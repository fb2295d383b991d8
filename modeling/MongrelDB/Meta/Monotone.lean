import MongrelDB.Meta.References

/-!
# What the meta records never take back

A decommissioned node, a finished schema job, a tablet's generation and the feature
level are meant to move one way only.
-/

namespace MongrelDB.Meta

open Lib Option
open Epoch (HlcTimestamp)
open Tablets (NodeId TabletId TabletDescriptor TabletRecord)

namespace MetaState

/-- The records after some commands. -/
def after (registry : FeatureRegistry) (st : MetaState) (entries : List Entry) : MetaState :=
  entries.foldl (fun st e => (st.apply e.command e.commandId e.commitTs registry).1) st

def Decommissioned (st : MetaState) (id : NodeId) : Prop :=
  (st.nodes[id]?).map (·.descriptor.state) = some .decommissioned
  deriving Decidable

/-- Between any two times of the run nothing is taken back. -/
structure Irrevocable (registry : FeatureRegistry) (st : MetaState) (entries : List Entry) :
    Prop where
  decommissioned : ∀ id : NodeId,
    Along (fun i => after registry st (entries.take i)) entries.length (fun s => id ∈ s.nodes)
      fun s s' => s.Decommissioned id → s'.Decommissioned id
  finished : ∀ (id : Nat) (job : SchemaJobRecord), job.state.isTerminal = true →
    Along (fun i => after registry st (entries.take i)) entries.length (fun _ => True)
      fun s s' => s.schemaJobs[id]? = some job → s'.schemaJobs[id]? = some job
  generation : ∀ id : TabletId,
    Along (fun i => after registry st (entries.take i)) entries.length (fun s => id ∈ s.tablets)
      fun s s' => ∀ d d', s.tablet id = some d → s'.tablet id = some d' →
        d.generation ≤ d'.generation
  featureLevel :
    Along (fun i => after registry st (entries.take i)) entries.length (fun _ => True)
      fun s s' => s.featureLevel ≤ s'.featureLevel

/-- The command registers a decommissioned node anew, and is accepted. -/
def Revives (st : MetaState) : MetaCommand → Prop
  | .registerNode d => d.nodeId ≠ 0 ∧ st.Decommissioned d.nodeId ∧ d.state ≠ .decommissioned ∧
      raftNodeId d.nodeId ∉ st.replicaRaftIds
  | _ => False

/-! ## One step -/

/-- What a step must not take back. -/
structure Keeps (s s' : MetaState) : Prop where
  finished : ∀ (id : Nat) (job : SchemaJobRecord), job.state.isTerminal = true →
    s.schemaJobs[id]? = some job → s'.schemaJobs[id]? = some job
  generation : ∀ (id : TabletId) (d d' : TabletDescriptor), s.tablet id = some d →
    s'.tablet id = some d' → d.generation ≤ d'.generation
  featureLevel : s.featureLevel ≤ s'.featureLevel

theorem Keeps.refl (s : MetaState) : Keeps s s := by
  refine ⟨fun id job _ h => h, fun id d d' h h' => ?_, le_rfl⟩
  obtain rfl : d = d' := some.inj (h.symm.trans h')
  exact le_rfl

variable {s s' : MetaState}

theorem Keeps.of_same (hjobs : s'.schemaJobs = s.schemaJobs)
    (htablets : s'.tablets = s.tablets) (hlevel : s'.featureLevel = s.featureLevel) :
    Keeps s s' := by
  have h := Keeps.refl s
  refine ⟨fun id job hterm hjob => hjobs ▸ hjob, ?_, hlevel ▸ le_rfl⟩
  intro id d d' hd hd'
  refine h.generation id d d' hd ?_
  rw [← hd', tablet, tablet, htablets]

theorem Writes.keeps {command : MetaCommand} (h : s.Writes command s') :
    Keeps s s' := by
  cases h with
  | nothing => exact .refl s
  | node | nodeState | noNode | database | noDatabase | table | placement | policy | setting
  | partition | raftIds => exact .of_same rfl rfl rfl
  | tablets hnew =>
    refine ⟨fun id job _ h => h, ?_, le_rfl⟩
    intro id d d' hd hd'
    obtain ⟨record, hrecord, rfl⟩ := map_eq_some_iff.mp hd'
    rcases hnew id record hrecord with hold | hnew
    · refine (Keeps.refl s).generation id d _ hd ?_
      rw [tablet, hold]
      rfl
    · exact Nat.le_of_lt (hnew.newer d hd)
  | @job job version _ _ hfresh =>
    refine ⟨?_, (Keeps.refl s).generation, le_rfl⟩
    intro id old _ hold
    have hne : job.jobId ≠ id := by
      rintro rfl
      cases hfresh.symm.trans hold
    rw [Std.TreeMap.getElem?_insert, if_neg (by simpa using hne)]
    exact hold
  | @jobState id' _ _ _ _ record _ hrecord hlive =>
    refine ⟨?_, (Keeps.refl s).generation, le_rfl⟩
    intro id old hterm hold
    have hne : id' ≠ id := by
      rintro rfl
      obtain rfl : record = old := some.inj (hrecord.symm.trans hold)
      rw [hterm] at hlive
      cases hlive
    rw [Std.TreeMap.getElem?_insert, if_neg (by simpa using hne)]
    exact hold
  | feature hlevel => exact ⟨fun id job _ h => h, (Keeps.refl s).generation, hlevel⟩

theorem Writes.decommissioned {command : MetaCommand}
    (h : s.Writes command s') (hrevives : ¬ s.Revives command) {id : NodeId}
    (hmem : id ∈ s'.nodes) (hid : s.Decommissioned id) : s'.Decommissioned id := by
  cases h with
  | nothing | database | noDatabase | table | tablets | placement | policy | job | jobState
  | setting | feature | partition | raftIds => exact hid
  | @node d version hzero hfree =>
    unfold Decommissioned
    rw [Std.TreeMap.getElem?_insert]
    split
    · next heq =>
      obtain rfl : d.nodeId = id := Std.LawfulEqOrd.eq_of_compare heq
      by_contra hstate
      exact hrevives ⟨hzero, hid, fun h => hstate (congrArg some h), hfree⟩
    · exact hid
  | @nodeState id' state _ record version hrecord hlive =>
    unfold Decommissioned
    rw [Std.TreeMap.getElem?_insert]
    split
    · next heq =>
      obtain rfl : id' = id := Std.LawfulEqOrd.eq_of_compare heq
      rw [Decommissioned, hrecord] at hid
      exact (hlive (some.inj hid)).elim
    · exact hid
  | @noNode id' _ =>
    unfold Decommissioned
    rw [Std.TreeMap.mem_erase] at hmem
    rw [Std.TreeMap.getElem?_erase, if_neg hmem.1]
    exact hid

/-- A revived node is no longer decommissioned, and the record is there. -/
theorem apply_revives {st : MetaState} {entry : Entry} (registry : FeatureRegistry)
    (h : st.Revives entry.command) :
    ∃ id : NodeId, id ∈ st.nodes ∧ st.Decommissioned id ∧
      id ∈ (st.apply entry.command entry.commandId entry.commitTs registry).1.nodes ∧
      ¬ (st.apply entry.command entry.commandId entry.commitTs registry).1.Decommissioned id := by
  obtain ⟨command, commandId, commitTs⟩ := entry
  cases command with
  | registerNode d =>
    obtain ⟨hzero, hdec, hstate, hfree⟩ := h
    obtain ⟨record, hrecord, hrstate⟩ := map_eq_some_iff.mp hdec
    have hdiffers : ¬ (st.nodes[d.nodeId]?.any fun existing => existing.descriptor = d) = true := by
      rw [hrecord]
      rintro h
      exact hstate (of_decide_eq_true h ▸ hrstate)
    have happly : (st.apply (.registerNode d) commandId commitTs registry).1.nodes =
        st.nodes.insert d.nodeId ⟨d, st.metadataVersion + 1⟩ := by
      have hfree' : raftNodeId d.nodeId ∉
          MetaState.replicaRaftIds { st with metadataVersion := st.metadataVersion + 1 } := hfree
      simp only [apply, dispatch, registerNode, if_neg hzero, if_neg hdiffers, if_neg hfree']
    refine ⟨d.nodeId, Std.TreeMap.mem_iff_isSome_getElem?.mpr (hrecord ▸ rfl), hdec, ?_, ?_⟩
    · rw [happly]
      exact Std.TreeMap.mem_insert_self
    · unfold Decommissioned
      rw [happly, Std.TreeMap.getElem?_insert_self]
      exact fun h => hstate (some.inj h)
  | _ => exact h.elim

/-! ## A run -/

theorem after_take_succ (registry : FeatureRegistry) (st : MetaState) (entries : List Entry)
    {i : Nat} (hi : i < entries.length) :
    after registry st (entries.take (i + 1)) =
      ((after registry st (entries.take i)).apply entries[i].command entries[i].commandId
        entries[i].commitTs registry).1 := by
  rw [List.take_succ_eq_append_getElem hi, after, List.foldl_append]
  rfl

/-- Nothing is taken back exactly when no step registers a decommissioned node anew. -/
theorem irrevocable_iff (registry : FeatureRegistry) (st : MetaState) (entries : List Entry) :
    Irrevocable registry st entries ↔
      ∀ i (hi : i < entries.length),
        ¬ (after registry st (entries.take i)).Revives entries[i].command := by
  constructor
  · intro h i hi hrevives
    obtain ⟨id, hmem, hdec, hmem', hlost⟩ := apply_revives registry hrevives
    rw [← after_take_succ registry st entries hi] at hmem' hlost
    have hstep := (along_iff (fun s h => h) (fun a b c _ hab hbc ha => hbc (hab ha))).mp
      (h.decommissioned id) i hi hmem hmem'
    exact hlost (hstep hdec)
  · intro h
    -- what each step does, whatever the command
    have hwrites : ∀ i (hi : i < entries.length), ∃ st' rejections,
        Writes { after registry st (entries.take i) with
          metadataVersion := (after registry st (entries.take i)).metadataVersion + 1 }
          entries[i].command st' ∧
        after registry st (entries.take (i + 1)) = { st' with rejections } := by
      intro i hi
      rw [after_take_succ registry st entries hi]
      exact apply_writes _ _ _ _ _
    have hkeeps : ∀ i < entries.length, Keeps (after registry st (entries.take i))
        (after registry st (entries.take (i + 1))) := by
      intro i hi
      obtain ⟨st', rejections, hw, heq⟩ := hwrites i hi
      rw [heq]
      exact ⟨hw.keeps.finished, hw.keeps.generation, hw.keeps.featureLevel⟩
    refine ⟨fun id => ?_, fun id job hterm => ?_, fun id => ?_, ?_⟩
    · refine (along_iff (fun s h => h) (fun a b c _ hab hbc ha => hbc (hab ha))).mpr ?_
      intro i hi _ hmem' hdec
      obtain ⟨st', rejections, hw, heq⟩ := hwrites i hi
      simp only [heq] at hmem' ⊢
      exact hw.decommissioned (h i hi) hmem' hdec
    · refine (along_iff (fun s h => h) (fun a b c _ hab hbc ha => hbc (hab ha))).mpr ?_
      exact fun i hi _ _ => (hkeeps i hi).finished id job hterm
    · refine (along_iff (fun s => (Keeps.refl s).generation id) ?_).mpr ?_
      · intro a b c hb hab hbc d d' hd hd'
        obtain ⟨record, hrecord⟩ :=
          isSome_iff_exists.mp (Std.TreeMap.mem_iff_isSome_getElem?.mp hb)
        have hmid : b.tablet id = some record.descriptor := by rw [tablet, hrecord]; rfl
        exact Nat.le_trans (hab d _ hd hmid) (hbc _ d' hmid hd')
      · exact fun i hi _ _ => (hkeeps i hi).generation id
    · refine (along_iff (R := fun (s s' : MetaState) => s.featureLevel ≤ s'.featureLevel)
        (fun s => le_rfl) fun a b c _ => Nat.le_trans).mpr ?_
      exact fun i hi _ _ => (hkeeps i hi).featureLevel

/-- A node comes up, is decommissioned, and registers once more. -/
theorem decommissioned_node_back :
    ¬ Irrevocable [] {} [.unnamed (.registerNode (.bare 1 .up)),
      .unnamed (.updateNodeState 1 .decommissioned none),
      .unnamed (.registerNode (.bare 1 .up))] := by
  intro h
  have h := h.decommissioned 1 2 3 (by omega) (by simp)
  revert h
  decide +kernel

end MetaState

end MongrelDB.Meta
