import MongrelDB.Lib.Handover
import MongrelDB.Tablets.Meta

/-!
# Publications keep the routing intact

A request for a key of a table goes to a routable tablet of the table whose
bounds contain the key. A publication takes keys away from some tablets and gives
them to others in one command.
-/

namespace MongrelDB.Tablets

open Lib List
open Option hiding mem_map mem_map_of_mem

variable {st : MetaState}

/-- A request for `key` of `table` may be routed to the tablet. -/
def TabletDescriptor.Serves (d : TabletDescriptor) (table : TableId) (key : Key) : Prop :=
  d.tableId = table ∧ d.state.isRoutable = true ∧ d.partition.contains key = true
  deriving Decidable

namespace MetaState

/-- The stored tablet `id` serves `key` of `table`. -/
def Routes (st : MetaState) (table : TableId) (id : TabletId) (key : Key) : Prop :=
  ∃ d, st.tablet id = some d ∧ d.Serves table key

theorem routes_iff {table : TableId} {id : TabletId} {key : Key}
    {d : TabletDescriptor} (h : st.tablet id = some d) :
    st.Routes table id key ↔ d.Serves table key := by
  rw [Routes, h]
  simp only [some.injEq, exists_eq_left']

/-! ## Reading after a write -/

theorem tablet_congr {st st' : MetaState} (h : st'.tablets = st.tablets) (id : TabletId) :
    st'.tablet id = st.tablet id := by
  unfold tablet
  rw [h]

theorem put_tablets (st : MetaState) (version : Nat) (d : TabletDescriptor) (id : TabletId) :
    (st.put version d).tablets[id]? =
      if d.tabletId = id then some ⟨d, version⟩ else st.tablets[id]? := by
  unfold put
  rw [Std.TreeMap.getElem?_insert]
  simp

theorem putAll_tablets (st : MetaState) (version : Nat) :
    ∀ {ds : List TabletDescriptor}, (ds.map (·.tabletId)).Nodup → ∀ id : TabletId,
      (∀ d ∈ ds, d.tabletId = id → (st.putAll version ds).tablets[id]? = some ⟨d, version⟩) ∧
        (id ∉ ds.map (·.tabletId) → (st.putAll version ds).tablets[id]? = st.tablets[id]?) := by
  intro ds
  induction ds generalizing st with
  | nil => exact fun _ id => ⟨fun d hd => (not_mem_nil hd).elim, fun _ => rfl⟩
  | cons e ds ih =>
    intro hnodup id
    rw [map_cons, nodup_cons] at hnodup
    have hrest := ih (st.put version e) hnodup.2 id
    refine ⟨?_, ?_⟩
    · rintro d hd rfl
      rcases mem_cons.mp hd with rfl | hd
      · exact (hrest.2 hnodup.1).trans (by rw [put_tablets, if_pos rfl])
      · exact hrest.1 d hd rfl
    · intro hid
      rw [map_cons, mem_cons, not_or] at hid
      exact (hrest.2 hid.2).trans (by rw [put_tablets, if_neg (Ne.symm hid.1)])

end MetaState

/-! ## What a fresh publication has checked -/

/-- `olds` give up their keys to `news`, all of `table`. -/
structure Swap (st : MetaState) (table : TableId) (olds news : List TabletDescriptor) :
    Prop where
  distinct : ((news ++ olds).map (·.tabletId)).Nodup
  old : ∀ d ∈ olds, d.tableId = table ∧ d.state.isRoutable = false ∧
    ∃ stored, st.tablet d.tabletId = some stored ∧ stored.tableId = table ∧
      stored.state.isRoutable = true ∧ stored.partition = d.partition ∧
      stored.generation < d.generation
  new : ∀ d ∈ news, d.tableId = table ∧ d.state.isRoutable = true ∧
    ∃ stored, st.tablet d.tabletId = some stored ∧ stored.tableId = table ∧
      stored.state.isRoutable = false ∧ stored.generation < d.generation
  same : ∀ key, (∃ d ∈ news, d.partition.contains key = true) ↔
    ∃ d ∈ olds, d.partition.contains key = true
  apart : ∀ key, ∀ d ∈ news, ∀ d' ∈ news, d.partition.contains key = true →
    d'.partition.contains key = true → d = d'

theorem requireStoredPrecursor_spec {published : TabletDescriptor}
    {state : TabletState} {generation : Nat} {promoted : Bool}
    (h : st.requireStoredPrecursor published state generation promoted = .ok ()) :
    ∃ stored, (st.tablet published.tabletId = some stored ∧
        published.replicas.map (·.nodeId) = stored.replicas.map (·.nodeId)) ∧
      stored.state = state ∧ stored.generation = generation ∧
      stored.tableId = published.tableId ∧ stored.partition = published.partition := by
  simp only [MetaState.requireStoredPrecursor, bind_eq_ok, orElseFail_eq_ok, ensure_eq_ok] at h
  obtain ⟨stored, hstored, hstate, hgen, hpre⟩ := h
  refine ⟨stored, ⟨hstored, ?_⟩, hstate, hgen, ?_⟩ <;> rw [← hpre] <;> cases promoted
  · rfl
  · simp [TabletDescriptor.promoted, Function.comp_def]
  all_goals exact ⟨rfl, rfl⟩

theorem requireMergingPrecursor_spec {source : TabletDescriptor} {publish : Nat}
    (h : st.requireMergingPrecursor source publish = .ok ()) :
    ∃ stored, (st.tablet source.tabletId = some stored ∧
        source.replicas.map (·.nodeId) = stored.replicas.map (·.nodeId)) ∧
      stored.state = .merging ∧ stored.generation < publish ∧
      stored.tableId = source.tableId ∧ stored.partition = source.partition := by
  simp only [MetaState.requireMergingPrecursor, bind_eq_ok, orElseFail_eq_ok, ensure_eq_ok] at h
  obtain ⟨stored, hstored, hstate, hgen, hpre⟩ := h
  refine ⟨stored, ⟨hstored, ?_⟩, hstate, hgen, ?_⟩ <;> rw [← hpre]
  exact ⟨rfl, rfl⟩

theorem SplitPublishCommand.validate_spec {command : SplitPublishCommand}
    (h : command.validate = .ok ()) :
    command.source.state = .retiring ∧
      (∀ child ∈ [command.children.1, command.children.2], child.state = .active ∧
        child.generation = command.source.generation ∧
        child.tableId = command.source.tableId) ∧
      command.source.partition.splitAt command.splitKey =
        some (command.children.1.partition, command.children.2.partition) ∧
      ([command.children.1, command.children.2, command.source].map (·.tabletId)).Nodup := by
  simp only [validate, validateChild, bind_eq_ok, mapError_eq_ok, ensure_eq_ok,
    orElseFail_eq_ok] at h
  obtain ⟨_, hsource, _, ⟨_, hstate₁, _, hgen₁, _, htable₁, -⟩, _,
    ⟨_, hstate₂, _, hgen₂, _, htable₂, -⟩, _, -, ⟨lower, upper⟩, hsplit, _, ⟨hlower, hupper⟩,
    hids⟩ := h
  refine ⟨hsource, ?_, by rw [hsplit, hlower, hupper], by simpa [and_assoc] using hids⟩
  simp only [mem_cons, not_mem_nil, or_false]
  rintro child (rfl | rfl)
  · exact ⟨hstate₁, hgen₁, htable₁⟩
  · exact ⟨hstate₂, hgen₂, htable₂⟩

theorem MergePublishCommand.validate_spec {command : MergePublishCommand}
    (h : command.validate = .ok ()) :
    command.replacement.state = .active ∧
      (∀ source ∈ [command.sources.1, command.sources.2], source.state = .retiring ∧
        source.generation = command.replacement.generation ∧
        source.tableId = command.replacement.tableId ∧
        source.partition.validate = .ok ()) ∧
      command.sources.1.partition.unionAdjacent command.sources.2.partition =
        some command.replacement.partition ∧
      ([command.replacement, command.sources.1, command.sources.2].map (·.tabletId)).Nodup := by
  simp only [validate, validateSource, bind_eq_ok, mapError_eq_ok, ensure_eq_ok,
    orElseFail_eq_ok] at h
  obtain ⟨_, hstate, _, ⟨_, hstate₁, _, hgen₁, _, htable₁, hvalid₁⟩, _,
    ⟨_, hstate₂, _, hgen₂, _, htable₂, hvalid₂⟩, _, -, union, hunion, _, rfl, hids⟩ := h
  refine ⟨hstate, ?_, hunion, ?_⟩
  · simp only [mem_cons, not_mem_nil, or_false]
    rintro source (rfl | rfl)
    · exact ⟨hstate₁, hgen₁, htable₁, TabletDescriptor.partition_valid hvalid₁⟩
    · exact ⟨hstate₂, hgen₂, htable₂, TabletDescriptor.partition_valid hvalid₂⟩
  · obtain ⟨h12, h1, h2⟩ := hids
    simp [h12, Ne.symm h1, Ne.symm h2]

theorem checkSplitPublish_fresh {command : SplitPublishCommand}
    (h : st.checkSplitPublish command = .ok .fresh) :
    Swap st command.source.tableId [command.source] [command.children.1, command.children.2] := by
  simp only [MetaState.checkSplitPublish, bind_eq_ok, mapError_eq_ok] at h
  obtain ⟨_, hvalid, _, -, h⟩ := h
  split at h
  · cases h
  simp only [bind_eq_ok, ensure_eq_ok] at h
  obtain ⟨_, hpos, _, hsource, _, hchild₁, _, hchild₂, -⟩ := h
  obtain ⟨hretiring, hchildren, hsplit, hids⟩ := SplitPublishCommand.validate_spec hvalid
  have hnew : ∀ child ∈ [command.children.1, command.children.2],
      st.requireStoredPrecursor child .creating (command.publishGeneration - 1) true = .ok () := by
    simpa using ⟨hchild₁, hchild₂⟩
  refine ⟨hids, ?_, ?_, ?_, ?_⟩
  · intro d hd
    obtain rfl := mem_singleton.mp hd
    obtain ⟨stored, ⟨hstored, -⟩, hstate, hgen, htable, hpart⟩ :=
      requireStoredPrecursor_spec hsource
    refine ⟨rfl, by rw [hretiring]; rfl, stored, hstored, htable, by rw [hstate]; rfl, hpart, ?_⟩
    rw [hgen, SplitPublishCommand.publishGeneration]
    exact Nat.sub_one_lt hpos
  · intro d hd
    obtain ⟨hactive, hdgen, hdtable⟩ := hchildren d hd
    obtain ⟨stored, ⟨hstored, -⟩, hstate, hgen, htable, -⟩ :=
      requireStoredPrecursor_spec (hnew d hd)
    refine ⟨hdtable, by rw [hactive]; rfl, stored, hstored, htable.trans hdtable,
      by rw [hstate]; rfl, ?_⟩
    rw [hgen, hdgen, SplitPublishCommand.publishGeneration]
    exact Nat.sub_one_lt hpos
  · intro key
    simpa using (PartitionBounds.splitAt_contains hsplit key).symm
  · intro key
    exact PartitionBounds.eq_of_apart (PartitionBounds.splitAt_disjoint hsplit key)

theorem checkMergePublish_fresh {command : MergePublishCommand}
    (h : st.checkMergePublish command = .ok .fresh) :
    Swap st command.replacement.tableId [command.sources.1, command.sources.2]
      [command.replacement] := by
  simp only [MetaState.checkMergePublish, bind_eq_ok, mapError_eq_ok] at h
  obtain ⟨_, hvalid, _, -, h⟩ := h
  split at h
  · cases h
  simp only [bind_eq_ok, ensure_eq_ok] at h
  obtain ⟨_, hpos, _, hreplacement, _, hsource₁, _, hsource₂, -⟩ := h
  obtain ⟨hactive, hsources, hunion, hids⟩ := MergePublishCommand.validate_spec hvalid
  have hold : ∀ source ∈ [command.sources.1, command.sources.2],
      st.requireMergingPrecursor source command.publishGeneration = .ok () := by
    simpa using ⟨hsource₁, hsource₂⟩
  refine ⟨hids, ?_, ?_, ?_, ?_⟩
  · intro d hd
    obtain ⟨hretiring, hdgen, hdtable, -⟩ := hsources d hd
    obtain ⟨stored, ⟨hstored, -⟩, hstate, hgen, htable, hpart⟩ :=
      requireMergingPrecursor_spec (hold d hd)
    exact ⟨hdtable, by rw [hretiring]; rfl, stored, hstored, htable.trans hdtable,
      by rw [hstate]; rfl, hpart, by rw [hdgen]; exact hgen⟩
  · intro d hd
    obtain rfl := mem_singleton.mp hd
    obtain ⟨stored, ⟨hstored, -⟩, hstate, hgen, htable, -⟩ :=
      requireStoredPrecursor_spec hreplacement
    refine ⟨rfl, by rw [hactive]; rfl, stored, hstored, htable, by rw [hstate]; rfl, ?_⟩
    rw [hgen, MergePublishCommand.publishGeneration]
    exact Nat.sub_one_lt hpos
  · intro key
    have hvalid₁ := (hsources command.sources.1 (by simp)).2.2.2
    have hvalid₂ := (hsources command.sources.2 (by simp)).2.2.2
    simpa using PartitionBounds.unionAdjacent_contains hvalid₁ hvalid₂ hunion key
  · intro key d hd d' hd' _ _
    rw [mem_singleton.mp hd, mem_singleton.mp hd']

/-! ## What a fresh publication does -/

namespace Swap

variable {st : MetaState} {table : TableId} {olds news : List TabletDescriptor}

variable (h : Swap st table olds news) (version : Nat)
include h

/-- Afterwards every participant is stored as the command has it. -/
theorem stored_after {d : TabletDescriptor}
    (hd : d ∈ news ++ olds) : (st.putAll version (news ++ olds)).tablet d.tabletId = some d := by
  unfold MetaState.tablet
  rw [(st.putAll_tablets version h.distinct d.tabletId).1 d hd rfl]
  rfl

theorem untouched {id : TabletId} (hid : id ∉ (news ++ olds).map (·.tabletId)) :
    (st.putAll version (news ++ olds)).tablets[id]? = st.tablets[id]? :=
  (st.putAll_tablets version h.distinct id).2 hid

omit version in
/-- Before, every participant was stored under the same table with a lower generation. -/
theorem precursor {d : TabletDescriptor} (hd : d ∈ news ++ olds) : d.tableId = table ∧
    ∃ stored, st.tablet d.tabletId = some stored ∧ stored.tableId = table ∧
      stored.generation < d.generation := by
  rcases mem_append.mp hd with hnew | hold
  · obtain ⟨hdtable, -, stored, hstored, htable, -, hgen⟩ := h.new d hnew
    exact ⟨hdtable, stored, hstored, htable, hgen⟩
  · obtain ⟨hdtable, -, stored, hstored, htable, -, -, hgen⟩ := h.old d hold
    exact ⟨hdtable, stored, hstored, htable, hgen⟩

/-- A tablet whose record changes was stored before, with a lower generation. -/
theorem generation_lt {id : TabletId}
    (hid : (st.putAll version (news ++ olds)).tablets[id]? ≠ st.tablets[id]?) :
    ∃ stored d, st.tablet id = some stored ∧
      (st.putAll version (news ++ olds)).tablet id = some d ∧
      stored.generation < d.generation := by
  by_cases hmem : id ∈ (news ++ olds).map (·.tabletId)
  · obtain ⟨d, hd, rfl⟩ := mem_map.mp hmem
    obtain ⟨-, stored, hstored, -, hgen⟩ := h.precursor hd
    exact ⟨stored, d, hstored, h.stored_after version hd, hgen⟩
  · exact absurd (h.untouched version hmem) hid

theorem routes_participant (key : Key) :
    (∀ d ∈ olds, (st.Routes table d.tabletId key ↔ d.partition.contains key = true) ∧
      ¬ (st.putAll version (news ++ olds)).Routes table d.tabletId key) ∧
    (∀ d ∈ news, ¬ st.Routes table d.tabletId key ∧
      ((st.putAll version (news ++ olds)).Routes table d.tabletId key ↔
        d.partition.contains key = true)) := by
  refine ⟨fun d hd => ?_, fun d hd => ?_⟩
  · obtain ⟨-, hidle, stored, hstored, htable, hroutable, hpart, -⟩ := h.old d hd
    rw [MetaState.routes_iff hstored,
      MetaState.routes_iff (h.stored_after version (mem_append_right news hd))]
    simp [TabletDescriptor.Serves, htable, hroutable, hpart, hidle]
  · obtain ⟨hdtable, hroutable, stored, hstored, -, hidle, -⟩ := h.new d hd
    rw [MetaState.routes_iff hstored,
      MetaState.routes_iff (h.stored_after version (mem_append_left olds hd))]
    simp [TabletDescriptor.Serves, hdtable, hroutable, hidle]

theorem routes_untouched {id : TabletId}
    (hid : id ∉ (news ++ olds).map (·.tabletId)) (table' : TableId) (key : Key) :
    (st.putAll version (news ++ olds)).Routes table' id key ↔ st.Routes table' id key := by
  unfold MetaState.Routes MetaState.tablet
  rw [h.untouched version hid]

theorem handover :
    Handover (fun id => id ∈ (news ++ olds).map (·.tabletId)) (st.Routes table)
      ((st.putAll version (news ++ olds)).Routes table) := by
  have hparticipant := h.routes_participant version
  -- a participant serves a key after when it is a new one that contains it, before when an old
  have hafter : ∀ key id, id ∈ (news ++ olds).map (·.tabletId) →
      (st.putAll version (news ++ olds)).Routes table id key →
      ∃ d ∈ news, d.tabletId = id ∧ d.partition.contains key = true := by
    intro key id hid hroutes
    obtain ⟨d, hd, rfl⟩ := mem_map.mp hid
    rcases mem_append.mp hd with hnew | hold
    · exact ⟨d, hnew, rfl, ((hparticipant key).2 d hnew).2.mp hroutes⟩
    · exact absurd hroutes ((hparticipant key).1 d hold).2
  have hbefore : ∀ key id, id ∈ (news ++ olds).map (·.tabletId) → st.Routes table id key →
      ∃ d ∈ olds, d.tabletId = id ∧ d.partition.contains key = true := by
    intro key id hid hroutes
    obtain ⟨d, hd, rfl⟩ := mem_map.mp hid
    rcases mem_append.mp hd with hnew | hold
    · exact absurd hroutes ((hparticipant key).2 d hnew).1
    · exact ⟨d, hold, rfl, ((hparticipant key).1 d hold).1.mp hroutes⟩
  refine ⟨fun id hid key => h.routes_untouched version hid table key, fun key => ⟨?_, ?_⟩, ?_⟩
  · rintro ⟨id, hid, hroutes⟩
    obtain ⟨d, hd, -, hkey⟩ := hafter key id hid hroutes
    obtain ⟨o, ho, hokey⟩ := (h.same key).mp ⟨d, hd, hkey⟩
    exact ⟨o.tabletId, mem_map_of_mem (mem_append_right news ho),
      ((hparticipant key).1 o ho).1.mpr hokey⟩
  · rintro ⟨id, hid, hroutes⟩
    obtain ⟨d, hd, -, hkey⟩ := hbefore key id hid hroutes
    obtain ⟨n, hn, hnkey⟩ := (h.same key).mpr ⟨d, hd, hkey⟩
    exact ⟨n.tabletId, mem_map_of_mem (mem_append_left olds hn),
      ((hparticipant key).2 n hn).2.mpr hnkey⟩
  · intro key id id' hid hid' hroutes hroutes'
    obtain ⟨d, hd, rfl, hkey⟩ := hafter key id hid hroutes
    obtain ⟨d', hd', rfl, hkey'⟩ := hafter key id' hid' hroutes'
    rw [h.apart key d hd d' hd' hkey hkey']

/-- Participants belong to one table, so the routing of the others is as before. -/
theorem routes_other {table' : TableId} (hne : table' ≠ table) :
    (st.putAll version (news ++ olds)).Routes table' = st.Routes table' := by
  funext id key
  refine propext ?_
  by_cases hid : id ∈ (news ++ olds).map (·.tabletId)
  · obtain ⟨d, hd, rfl⟩ := mem_map.mp hid
    obtain ⟨hdtable, stored, hstored, htable, -⟩ := h.precursor hd
    rw [MetaState.routes_iff (h.stored_after version hd), MetaState.routes_iff hstored]
    exact iff_of_false (fun hserves => hne (hserves.1.symm.trans hdtable))
      fun hserves => hne (hserves.1.symm.trans htable)
  · exact h.routes_untouched version hid table' key

end Swap

/-! ## Applying a publication -/

/-- The two commands that publish. -/
inductive Publication where
  | split (command : SplitPublishCommand)
  | merge (command : MergePublishCommand)
  deriving DecidableEq, Repr

variable {p : Publication}

namespace Publication

def command : Publication → MetaCommand
  | split command => .publishSplit command
  | merge command => .publishMerge command

def table : Publication → TableId
  | split command => command.source.tableId
  | merge command => command.replacement.tableId

/-- The descriptors that give up their keys. -/
def olds : Publication → List TabletDescriptor
  | split command => [command.source]
  | merge command => [command.sources.1, command.sources.2]

/-- The descriptors that take over. -/
def news : Publication → List TabletDescriptor
  | split command => [command.children.1, command.children.2]
  | merge command => [command.replacement]

def check (st : MetaState) : Publication → Except MetaRejectionReason Verdict
  | split command => st.checkSplitPublish command
  | merge command => st.checkMergePublish command

/-- The publication passes its structural validation. -/
def Valid : Publication → Prop
  | split command => command.validate = .ok ()
  | merge command => command.validate = .ok ()

/-- The publication's descriptors are the stored ones. -/
def Stored (st : MetaState) (p : Publication) : Prop :=
  ∀ d ∈ p.news ++ p.olds, st.tablet d.tabletId = some d

theorem check_ok {v : Verdict} (h : p.check st = .ok v) :
    p.Valid ∧ p.table ∈ st.tables ∧ (v = .replay → p.Stored st) := by
  cases p with
  | split command =>
    simp only [check, MetaState.checkSplitPublish, bind_eq_ok, mapError_eq_ok, ensure_eq_ok] at h
    obtain ⟨_, hvalid, _, htable, h⟩ := h
    refine ⟨hvalid, htable, ?_⟩
    rintro rfl
    split at h
    · next hstored =>
      obtain ⟨hsource, hchild₁, hchild₂⟩ := hstored
      simpa [Stored, news, olds] using ⟨hchild₁, hchild₂, hsource⟩
    · simp only [bind_eq_ok] at h
      obtain ⟨_, -, _, -, _, -, _, -, _, -, _, -, h⟩ := h
      cases h
  | merge command =>
    simp only [check, MetaState.checkMergePublish, bind_eq_ok, mapError_eq_ok, ensure_eq_ok] at h
    obtain ⟨_, hvalid, _, htable, h⟩ := h
    refine ⟨hvalid, htable, ?_⟩
    rintro rfl
    split at h
    · next hstored => simpa [Stored, news, olds] using hstored
    · simp only [bind_eq_ok] at h
      obtain ⟨_, -, _, -, _, -, _, -, _, -, h⟩ := h
      cases h

theorem check_of_stored (hvalid : p.Valid)
    (htable : p.table ∈ st.tables) (hstored : p.Stored st) : p.check st = .ok .replay := by
  cases p with
  | split command =>
    have h : st.tablet command.source.tabletId = some command.source ∧
        st.tablet command.children.1.tabletId = some command.children.1 ∧
        st.tablet command.children.2.tabletId = some command.children.2 := by
      obtain ⟨hchild₁, hchild₂, hsource⟩ : _ ∧ _ ∧ _ := by simpa [Stored, news, olds] using hstored
      exact ⟨hsource, hchild₁, hchild₂⟩
    simp only [check, MetaState.checkSplitPublish, bind_eq_ok, mapError_eq_ok, ensure_eq_ok]
    refine ⟨(), hvalid, (), htable, ?_⟩
    rw [if_pos h]
    rfl
  | merge command =>
    have h : st.tablet command.replacement.tabletId = some command.replacement ∧
        st.tablet command.sources.1.tabletId = some command.sources.1 ∧
        st.tablet command.sources.2.tabletId = some command.sources.2 := by
      simpa [Stored, news, olds] using hstored
    simp only [check, MetaState.checkMergePublish, bind_eq_ok, mapError_eq_ok, ensure_eq_ok]
    refine ⟨(), hvalid, (), htable, ?_⟩
    rw [if_pos h]
    rfl

theorem check_fresh (h : p.check st = .ok .fresh) :
    Swap st p.table p.olds p.news := by
  cases p with
  | split command => exact checkSplitPublish_fresh h
  | merge command => exact checkMergePublish_fresh h

end Publication

namespace MetaState

theorem putAll_fields (st : MetaState) (version : Nat) (ds : List TabletDescriptor) :
    (st.putAll version ds).tables = st.tables ∧
      (st.putAll version ds).metadataVersion = st.metadataVersion := by
  induction ds generalizing st with
  | nil => exact ⟨rfl, rfl⟩
  | cons d ds ih => exact ih (st.put version d)

theorem dispatch_publication (st : MetaState) (p : Publication) (version : Nat) :
    st.dispatch p.command version = match p.check st with
      | .error e => (st, .error e)
      | .ok .replay => (st, .ok ())
      | .ok .fresh => (st.putAll version (p.news ++ p.olds), .ok ()) := by
  cases p <;> rfl

/-- The state in which the command is dispatched: the version has ticked. -/
def ticked (st : MetaState) : MetaState := { st with metadataVersion := st.metadataVersion + 1 }

theorem apply_of_ok {st next : MetaState} {command : MetaCommand}
    (h : st.ticked.dispatch command (st.metadataVersion + 1) = (next, .ok ()))
    (commandId : Option CommandId) : st.apply command commandId = (next, .ok ()) := by
  unfold ticked at h
  unfold apply
  dsimp only
  rw [h]

theorem apply_of_error {st next : MetaState} {command : MetaCommand} {e : MetaRejectionReason}
    (h : st.ticked.dispatch command (st.metadataVersion + 1) = (next, .error e))
    (commandId : Option CommandId) :
    st.apply command commandId = (next.reject commandId e, .error e) := by
  unfold ticked at h
  unfold apply
  dsimp only
  rw [h]

theorem apply_publication_cases {st st' : MetaState}
    {commandId : Option CommandId} {result : Except MetaRejectionReason Unit}
    (h : st.apply p.command commandId = (st', result)) :
    (∃ e, p.check st = .error e ∧ result = .error e ∧ st'.tablets = st.tablets) ∨
      (p.check st = .ok .replay ∧ result = .ok () ∧ st' = st.ticked) ∨
      (p.check st = .ok .fresh ∧ result = .ok () ∧
        st' = st.ticked.putAll (st.metadataVersion + 1) (p.news ++ p.olds)) := by
  have hcheck : p.check st.ticked = p.check st := by cases p <;> rfl
  have hdispatch := dispatch_publication st.ticked p (st.metadataVersion + 1)
  rw [hcheck] at hdispatch
  cases hverdict : p.check st with
  | error e =>
    rw [hverdict] at hdispatch
    cases (apply_of_error hdispatch commandId).symm.trans h
    exact .inl ⟨e, rfl, rfl, rfl⟩
  | ok v =>
    rw [hverdict] at hdispatch
    cases v with
    | replay =>
      cases (apply_of_ok hdispatch commandId).symm.trans h
      exact .inr (.inl ⟨rfl, rfl, rfl⟩)
    | fresh =>
      cases (apply_of_ok hdispatch commandId).symm.trans h
      exact .inr (.inr ⟨rfl, rfl, rfl⟩)

end MetaState

/-- The routable tablets of each table share no key. -/
def MetaState.RoutingExclusive (st : MetaState) : Prop := ∀ table, Exclusive (st.Routes table)

theorem Swap.ticked {table : TableId} {olds news : List TabletDescriptor}
    (h : Swap st table olds news) : Swap st.ticked table olds news :=
  ⟨h.distinct, h.old, h.new, h.same, h.apart⟩

/-- A publication whose descriptors are stored changes no record. -/
theorem MetaState.apply_stored (hvalid : p.Valid)
    (htable : p.table ∈ st.tables) (hstored : p.Stored st) (commandId : Option CommandId) :
    (st.apply p.command commandId).1.tablets = st.tablets := by
  have hcheck := Publication.check_of_stored hvalid htable hstored
  rcases apply_publication_cases (Prod.mk.eta (p := st.apply p.command commandId)).symm with
    ⟨e, -, -, htablets⟩ | ⟨-, -, hst⟩ | ⟨hfresh, -⟩
  · exact htablets
  · rw [hst]
    rfl
  · rw [hcheck] at hfresh
    cases hfresh

/-- In every meta state whose routable tablets share no key, for every publication: accepted,
it keeps them disjoint, covers the same keys in every table, stores all its descriptors, each
with a raised generation unless all were stored before, touches no other tablet without raising
its generation, and changes nothing when applied again; refused, it changes no record. -/
theorem publish_keeps_routing (st st' : MetaState) (p : Publication)
    (commandId : Option CommandId) (result : Except MetaRejectionReason Unit)
    (hst : st.RoutingExclusive) (h : st.apply p.command commandId = (st', result)) :
    (result = .ok () →
      st'.RoutingExclusive ∧
      (∀ table, covered (st'.Routes table) = covered (st.Routes table)) ∧
      p.Stored st' ∧
      (¬ p.Stored st → ∀ d ∈ p.news ++ p.olds, ∃ before,
        st.tablet d.tabletId = some before ∧ before.generation < d.generation) ∧
      (∀ id : TabletId, st'.tablets[id]? ≠ st.tablets[id]? → ∃ before after,
        st.tablet id = some before ∧ st'.tablet id = some after ∧
          before.generation < after.generation) ∧
      (∀ (commandId' : Option CommandId) (id : TabletId),
        (st'.apply p.command commandId').1.tablets[id]? = st'.tablets[id]?)) ∧
    ((∃ reason, result = .error reason) →
      ∀ id : TabletId, st'.tablets[id]? = st.tablets[id]?) := by
  rcases MetaState.apply_publication_cases h with
    ⟨e, -, rfl, htablets⟩ | ⟨hcheck, rfl, rfl⟩ | ⟨hcheck, rfl, rfl⟩
  · exact ⟨fun hok => (by cases hok), fun _ id => by rw [htablets]⟩
  · -- the command had been applied before: only the version has moved
    obtain ⟨hvalid, htable, hstored⟩ := Publication.check_ok hcheck
    have hstored' : p.Stored st.ticked := hstored rfl
    have htable' : p.table ∈ st.ticked.tables := htable
    refine ⟨fun _ => ⟨hst, fun _ => rfl, hstored', fun hnot => absurd (hstored rfl) hnot,
      fun id hid => absurd rfl hid, fun _ id => ?_⟩, ?_⟩
    · rw [MetaState.apply_stored hvalid htable' hstored']
    · rintro ⟨_, ⟨⟩⟩
  · obtain ⟨hvalid, htable, -⟩ := Publication.check_ok hcheck
    have hswap : Swap st.ticked p.table p.olds p.news := (Publication.check_fresh hcheck).ticked
    have hroutes : st.ticked.Routes = st.Routes := rfl
    refine ⟨fun _ => ⟨fun table => ?_, fun table => ?_, fun d hd => hswap.stored_after _ hd,
      fun _ d hd => ?_, fun id hid => ?_, fun _ id => ?_⟩, ?_⟩
    · by_cases htab : table = p.table
      · subst htab
        exact (hswap.handover _).exclusive (hst _)
      · rw [hswap.routes_other _ htab]
        exact hst table
    · by_cases htab : table = p.table
      · subst htab
        exact (hswap.handover _).covered_eq
      · rw [hswap.routes_other _ htab, hroutes]
    · obtain ⟨-, before, hbefore, -, hgen⟩ := hswap.precursor hd
      exact ⟨before, hbefore, hgen⟩
    · exact hswap.generation_lt _ hid
    · rw [MetaState.apply_stored hvalid _ (fun d hd => hswap.stored_after _ hd)]
      rw [(MetaState.putAll_fields _ _ _).1]
      exact htable
    · rintro ⟨_, ⟨⟩⟩

def splitKey : Key := ⟨[5]⟩

def lowerHalf : PartitionBounds Key := { low := .unbounded, high := .excluded splitKey }

def upperHalf : PartitionBounds Key := { low := .included splitKey, high := .unbounded }

def splittingSource : TabletDescriptor where
  tabletId := 10
  tableId := 1
  databaseId := 0
  raftGroupId := 10
  partition := .unbounded
  replicas := [⟨1, .voter, 1⟩]
  leaderHint := none
  generation := 2
  state := .splitting

def hiddenChild (id : TabletId) (bounds : PartitionBounds Key) : TabletDescriptor where
  tabletId := id
  tableId := 1
  databaseId := 0
  raftGroupId := id
  partition := bounds
  replicas := [⟨1, .learner, 1⟩]
  leaderHint := none
  generation := 2
  state := .creating

def splitCommand : SplitPublishCommand where
  source := { splittingSource with generation := 3, state := .retiring }
  children :=
    ({ (hiddenChild 11 lowerHalf).promoted with generation := 3, state := .active },
      { (hiddenChild 12 upperHalf).promoted with generation := 3, state := .active })
  splitKey := splitKey
  splitTs := ⟨0, 0, 0⟩

/-- A table of one tablet, in the middle of its split at the key 5. -/
def splittingMeta : MetaState where
  metadataVersion := 3
  tables := [1]
  tablets := Std.TreeMap.ofList
    [(10, TabletRecord.mk splittingSource 2), (11, TabletRecord.mk (hiddenChild 11 lowerHalf) 3),
      (12, TabletRecord.mk (hiddenChild 12 upperHalf) 3)]
  rejections := []

theorem MetaState.routingExclusive_of_single {id : TabletId}
    (h : ∀ e ∈ st.tablets.toList, e.2.descriptor.state.isRoutable = true → e.1 = id) :
    st.RoutingExclusive := by
  have hid : ∀ {table i key}, st.Routes table i key → i = id := by
    rintro table i key ⟨d, hd, hserves⟩
    obtain ⟨record, hrecord, rfl⟩ := map_eq_some_iff.mp hd
    exact h (i, record) (Std.TreeMap.mem_toList_iff_getElem?_eq_some.mpr hrecord) hserves.2.1
  intro table key i j hi hj
  rw [hid hi, hid hj]

/-- The source at generation 2 gives way to its two children, all three stored at 3. -/
theorem publish_splitting_keeps_routing :
    (splittingMeta.apply (Publication.split splitCommand).command none).2 = .ok () ∧
      (splittingMeta.apply (Publication.split splitCommand).command none).1.RoutingExclusive ∧
      (Publication.split splitCommand).Stored
        (splittingMeta.apply (Publication.split splitCommand).command none).1 := by
  have hst : splittingMeta.RoutingExclusive :=
    @MetaState.routingExclusive_of_single splittingMeta 10 (by decide +kernel)
  have hok : (splittingMeta.apply (Publication.split splitCommand).command none).2 = .ok () := by
    decide +kernel
  have hkeeps := (publish_keeps_routing splittingMeta _ (.split splitCommand) none _ hst rfl).1 hok
  exact ⟨hok, hkeeps.1, hkeeps.2.2.1⟩

end MongrelDB.Tablets
