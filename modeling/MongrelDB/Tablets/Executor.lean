import MongrelDB.Lib.Transition
import MongrelDB.Tablets.Publication
import Mathlib.Data.List.Nodup

/-!
# Split and merge executors

A split and a merge run through the same phases.
-/

namespace MongrelDB.Tablets

open Lib List
open Option hiding mem_map mem_map_of_mem

/-! ## The two routings -/

/-- Keys of `table` pass from the tablets `olds` to the tablets `news`. -/
structure Shift where
  table : TableId
  olds : List (TabletId × PartitionBounds Key)
  news : List (TabletId × PartitionBounds Key)

namespace Shift

def ids (S : Shift) : List TabletId := (S.news ++ S.olds).map (·.1)

/-- The bounds `ts` share no key. -/
def Apart (ts : List (TabletId × PartitionBounds Key)) : Prop :=
  ∀ key, ∀ t ∈ ts, ∀ t' ∈ ts, t.2.contains key = true → t'.2.contains key = true → t = t'

structure Lawful (S : Shift) : Prop where
  nonempty : S.olds ≠ []
  distinct : S.ids.Nodup
  same : ∀ key, (∃ n ∈ S.news, n.2.contains key = true) ↔
    ∃ o ∈ S.olds, o.2.contains key = true
  oldApart : Apart S.olds
  newApart : Apart S.news

/-- The descriptor is a routable one of the planned tablet `t`. -/
structure Serves (S : Shift) (t : TabletId × PartitionBounds Key) (d : TabletDescriptor) :
    Prop where
  filed : d.tabletId = t.1
  table : d.tableId = S.table
  routable : d.state.isRoutable = true
  bounds : d.partition = t.2

/-- The tablets `ts` are stored and serve their bounds. -/
def Serving (S : Shift) (st : MetaState) (ts : List (TabletId × PartitionBounds Key)) : Prop :=
  ∀ t ∈ ts, ∃ d, st.tablet t.1 = some d ∧ S.Serves t d

/-- None of the tablets `ts` is routable. -/
def Idle (st : MetaState) (ts : List (TabletId × PartitionBounds Key)) : Prop :=
  ∀ t ∈ ts, ∀ d, st.tablet t.1 = some d → d.tabletId = t.1 ∧ d.state.isRoutable = false

/-- All other tablets are as in `st₀`. -/
def Elsewhere (S : Shift) (st₀ st : MetaState) : Prop :=
  ∀ id ∉ S.ids, st.tablet id = st₀.tablet id

structure Before (S : Shift) (st₀ st : MetaState) : Prop where
  elsewhere : S.Elsewhere st₀ st
  old : S.Serving st S.olds
  new : Idle st S.news

structure After (S : Shift) (st₀ st : MetaState) : Prop where
  elsewhere : S.Elsewhere st₀ st
  old : Idle st S.olds
  new : S.Serving st S.news

variable {S : Shift} {st₀ st : MetaState}

/-- Where `ts` serve and the other participants `us` are idle, the participants serving a key
are those of `ts` that contain it. -/
theorem participant_routes {ts us : List (TabletId × PartitionBounds Key)}
    (hids : ∀ id ∈ S.ids, id ∈ ts.map (·.1) ∨ id ∈ us.map (·.1))
    (hserving : S.Serving st ts) (hidle : Idle st us) (key : Key) {id : TabletId}
    (hid : id ∈ S.ids) (hroutes : st.Routes S.table id key) :
    ∃ t ∈ ts, t.1 = id ∧ t.2.contains key = true := by
  obtain ⟨d, hd, -, hroutable, hkey⟩ := hroutes
  rcases hids id hid with hmem | hmem
  · obtain ⟨t, ht, rfl⟩ := mem_map.mp hmem
    obtain ⟨d', hd', hserves⟩ := hserving t ht
    obtain rfl : d' = d := some.inj (hd'.symm.trans hd)
    exact ⟨t, ht, rfl, hserves.bounds ▸ hkey⟩
  · obtain ⟨u, hu, rfl⟩ := mem_map.mp hmem
    exact absurd hroutable (by simp [(hidle u hu d hd).2])

theorem Serving.routes {ts : List (TabletId × PartitionBounds Key)} (h : S.Serving st ts)
    {t : TabletId × PartitionBounds Key} (ht : t ∈ ts) {key : Key}
    (hkey : t.2.contains key = true) : st.Routes S.table t.1 key := by
  obtain ⟨d, hd, hserves⟩ := h t ht
  exact ⟨d, hd, hserves.table, hserves.routable, hserves.bounds ▸ hkey⟩

/-- From a state on the first side to one on which `ts` serve and `us` are idle, keys are
handed over. -/
theorem handover_to (h₀ : S.Before st₀ st₀)
    {ts us : List (TabletId × PartitionBounds Key)}
    (hids : ∀ id, id ∈ S.ids ↔ id ∈ ts.map (·.1) ∨ id ∈ us.map (·.1))
    (hsame : ∀ key, (∃ t ∈ ts, t.2.contains key = true) ↔
      ∃ o ∈ S.olds, o.2.contains key = true)
    (hapart : Apart ts) (helse : S.Elsewhere st₀ st) (hserving : S.Serving st ts)
    (hidle : Idle st us) :
    Handover (· ∈ S.ids) (st₀.Routes S.table) (st.Routes S.table) := by
  have hids₀ : ∀ id ∈ S.ids, id ∈ S.olds.map (·.1) ∨ id ∈ S.news.map (·.1) := by
    intro id hid
    unfold ids at hid
    rw [map_append, mem_append] at hid
    exact hid.symm
  refine ⟨?_, ?_, ?_⟩
  · intro id hid key
    unfold MetaState.Routes
    rw [helse id hid]
  · intro key
    constructor
    · rintro ⟨id, hid, hroutes⟩
      obtain ⟨t, ht, -, hkey⟩ :=
        participant_routes (fun id h => (hids id).mp h) hserving hidle key hid hroutes
      obtain ⟨o, ho, hokey⟩ := (hsame key).mp ⟨t, ht, hkey⟩
      exact ⟨o.1, mem_map_of_mem (mem_append_right _ ho), h₀.old.routes ho hokey⟩
    · rintro ⟨id, hid, hroutes⟩
      obtain ⟨o, ho, -, hkey⟩ := participant_routes hids₀ h₀.old h₀.new key hid hroutes
      obtain ⟨t, ht, htkey⟩ := (hsame key).mpr ⟨o, ho, hkey⟩
      exact ⟨t.1, (hids t.1).mpr (.inl (mem_map_of_mem ht)), hserving.routes ht htkey⟩
  · intro key id id' hid hid' hroutes hroutes'
    have hts : ∀ id ∈ S.ids, id ∈ ts.map (·.1) ∨ id ∈ us.map (·.1) := fun id h => (hids id).mp h
    obtain ⟨t, ht, rfl, hkey⟩ := participant_routes hts hserving hidle key hid hroutes
    obtain ⟨t', ht', rfl, hkey'⟩ := participant_routes hts hserving hidle key hid' hroutes'
    rw [hapart key t ht t' ht' hkey hkey']

theorem mem_ids {id : TabletId} :
    id ∈ S.ids ↔ id ∈ S.news.map (·.1) ∨ id ∈ S.olds.map (·.1) := by
  unfold ids
  rw [map_append, mem_append]

/-- On either side a key that had one tablet still has one. -/
theorem existsUnique_routes (hS : S.Lawful) (h₀ : S.Before st₀ st₀)
    (h : S.Before st₀ st ∨ S.After st₀ st) {key : Key}
    (hkey : ∃! id, st₀.Routes S.table id key) : ∃! id, st.Routes S.table id key := by
  rcases h with h | h
  · exact (handover_to h₀ (fun id => mem_ids.trans or_comm) (fun _ => Iff.rfl) hS.oldApart
      h.elsewhere h.old h.new).existsUnique hkey
  · exact (handover_to h₀ (fun id => mem_ids) hS.same hS.newApart h.elsewhere h.new
      h.old).existsUnique hkey

/-! ## One descriptor written -/

/-- The tablet records of `st'` are those of `st`. -/
def Same (st st' : MetaState) : Prop := ∀ id, st'.tablet id = st.tablet id

/-- In `st'` the tablet `id` holds `value`, all others are as in `st`. -/
def Update (st st' : MetaState) (id : TabletId) (value : Option TabletDescriptor) : Prop :=
  ∀ i, st'.tablet i = if id = i then value else st.tablet i

variable {st' : MetaState} {id : TabletId} {value : Option TabletDescriptor}
  {ts : List (TabletId × PartitionBounds Key)}

theorem Update.of_ne (h : Update st st' id value) {i : TabletId} (hne : id ≠ i) :
    st'.tablet i = st.tablet i := by
  rw [h i, if_neg hne]

theorem Idle.update (hidle : Idle st ts) (h : Update st st' id value)
    (hvalue : ∀ d, value = some d → d.tabletId = id ∧ d.state.isRoutable = false) :
    Idle st' ts := by
  intro t ht d hd
  rw [h t.1] at hd
  split at hd
  · next heq => exact heq ▸ hvalue d hd
  · exact hidle t ht d hd

theorem Idle.update_of_not_mem (hidle : Idle st ts) (h : Update st st' id value)
    (hid : id ∉ ts.map (·.1)) : Idle st' ts := by
  intro t ht d hd
  rw [h.of_ne fun heq => hid (heq ▸ mem_map_of_mem ht)] at hd
  exact hidle t ht d hd

theorem Serving.update_of_not_mem (hserving : S.Serving st ts) (h : Update st st' id value)
    (hid : id ∉ ts.map (·.1)) : S.Serving st' ts := by
  intro t ht
  obtain ⟨d, hd, hserves⟩ := hserving t ht
  rw [← h.of_ne fun heq => hid (heq ▸ mem_map_of_mem ht)] at hd
  exact ⟨d, hd, hserves⟩

theorem Serving.update (hserving : S.Serving st ts) {d : TabletDescriptor}
    (h : Update st st' id (some d)) (hd : ∀ t ∈ ts, t.1 = id → S.Serves t d) :
    S.Serving st' ts := by
  intro t ht
  by_cases heq : id = t.1
  · exact ⟨d, by rw [h t.1, if_pos heq], hd t ht heq.symm⟩
  · obtain ⟨d', hd', hserves⟩ := hserving t ht
    exact ⟨d', by rw [h.of_ne heq, hd'], hserves⟩

theorem Elsewhere.update (helse : S.Elsewhere st₀ st) (h : Update st st' id value)
    (hid : id ∈ S.ids) : S.Elsewhere st₀ st' := by
  intro i hi
  have hne : id ≠ i := fun heq => hi (heq ▸ hid)
  rw [h.of_ne hne]
  exact helse i hi

theorem Before.same (h : S.Before st₀ st) (hsame : Same st st') : S.Before st₀ st' := by
  refine ⟨fun id hid => (hsame id).trans (h.elsewhere id hid), fun t ht => ?_, fun t ht d hd => ?_⟩
  · rw [hsame]
    exact h.old t ht
  · exact h.new t ht d ((hsame t.1) ▸ hd)

theorem After.same (h : S.After st₀ st) (hsame : Same st st') : S.After st₀ st' := by
  refine ⟨fun id hid => (hsame id).trans (h.elsewhere id hid), fun t ht d hd => ?_, fun t ht => ?_⟩
  · exact h.old t ht d ((hsame t.1) ▸ hd)
  · rw [hsame]
    exact h.new t ht

theorem Lawful.disjoint (hS : S.Lawful) {id : TabletId} (hnew : id ∈ S.news.map (·.1))
    (hold : id ∈ S.olds.map (·.1)) : False := by
  have hnodup := hS.distinct
  unfold ids at hnodup
  rw [map_append, nodup_append] at hnodup
  exact hnodup.2.2 id hnew id hold rfl

theorem Lawful.old_unique (hS : S.Lawful) {o o' : TabletId × PartitionBounds Key}
    (ho : o ∈ S.olds) (ho' : o' ∈ S.olds) (h : o.1 = o'.1) : o = o' := by
  have hnodup := hS.distinct
  unfold ids at hnodup
  rw [map_append] at hnodup
  exact inj_on_of_nodup_map hnodup.of_append_right ho ho' h

theorem Before.update_old (hS : S.Lawful) (h : S.Before st₀ st) {d : TabletDescriptor}
    (hid : id ∈ S.olds.map (·.1)) (hup : Update st st' id (some d))
    (hd : ∀ o ∈ S.olds, o.1 = id → S.Serves o d) : S.Before st₀ st' :=
  ⟨h.elsewhere.update hup (mem_ids.mpr (.inr hid)), h.old.update hup hd,
    h.new.update_of_not_mem hup fun hnew => hS.disjoint hnew hid⟩

theorem Before.update_new (hS : S.Lawful) (h : S.Before st₀ st)
    (hid : id ∈ S.news.map (·.1)) (hup : Update st st' id value)
    (hvalue : ∀ d, value = some d → d.tabletId = id ∧ d.state.isRoutable = false) :
    S.Before st₀ st' :=
  ⟨h.elsewhere.update hup (mem_ids.mpr (.inl hid)),
    h.old.update_of_not_mem hup fun hold => hS.disjoint hid hold, h.new.update hup hvalue⟩

theorem After.update_old (hS : S.Lawful) (h : S.After st₀ st)
    (hid : id ∈ S.olds.map (·.1)) (hup : Update st st' id value)
    (hvalue : ∀ d, value = some d → d.tabletId = id ∧ d.state.isRoutable = false) :
    S.After st₀ st' :=
  ⟨h.elsewhere.update hup (mem_ids.mpr (.inr hid)), h.old.update hup hvalue,
    h.new.update_of_not_mem hup fun hnew => hS.disjoint hnew hid⟩

end Shift

/-! ## Phases and their steps -/

/-- `SplitPhase` and `MergePhase`, under common names: `marked` is `MarkedSplitting` and
`MarkedMerging`, `created` is `ChildrenCreated` and `ReplacementCreated`, `pinned` is
`SnapshotPinned` and `SnapshotsPinned`, `built` is `ChildrenBuilt` and `ReplacementBuilt`,
`retired` is `SourceRetired` and `SourcesRetired`. -/
inductive Phase where
  | started
  | marked
  | created
  | pinned
  | built
  | caughtUp
  | published
  | retired
  deriving DecidableEq, Repr

namespace Phase

def next : Phase → Phase
  | started => marked
  | marked => created
  | created => pinned
  | pinned => built
  | built => caughtUp
  | caughtUp => published
  | published => retired
  | retired => retired

/-- The publication has not been proposed when this is the recorded phase. -/
def beforePublish : Phase → Bool
  | started => true
  | marked => true
  | created => true
  | pinned => true
  | built => true
  | _ => false

/-- `phase >= Published`, where an abort is refused. -/
def cannotAbort : Phase → Bool
  | published => true
  | retired => true
  | _ => false

end Phase

/-- One step of an executor or of `abort_split`. A descriptor or command that the plan does
not yield is an error of the step. -/
inductive Op where
  /-- `set_tablet` -/
  | set (descriptor : Option TabletDescriptor)
  /-- `publish_split`, `publish_merge` -/
  | publish (command : Option Publication)
  /-- Publish a source `Retired`, unless it is or is gone. -/
  | retire (id : TabletId)
  /-- Remove a descriptor at its stored generation, unless it is gone. -/
  | remove (id : TabletId)
  /-- Publish the source back to `Active`, unless it is. -/
  | restore (id : TabletId)
  /-- Remove the progress record, with or without its directory. -/
  | dropRecord
  /-- `begin_build` on every sink. -/
  | beginBuild
  /-- Stage the pinned snapshot. -/
  | stageSnapshot
  /-- `install_staged` on one sink. -/
  | install (sink : Nat)
  /-- `deltas_after` the pinned timestamp. -/
  | readDeltas
  /-- Apply the deltas read, one after the other. -/
  | applyDeltas
  deriving DecidableEq, Repr

namespace MetaState

/-- One proposal: the state it leaves and whether it was accepted. -/
def propose (st : MetaState) (command : MetaCommand) : MetaState × Bool :=
  let (st', result) := st.apply command none
  (st', result.toBool)

end MetaState

/-- What a step does to the meta plane, and whether the executor goes on. -/
def Op.run (st : MetaState) : Op → MetaState × Bool
  | .set (some descriptor) => st.propose (.setTabletDescriptor descriptor)
  | .set none => (st, false)
  | .publish (some p) => st.propose p.command
  | .publish none => (st, false)
  | .retire id =>
    match st.tablet id with
    | none => (st, true)
    | some current =>
      if current.state = .retired then (st, true)
      else
        match current.publishedTransition .retired with
        | .error _ => (st, false)
        | .ok retired => st.propose (.setTabletDescriptor retired)
  | .remove id =>
    match st.tablet id with
    | none => (st, true)
    | some current => st.propose (.removeTabletDescriptor id current.generation)
  | .restore id =>
    match st.tablet id with
    | none => (st, false)
    | some current =>
      if current.state = .active then (st, true)
      else
        match current.publishedTransition .active with
        | .error _ => (st, false)
        | .ok restored => st.propose (.setTabletDescriptor restored)
  | _ => (st, true)

/-- The steps of each phase, and of an abort where there is one. -/
structure Protocol where
  ops : Phase → List Op
  abort : Option (List Op)

inductive Task where
  | execute (phase : Phase) (todo : List Op)
  | abort (todo : List Op)
  deriving DecidableEq, Repr

structure Executor where
  metaPlane : MetaState
  /-- The phase in the progress record. -/
  record : Option Phase
  /-- What runs; lost in a crash. -/
  task : Option Task

namespace Executor

/-- After `begin`: the plan is recorded, nothing has been done. -/
def start (st : MetaState) : Executor := ⟨st, some .started, none⟩

inductive Label where
  /-- `resume`, or the first run. -/
  | resume
  /-- One step of what runs. -/
  | advance
  | crash
  /-- `abort_split` -/
  | abort
  deriving DecidableEq, Repr

/-- The state after `op`, with `rest` to follow if it succeeds. -/
def runOp (s : Executor) (op : Op) (rest : Task) : Executor :=
  { metaPlane := (op.run s.metaPlane).1
    record := if op = .dropRecord then none else s.record
    task := if (op.run s.metaPlane).2 then some rest else none }

def step (P : Protocol) (s : Executor) : Label → Option Executor
  | .resume =>
    match s.task, s.record with
    | none, some phase => some { s with task := some (.execute phase (P.ops phase)) }
    | _, _ => none
  | .advance =>
    match s.task with
    | none => none
    | some (.execute phase (op :: rest)) => some (s.runOp op (.execute phase rest))
    | some (.execute phase []) =>
      -- the terminal phase writes no record: the teardown has removed it
      if phase.next = .retired then some { s with task := none }
      else
        some { s with
          record := some phase.next
          task := some (.execute phase.next (P.ops phase.next)) }
    | some (.abort (op :: rest)) => some (s.runOp op (.abort rest))
    | some (.abort []) => some { s with task := none }
  | .crash => some { s with task := none }
  | .abort =>
    match s.task, s.record, P.abort with
    | none, some phase, some ops =>
      if phase.cannotAbort then none else some { s with task := some (.abort ops) }
    | _, _, _ => none

end Executor

/-! ## What the steps do to the records -/

open Shift (Same Update)

theorem MetaState.propose_fst (st : MetaState) (command : MetaCommand) :
    Same (st.ticked.dispatch command (st.metadataVersion + 1)).1 (st.propose command).1 := by
  intro id
  unfold propose
  cases h : st.ticked.dispatch command (st.metadataVersion + 1) with
  | mk st' result =>
    cases result with
    | ok u => rw [apply_of_ok h]
    | error reason =>
      rw [apply_of_error h]
      exact tablet_congr (st'.reject_tablets none reason) id

theorem MetaState.update_put (st : MetaState) (version : Nat) (d : TabletDescriptor) :
    Update st (st.put version d) d.tabletId (some d) := by
  intro id
  unfold tablet
  rw [put_tablets]
  split <;> rfl

theorem propose_set (st : MetaState) (d : TabletDescriptor) :
    Same st (st.propose (.setTabletDescriptor d)).1 ∨
      Update st (st.propose (.setTabletDescriptor d)).1 d.tabletId (some d) := by
  have hfst := st.propose_fst (.setTabletDescriptor d)
  have hdispatch : Same st (st.ticked.setTabletDescriptor d (st.metadataVersion + 1)).1 ∨
      Update st (st.ticked.setTabletDescriptor d (st.metadataVersion + 1)).1 d.tabletId
        (some d) := by
    unfold MetaState.setTabletDescriptor
    have hput : Update st (st.ticked.put (st.metadataVersion + 1) d) d.tabletId (some d) :=
      st.ticked.update_put (st.metadataVersion + 1) d
    repeat' split
    all_goals first | exact .inr hput | exact .inl fun _ => rfl
  rcases hdispatch with hsame | hup
  · exact .inl fun id => (hfst id).trans (hsame id)
  · exact .inr fun id => (hfst id).trans (hup id)

theorem propose_remove (st : MetaState) (id : TabletId) (generation : Nat) :
    Same st (st.propose (.removeTabletDescriptor id generation)).1 ∨
      Update st (st.propose (.removeTabletDescriptor id generation)).1 id none := by
  have hfst := st.propose_fst (.removeTabletDescriptor id generation)
  have herase : Update st { st.ticked with tablets := st.ticked.tablets.erase id } id none := by
    intro i
    unfold MetaState.tablet
    rw [Std.TreeMap.getElem?_erase]
    by_cases heq : id = i
    · simp [heq]
    · rw [if_neg heq, if_neg (by simpa using heq)]
      rfl
  have hdispatch : Same st (st.ticked.removeTabletDescriptor id generation).1 ∨
      Update st (st.ticked.removeTabletDescriptor id generation).1 id none := by
    unfold MetaState.removeTabletDescriptor
    split
    · exact .inl fun _ => rfl
    · split
      · exact .inr herase
      · exact .inl fun _ => rfl
  rcases hdispatch with hsame | hup
  · exact .inl fun id => (hfst id).trans (hsame id)
  · exact .inr fun id => (hfst id).trans (hup id)

/-- An accepted publication leaves its descriptors stored and no other tablet changed; a
refused one changes nothing. -/
theorem propose_publication (st : MetaState) (p : Publication) :
    ((st.propose p.command).2 = true → p.Stored (st.propose p.command).1 ∧
      ∀ id ∉ (p.news ++ p.olds).map (·.tabletId),
        (st.propose p.command).1.tablet id = st.tablet id) ∧
    ((st.propose p.command).2 = false → Same st (st.propose p.command).1) := by
  obtain ⟨st', result, happly⟩ : ∃ st' result, st.apply p.command none = (st', result) :=
    ⟨_, _, rfl⟩
  have hpropose : st.propose p.command = (st', result.toBool) := by
    unfold MetaState.propose
    rw [happly]
  rw [hpropose]
  rcases MetaState.apply_publication_cases happly with
    ⟨e, -, rfl, htablets⟩ | ⟨hcheck, rfl, rfl⟩ | ⟨hcheck, rfl, rfl⟩
  · exact ⟨fun hok => (by cases hok), fun _ id => MetaState.tablet_congr htablets id⟩
  · exact ⟨fun _ => ⟨(Publication.check_ok hcheck).2.2 rfl, fun _ _ => rfl⟩,
      fun hok => by cases hok⟩
  · have hswap := (Publication.check_fresh hcheck).ticked
    refine ⟨fun _ => ⟨fun d hd => hswap.stored_after _ hd, fun id hid => ?_⟩,
      fun hok => by cases hok⟩
    unfold MetaState.tablet
    rw [hswap.untouched _ hid]
    rfl

/-! ## Steps that keep a side -/

/-- The step keeps `I`, whatever its outcome. -/
def Op.Keeps (I : MetaState → Prop) (op : Op) : Prop := ∀ st, I st → I (op.run st).1

section Keeps

variable {S : Shift} {st₀ : MetaState} {o : TabletId × PartitionBounds Key}

variable (hS : S.Lawful)
include hS

theorem keeps_before_set_old (ho : o ∈ S.olds) {descriptor : Option TabletDescriptor}
    (hd : ∀ d, descriptor = some d → S.Serves o d) :
    (Op.set descriptor).Keeps (S.Before st₀) := by
  intro st h
  cases descriptor with
  | none => exact h
  | some d =>
    have hserves := hd d rfl
    rcases propose_set st d with hsame | hup
    · exact h.same hsame
    · rw [hserves.filed] at hup
      refine h.update_old hS (mem_map_of_mem ho) hup fun o' ho' heq => ?_
      rwa [hS.old_unique ho' ho heq]

theorem keeps_before_set_new {descriptor : Option TabletDescriptor}
    (hd : ∀ d, descriptor = some d →
      d.tabletId ∈ S.news.map (·.1) ∧ d.state.isRoutable = false) :
    (Op.set descriptor).Keeps (S.Before st₀) := by
  intro st h
  cases descriptor with
  | none => exact h
  | some d =>
    obtain ⟨hid, hidle⟩ := hd d rfl
    rcases propose_set st d with hsame | hup
    · exact h.same hsame
    · refine h.update_new hS hid hup ?_
      rintro _ ⟨⟩
      exact ⟨rfl, hidle⟩

theorem keeps_before_remove {id : TabletId} (hid : id ∈ S.news.map (·.1)) :
    (Op.remove id).Keeps (S.Before st₀) := by
  intro st h
  simp only [Op.run]
  split
  · exact h
  · next current _ =>
    rcases propose_remove st id current.generation with hsame | hup
    · exact h.same hsame
    · exact h.update_new hS hid hup fun d hd => by cases hd

theorem keeps_before_restore (ho : o ∈ S.olds) : (Op.restore o.1).Keeps (S.Before st₀) := by
  intro st h
  simp only [Op.run]
  split
  · exact h
  · next current hcurrent =>
    split
    · exact h
    · split
      · exact h
      · next restored hrestored =>
        obtain ⟨d, hd, hserves⟩ := h.old o ho
        obtain rfl : d = current := some.inj (hd.symm.trans hcurrent)
        obtain ⟨-, rfl⟩ := TabletDescriptor.publishedTransition_spec hrestored
        rcases propose_set st _ with hsame | hup
        · exact h.same hsame
        · refine h.update_old hS (mem_map.mpr ⟨o, ho, hserves.filed.symm⟩) hup ?_
          intro o' ho' heq
          rw [hS.old_unique ho' ho (heq.trans hserves.filed)]
          exact ⟨hserves.filed, hserves.table, rfl, hserves.bounds⟩

theorem keeps_after_retire (ho : o ∈ S.olds) : (Op.retire o.1).Keeps (S.After st₀) := by
  intro st h
  simp only [Op.run]
  split
  · exact h
  · next current hcurrent =>
    split
    · exact h
    · split
      · exact h
      · next retired hretired =>
        have hfiled := (h.old o ho current hcurrent).1
        obtain ⟨-, rfl⟩ := TabletDescriptor.publishedTransition_spec hretired
        rcases propose_set st _ with hsame | hup
        · exact h.same hsame
        · refine h.update_old hS (mem_map.mpr ⟨o, ho, hfiled.symm⟩) hup ?_
          rintro _ ⟨⟩
          exact ⟨rfl, rfl⟩

theorem keeps_after_remove {id : TabletId} (hid : id ∈ S.olds.map (·.1)) :
    (Op.remove id).Keeps (S.After st₀) := by
  intro st h
  simp only [Op.run]
  split
  · exact h
  · next current _ =>
    rcases propose_remove st id current.generation with hsame | hup
    · exact h.same hsame
    · exact h.update_old hS hid hup fun d hd => by cases hd

end Keeps

/-! ## Runs -/

/-- The side of the meta plane while `phase` is recorded: the record lags, so in `caughtUp` the
publication may or may not have landed. -/
def Shift.OnSide (S : Shift) (st₀ : MetaState) (phase : Phase) (st : MetaState) : Prop :=
  match phase with
  | .caughtUp => S.Before st₀ st ∨ S.After st₀ st
  | .published => S.After st₀ st
  | .retired => False
  | _ => S.Before st₀ st

/-- The phases before the publication and the abort keep the first side, the publication
leads to the second, the last phase keeps it. -/
structure Protocol.Follows (P : Protocol) (S : Shift) (st₀ : MetaState) : Prop where
  early : ∀ phase, phase.beforePublish = true → ∀ op ∈ P.ops phase, op.Keeps (S.Before st₀)
  publish : ∃ command, P.ops .caughtUp = [.publish command] ∧ ∀ st,
    S.Before st₀ st ∨ S.After st₀ st →
    ((Op.publish command).run st).2 = true → S.After st₀ ((Op.publish command).run st).1
  late : ∀ op ∈ P.ops .published, op.Keeps (S.After st₀)
  abort : ∀ ops, P.abort = some ops → ∀ op ∈ ops, op.Keeps (S.Before st₀)

variable {phase : Phase}

section Side

variable {P : Protocol} {S : Shift} {st₀ st : MetaState}

theorem Shift.OnSide.side (h : S.OnSide st₀ phase st) :
    S.Before st₀ st ∨ S.After st₀ st := by
  cases phase with
  | caughtUp => exact h
  | published => exact .inr h
  | retired => exact h.elim
  | started | marked | created | pinned | built => exact .inl h

theorem Shift.OnSide.of_before (h : S.Before st₀ st)
    (hphase : phase.cannotAbort = false) : S.OnSide st₀ phase st := by
  cases phase with
  | caughtUp => exact .inl h
  | published | retired => cases hphase
  | started | marked | created | pinned | built => exact h

theorem run_publish_refused {command : Option Publication}
    (h : ((Op.publish command).run st).2 = false) : Same st ((Op.publish command).run st).1 := by
  cases command with
  | none => exact fun _ => rfl
  | some p => exact (propose_publication st p).2 h

theorem Protocol.Follows.side_publish (hP : P.Follows S st₀) {op : Op}
    (hop : op ∈ P.ops .caughtUp) (h : S.Before st₀ st ∨ S.After st₀ st) :
    (S.Before st₀ (op.run st).1 ∨ S.After st₀ (op.run st).1) ∧
      ((op.run st).2 = true → S.After st₀ (op.run st).1) := by
  obtain ⟨command, hops, hpublish⟩ := hP.publish
  rw [hops, mem_singleton] at hop
  subst hop
  cases hout : ((Op.publish command).run st).2 with
  | true =>
    have hafter := hpublish st h hout
    exact ⟨.inr hafter, fun _ => hafter⟩
  | false =>
    have hsame := run_publish_refused hout
    exact ⟨h.imp (·.same hsame) (·.same hsame), fun hfalse => by cases hfalse⟩

theorem Protocol.Follows.onSide (hP : P.Follows S st₀) {op : Op}
    (hop : op ∈ P.ops phase) (h : S.OnSide st₀ phase st) :
    S.OnSide st₀ phase (op.run st).1 := by
  cases phase with
  | caughtUp => exact (hP.side_publish hop h).1
  | published => exact hP.late op hop st h
  | retired => exact h.elim
  | started | marked | created | pinned | built => exact hP.early _ rfl op hop st h

theorem Shift.OnSide.next (h : S.OnSide st₀ phase st)
    (hpublished : phase = .caughtUp → S.After st₀ st) (hnext : phase.next ≠ .retired) :
    S.OnSide st₀ phase.next st := by
  cases phase with
  | caughtUp => exact hpublished rfl
  | built => exact .inl h
  | published | retired => exact absurd rfl hnext
  | started | marked | created | pinned => exact h

end Side

namespace Executor

/-- What is known about a running task. -/
def TaskOk (P : Protocol) (S : Shift) (st₀ : MetaState) (s : Executor) : Task → Prop
  | .execute phase todo =>
    S.OnSide st₀ phase s.metaPlane ∧ (s.record = none ∨ s.record = some phase) ∧
      todo <:+ P.ops phase ∧ (phase = .caughtUp → todo = [] → S.After st₀ s.metaPlane)
  | .abort todo =>
    S.Before st₀ s.metaPlane ∧ (∀ phase, s.record = some phase → phase.cannotAbort = false) ∧
      ∃ ops, P.abort = some ops ∧ todo <:+ ops

structure Ok (P : Protocol) (S : Shift) (st₀ : MetaState) (s : Executor) : Prop where
  side : S.Before st₀ s.metaPlane ∨ S.After st₀ s.metaPlane
  record : ∀ phase, s.record = some phase → S.OnSide st₀ phase s.metaPlane
  task : ∀ task, s.task = some task → TaskOk P S st₀ s task

/-- An abort starts only while the sources are still routable. -/
def AbortsUnpublished (S : Shift) (s : Executor) (l : Label) : Prop :=
  l = .abort → ∀ o ∈ S.olds, (s.metaPlane.tablet o.1).any (·.state.isRoutable) = true
  deriving Decidable

variable {P : Protocol} {S : Shift} {st₀ : MetaState} {s s' : Executor}

theorem start_ok (h : S.Before st₀ st₀) : Ok P S st₀ (start st₀) := by
  refine ⟨.inl h, ?_, fun _ htask => by cases htask⟩
  rintro _ ⟨⟩
  exact h

theorem Ok.idle (h : Ok P S st₀ s) : Ok P S st₀ { s with task := none } :=
  ⟨h.side, h.record, fun _ htask => by cases htask⟩

theorem record_runOp {op : Op} {rest : Task}
    (h : (s.runOp op rest).record = some phase) : s.record = some phase := by
  simp only [runOp] at h
  split at h
  · cases h
  · exact h

theorem Ok.runOp {op : Op} {rest : Task}
    (hside : S.Before st₀ (op.run s.metaPlane).1 ∨ S.After st₀ (op.run s.metaPlane).1)
    (hrecord : ∀ phase, s.record = some phase → S.OnSide st₀ phase (op.run s.metaPlane).1)
    (hrest : (op.run s.metaPlane).2 = true → TaskOk P S st₀ (s.runOp op rest) rest) :
    Ok P S st₀ (s.runOp op rest) := by
  refine ⟨hside, fun phase h => hrecord phase (record_runOp h), fun task htask => ?_⟩
  simp only [Executor.runOp] at htask
  split at htask
  · next hok =>
    cases htask
    exact hrest hok
  · cases htask

theorem Ok.execute (hP : P.Follows S st₀) {op : Op} {rest : List Op}
    (h : TaskOk P S st₀ s (.execute phase (op :: rest))) :
    Ok P S st₀ (s.runOp op (.execute phase rest)) := by
  obtain ⟨hon, hrecord, hsuffix, -⟩ := h
  have hop : op ∈ P.ops phase := hsuffix.subset mem_cons_self
  have hon' : S.OnSide st₀ phase (op.run s.metaPlane).1 := hP.onSide hop hon
  refine Ok.runOp hon'.side ?_ fun hok => ⟨hon', ?_, (suffix_cons op rest).trans hsuffix, ?_⟩
  · intro phase' hphase'
    rcases hrecord with hnone | hsome
    · rw [hnone] at hphase'
      cases hphase'
    · rw [hsome] at hphase'
      cases hphase'
      exact hon'
  · rcases hrecord with hnone | hsome
    · refine .inl (eq_none_iff_forall_ne_some.mpr fun phase' h => ?_)
      rw [record_runOp h] at hnone
      cases hnone
    · simp only [Executor.runOp]
      split
      · exact .inl rfl
      · exact .inr hsome
  · rintro rfl -
    exact (hP.side_publish hop hon).2 hok

theorem Ok.abort (hP : P.Follows S st₀) {op : Op} {rest : List Op}
    (h : TaskOk P S st₀ s (.abort (op :: rest))) : Ok P S st₀ (s.runOp op (.abort rest)) := by
  obtain ⟨hbefore, hrecord, ops, hops, hsuffix⟩ := h
  have hbefore' : S.Before st₀ (op.run s.metaPlane).1 :=
    hP.abort ops hops op (hsuffix.subset mem_cons_self) _ hbefore
  exact Ok.runOp (.inl hbefore') (fun phase hphase => .of_before hbefore' (hrecord phase hphase))
    fun _ => ⟨hbefore', fun phase hphase => hrecord phase (record_runOp hphase),
      ops, hops, (suffix_cons op rest).trans hsuffix⟩

theorem step_ok (hS : S.Lawful) (hP : P.Follows S st₀) {l : Label} (h : Ok P S st₀ s)
    (hok : AbortsUnpublished S s l) (hstep : step P s l = some s') : Ok P S st₀ s' := by
  cases l with
  | resume =>
    simp only [step] at hstep
    split at hstep
    · next phase _ hrecord =>
      cases hstep
      refine ⟨h.side, h.record, ?_⟩
      rintro _ ⟨⟩
      refine ⟨h.record phase hrecord, .inr hrecord, suffix_refl _, ?_⟩
      rintro rfl hnil
      obtain ⟨command, hops, -⟩ := hP.publish
      rw [hops] at hnil
      cases hnil
    · cases hstep
  | crash =>
    cases hstep
    exact h.idle
  | abort =>
    simp only [step] at hstep
    split at hstep
    · next phase ops _ hrecord hops =>
      split at hstep
      · cases hstep
      next hphase =>
      cases hstep
      -- the sources are routable, so the publication has not landed
      have hbefore : S.Before st₀ s.metaPlane := by
        rcases h.side with hbefore | hafter
        · exact hbefore
        · obtain ⟨o, ho⟩ := exists_mem_of_ne_nil _ hS.nonempty
          have hroutable := hok rfl o ho
          cases hd : s.metaPlane.tablet o.1 with
          | none => simp [hd] at hroutable
          | some d => simp [hd, (hafter.old o ho d hd).2] at hroutable
      refine ⟨h.side, h.record, ?_⟩
      rintro _ ⟨⟩
      refine ⟨hbefore, fun phase' hphase' => ?_, ops, hops, suffix_refl _⟩
      rw [some.inj (hphase'.symm.trans hrecord)]
      simpa using hphase
    · cases hstep
  | advance =>
    simp only [step] at hstep
    split at hstep
    · cases hstep
    · next phase op rest htask =>
      cases hstep
      exact .execute hP (h.task _ htask)
    · next phase htask =>
      obtain ⟨hon, -, -, hdone⟩ := h.task _ htask
      split at hstep
      · cases hstep
        exact h.idle
      · next hnext =>
        cases hstep
        have hon' : S.OnSide st₀ phase.next s.metaPlane :=
          hon.next (fun heq => hdone heq rfl) hnext
        refine ⟨h.side, ?_, ?_⟩
        · rintro _ ⟨⟩
          exact hon'
        · rintro _ ⟨⟩
          refine ⟨hon', .inr rfl, suffix_refl _, ?_⟩
          intro heq hnil
          obtain ⟨command, hops, -⟩ := hP.publish
          rw [heq, hops] at hnil
          cases hnil
    · next op rest htask =>
      cases hstep
      exact .abort hP (h.task _ htask)
    · cases hstep
      exact h.idle

theorem reachable_before_or_after (hS : S.Lawful) (hP : P.Follows S st₀)
    (h₀ : S.Before st₀ st₀)
    (h : Reachable (step P) (AbortsUnpublished S) (start st₀) s) :
    S.Before st₀ s.metaPlane ∨ S.After st₀ s.metaPlane := by
  have hinv : Ok P S st₀ s :=
    h.invariant (start_ok h₀) fun _ _ _ hok hcond hstep => step_ok hS hP hok hcond hstep
  exact hinv.side

end Executor

end MongrelDB.Tablets
