import MongrelDB.Lib.Paging
import MongrelDB.Storage.RowIdSet
import MongrelDB.Storage.Table

/-!
# Native queries: paging over row ids, then fetching rows

A native query resolves each of its conditions to a set of row ids, intersects the
sets, pages over the ids and only then fetches the rows.

How a condition is resolved is a parameter.
-/

namespace MongrelDB.Storage

open Epoch Lib List

/-! ## Fetching rows -/

variable {F : Type}

/-- `materialize_batch`: the slots at the given positions through the typed page decoder. -/
def RunReader.materializeBatch (r : RunReader F) (indices : List Nat) :
    Except RunError (List (Row F)) :=
  (indices.filterMap fun i => r.run.slots[i]?).mapM r.materializeNative

/-- Where the plan takes a row from. -/
inductive Src where
  | overlay
  | run
  deriving DecidableEq, Repr

/-- The first pass: classify the ids and collect the positions to fetch. An id that is neither in
memory nor live in the run leaves no entry. -/
def planRids (inOverlay : Nat → Bool) (position : Nat → Option Nat) :
    List Nat → List Src × List Nat
  | [] => ([], [])
  | rid :: rids =>
    let (plan, fetch) := planRids inOverlay position rids
    if inOverlay rid then (.overlay :: plan, fetch)
    else
      match position rid with
      | some p => (.run :: plan, p :: fetch)
      | none => (plan, fetch)

/-- The second pass, over the ids zipped with the plan. -/
def emitRows (overlay : Nat → Option (Row F)) : List (Nat × Src) → List (Row F) → List (Row F)
  | [], _ => []
  | (rid, .overlay) :: rest, fetched =>
    ((overlay rid).filter fun row => !row.deleted).toList ++ emitRows overlay rest fetched
  | (_, .run) :: rest, row :: fetched =>
    if row.deleted then emitRows overlay rest fetched else row :: emitRows overlay rest fetched
  | (_, .run) :: rest, [] => emitRows overlay rest []

namespace Table

/-- The version in memory by point lookups: the memtable's if it is newer, else the mutable
run's. -/
def probeOverlay (t : Table F) (snap : Snapshot) (rid : Nat) : Option (Row F) :=
  match t.memtable.getVersionAt rid snap, t.mutableRun.getVersionAt rid snap with
  | some mr, some rr => some (if versionIsNewer mr.stamp rr.stamp then mr else rr)
  | some mr, none => some mr
  | none, rr => rr

/-- The version in memory by one pass over both tiers. -/
def foldOverlay (t : Table F) (snap : Snapshot) (rid : Nat) : Option (Row F) :=
  (tally (fun a b => versionIsNewer a.stamp b.stamp) Row.rowId
    (t.memtable.visibleVersionsAt snap ++ t.mutableRun.visibleVersionsAt snap)).find?
      fun row => decide (row.rowId = rid)

/-- Below the crossover the tiers are probed for each id; only ids on the list are ever asked
for. -/
def overlayAt (t : Table F) (rids : List Nat) (snap : Snapshot) : Nat → Option (Row F) :=
  if rids.length * 24 < t.memtable.len + t.mutableRun.len then t.probeOverlay snap
  else t.foldOverlay snap

/-- Id by id: the version in memory, else what `lookup` finds. -/
def fetchEach (overlay : Nat → Option (Row F))
    (lookup : Nat → Except RunError (Option (Row F))) : List Nat → Except RunError (List (Row F))
  | [] => .ok []
  | rid :: rids => do
    let found ← match overlay rid with
      | some row => .ok (some row)
      | none => lookup rid
    let rows ← fetchEach overlay lookup rids
    return (found.filter fun row => !row.deleted).toList ++ rows

/-- All ids of a single run in one pass over its row-id column. -/
def fetchBatch (r : RunReader F) (overlay : Nat → Option (Row F)) (snap : Snapshot)
    (rids : List Nat) : Except RunError (List (Row F)) := do
  let (positions, visRids) := r.visiblePositionsWithRidsAt snap
  let position := fun rid =>
    ((visRids.zip positions).find? fun e => decide (e.1 = rid)).map Prod.snd
  let (plan, fetch) := planRids (fun rid => (overlay rid).isSome) position rids
  let fetched ← r.materializeBatch fetch
  return emitRows overlay (rids.zip plan) fetched

/-- The newest version of a row over all runs; a read error counts as a miss. -/
def newestOfRuns (t : Table F) (snap : Snapshot) (rid : Nat) : Option (Row F) :=
  t.runRefs.foldl (fun best rr =>
    match (t.openRun rr).getVersionAt rid snap with
    | .ok (some (_, row)) => challenge (fun a b => versionIsNewer a.stamp b.stamp) best row
    | _ => best) none

def rowsForRidsAtTime (t : Table F) (rids : List Nat) (snap : Snapshot) (nowNanos : Int) :
    Except RunError (List (Row F)) := do
  let overlay := t.overlayAt rids snap
  let rows ← match t.runRefs with
    | [rr] =>
      let reader := t.openRun rr
      if rids.length * 24 < reader.run.slots.length then
        fetchEach overlay (fun rid => (reader.getVersionAt rid snap).map fun found =>
          found.map Prod.snd) rids
      else fetchBatch reader overlay snap rids
    | _ => fetchEach overlay (fun rid => .ok (t.newestOfRuns snap rid)) rids
  return rows.filter fun row => !rowExpiredAt t.ttl row nowNanos

/-! ## Queries -/

variable {C : Type}

/-- Resolve one condition after the other, and stop behind an empty set. -/
def resolveInOrder (resolve : C → Except RunError RowIdSet) :
    List C → Except RunError (List RowIdSet)
  | [] => .ok []
  | c :: cs => do
    let s ← resolve c
    if s.isEmpty then return [s]
    let sets ← resolveInOrder resolve cs
    return s :: sets

/-- Stopping at an empty set loses nothing: of the ids in `scope`, the sets have in common the ones
every condition hits. -/
theorem resolveInOrder_spec {resolve : C → Except RunError RowIdSet} (scope : Nat → Prop)
    (hits : C → Nat → Prop) {cs : List C} (hne : cs ≠ [])
    (h : ∀ c ∈ cs, ∃ s, resolve c = .ok s ∧ ∀ id, scope id → (id ∈ s.ids ↔ hits c id)) :
    ∃ sets, resolveInOrder resolve cs = .ok sets ∧ sets ≠ [] ∧
      ∀ id, scope id → ((∀ s ∈ sets, id ∈ s.ids) ↔ ∀ c ∈ cs, hits c id) := by
  induction cs with
  | nil => exact absurd rfl hne
  | cons c cs ih =>
    obtain ⟨s, hs, hmem⟩ := h c (by simp)
    have hstep : resolveInOrder resolve (c :: cs) =
        if s.isEmpty then .ok [s] else (resolveInOrder resolve cs).map (s :: ·) := by
      rw [resolveInOrder, hs]
      show (if s.isEmpty then _ else _) = _
      split
      · rfl
      · cases resolveInOrder resolve cs <;> rfl
    by_cases hempty : s.isEmpty = true
    · have hnil : s.ids = [] := List.isEmpty_iff.mp hempty
      refine ⟨[s], by rw [hstep, if_pos hempty], cons_ne_nil _ _, fun id hid => ?_⟩
      constructor
      · intro hall
        have := hall s (by simp)
        rw [hnil] at this
        exact absurd this not_mem_nil
      · intro hall
        have := (hmem id hid).mpr (hall c (by simp))
        rw [hnil] at this
        exact absurd this not_mem_nil
    · by_cases hcs : cs = []
      · subst hcs
        refine ⟨[s], by rw [hstep, if_neg hempty]; rfl, cons_ne_nil _ _, fun id hid => ?_⟩
        simp only [forall_mem_singleton, hmem id hid]
      · obtain ⟨sets, hsets, -, hrest⟩ := ih hcs fun d hd => h d (mem_cons_of_mem c hd)
        refine ⟨s :: sets, by rw [hstep, if_neg hempty, hsets]; rfl, cons_ne_nil _ _,
          fun id hid => ?_⟩
        rw [forall_mem_cons, forall_mem_cons, hmem id hid, hrest id hid]

/-- The row is on the list of permitted rows, if there is one. -/
def admits (allowed : Option (List Nat)) (rowId : Nat) : Bool :=
  allowed.all fun ids => decide (rowId ∈ ids)

/-- The row lies behind the cursor, if there is one. -/
def isAfter (afterRowId : Option Nat) (rowId : Nat) : Bool :=
  afterRowId.all fun after => decide (after < rowId)

/-- The ids the query pages over. -/
def candidateRids (sets : List RowIdSet) (allowed : Option (List Nat)) (afterRowId : Option Nat) :
    List Nat :=
  let rids := (RowIdSet.intersectMany sets).ids.filter (admits allowed)
  rids.dropWhile fun rid => !isAfter afterRowId rid

/-- The conditions are resolved cheapest first. -/
def queryConditionsAt (t : Table F) (costRank : C → Nat) (resolve : C → Except RunError RowIdSet)
    (conditions : List C) (snap : Snapshot) (allowed : Option (List Nat)) (limit : Option Nat)
    (offset : Nat) (afterRowId : Option Nat) (nowNanos : Int) : Except RunError (List (Row F)) :=
  if conditions.isEmpty then
    .ok (page offset limit ((t.visibleRowsAtTime snap nowNanos).filter fun row =>
      admits allowed row.rowId && isAfter afterRowId row.rowId))
  else do
    let ordered := conditions.insertionSort fun a b => costRank a ≤ costRank b
    let sets ← resolveInOrder resolve ordered
    t.rowsForRidsAtTime (page offset limit (candidateRids sets allowed afterRowId)) snap nowNanos

end Table

end MongrelDB.Storage
