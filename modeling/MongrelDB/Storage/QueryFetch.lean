import MongrelDB.Storage.Query
import MongrelDB.Storage.TableReads

/-!
# What the fetch returns for a list of row ids

A full scan chooses the newest of the versions that the tiers in memory and the runs
show it.
-/

namespace MongrelDB.Storage

open Epoch Lib List Option

variable {F : Type} {snap : Snapshot}

/-! ## The two passes of the batch route -/

section Batch

variable {overlay : Nat → Option (Row F)} {position : Nat → Option Nat}

/-- The row an id stands for: the one in memory, else the one at its position in the run. -/
def locate (overlay : Nat → Option (Row F)) (stored : Nat → Option (Row F)) (rid : Nat) :
    Option (Row F) :=
  ((overlay rid).or (stored rid)).filter fun row => !row.deleted

/-- Rows of the run come out in fetch order, whichever ids they are zipped with. -/
theorem emitRows_run (overlay : Nat → Option (Row F)) (ids : List Nat) (fetched : List (Row F))
    (h : fetched.length ≤ ids.length) :
    emitRows overlay (ids.zip (List.replicate fetched.length .run)) fetched =
      fetched.filter fun row => !row.deleted := by
  induction fetched generalizing ids with
  | nil => simp [emitRows]
  | cons row fetched ih =>
    cases ids with
    | nil => simp at h
    | cons rid ids =>
      rw [length_cons, replicate_succ, zip_cons_cons, emitRows,
        ih ids (Nat.le_of_succ_le_succ h)]
      by_cases hdel : row.deleted = true
      · simp [hdel]
      · simp [hdel]

theorem planRids_run (rids : List Nat) (h : ∀ rid ∈ rids, overlay rid = none) :
    planRids (fun rid => (overlay rid).isSome) position rids =
      (List.replicate (rids.filterMap position).length .run, rids.filterMap position) := by
  induction rids with
  | nil => rfl
  | cons rid rids ih =>
    rw [planRids, ih fun x hx => h x (mem_cons_of_mem rid hx), h rid (by simp)]
    cases hpos : position rid with
    | none => rw [filterMap_cons_none hpos]; rfl
    | some p => rw [filterMap_cons_some hpos]; rfl

theorem filterMap_cons_toList {α β : Type} (f : α → Option β) (a : α) (l : List α) :
    (a :: l).filterMap f = (f a).toList ++ l.filterMap f := by
  cases h : f a with
  | none => rw [filterMap_cons_none h]; rfl
  | some b => rw [filterMap_cons_some h]; rfl

theorem emitRows_of_run (slotRow : Nat → Row F) {ids rids : List Nat}
    (h : ∀ rid ∈ rids, overlay rid = none) (hlen : rids.length ≤ ids.length) :
    emitRows overlay (ids.zip (planRids (fun rid => (overlay rid).isSome) position rids).1)
        ((planRids (fun rid => (overlay rid).isSome) position rids).2.map slotRow) =
      rids.filterMap (locate overlay fun rid => (position rid).map slotRow) := by
  have hrun := emitRows_run overlay ids ((rids.filterMap position).map slotRow)
    (by rw [length_map]; exact Nat.le_trans (length_filterMap_le _ _) hlen)
  rw [length_map] at hrun
  rw [planRids_run rids h, hrun, map_filterMap, filter_filterMap]
  refine filterMap_congr fun rid hrid => ?_
  rw [locate, h rid hrid, none_or]

/-- While every id before one in memory is in the plan, ids and plan stay in step. -/
theorem emitRows_planRids (slotRow : Nat → Row F) (rids : List Nat)
    (h : rids.Pairwise fun x y =>
      (overlay y).isSome = true → (overlay x).isSome = true ∨ (position x).isSome = true) :
    emitRows overlay (rids.zip (planRids (fun rid => (overlay rid).isSome) position rids).1)
        ((planRids (fun rid => (overlay rid).isSome) position rids).2.map slotRow) =
      rids.filterMap (locate overlay fun rid => (position rid).map slotRow) := by
  induction rids with
  | nil => rfl
  | cons rid rids ih =>
    obtain ⟨hrid, htail⟩ := pairwise_cons.mp h
    rw [filterMap_cons_toList, ← ih htail, locate]
    cases hover : overlay rid with
    | some row =>
      simp only [planRids, hover, isSome_some, if_true, zip_cons_cons, emitRows]
      rfl
    | none =>
      cases hpos : position rid with
      | some p =>
        simp only [planRids, hover, hpos, isSome_none, Bool.false_eq_true, if_false,
          zip_cons_cons, map_cons, emitRows]
        by_cases hdel : (slotRow p).deleted = true <;> simp [Option.filter, hdel]
      | none =>
        -- no id in memory may follow, so the drift does not show
        have hrest : ∀ x ∈ rids, overlay x = none := by
          intro x hx
          rw [← not_isSome_iff_eq_none]
          intro hsome
          have hfound := hrid x hx hsome
          rw [hover, hpos] at hfound
          exact hfound.elim Bool.false_ne_true Bool.false_ne_true
        have hplan : planRids (fun rid => (overlay rid).isSome) position (rid :: rids) =
            planRids (fun rid => (overlay rid).isSome) position rids := by
          simp only [planRids, hover, hpos, isSome_none, Bool.false_eq_true, if_false]
        rw [hplan, emitRows_of_run slotRow hrest (Nat.le_succ _),
          emitRows_of_run slotRow hrest le_rfl]
        rfl

/-- A position is fetched for an id that is not in memory. -/
theorem exists_of_mem_fetch {p : Nat} (rids : List Nat)
    (h : p ∈ (planRids (fun rid => (overlay rid).isSome) position rids).2) :
    ∃ rid ∈ rids, overlay rid = none ∧ position rid = some p := by
  induction rids with
  | nil => exact absurd h not_mem_nil
  | cons rid rids ih =>
    have htail : p ∈ (planRids (fun rid => (overlay rid).isSome) position rids).2 →
        ∃ x ∈ rid :: rids, overlay x = none ∧ position x = some p := by
      intro htail
      obtain ⟨x, hx, hfound⟩ := ih htail
      exact ⟨x, mem_cons_of_mem rid hx, hfound⟩
    rw [planRids] at h
    dsimp only at h
    split at h
    · exact htail h
    next hover =>
      split at h
      next q hq =>
        rcases mem_cons.mp h with rfl | h
        · exact ⟨rid, mem_cons_self, by simpa using hover, hq⟩
        · exact htail h
      next => exact htail h

end Batch

/-! ## A single run -/

namespace RunReader

/-- The row the typed decoder reads at a position; the tombstone is never asked for. -/
def rowAt (r : RunReader F) (p : Nat) : Row F :=
  ((r.run.slots[p]?).bind fun s => (r.materializeNative s).toOption).getD
    (Table.tombstone 0 ⟨0, none⟩)

/-- Where the batch route finds an id. -/
def positionOf (r : RunReader F) (snap : Snapshot) (rid : Nat) : Option Nat :=
  (((r.visiblePositionsWithRidsAt snap).2.zip (r.visiblePositionsWithRidsAt snap).1).find?
    fun e => decide (e.1 = rid)).map Prod.snd

/-- What the batch route reads for an id. -/
def batchLookup (r : RunReader F) (snap : Snapshot) (rid : Nat) :
    Except RunError (Option (Row F)) :=
  match (r.positionOf snap rid).bind fun p => r.run.slots[p]? with
  | none => .ok none
  | some s => (r.materializeNative s).map some

variable {r : RunReader F} {rid p : Nat}

theorem exists_positionOf (r : RunReader F) (snap : Snapshot) (rid : Nat) :
    ∃ l, Enumerates (fun rowId => firstWins r.stampOf (r.group snap rowId))
      (fun s => !s.row.deleted) l ∧
      r.positionOf snap rid = (l.find? fun s => decide (s.row.rowId = rid)).map Slot.index := by
  obtain ⟨l, hl, hpositions⟩ := @positions_enumerates _ r snap
  refine ⟨l, hl, ?_⟩
  rw [positionOf, hpositions, zip_map', find?_map, Option.map_map]
  rfl

theorem exists_slot_of_positionOf (h : r.positionOf snap rid = some p) :
    ∃ s, r.run.slots[p]? = some s := by
  obtain ⟨l, hl, hpos⟩ := r.exists_positionOf snap rid
  rw [hpos, map_eq_some_iff] at h
  obtain ⟨s, hs, rfl⟩ := h
  have hw := ((hl.mem_iff s).mp (mem_of_find?_eq_some hs)).1
  exact ⟨s, Run.getElem?_index (mem_group.mp (winner_mem hw)).1⟩

/-- A lookup that succeeds reads the row at the position. -/
theorem batchLookup_eq {found : Option (Row F)} (h : r.batchLookup snap rid = .ok found) :
    found = (r.positionOf snap rid).map r.rowAt ∧
      ∀ p, r.positionOf snap rid = some p →
        ∃ s, r.run.slots[p]? = some s ∧ r.materializeNative s = .ok (r.rowAt p) := by
  unfold batchLookup at h
  cases hpos : r.positionOf snap rid with
  | none =>
    rw [hpos] at h
    exact ⟨(Except.ok.inj h).symm, nofun⟩
  | some p =>
    obtain ⟨s, hs⟩ := exists_slot_of_positionOf hpos
    rw [hpos] at h
    simp only [bind_some, hs] at h
    cases hrow : r.materializeNative s with
    | error e =>
      rw [hrow] at h
      cases h
    | ok row =>
      rw [hrow] at h
      have hat : r.rowAt p = row := by simp [rowAt, hs, hrow, Except.toOption]
      refine ⟨by rw [← Except.ok.inj h, map_some, hat], ?_⟩
      rintro q ⟨⟩
      exact ⟨s, hs, by rw [hrow, hat]⟩

theorem materializeBatch_eq {indices : List Nat}
    (h : ∀ p ∈ indices, ∃ s, r.run.slots[p]? = some s ∧ r.materializeNative s = .ok (r.rowAt p)) :
    r.materializeBatch indices = .ok (indices.map r.rowAt) := by
  unfold materializeBatch
  induction indices with
  | nil => rfl
  | cons p indices ih =>
    obtain ⟨s, hs, hrow⟩ := h p mem_cons_self
    rw [filterMap_cons_some hs, mapM_cons, hrow, ih fun q hq => h q (mem_cons_of_mem p hq)]
    rfl

end RunReader

namespace Table

variable {t : Table F} {overlay stored : Nat → Option (Row F)} {rids : List Nat}

/-- Neither a tombstone in memory nor one in a run becomes a row. -/
def Found (found expected : Option (Row F)) : Prop :=
  found.filter (fun row => !row.deleted) = expected.filter fun row => !row.deleted

theorem locate_congr {stored' : Nat → Option (Row F)} {rid : Nat}
    (h : overlay rid = none → Found (stored' rid) (stored rid)) :
    locate overlay stored' rid = locate overlay stored rid := by
  unfold locate
  cases hover : overlay rid with
  | some row => rfl
  | none =>
    rw [none_or, none_or]
    exact h hover

theorem fetchEach_eq {lookup : Nat → Except RunError (Option (Row F))}
    (h : ∀ rid ∈ rids, overlay rid = none →
      ∃ found, lookup rid = .ok found ∧ Found found (stored rid)) :
    fetchEach overlay lookup rids = .ok (rids.filterMap (locate overlay stored)) := by
  induction rids with
  | nil => rfl
  | cons rid rids ih =>
    rw [fetchEach, ih fun x hx => h x (mem_cons_of_mem rid hx), filterMap_cons_toList, locate]
    cases hover : overlay rid with
    | some row => rfl
    | none =>
      obtain ⟨found, hfound, heq⟩ := h rid mem_cons_self hover
      rw [hfound, none_or, ← heq]
      rfl

theorem fetchBatch_eq {r : RunReader F}
    (h : ∀ rid ∈ rids, overlay rid = none →
      ∃ found, r.batchLookup snap rid = .ok found ∧ Found found (stored rid))
    (hal : rids.Pairwise fun x y => (overlay y).isSome = true →
      (overlay x).isSome = true ∨ (r.positionOf snap x).isSome = true) :
    fetchBatch r overlay snap rids = .ok (rids.filterMap (locate overlay stored)) := by
  show (do
    let fetched ← r.materializeBatch
      (planRids (fun rid => (overlay rid).isSome) (r.positionOf snap) rids).2
    return emitRows overlay
      (rids.zip (planRids (fun rid => (overlay rid).isSome) (r.positionOf snap) rids).1) fetched)
      = _
  have hindices : ∀ p ∈ (planRids (fun rid => (overlay rid).isSome) (r.positionOf snap) rids).2,
      ∃ s, r.run.slots[p]? = some s ∧ r.materializeNative s = .ok (r.rowAt p) := by
    intro p hmem
    obtain ⟨rid, hrid, hover, hpos⟩ := exists_of_mem_fetch rids hmem
    obtain ⟨found, hfound, -⟩ := h rid hrid hover
    exact (RunReader.batchLookup_eq hfound).2 p hpos
  rw [RunReader.materializeBatch_eq hindices]
  show Except.ok (emitRows overlay _ _) = _
  rw [emitRows_planRids r.rowAt rids hal]
  refine congrArg Except.ok (filterMap_congr fun rid hrid => locate_congr fun hover => ?_)
  obtain ⟨found, hfound, heq⟩ := h rid hrid hover
  rwa [(RunReader.batchLookup_eq hfound).1] at heq

/-! ## What a full scan sees -/

/-- The versions of a row in memory that a full scan compares. -/
def overlayScanned (t : Table F) (snap : Snapshot) (rid : Nat) : List (Row F) :=
  versionsOf rid (t.memtable.visibleVersionsAt snap ++ t.mutableRun.visibleVersionsAt snap)

/-- The versions of a row in the runs that a full scan compares. -/
def runsScanned (t : Table F) (snap : Snapshot) (rid : Nat) : List (Row F) :=
  (versionsOf rid (t.runRefs.flatMap fun rr => (t.openRun rr).visibleVersionsAt snap)).filter
    (observed snap)

theorem observed_of_mem_tier {tier : Tier F} {row : Row F} (h : row ∈ tier.visibleVersionsAt snap) :
    observed snap row = true := by
  rw [Tier.visibleVersionsAt, Tier.newestVisibleMap, (perm_insertionSort _ _).mem_iff,
    mem_tally] at h
  exact (mem_filter.mp (mem_of_mem_filter (winner_mem h))).2

theorem scanned_eq (t : Table F) (snap : Snapshot) (rid : Nat) :
    t.scanned snap rid = t.overlayScanned snap rid ++ t.runsScanned snap rid := by
  rw [scanned, versionsOf_append, filter_append, runsScanned]
  refine congrArg (· ++ _) (filter_eq_self.mpr fun row hrow => ?_)
  rcases mem_append.mp (mem_versionsOf.mp hrow).1 with hrow | hrow
  · exact observed_of_mem_tier hrow
  · exact observed_of_mem_tier hrow

/-- One pass over the tiers in memory finds the newest version they show a scan. -/
theorem foldOverlay_eq (t : Table F) (snap : Snapshot) (rid : Nat) :
    t.foldOverlay snap rid = winner newer (t.overlayScanned snap rid) := by
  rw [foldOverlay, find?_tally]
  rfl

/-- The row a full scan finds under an id. -/
def visibleRow (t : Table F) (snap : Snapshot) (nowNanos : Int) (rid : Nat) : Option (Row F) :=
  (winner newer (t.scanned snap rid)).filter (t.isLive nowNanos)

/-! ## All routes -/

/-- What the route of the fetch finds for an id in the runs. -/
def storedLookup (t : Table F) (rids : List Nat) (snap : Snapshot) (rid : Nat) :
    Except RunError (Option (Row F)) :=
  match t.runRefs with
  | [rr] =>
    if rids.length * 24 < rr.run.slots.length then
      ((t.openRun rr).getVersionAt rid snap).map fun found => found.map Prod.snd
    else (t.openRun rr).batchLookup snap rid
  | _ => .ok (t.newestOfRuns snap rid)

/-- Looking the id up finds what a scan finds. -/
structure LooksUp (t : Table F) (rids : List Nat) (snap : Snapshot) (rid : Nat) : Prop where
  /-- the probe of the tiers in memory, on the route that probes them, finds what a pass over them
  finds -/
  memory : t.overlayAt rids snap rid = t.foldOverlay snap rid
  /-- no run has a newer version than the one in memory -/
  shadow : ∀ best, t.foldOverlay snap rid = some best →
    ∀ row ∈ t.runsScanned snap rid, newer row best = false
  /-- when there is none in memory, the route finds the live version the runs show a scan -/
  stored : t.foldOverlay snap rid = none → ∃ found, t.storedLookup rids snap rid = .ok found ∧
    Found found (winner newer (t.runsScanned snap rid))

/-- The plan of the batch route has an entry for the id. -/
def planned (t : Table F) (snap : Snapshot) (rid : Nat) : Bool :=
  (t.foldOverlay snap rid).isSome ||
    t.runRefs.any fun rr => ((t.openRun rr).positionOf snap rid).isSome

/-- The fetch goes through the batch route. -/
def fetchesBatch (t : Table F) (rids : List Nat) : Bool :=
  match t.runRefs with
  | [rr] => decide (rr.run.slots.length ≤ rids.length * 24)
  | _ => false

/-- In the batch route, every id before one with a version in memory is in the plan. -/
def BatchAligned (t : Table F) (snap : Snapshot) (rids : List Nat) : Prop :=
  t.fetchesBatch rids = true → rids.Pairwise fun x y =>
    (t.foldOverlay snap y).isSome = true → t.planned snap x = true
  deriving Decidable

/-- The version in memory, else the one in the runs, is the newest that a scan sees. -/
theorem LooksUp.locate_eq {rid : Nat} (h : t.LooksUp rids snap rid) :
    locate (t.overlayAt rids snap) (fun rid => winner newer (t.runsScanned snap rid)) rid =
      (winner newer (t.scanned snap rid)).filter fun row => !row.deleted := by
  rw [locate, h.memory, scanned_eq]
  cases hover : t.foldOverlay snap rid with
  | none =>
    rw [foldOverlay_eq, winner_eq_none_iff] at hover
    rw [none_or, hover, nil_append]
  | some best =>
    have hkept := h.shadow best hover
    rw [foldOverlay_eq] at hover
    rw [some_or, winner, foldl_append]
    refine congrArg (Option.filter _) ?_
    show some best = List.foldl _ (winner newer (t.overlayScanned snap rid)) _
    rw [hover]
    exact (winner_cons_of_kept hkept).symm

theorem rowsForRidsAtTime_eq (nowNanos : Int) (h : ∀ rid ∈ rids, t.LooksUp rids snap rid)
    (hal : t.BatchAligned snap rids) :
    t.rowsForRidsAtTime rids snap nowNanos = .ok (rids.filterMap (t.visibleRow snap nowNanos)) := by
  have hrows : (rids.filterMap (locate (t.overlayAt rids snap)
      fun rid => winner newer (t.runsScanned snap rid))).filter
        (fun row => !rowExpiredAt t.ttl row nowNanos) =
      rids.filterMap (t.visibleRow snap nowNanos) := by
    rw [filter_filterMap]
    refine filterMap_congr fun rid hrid => ?_
    rw [(h rid hrid).locate_eq, visibleRow, Option.filter_filter]
    congr 1
    funext row
    rw [isLive, Bool.not_or]
  have hlookup : ∀ rid ∈ rids, t.overlayAt rids snap rid = none →
      ∃ found, t.storedLookup rids snap rid = .ok found ∧
        Found found (winner newer (t.runsScanned snap rid)) :=
    fun rid hrid hover => (h rid hrid).stored ((h rid hrid).memory ▸ hover)
  rw [← hrows, rowsForRidsAtTime]
  unfold storedLookup at hlookup
  dsimp only
  split
  next rr hrr =>
    simp only [hrr] at hlookup
    rw [openRun_run]
    split
    next hfew =>
      simp only [if_pos hfew] at hlookup
      rw [fetchEach_eq hlookup]
      rfl
    next hmany =>
      simp only [if_neg hmany] at hlookup
      have hbatch : t.fetchesBatch rids = true := by
        rw [fetchesBatch, hrr]
        exact decide_eq_true (Nat.le_of_not_lt hmany)
      have hstep : rids.Pairwise fun x y => (t.overlayAt rids snap y).isSome = true →
          (t.overlayAt rids snap x).isSome = true ∨
            ((t.openRun rr).positionOf snap x).isSome = true := by
        refine (hal hbatch).imp_of_mem fun {x y} hx hy hxy hsome => ?_
        rw [(h y hy).memory] at hsome
        rw [(h x hx).memory]
        simpa [planned, hrr] using hxy hsome
      rw [fetchBatch_eq hlookup hstep]
      rfl
  next rs hrs =>
    have hmulti : ∀ rid ∈ rids, t.overlayAt rids snap rid = none →
        ∃ found, Except.ok (t.newestOfRuns snap rid) = (.ok found : Except RunError _) ∧
          Found found (winner newer (t.runsScanned snap rid)) := by
      intro rid hrid hover
      obtain ⟨found, hfound, heq⟩ := hlookup rid hrid hover
      split at hfound
      · next rr hrr => exact absurd hrr (hrs rr)
      · exact ⟨found, hfound, heq⟩
    rw [fetchEach_eq hmulti]
    rfl

end Table

end MongrelDB.Storage
