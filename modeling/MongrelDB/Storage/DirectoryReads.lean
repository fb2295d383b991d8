import MongrelDB.Storage.TableReads

/-!
# The directory against the range scan

A point read through a complete run-lookup directory visits the runs in the order of
their postings and leaves some closed; the fallback visits all runs in the order of
the table.
-/

namespace MongrelDB.Storage

open Epoch Lib List Option

variable {F : Type} {snap : Snapshot} {rowId : Nat} {row : Row F}

namespace Table

variable {t : Table F}

/-- Two orders of visiting the runs cannot end at two versions of the row. -/
structure Comparable (t : Table F) (rowId : Nat) (snap : Snapshot) : Prop where
  /-- no run has a version of the row that is visible at its placeholder epoch only -/
  epochs : ∀ rr ∈ t.runRefs, ∀ s ∈ rr.run.slots, s.row.rowId = rowId →
    (t.openRun rr).storedVisible snap s = true → (t.openRun rr).visible snap s = true
  /-- no run offers a version newer than the one in memory, or one run offers a version that is
  newer than the one in memory and than every other one on offer -/
  unrivalled : t.picks snap rowId = [] ∨
    (∃ best, t.overlayBest snap rowId = some best ∧
      ∀ row ∈ t.picks snap rowId, newer row best = false) ∨
    ∃ w ∈ t.picks snap rowId,
      (∀ best, t.overlayBest snap rowId = some best → newer w best = true) ∧
        ∀ row ∈ t.picks snap rowId, row = w ∨ newer w row = true

/-- The order in which the runs are visited does not matter. -/
theorem Comparable.foldl_eq (h : t.Comparable rowId snap) {l : List (Row F)}
    (hl : l.Perm (t.picks snap rowId)) :
    l.foldl (challenge newer) (t.overlayBest snap rowId) =
      (t.picks snap rowId).foldl (challenge newer) (t.overlayBest snap rowId) := by
  rcases h.unrivalled with hnil | ⟨best, hbest, hkept⟩ | ⟨w, hw, hover, hothers⟩
  · rw [hnil] at hl ⊢
    rw [hl.eq_nil]
  · rw [hbest]
    exact (winner_cons_of_kept fun row hrow => hkept row (hl.mem_iff.mp hrow)).trans
      (winner_cons_of_kept hkept).symm
  · have hwins : ∀ {l' : List (Row F)}, l'.Perm (t.picks snap rowId) →
        l'.foldl (challenge newer) (t.overlayBest snap rowId) = some w := fun hl' =>
      foldl_challenge_of_best (hl'.mem_iff.mpr hw) hover
        (fun row hrow => hothers row (hl'.mem_iff.mp hrow)) (fun _ _ => versionIsNewer_asymm)
        (versionIsNewer_irrefl _)
    rw [hwins hl, hwins (Perm.refl _)]

/-- The directory of all runs and the range scan over all runs return the same row. -/
theorem get_directory_eq_fallback (hids : (t.runRefs.map RunRef.runId).Nodup)
    (h : t.Comparable rowId snap) (nowNanos : Int) :
    t.publishRunLookupDirectory.get rowId snap nowNanos =
      t.loseRunLookupDirectory.get rowId snap nowNanos := by
  have hfallback : t.loseRunLookupDirectory.get rowId snap nowNanos =
      ((t.picks snap rowId).foldl (challenge newer) (t.overlayBest snap rowId)).filter
        (t.isLive nowNanos) :=
    @get_of_fallback F snap rowId t.loseRunLookupDirectory rfl nowNanos
  have hdec : t.publishRunLookupDirectory.lookupDecision rowId =
      (t.rebuildFromRuns t.runRefs).lookup rowId := by
    unfold lookupDecision publishRunLookupDirectory
    simp
  obtain ⟨l, hl, hget⟩ := @get_of_directory F snap rowId t.publishRunLookupDirectory
    ⟨hids, h.epochs⟩ hdec nowNanos
  rw [hget, hfallback]
  exact congrArg (Option.filter (t.isLive nowNanos)) (h.foldl_eq hl)

/-- A run of one version without a timestamp. -/
def oneVersion (rowId epoch : Nat) : Run Unit :=
  writeRun [] epoch [⟨rowId, epoch, [], false, none⟩] (by simp) (by simp)

/-- A run with placeholder epochs that was created at epoch 5 and holds one row. -/
def placeholderRun (rowId : Nat) : Run Unit where
  pages := [[⟨rowId, 0, [], false, none⟩]]
  storedColumns := []
  hasCommitTs := false
  clean := false
  uniformEpoch := true
  epochCreated := 5
  sorted := by simp
  clean_rows := by simp
  epoch_le := by simp
  uniform_zero := by simp

/-- Row 1 in three runs, two of them tied at epoch 2, and row 2 in a run with placeholder epochs. -/
def fourRunTable : Table Unit :=
  { new [] none with
    runRefs := [⟨0, oneVersion 1 2⟩, ⟨1, oneVersion 1 2⟩, ⟨2, oneVersion 1 4⟩,
      ⟨3, placeholderRun 2⟩] }

/-- At epoch 4 both paths find the version that supersedes the tied ones. -/
theorem directory_eq_fallback_four_runs :
    fourRunTable.publishRunLookupDirectory.get 1 (.atEpoch 4) 0 =
      fourRunTable.loseRunLookupDirectory.get 1 (.atEpoch 4) 0 :=
  get_directory_eq_fallback (by decide)
    ⟨by decide +kernel, .inr (.inr ⟨⟨1, 4, [], false, none⟩, by decide +kernel⟩)⟩ 0

/-- Row 1 in a run with placeholder epochs. -/
def bulkTable : Table Unit := { new [] none with runRefs := [⟨0, placeholderRun 1⟩] }

/-- At epoch 3 the directory leaves the run closed, the scan returns its row. -/
theorem directory_misses_placeholder_row :
    bulkTable.publishRunLookupDirectory.get 1 (.atEpoch 3) 0 = none ∧
      bulkTable.loseRunLookupDirectory.get 1 (.atEpoch 3) 0 = some ⟨1, 0, [], false, none⟩ := by
  decide +kernel

end Table

end MongrelDB.Storage
