import MongrelDB.Lib.Transition
import MongrelDB.Storage.TierSpec

/-!
# Do the reads of a tier agree?

The point lookup, the map and the cursor of a tier fold the versions of a row in
different orders and by different comparisons.
-/

namespace MongrelDB.Storage

open Epoch Lib List Option

variable {F : Type} {snap : Snapshot} {rowId : Nat}

section

variable (t : Tier F) (snap : Snapshot) (rowId : Nat)

/-- The map's entry for a row. -/
def Tier.entryAt : Option (Row F) :=
  (t.newestVisibleMap snap).find? fun row => decide (row.rowId = rowId)

/-- The last of the observed versions to supersede the others, in the order they are stored. -/
theorem Tier.filter_newestVisibleMap :
    versionsOf rowId (t.newestVisibleMap snap) =
      (lastWins Row.stamp ((versionsOf rowId t.rows).filter (observed snap))).toList := by
  rw [newestVisibleMap, versionsOf, filter_insertionSort, filter_key_tally, filter_comm]
  show (lastWins Row.stamp ((versionsOf rowId t.rows).filter (observed snap))).toList.insertionSort
    _ = _
  cases lastWins Row.stamp ((versionsOf rowId t.rows).filter (observed snap)) <;> rfl

theorem Tier.entryAt_eq :
    t.entryAt snap rowId =
      lastWins Row.stamp ((versionsOf rowId t.rows).filter (observed snap)) := by
  have h := t.filter_newestVisibleMap snap rowId
  rw [entryAt, ← head?_filter]
  show (versionsOf rowId (t.newestVisibleMap snap)).head? = _
  rw [h]
  cases lastWins Row.stamp ((versionsOf rowId t.rows).filter (observed snap)) <;> rfl

end

theorem length_toList_le_one (o : Option (Row F)) : o.toList.length ≤ 1 := by
  cases o <;> simp

theorem Tier.newestVisibleMap_ascending (t : Tier F) (snap : Snapshot) :
    (t.newestVisibleMap snap).Pairwise fun a b => a.rowId < b.rowId := by
  refine pairwise_lt_of_unique (t.visibleVersionsAt_sorted snap) fun k => ?_
  have h := t.filter_newestVisibleMap snap k
  unfold versionsOf at h
  rw [h]
  exact length_toList_le_one _

/-! ## The memtable -/

namespace Memtable

/-- The row visible at an epoch, unless it is deleted. -/
def get (m : Memtable F) (rowId epoch : Nat) : Option (Row F) :=
  (m.getVersionAt rowId (.atEpoch epoch)).filter fun row => !row.deleted

/-- A tombstone keeps the columns of the version it deletes. -/
def tombstone (m : Memtable F) (rowId epoch : Nat) : Memtable F :=
  m.upsert ⟨rowId, epoch, ((m.get rowId (epoch - 1)).map Row.columns).getD [], true, none⟩

def consolidate (m : Memtable F) : Memtable F := ⟨m.toTier.consolidate⟩

inductive Label (F : Type) where
  | upsert (row : Row F)
  | tombstone (rowId epoch : Nat)
  | sealActive
  | consolidate

def step (m : Memtable F) : Label F → Option (Memtable F)
  | .upsert row => some (m.upsert row)
  | .tombstone rowId epoch => some (m.tombstone rowId epoch)
  | .sealActive => some m.sealActive
  | .consolidate => some m.consolidate

/-- No version of the row in the memtable is after one with this stamp. -/
def Follows (m : Memtable F) (rowId : Nat) (stamp : Stamp) : Prop :=
  ∀ v ∈ m.rows, v.rowId = rowId → NotAfter v.stamp stamp
  deriving Decidable

/-- What is written is later than the versions of its row by both clocks, or of the same stamp. -/
def InOrder (m : Memtable F) : Label F → Prop
  | .upsert row => m.Follows row.rowId row.stamp
  | .tombstone rowId epoch => m.Follows rowId ⟨epoch, none⟩
  | .sealActive | .consolidate => True

instance (m : Memtable F) : (label : Label F) → Decidable (m.InOrder label)
  | .upsert row => inferInstanceAs (Decidable (m.Follows row.rowId row.stamp))
  | .tombstone rowId epoch => inferInstanceAs (Decidable (m.Follows rowId ⟨epoch, none⟩))
  | .sealActive | .consolidate => isTrue trivial

variable {m : Memtable F}

theorem inCommitOrder_upsert {row : Row F} (h : ∀ r, InCommitOrder (versionsOf r m.rows))
    (hrow : m.Follows row.rowId row.stamp) (r : Nat) :
    InCommitOrder (versionsOf r (m.upsert row).rows) := by
  have hall : InCommitOrder (versionsOf r (m.rows ++ [row])) := by
    rw [versionsOf_append, versionsOf_singleton]
    split
    next hr =>
      refine pairwise_append.mpr ⟨h r, pairwise_singleton _ _, fun v hv w hw => ?_⟩
      rw [mem_singleton.mp hw]
      obtain ⟨hmem, hid⟩ := mem_versionsOf.mp hv
      exact hrow v hmem (hid.trans hr.symm)
    next =>
      rw [append_nil]
      exact h r
  rw [versionsOf_upsert hall]
  exact hall

/-- Sealing and consolidating leave the versions of every row as they are. -/
theorem inCommitOrder_of_reachable (h : Reachable step InOrder (empty : Memtable F) m) (r : Nat) :
    InCommitOrder (versionsOf r m.rows) := by
  refine Reachable.invariant (I := fun m => ∀ r, InCommitOrder (versionsOf r m.rows)) ?_ ?_ h r
  · exact fun _ => Pairwise.nil
  · intro m label m' hm hok hstep r
    cases label with
    | upsert row =>
      rw [← some.inj hstep]
      exact inCommitOrder_upsert hm hok r
    | tombstone rowId epoch =>
      rw [← some.inj hstep]
      exact @inCommitOrder_upsert F m ⟨rowId, epoch, _, true, none⟩ hm hok r
    | sealActive =>
      rw [← some.inj hstep]
      show InCommitOrder (versionsOf r m.toTier.sealActive.rows)
      rw [Tier.versionsOf_sealActive (hm r)]
      exact hm r
    | consolidate =>
      rw [← some.inj hstep]
      show InCommitOrder (versionsOf r m.toTier.consolidate.rows)
      rw [Tier.versionsOf_consolidate (hm r)]
      exact hm r

/-- After any writes in commit order, seals and consolidations, the lookup of a row, its entry in
the map and what the cursor yields for it are the same version or all absent, and the cursor yields
the rows in ascending order, each once. -/
theorem reads_agree (h : Reachable step InOrder (empty : Memtable F) m) (snap : Snapshot) :
    (∀ r, m.entryAt snap r = m.getVersionAt r snap ∧
      versionsOf r (m.newestVisibleIter snap) = (m.getVersionAt r snap).toList) ∧
    (m.newestVisibleIter snap).Pairwise fun a b => a.rowId < b.rowId := by
  have hord := inCommitOrder_of_reachable h
  refine ⟨fun r => ⟨?_, ?_⟩, pairwise_lt_of_unique (m.newestVisibleIter_sorted snap) fun k => ?_⟩
  · rw [Tier.entryAt_eq, lastWins_observed (hord r), getVersionAt_eq (hord r)]
  · rw [filter_newestVisibleIter (hord r), getVersionAt_eq (hord r)]
  · have hfilter : versionsOf k (m.newestVisibleIter snap) = _ := filter_newestVisibleIter (hord k)
    unfold versionsOf at hfilter
    rw [hfilter]
    exact length_toList_le_one _

/-- An insert, a seal, an update and a tombstone, read between the last two. -/
theorem reads_agree_across_segments :
    ∃ m : Memtable Unit, Reachable step InOrder empty m ∧
      m.entryAt (.atEpoch 2) 1 = m.getVersionAt 1 (.atEpoch 2) ∧
      m.getVersionAt 1 (.atEpoch 2) = some ⟨1, 2, [], false, some ⟨6, 0, 0⟩⟩ := by
  obtain ⟨m, hm, hval⟩ := exists_reachable_of_execute step InOrder (empty : Memtable Unit)
    (fun m => m.getVersionAt 1 (.atEpoch 2) = some ⟨1, 2, [], false, some ⟨6, 0, 0⟩⟩)
    [.upsert ⟨1, 1, [], false, some ⟨5, 0, 0⟩⟩, .sealActive,
      .upsert ⟨1, 2, [], false, some ⟨6, 0, 0⟩⟩, .tombstone 1 3] (by decide +kernel)
  exact ⟨m, hm, ((reads_agree hm (.atEpoch 2)).1 1).1, hval⟩

/-- The second version has the higher epoch and the lower timestamp. At an epoch-only snapshot the
lookup returns it, the map and the cursor return the first one. -/
theorem epoch_lookup_ignores_timestamps :
    ∃ m : Memtable Unit, Reachable step anyStep empty m ∧
      m.getVersionAt 1 (.atEpoch 2) = some ⟨1, 2, [], false, some ⟨5, 0, 0⟩⟩ ∧
      m.entryAt (.atEpoch 2) 1 = some ⟨1, 1, [], false, some ⟨6, 0, 0⟩⟩ ∧
      m.newestVisibleIter (.atEpoch 2) = [⟨1, 1, [], false, some ⟨6, 0, 0⟩⟩] :=
  exists_reachable_of_execute step anyStep (empty : Memtable Unit)
    (fun m => m.getVersionAt 1 (.atEpoch 2) = some ⟨1, 2, [], false, some ⟨5, 0, 0⟩⟩ ∧
      m.entryAt (.atEpoch 2) 1 = some ⟨1, 1, [], false, some ⟨6, 0, 0⟩⟩ ∧
      m.newestVisibleIter (.atEpoch 2) = [⟨1, 1, [], false, some ⟨6, 0, 0⟩⟩])
    [.upsert ⟨1, 1, [], false, some ⟨6, 0, 0⟩⟩, .upsert ⟨1, 2, [], false, some ⟨5, 0, 0⟩⟩]
    (by decide +kernel)

end Memtable

/-! ## The mutable run -/

namespace MutableRun

variable {m : MutableRun F}

theorem getVersionAt_eq_entryAt (m : MutableRun F) (rowId : Nat) (snap : Snapshot) :
    m.getVersionAt rowId snap = m.entryAt snap rowId := by
  rw [Tier.entryAt_eq, Tier.versionsOf_rows, getVersionAt, filter_flatMap, filter_flatMap]
  congr 2
  funext s
  exact walked_observed s

theorem mem_merged {row : Row F} :
    row ∈ mergeSources Row.rowId (m.segments.map Segment.rows) ↔ row ∈ m.rows := by
  rw [mergeSources_eq_insertionSort m.segments_rowId_le, mem_insertionSort]
  rfl

theorem newestVisibleIter_eq_map (hgap : m.Gapless snap) :
    m.newestVisibleIter snap = m.newestVisibleMap snap := by
  have hfilter : ∀ k, versionsOf k (m.newestVisibleIter snap) =
      versionsOf k (m.newestVisibleMap snap) := by
    intro k
    have hmerged : versionsOf k (mergeSources Row.rowId (m.segments.map Segment.rows)) =
        versionsOf k m.rows := filter_key_mergeSources k m.segments_rowId_le
    rw [newestVisibleIter_eq hgap, Tier.filter_newestVisibleMap, versionsOf,
      filter_groupWinners k (pairwise_mergeSources m.segments_rowId_le), filter_comm]
    show (lastWins Row.stamp ((versionsOf k (mergeSources Row.rowId _)).filter _)).toList = _
    rw [hmerged]
  have hlt : (m.newestVisibleIter snap).Pairwise fun a b => a.rowId < b.rowId := by
    refine pairwise_lt_of_unique (newestVisibleIter_sorted hgap) fun k => ?_
    have h := (hfilter k).trans (m.filter_newestVisibleMap snap k)
    unfold versionsOf at h
    rw [h]
    exact length_toList_le_one _
  -- two ascending lists that agree on every row are equal
  have hasymm : Std.Asymm fun a b : Row F => a.rowId < b.rowId := ⟨fun a b h => Nat.lt_asymm h⟩
  refine Pairwise.eq_of_mem_iff hlt (m.newestVisibleMap_ascending snap) fun row => ?_
  have h := hfilter row.rowId
  have hrow : ∀ l : List (Row F), row ∈ l ↔ row ∈ versionsOf row.rowId l := by simp [mem_versionsOf]
  rw [hrow, h, ← hrow]

/-- A row with an observed version behind one without is in the map, and the cursor never gets
to it. -/
theorem gapless_of_iter_eq_map (h : m.newestVisibleIter snap = m.newestVisibleMap snap) :
    m.Gapless snap := by
  intro a ha b hb hab hobs
  by_contra hnone
  have hgap : ∀ c ∈ mergeSources Row.rowId (m.segments.map Segment.rows), c.rowId = a.rowId →
      observed snap c = false := by
    intro c hc hca
    by_contra hc'
    exact hnone ⟨c, mem_merged.mp hc, hca, by simpa using hc'⟩
  have hlt : ∀ x ∈ m.newestVisibleIter snap, x.rowId < a.rowId :=
    key_lt_of_mem_drain next_block (pairwise_mergeSources m.segments_rowId_le)
      (mem_merged.mpr ha) hgap _
  have hmem : b ∈ (versionsOf b.rowId m.rows).filter (observed snap) :=
    mem_filter.mpr ⟨mem_versionsOf.mpr ⟨hb, rfl⟩, hobs⟩
  cases hw : lastWins Row.stamp ((versionsOf b.rowId m.rows).filter (observed snap)) with
  | none =>
    rw [winner_eq_none_iff.mp hw] at hmem
    exact absurd hmem not_mem_nil
  | some w =>
    have hwmap : w ∈ versionsOf b.rowId (m.newestVisibleMap snap) := by
      rw [Tier.filter_newestVisibleMap, hw]
      simp
    obtain ⟨hwmem, hwid⟩ := mem_versionsOf.mp hwmap
    rw [← h] at hwmem
    have := hlt w hwmem
    omega

/-- For every mutable run and every snapshot: the point lookup returns the map's entry, the map is
ascending without a row twice, and the cursor yields the map exactly when no row without an
observed version comes before a row that has one. -/
theorem reads_agree_iff (m : MutableRun F) (snap : Snapshot) :
    (m.newestVisibleIter snap = m.newestVisibleMap snap ∧
      ((m.newestVisibleIter snap).Pairwise fun a b => a.rowId < b.rowId) ∧
      ∀ r, m.getVersionAt r snap = m.entryAt snap r) ↔ m.Gapless snap := by
  constructor
  · exact fun h => gapless_of_iter_eq_map h.1
  · intro hgap
    have hiter := newestVisibleIter_eq_map hgap
    refine ⟨hiter, ?_, fun r => m.getVersionAt_eq_entryAt r snap⟩
    rw [hiter]
    exact m.newestVisibleMap_ascending snap

/-- Row 1 was written at epoch 5 and row 2 at epoch 3. At epoch 4 the map has row 2, and the cursor
ends at row 1. -/
theorem cursor_ends_at_unseen_row :
    let m := (empty : MutableRun Unit).insertMany
      [⟨1, 5, [], false, none⟩, ⟨2, 3, [], false, none⟩] (by decide)
    m.newestVisibleIter (.atEpoch 4) = [] ∧
      m.newestVisibleMap (.atEpoch 4) = [⟨2, 3, [], false, none⟩] := by
  decide +kernel

end MutableRun

end MongrelDB.Storage
