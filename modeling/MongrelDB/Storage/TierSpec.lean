import MongrelDB.Storage.Tier
import MongrelDB.Lib.Gallop

/-!
# What the reads of a tier return

As long as the versions of a row are in commit order, each later by both clocks or of
the same stamp, all reads of a tier come down to one thing: the last version of the
row that the snapshot observes (`newest`).
-/

namespace MongrelDB.Storage

open Epoch Lib List

variable {F : Type} {snap : Snapshot} {rowId : Nat} {rows vs : List (Row F)} {row : Row F}

/-! ## Versions in commit order -/

def InCommitOrder (vs : List (Row F)) : Prop := vs.Pairwise fun a b => NotAfter a.stamp b.stamp

/-- The last version the snapshot observes. -/
def newest (snap : Snapshot) (vs : List (Row F)) : Option (Row F) :=
  (vs.filter (observed snap)).getLast?

theorem mem_versionsOf : row ∈ versionsOf rowId rows ↔ row ∈ rows ∧ row.rowId = rowId := by
  rw [versionsOf, mem_filter, decide_eq_true_eq]

theorem InCommitOrder.observed (h : InCommitOrder vs) (snap : Snapshot) :
    InCommitOrder (vs.filter (observed snap)) := Pairwise.filter _ h

theorem lastWins_observed (h : InCommitOrder vs) :
    lastWins Row.stamp (vs.filter (observed snap)) = newest snap vs :=
  lastWins_eq_getLast? (h.observed snap)

theorem mem_of_newest (h : newest snap vs = some row) : row ∈ vs ∧ observed snap row = true :=
  mem_filter.mp (mem_of_getLast? h)

theorem versionKey_le_iff {a b : Row F} (h : a.rowId = b.rowId) :
    a.versionKey ≤ b.versionKey ↔ a.committedEpoch ≤ b.committedEpoch := by
  rw [Row.versionKey, Row.versionKey, Prod.Lex.toLex_le_toLex]
  simp [h]

theorem rowId_le_of_versionKey_le {a b : Row F} (h : a.versionKey ≤ b.versionKey) :
    a.rowId ≤ b.rowId := by
  rcases versionKey_order h with h | h
  · exact Nat.le_of_lt h
  · exact Nat.le_of_eq h.1

theorem pairwise_versionKey_iff :
    (versionsOf rowId rows).Pairwise (fun a b => a.versionKey ≤ b.versionKey) ↔
      (versionsOf rowId rows).Pairwise fun a b => a.committedEpoch ≤ b.committedEpoch := by
  refine Pairwise.iff_of_mem fun {a b} ha hb => versionKey_le_iff ?_
  rw [(mem_versionsOf.mp ha).2, (mem_versionsOf.mp hb).2]

theorem InCommitOrder.epoch_le (h : InCommitOrder vs) :
    vs.Pairwise fun a b => a.committedEpoch ≤ b.committedEpoch := h.imp NotAfter.epoch_le

theorem versionsOf_sortByKey
    (h : (versionsOf rowId rows).Pairwise fun a b => a.committedEpoch ≤ b.committedEpoch) :
    versionsOf rowId (sortByKey rows) = versionsOf rowId rows :=
  filter_insertionSort_of_pairwise (pairwise_versionKey_iff.mpr h)

theorem versionsOf_append (rowId : Nat) (l r : List (Row F)) :
    versionsOf rowId (l ++ r) = versionsOf rowId l ++ versionsOf rowId r := filter_append ..

theorem versionsOf_singleton (rowId : Nat) (row : Row F) :
    versionsOf rowId [row] = if row.rowId = rowId then [row] else [] := by
  by_cases h : row.rowId = rowId
  · rw [versionsOf, filter_cons_of_pos (by simp [h]), if_pos h]
    rfl
  · rw [versionsOf, filter_cons_of_neg (by simp [h]), if_neg h]
    rfl

/-! ## Segments -/

namespace Segment

variable (s : Segment F)

theorem epoch_le (rowId : Nat) : (versionsOf rowId s.rows).Pairwise
    fun a b => a.committedEpoch ≤ b.committedEpoch :=
  pairwise_versionKey_iff.mp (s.sorted.filter _)

theorem getVersion_eq (rowId epoch : Nat) :
    s.getVersion rowId epoch =
      ((versionsOf rowId s.rows).filter fun row =>
        decide (row.committedEpoch ≤ epoch)).getLast? := by
  have hle := (s.epoch_le rowId).filter fun row => decide (row.committedEpoch ≤ epoch)
  rw [getVersion]
  rcases eq_nil_or_concat' ((versionsOf rowId s.rows).filter fun row =>
    decide (row.committedEpoch ≤ epoch)) with h | ⟨l, a, h⟩
  · rw [h]
    rfl
  · rw [h] at hle ⊢
    rw [reverse_append, reverse_singleton, getLast?_concat]
    refine winner_cons_of_kept fun b hb => ?_
    have := (pairwise_append.mp hle).2.2 b (mem_reverse.mp hb) a (by simp)
    simpa using this

end Segment

/-! ## Reads that both tiers share -/

namespace Tier

variable {t : Tier F}

theorem versionsOf_rows (t : Tier F) (rowId : Nat) :
    versionsOf rowId t.rows = t.segments.flatMap fun s => versionsOf rowId s.rows := by
  rw [rows, versionsOf, filter_flatMap]
  rfl

theorem segments_sorted (t : Tier F) :
    ∀ l ∈ t.segments.map Segment.rows, l.Pairwise fun a b => a.versionKey ≤ b.versionKey := by
  intro l hl
  obtain ⟨s, -, rfl⟩ := mem_map.mp hl
  exact s.sorted

theorem visibleVersionsAt_sorted (t : Tier F) (snap : Snapshot) :
    (t.visibleVersionsAt snap).Pairwise fun a b => a.rowId ≤ b.rowId :=
  pairwise_insertionSort (fun a b : Row F => a.rowId ≤ b.rowId) _

theorem filter_visibleVersionsAt (h : InCommitOrder (versionsOf rowId t.rows)) :
    versionsOf rowId (t.visibleVersionsAt snap) =
      (newest snap (versionsOf rowId t.rows)).toList := by
  have hwin : winner (fun a b : Row F => versionSupersedes a.stamp b.stamp)
      ((t.rows.filter (observed snap)).filter fun row => decide (row.rowId = rowId)) =
        newest snap (versionsOf rowId t.rows) := by
    rw [filter_comm]
    exact lastWins_observed h
  rw [visibleVersionsAt, newestVisibleMap, versionsOf, filter_insertionSort, filter_key_tally, hwin]
  cases newest snap (versionsOf rowId t.rows) <;> rfl

/-! ### Sealing and draining -/

theorem versionsOf_drainSorted (h : InCommitOrder (versionsOf rowId t.rows)) :
    versionsOf rowId t.drainSorted = versionsOf rowId t.rows :=
  versionsOf_sortByKey h.epoch_le

theorem rows_eq (t : Tier F) : t.rows = t.frozen.flatMap Segment.rows ++ t.active.rows := by
  rw [rows, segments, flatMap_append, flatMap_singleton]

theorem versionsOf_consolidate (h : InCommitOrder (versionsOf rowId t.rows)) :
    versionsOf rowId t.consolidate.rows = versionsOf rowId t.rows := by
  rw [rows_eq, versionsOf_append] at h
  have hfrozen : versionsOf rowId (sortByKey (t.frozen.flatMap Segment.rows)) =
      versionsOf rowId (t.frozen.flatMap Segment.rows) :=
    versionsOf_sortByKey (InCommitOrder.epoch_le (pairwise_append.mp h).1)
  rw [rows_eq, rows_eq, versionsOf_append, versionsOf_append, consolidate, flatMap_singleton]
  exact congrArg (· ++ versionsOf rowId t.active.rows) hfrozen

theorem versionsOf_sealActive (h : InCommitOrder (versionsOf rowId t.rows)) :
    versionsOf rowId t.sealActive.rows = versionsOf rowId t.rows := by
  have hsealed : (⟨t.frozen ++ [t.active], .empty⟩ : Tier F).rows = t.rows := by
    rw [rows_eq, rows_eq, flatMap_append, flatMap_singleton]
    exact append_nil _
  unfold sealActive
  split
  · rfl
  · dsimp only
    split
    · rw [versionsOf_consolidate (by rw [hsealed]; exact h), hsealed]
    · rw [hsealed]

theorem isEmpty_iff (t : Tier F) (h : t.isEmpty = true) : t.rows = [] := by
  rw [isEmpty, Bool.and_eq_true, List.isEmpty_iff, List.isEmpty_iff] at h
  rw [rows_eq, h.1, h.2]
  rfl

end Tier

/-! ## The memtable -/

namespace Memtable

variable {m : Memtable F}

/-- Asking the segments one by one, the newest first, finds the last version overall. -/
theorem winner_of_segments (segs : List (Segment F)) (epoch : Nat)
    (h : (segs.flatMap fun s => versionsOf rowId s.rows).Pairwise
      fun a b => a.committedEpoch ≤ b.committedEpoch) :
    winner (fun a b => decide (b.committedEpoch < a.committedEpoch))
        (segs.reverse.filterMap fun s => s.getVersion rowId epoch) =
      ((segs.flatMap fun s => versionsOf rowId s.rows).filter
        fun row => decide (row.committedEpoch ≤ epoch)).getLast? := by
  induction segs using List.reverseRecOn with
  | nil => rfl
  | append_singleton segs s ih =>
    rw [flatMap_append, flatMap_singleton] at h ⊢
    obtain ⟨hsegs, -, hcross⟩ := pairwise_append.mp h
    rw [reverse_append, reverse_singleton, singleton_append, filter_append,
      getLast?_append]
    cases hs : s.getVersion rowId epoch with
    | none =>
      rw [filterMap_cons_none (f := fun s : Segment F => s.getVersion rowId epoch) hs, ih hsegs,
        ← s.getVersion_eq, hs]
      rfl
    | some w =>
      have hw : w ∈ versionsOf rowId s.rows := by
        rw [s.getVersion_eq] at hs
        exact mem_of_mem_filter (mem_of_getLast? hs)
      rw [filterMap_cons_some (f := fun s : Segment F => s.getVersion rowId epoch) hs,
        ← s.getVersion_eq, hs]
      -- nothing an older segment offers has a higher epoch
      refine winner_cons_of_kept fun b hb => ?_
      obtain ⟨u, hu, hub⟩ := mem_filterMap.mp hb
      rw [u.getVersion_eq] at hub
      have hbu : b ∈ segs.flatMap fun s => versionsOf rowId s.rows :=
        mem_flatMap.mpr ⟨u, mem_reverse.mp hu,
          mem_of_mem_filter (mem_of_getLast? hub)⟩
      simpa using hcross b hbu w hw

theorem getVersionAt_eq (h : InCommitOrder (versionsOf rowId m.rows)) :
    m.getVersionAt rowId snap = newest snap (versionsOf rowId m.rows) := by
  rw [Tier.versionsOf_rows] at h ⊢
  unfold getVersionAt
  split
  next => exact lastWins_observed h
  next hhlc =>
    rw [Bool.not_eq_true] at hhlc
    have hsegs : m.active :: m.frozen.reverse = m.segments.reverse := by
      rw [Tier.segments, reverse_append]
      rfl
    rw [hsegs, winner_of_segments m.segments snap.epoch h.epoch_le, newest]
    congr 1
    refine filter_congr fun row _ => ?_
    rw [observed, Snapshot.observesVersion_of_epoch (Or.inl hhlc)]
    rfl

theorem advance_block (k : Nat) (block rest : List (Row F)) (hk : ∀ x ∈ block, x.rowId = k)
    (hrest : ∀ x ∈ rest, k < x.rowId) :
    advance snap (block ++ rest) =
      (winner (fun a b : Row F => versionSupersedes a.stamp b.stamp)
        (block.filter (observed snap))).elim (advance snap rest) fun w => (some w, rest) := by
  induction block with
  | nil => rfl
  | cons a block ih =>
    have hk' := fun x hx => hk x (mem_cons_of_mem a hx)
    rw [cons_append, advance]
    by_cases ha : observed snap a = true
    · have hfirst : gather (fun a b : Row F => versionSupersedes a.stamp b.stamp) Row.rowId
          (observed snap) a.rowId (if observed snap a then some a else none) (block ++ rest) = _ :=
        gather_first (fun x hx => (hk' x hx).trans (hk a (by simp)).symm)
          fun x hx => (hk a (by simp)).symm ▸ hrest x hx
      rw [if_pos ha] at hfirst ⊢
      rw [hfirst]
      cases hw : winner (fun a b : Row F => versionSupersedes a.stamp b.stamp)
        ((a :: block).filter (observed snap)) with
      | some w => rfl
      | none =>
        rw [winner_eq_none_iff, filter_cons_of_pos ha] at hw
        exact absurd hw (cons_ne_nil _ _)
    · rw [if_neg ha, filter_cons_of_neg ha]
      exact ih hk'

/-- The cursor yields the winner of every row, in row order. -/
theorem newestVisibleIter_eq (m : Memtable F) (snap : Snapshot) :
    m.newestVisibleIter snap =
      groupWinners (fun a b => versionSupersedes a.stamp b.stamp) Row.rowId (observed snap)
        (mergeSources Row.versionKey (m.segments.map Segment.rows)) :=
  drain_eq_groupWinners rfl (fun k block rest _ hk hrest => advance_block k block rest hk hrest)
    ((pairwise_mergeSources m.segments_sorted).imp rowId_le_of_versionKey_le) _ le_rfl

theorem newestVisibleIter_sorted (m : Memtable F) (snap : Snapshot) :
    (m.newestVisibleIter snap).Pairwise fun a b => a.rowId ≤ b.rowId := by
  have hs := (pairwise_mergeSources m.segments_sorted).imp rowId_le_of_versionKey_le
  rw [newestVisibleIter_eq]
  exact hs.sublist (groupWinners_sublist hs)

theorem filter_newestVisibleIter (h : InCommitOrder (versionsOf rowId m.rows)) :
    versionsOf rowId (m.newestVisibleIter snap) =
      (newest snap (versionsOf rowId m.rows)).toList := by
  have hmerged : versionsOf rowId (mergeSources Row.versionKey (m.segments.map Segment.rows)) =
      versionsOf rowId m.rows := by
    rw [mergeSources_eq_insertionSort m.segments_sorted]
    exact versionsOf_sortByKey h.epoch_le
  rw [newestVisibleIter_eq, versionsOf, filter_groupWinners rowId
    ((pairwise_mergeSources m.segments_sorted).imp rowId_le_of_versionKey_le), filter_comm]
  show (lastWins Row.stamp ((versionsOf rowId (mergeSources Row.versionKey _)).filter _)).toList = _
  rw [hmerged, lastWins_observed h]

/-- A version written last, and not before the others of its row, comes last. -/
theorem versionsOf_upsert (h : InCommitOrder (versionsOf rowId (m.rows ++ [row]))) :
    versionsOf rowId (m.upsert row).rows = versionsOf rowId (m.rows ++ [row]) := by
  rw [m.rows_eq, append_assoc, versionsOf_append] at h ⊢
  have hactive := InCommitOrder.epoch_le (pairwise_append.mp h).2.1
  rw [← versionsOf_sortByKey hactive, Tier.rows_eq, versionsOf_append]
  show _ ++ versionsOf rowId (insertAfter Row.versionKey row m.active.rows) = _
  rw [insertAfter_eq_insertionSort row m.active.sorted]
  rfl

end Memtable

/-! ## The mutable run -/

namespace MutableRun

variable {m : MutableRun F}

theorem takeWhile_epoch (epoch : Nat)
    (h : vs.Pairwise fun a b => a.committedEpoch ≤ b.committedEpoch) :
    vs.takeWhile (fun row => decide (row.committedEpoch ≤ epoch)) =
      vs.filter fun row => decide (row.committedEpoch ≤ epoch) := by
  refine (Partitioned.split (h.imp fun hab hb => ?_)).1
  rw [decide_eq_true_eq] at hb ⊢
  exact hab.trans hb

theorem walked_observed (s : Segment F) :
    (walked snap rowId s).filter (observed snap) =
      (versionsOf rowId s.rows).filter (observed snap) := by
  unfold walked
  by_cases hhlc : snap.usesHlcAuthority = true
  · have hall : (versionsOf rowId s.rows).takeWhile (fun row =>
        snap.usesHlcAuthority || decide (row.committedEpoch ≤ snap.epoch)) =
          versionsOf rowId s.rows := by
      simp only [hhlc, Bool.true_or]
      exact takeWhile_eq_self_iff.mpr fun _ _ => rfl
    rw [hall]
  · rw [Bool.not_eq_true] at hhlc
    have hobs : ∀ row : Row F, observed snap row = decide (row.committedEpoch ≤ snap.epoch) :=
      fun row => Snapshot.observesVersion_of_epoch (Or.inl hhlc)
    simp only [hhlc, Bool.false_or]
    rw [takeWhile_epoch _ (s.epoch_le rowId), filter_filter]
    refine filter_congr fun row _ => ?_
    rw [hobs, Bool.and_self]

theorem getVersionAt_eq (h : InCommitOrder (versionsOf rowId m.rows)) :
    m.getVersionAt rowId snap = newest snap (versionsOf rowId m.rows) := by
  rw [← lastWins_observed h, Tier.versionsOf_rows, getVersionAt, filter_flatMap,
    filter_flatMap]
  congr 2
  funext s
  exact walked_observed s

/-- Every row below one with an observed version has an observed version too. -/
def Gapless (m : MutableRun F) (snap : Snapshot) : Prop :=
  ∀ a ∈ m.rows, ∀ b ∈ m.rows, a.rowId < b.rowId → observed snap b = true →
    ∃ c ∈ m.rows, c.rowId = a.rowId ∧ observed snap c = true
  deriving Decidable

theorem next_block (k : Nat) (block rest : List (Row F)) (hne : block ≠ [])
    (hk : ∀ x ∈ block, x.rowId = k) (hrest : ∀ x ∈ rest, k < x.rowId) :
    next snap (block ++ rest) =
      (winner (fun a b : Row F => versionSupersedes a.stamp b.stamp)
        (block.filter (observed snap)), rest) := by
  obtain ⟨a, block, rfl⟩ := exists_cons_of_ne_nil hne
  have hka := hk a (by simp)
  exact gather_first (fun x hx => (hk x (mem_cons_of_mem a hx)).trans hka.symm)
    fun x hx => hka.symm ▸ hrest x hx

theorem segments_rowId_le (m : MutableRun F) :
    ∀ l ∈ m.segments.map Segment.rows, l.Pairwise fun a b => a.rowId ≤ b.rowId :=
  fun l hl => (m.segments_sorted l hl).imp rowId_le_of_versionKey_le

theorem newestVisibleIter_eq (h : m.Gapless snap) :
    m.newestVisibleIter snap =
      groupWinners (fun a b => versionSupersedes a.stamp b.stamp) Row.rowId (observed snap)
        (mergeSources Row.rowId (m.segments.map Segment.rows)) := by
  have hmem : ∀ row, row ∈ mergeSources Row.rowId (m.segments.map Segment.rows) ↔ row ∈ m.rows := by
    intro row
    rw [mergeSources_eq_insertionSort m.segments_rowId_le, mem_insertionSort]
    rfl
  refine drain_eq_groupWinners_of_gapless next_block
    (pairwise_mergeSources m.segments_rowId_le) rfl ?_ _ le_rfl
  simpa only [hmem, Gapless] using h

theorem filter_newestVisibleIter (hgap : m.Gapless snap)
    (h : InCommitOrder (versionsOf rowId m.rows)) :
    versionsOf rowId (m.newestVisibleIter snap) =
      (newest snap (versionsOf rowId m.rows)).toList := by
  have hmerged : versionsOf rowId (mergeSources Row.rowId (m.segments.map Segment.rows)) =
      versionsOf rowId m.rows := filter_key_mergeSources rowId m.segments_rowId_le
  rw [newestVisibleIter_eq hgap, versionsOf, filter_groupWinners rowId
    (pairwise_mergeSources m.segments_rowId_le), filter_comm]
  show (lastWins Row.stamp ((versionsOf rowId (mergeSources Row.rowId _)).filter _)).toList = _
  rw [hmerged, lastWins_observed h]

theorem newestVisibleIter_sorted (hgap : m.Gapless snap) :
    (m.newestVisibleIter snap).Pairwise fun a b => a.rowId ≤ b.rowId := by
  have hs := pairwise_mergeSources m.segments_rowId_le
  rw [newestVisibleIter_eq hgap]
  exact hs.sublist (groupWinners_sublist hs)

theorem versionsOf_insertMany (hr : rows.Pairwise fun a b => a.versionKey ≤ b.versionKey)
    (h : InCommitOrder (versionsOf rowId (m.rows ++ rows))) :
    versionsOf rowId (m.insertMany rows hr).rows = versionsOf rowId (m.rows ++ rows) := by
  rw [m.rows_eq, append_assoc, versionsOf_append] at h ⊢
  have hactive := InCommitOrder.epoch_le (pairwise_append.mp h).2.1
  rw [← versionsOf_sortByKey hactive, Tier.rows_eq, versionsOf_append]
  show _ ++ versionsOf rowId (mergeSources Row.versionKey [m.active.rows, rows]) = _
  rw [mergeSources_eq_insertionSort]
  · simp only [flatten_cons, flatten_nil, append_nil]
    rfl
  · exact forall_mem_cons.mpr ⟨m.active.sorted, forall_mem_singleton.mpr hr⟩

end MutableRun

end MongrelDB.Storage
