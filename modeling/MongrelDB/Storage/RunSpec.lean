import MongrelDB.Storage.SortedRun
import MongrelDB.Lib.Gallop

/-!
# What each reader of a sorted run computes

One lemma per reader. Each applies the first rule, or the last, to the versions of
a row that the snapshot observes, in storage order (`group`), and reports the outcome
for every row (`Enumerates`).
-/

namespace MongrelDB.Storage

open Epoch Lib List

variable {F : Type}

/-! ## Slots in storage order -/

theorem slotPages_map_row (seq start : Nat) (pages : List (List (Row F))) :
    (slotPages seq start pages).flatten.map Slot.row = pages.flatten := by
  induction pages generalizing seq start with
  | nil => rfl
  | cons page pages ih =>
    rw [slotPages, flatten_cons, map_append, ih, flatten_cons]
    congr 1
    exact ext_getElem (by simp) (by simp)

theorem slotPages_map_index (seq start : Nat) (pages : List (List (Row F))) :
    (slotPages seq start pages).flatten.map Slot.index =
      List.range' start pages.flatten.length := by
  induction pages generalizing seq start with
  | nil => rfl
  | cons page pages ih =>
    rw [slotPages, flatten_cons, map_append, ih, flatten_cons, length_append,
      ← range'_append_1]
    congr 1
    exact ext_getElem (by simp) (by simp)

variable {s : Slot F}

namespace Run

variable {run : Run F}

theorem slots_map_row : run.slots.map Slot.row = run.pages.flatten := slotPages_map_row 0 0 _

theorem slots_index_lt : run.slots.Pairwise fun a b => a.index < b.index := by
  rw [← pairwise_map (f := Slot.index) (R := fun i j => i < j), slots, pageSlots,
    slotPages_map_index]
  exact pairwise_lt_range'

theorem nodup_slots : run.slots.Nodup :=
  slots_index_lt.imp fun h he => absurd (congrArg Slot.index he) (Nat.ne_of_lt h)

theorem eq_of_index_eq {a b : Slot F} (ha : a ∈ run.slots) (hb : b ∈ run.slots)
    (h : a.index = b.index) : a = b :=
  inj_on_of_nodup_map ((pairwise_map.mpr slots_index_lt).imp Nat.ne_of_lt) ha hb h

theorem getElem?_index (h : s ∈ run.slots) : run.slots[s.index]? = some s := by
  obtain ⟨i, hi, rfl⟩ := getElem_of_mem h
  have hmap : run.slots.map Slot.index = List.range' 0 run.pages.flatten.length :=
    slotPages_map_index 0 0 _
  have hindex : run.slots[i].index = i := by
    rw [← getElem_map Slot.index (h := by rw [length_map]; exact hi)]
    simp only [hmap, getElem_range', Nat.zero_add, Nat.one_mul]
  rw [hindex, getElem?_eq_getElem hi]

theorem row_mem (h : s ∈ run.slots) : s.row ∈ run.pages.flatten := by
  rw [← slots_map_row]
  exact mem_map_of_mem h

/-- A fact about all stored rows in order is one about all slots in order. -/
theorem pairwise_slots {R : Row F → Row F → Prop} (h : run.pages.flatten.Pairwise R) :
    run.slots.Pairwise fun a b => R a.row b.row := by
  rw [← slots_map_row, pairwise_map] at h
  exact h

theorem slots_rowId_le : run.slots.Pairwise fun a b => a.row.rowId ≤ b.row.rowId := by
  refine (pairwise_slots run.sorted).imp fun h => ?_
  rcases h with h | ⟨h, -⟩
  · exact Nat.le_of_lt h
  · exact Nat.le_of_eq h

theorem eq_of_rowId_eq (hc : run.clean = true) {a b : Slot F} (ha : a ∈ run.slots)
    (hb : b ∈ run.slots) (h : a.row.rowId = b.row.rowId) : a = b := by
  have hlt : (run.slots.map fun s => s.row.rowId).Pairwise fun i j => i < j :=
    pairwise_map.mpr (pairwise_slots (run.clean_rows hc).1)
  exact inj_on_of_nodup_map (hlt.imp Nat.ne_of_lt) ha hb h

end Run

/-- `l` lists, in storage order, exactly the winners that satisfy `p`. -/
structure Enumerates (w : Nat → Option (Slot F)) (p : Slot F → Bool) (l : List (Slot F)) :
    Prop where
  ordered : l.Pairwise fun a b => a.index < b.index
  mem_iff : ∀ s, s ∈ l ↔ w s.row.rowId = some s ∧ p s = true

theorem Enumerates.filter {w : Nat → Option (Slot F)} {p : Slot F → Bool} {l : List (Slot F)}
    (h : Enumerates w p l) (q : Slot F → Bool) :
    Enumerates w (fun s => p s && q s) (l.filter q) where
  ordered := h.ordered.filter q
  mem_iff s := by
    rw [mem_filter, h.mem_iff, Bool.and_eq_true, and_assoc]

namespace RunReader

variable {r : RunReader F} {snap : Snapshot} {rowId : Nat} {replaces : Stamp → Stamp → Bool}

/-! ## The observed versions of a row -/

/-- The versions of `rowId` that the snapshot observes, in storage order. -/
def group (r : RunReader F) (snap : Snapshot) (rowId : Nat) : List (Slot F) :=
  (r.run.slots.filter (r.visible snap)).filter fun s => decide (s.row.rowId = rowId)

theorem mem_group :
    s ∈ r.group snap rowId ↔ s ∈ r.run.slots ∧ r.visible snap s = true ∧ s.row.rowId = rowId := by
  rw [group, mem_filter, mem_filter, decide_eq_true_eq, and_assoc]

theorem group_sublist : (r.group snap rowId).Sublist r.run.slots :=
  (filter_sublist).trans filter_sublist

theorem nodup_group : (r.group snap rowId).Nodup := Run.nodup_slots.sublist group_sublist

/-- With or without an overlay, the versions of a row are in epoch order. -/
theorem epochSorted_group : EpochSorted r.stampOf (r.group snap rowId) := by
  refine Pairwise.imp_of_mem ?_ ((Run.pairwise_slots r.run.sorted).sublist group_sublist)
  intro a b ha hb h
  have hid : a.row.rowId = b.row.rowId := by
    rw [(mem_group.mp ha).2.2, (mem_group.mp hb).2.2]
  have hle : a.row.committedEpoch ≤ b.row.committedEpoch := by
    rcases h with h | h
    · omega
    · exact h.2
  unfold stampOf
  cases r.epochOverride with
  | none => exact hle
  | some e => exact Nat.le_refl e

/-! ## Scans keyed by row id -/

theorem sortSlots_perm (l : List (Slot F)) : (sortSlots l).Perm l := perm_insertionSort _ l

theorem sortSlots_ordered {l : List (Slot F)} (hl : l.Nodup) (hsub : ∀ s ∈ l, s ∈ r.run.slots) :
    (sortSlots l).Pairwise fun a b => a.index < b.index := by
  have hle : (sortSlots l).Pairwise fun a b => a.index ≤ b.index :=
    pairwise_insertionSort (fun a b : Slot F => a.index ≤ b.index) l
  have hnd : (sortSlots l).Nodup := (sortSlots_perm l).nodup_iff.mpr hl
  refine Pairwise.imp_of_mem ?_ (hle.and hnd)
  intro a b ha hb h
  have hane : a.index ≠ b.index := by
    intro he
    exact h.2 (Run.eq_of_index_eq (hsub a ((sortSlots_perm l).mem_iff.mp ha))
      (hsub b ((sortSlots_perm l).mem_iff.mp hb)) he)
  omega

theorem mem_bestByRow :
    s ∈ r.bestByRow replaces snap ↔
      winner (fun a b => replaces (r.stampOf a) (r.stampOf b)) (r.group snap s.row.rowId) =
        some s := mem_tally

theorem nodup_bestByRow :
    (r.bestByRow replaces snap).Nodup := (nodup_keys_tally _).of_map

theorem slot_mem_of_bestByRow
    (h : s ∈ r.bestByRow replaces snap) : s ∈ r.run.slots :=
  (mem_group.mp (winner_mem (mem_bestByRow.mp h))).1

theorem visiblePicksAt_enumerates :
    Enumerates (fun rowId => lastWins r.stampOf (r.group snap rowId)) (fun _ => true)
      (r.visiblePicksAt snap) where
  ordered := sortSlots_ordered nodup_bestByRow fun s hs => slot_mem_of_bestByRow hs
  mem_iff s := by
    rw [visiblePicksAt, (sortSlots_perm _).mem_iff, mem_bestByRow]
    exact (and_iff_left rfl).symm

/-- What the index scans report: the live winners of the first rule. -/
theorem liveIndicesAt_enumerates :
    ∃ l, Enumerates (fun rowId => firstWins r.stampOf (r.group snap rowId))
      (fun s => !s.row.deleted) l ∧ r.liveIndicesAt snap = l.map Slot.index := by
  refine ⟨_, ⟨?_, ?_⟩, rfl⟩
  · exact sortSlots_ordered (nodup_bestByRow.filter _) fun s hs =>
      slot_mem_of_bestByRow (mem_of_mem_filter hs)
  · intro s
    rw [(sortSlots_perm _).mem_iff, mem_filter, mem_bestByRow]
    rfl

/-! ## Scans over groups -/

theorem groupBestAt_enumerates :
    Enumerates (fun rowId => firstWins r.stampOf (r.group snap rowId)) (fun _ => true)
      (r.groupBestAt snap) where
  ordered := Run.slots_index_lt.sublist (groupWinners_sublist Run.slots_rowId_le)
  mem_iff s := by
    rw [groupBestAt, mem_groupWinners Run.slots_rowId_le]
    exact (and_iff_left rfl).symm

theorem firstWins_of_clean (hc : r.run.clean = true) (hs : s ∈ r.run.slots)
    (hv : r.visible snap s = true) :
    firstWins r.stampOf (r.group snap s.row.rowId) = some s := by
  have hmem : s ∈ r.group snap s.row.rowId := mem_group.mpr ⟨hs, hv, rfl⟩
  cases hw : firstWins r.stampOf (r.group snap s.row.rowId) with
  | none =>
    rw [firstWins, winner_eq_none_iff] at hw
    rw [hw] at hmem
    exact absurd hmem not_mem_nil
  | some w =>
    obtain ⟨hwmem, -, hid⟩ := mem_group.mp (winner_mem hw)
    rw [Run.eq_of_rowId_eq hc hwmem hs hid]

theorem winner_iff_of_clean (hc : r.run.clean = true) :
    firstWins r.stampOf (r.group snap s.row.rowId) = some s ∧ (!s.row.deleted) = true ↔
      s ∈ r.run.slots ∧ r.visible snap s = true := by
  constructor
  · intro h
    have hmem := mem_group.mp (winner_mem h.1)
    exact ⟨hmem.1, hmem.2.1⟩
  · intro h
    have hlive := (r.run.clean_rows hc).2 s.row (Run.row_mem h.1)
    exact ⟨firstWins_of_clean hc h.1 h.2, by simp [hlive]⟩

theorem cleanAt_iff :
    r.cleanAt snap = true ↔
      r.run.clean = true ∧ r.epochOverride = none ∧ r.run.epochCreated ≤ snap.epoch := by
  simp only [cleanAt, Bool.and_eq_true, Option.isNone_iff_eq_none, decide_eq_true_eq, and_assoc]

/-- The clean-run shortcut lists the same slots as the full pass. -/
theorem clean_enumerates {picked : List (Slot F)} (hc : r.cleanAt snap = true)
    (hp : picked = r.run.slots.filter (r.visible snap)) :
    Enumerates (fun rowId => firstWins r.stampOf (r.group snap rowId))
      (fun s => !s.row.deleted) picked where
  ordered := hp ▸ Run.slots_index_lt.filter _
  mem_iff s := by
    rw [hp, mem_filter, winner_iff_of_clean (cleanAt_iff.mp hc).1]

theorem visible_of_cleanAt (hc : r.cleanAt snap = true) (hs : s ∈ r.run.slots) :
    r.visible snap s = snap.observesVersion ⟨r.run.epochCreated, r.commitTsOf s⟩ := by
  obtain ⟨-, hnone, hle⟩ := cleanAt_iff.mp hc
  have hepoch := r.run.epoch_le s.row (Run.row_mem hs)
  rw [visible, stampOf, hnone]
  exact Snapshot.observesVersion_congr (Nat.le_trans hepoch hle) hle

/-- Without timestamps on one side, a clean run old enough is visible as a whole. -/
theorem filter_visible_of_cleanAt (hc : r.cleanAt snap = true)
    (hts : (!snap.usesHlcAuthority || !r.run.hasCommitTs) = true) :
    r.run.slots.filter (r.visible snap) = r.run.slots := by
  rw [filter_eq_self]
  intro s hs
  obtain ⟨-, -, hle⟩ := cleanAt_iff.mp hc
  rw [visible_of_cleanAt hc hs, Snapshot.observesVersion_of_epoch]
  · exact decide_eq_true hle
  · simp only [Bool.or_eq_true, Bool.not_eq_true'] at hts
    refine hts.imp_right fun hno => ?_
    simp [commitTsOf, hno]

theorem positions_enumerates :
    ∃ l, Enumerates (fun rowId => firstWins r.stampOf (r.group snap rowId))
      (fun s => !s.row.deleted) l ∧
      r.visiblePositionsWithRidsAt snap = (l.map Slot.index, l.map fun s => s.row.rowId) := by
  refine ⟨_, ?_, rfl⟩
  split
  next hc =>
    split
    next hts => exact clean_enumerates hc (filter_visible_of_cleanAt hc hts).symm
    next =>
      refine clean_enumerates hc (filter_congr fun s hs => ?_)
      exact (visible_of_cleanAt hc hs).symm
  next => exact groupBestAt_enumerates.filter _

theorem tombstoned_enumerates :
    ∃ l, Enumerates (fun rowId => firstWins r.stampOf (r.group snap rowId))
      (fun s => s.row.deleted) l ∧
      r.tombstonedRowIdsAt snap = l.map fun s => s.row.rowId := by
  unfold tombstonedRowIdsAt
  split
  next hc =>
    rw [Bool.and_eq_true] at hc
    obtain ⟨hclean, -, -⟩ := cleanAt_iff.mp hc.1
    refine ⟨[], ⟨Pairwise.nil, fun s => ?_⟩, rfl⟩
    constructor
    · intro h
      exact absurd h not_mem_nil
    · intro ⟨hw, hdel⟩
      have hs := (mem_group.mp (winner_mem hw)).1
      rw [(r.run.clean_rows hclean).2 s.row (Run.row_mem hs)] at hdel
      exact absurd hdel Bool.false_ne_true
  next => exact ⟨_, groupBestAt_enumerates.filter _, rfl⟩

/-! ## The cursor -/

section

variable (r : RunReader F) (snap : Snapshot)

/-- The inner loop over the rest `b` of a group challenges the best so far with its visible
versions and leaves what follows the group pending. -/
theorem gatherGroup_rest {b rest : List (Slot F)} (hb : ∀ s ∈ b, s.row.rowId = rowId)
    (hrest : ∀ s ∈ rest, rowId < s.row.rowId) (best : Option (Slot F)) :
    ∃ cur', cur'.pending = rest ∧
      r.gatherGroup snap rowId best (b ++ rest) =
        ((b.filter (r.visible snap)).foldl
          (challenge fun x y => versionIsNewer (r.stampOf x) (r.stampOf y)) best, cur') := by
  induction b generalizing best with
  | nil =>
    cases rest with
    | nil => exact ⟨⟨none, []⟩, rfl, rfl⟩
    | cons c rest =>
      have hne : c.row.rowId ≠ rowId := Nat.ne_of_gt (hrest c (by simp))
      rw [nil_append, gatherGroup, if_pos hne]
      exact ⟨⟨some c, rest⟩, rfl, rfl⟩
  | cons c b ih =>
    have hid : c.row.rowId = rowId := hb c (by simp)
    have hih := ih fun s hs => hb s (mem_cons_of_mem _ hs)
    rw [cons_append, gatherGroup, if_neg (not_not.mpr hid)]
    by_cases hv : r.visible snap c = true
    · rw [filter_cons_of_pos hv, foldl_cons, if_pos hv]
      exact hih _
    · rw [filter_cons_of_neg hv, if_neg hv]
      exact hih _

/-- Started on the first version of a group, the inner loop ends with the group's winner. -/
theorem gatherGroup_block {first : Slot F} {b rest : List (Slot F)}
    (hb : ∀ s ∈ b, s.row.rowId = first.row.rowId)
    (hrest : ∀ s ∈ rest, first.row.rowId < s.row.rowId) :
    ∃ cur', cur'.pending = rest ∧
      r.gatherGroup snap first.row.rowId (if r.visible snap first then some first else none)
          (b ++ rest) =
        (firstWins r.stampOf ((first :: b).filter (r.visible snap)), cur') := by
  obtain ⟨cur', hpend, hgather⟩ := gatherGroup_rest r snap hb hrest
    (if r.visible snap first then some first else none)
  refine ⟨cur', hpend, ?_⟩
  rw [hgather]
  unfold firstWins winner
  by_cases hv : r.visible snap first = true
  · rw [filter_cons_of_pos hv, if_pos hv]
    rfl
  · rw [filter_cons_of_neg hv, if_neg hv]

/-- The winners a cursor has still to yield. -/
def remaining (pending : List (Slot F)) : List (Slot F) :=
  groupWinners (fun a b => versionIsNewer (r.stampOf a) (r.stampOf b)) (fun s => s.row.rowId)
    (r.visible snap) pending

/-- `out` is the next of the remaining winners, with the rest of them left; or their end. -/
def Delivers (pending : List (Slot F))
    (out : Option (Slot F) × RunCursor F) : Prop :=
  match out.1 with
  | none => r.remaining snap pending = []
  | some v => r.remaining snap pending = v :: r.remaining snap out.2.pending ∧
      out.2.pending.Pairwise fun a b => a.row.rowId ≤ b.row.rowId

theorem nextVisibleVersion_delivers (pending : List (Slot F))
    (hs : pending.Pairwise fun a b => a.row.rowId ≤ b.row.rowId) :
    ∀ (fuel : Nat) (cur : RunCursor F), cur.pending = pending → pending.length ≤ fuel →
      r.Delivers snap pending (r.nextVisibleVersion snap fuel cur) := by
  refine sorted_block_induction (motive := fun pending =>
    pending.Pairwise (fun a b => a.row.rowId ≤ b.row.rowId) →
    ∀ (fuel : Nat) (cur : RunCursor F), cur.pending = pending → pending.length ≤ fuel →
      r.Delivers snap pending (r.nextVisibleVersion snap fuel cur)) ?_ ?_ pending hs hs
  · intro _ fuel cur hcur _
    cases fuel with
    | zero => rfl
    | succ fuel =>
      rw [nextVisibleVersion, hcur]
      rfl
  · intro k block rest hne hk hrest ih hs fuel cur hcur hfuel
    obtain ⟨first, b, rfl⟩ := exists_cons_of_ne_nil hne
    obtain rfl : first.row.rowId = k := hk first (by simp)
    have hsorted := (pairwise_append.mp hs).2.1
    obtain ⟨cur', hpend, hgather⟩ := gatherGroup_block r snap (b := b)
      (fun s hs => hk s (mem_cons_of_mem _ hs)) hrest
    have hrem : r.remaining snap (first :: b ++ rest) =
        (firstWins r.stampOf ((first :: b).filter (r.visible snap))).toList ++
          r.remaining snap rest := groupWinners_block hne hk hrest
    rw [cons_append] at hcur hfuel hrem ⊢
    cases fuel with
    | zero => simp at hfuel
    | succ fuel =>
      rw [nextVisibleVersion, hcur]
      simp only [hgather]
      cases hw : firstWins r.stampOf ((first :: b).filter (r.visible snap)) with
      | some v =>
        rw [hw] at hrem
        refine ⟨?_, hpend ▸ hsorted⟩
        rw [hrem, hpend]
        rfl
      | none =>
        -- a group without a visible version: the call goes on with the next group
        rw [hw] at hrem
        have hlen : rest.length ≤ fuel := by
          simp only [length_append, length_cons] at hfuel
          omega
        unfold Delivers
        rw [hrem]
        exact ih hsorted fuel cur' hpend hlen

end

theorem drainCursor_eq (fuel : Nat) (cur : RunCursor F)
    (hs : cur.pending.Pairwise fun a b => a.row.rowId ≤ b.row.rowId)
    (hfuel : (r.remaining snap cur.pending).length ≤ fuel) :
    r.drainCursor snap fuel cur = r.remaining snap cur.pending := by
  induction fuel generalizing cur with
  | zero =>
    rw [length_eq_zero_iff.mp (Nat.le_zero.mp hfuel)]
    rfl
  | succ fuel ih =>
    have hnext := nextVisibleVersion_delivers r snap cur.pending hs _ cur rfl le_rfl
    rw [drainCursor]
    split
    next heq =>
      rw [heq] at hnext
      exact hnext.symm
    next v cur' heq =>
      rw [heq] at hnext
      obtain ⟨hrem, hs'⟩ := hnext
      rw [hrem, length_cons] at hfuel
      rw [hrem, ih cur' hs' (Nat.le_of_succ_le_succ hfuel)]

theorem cursorVersionsAt_eq (r : RunReader F) (snap : Snapshot) :
    r.cursorVersionsAt snap = r.groupBestAt snap := by
  refine drainCursor_eq _ _ Run.slots_rowId_le ?_
  exact (groupWinners_sublist Run.slots_rowId_le).length_le

theorem cursor_enumerates :
    Enumerates (fun rowId => firstWins r.stampOf (r.group snap rowId)) (fun _ => true)
      (r.cursorVersionsAt snap) := by
  rw [cursorVersionsAt_eq]
  exact groupBestAt_enumerates

/-! ## Point lookup -/

section

variable {page : List (Slot F)} (hs : page.Pairwise fun a b => a.row.rowId ≤ b.row.rowId)
include hs

/-- From the first match on, the stretch is everything that matches. -/
theorem takeWhile_eq_filter (hge : ∀ s ∈ page, rowId ≤ s.row.rowId) :
    page.takeWhile (fun s => decide (s.row.rowId = rowId)) =
      page.filter fun s => decide (s.row.rowId = rowId) := by
  refine (Partitioned.split (hs.imp_of_mem fun {s t} hmem _ hst ht => ?_)).1
  have hle := hge s hmem
  rw [decide_eq_true_eq] at ht ⊢
  omega

theorem pageGroup_eq_filter :
    pageGroup rowId page = page.filter fun s => decide (s.row.rowId = rowId) := by
  induction page with
  | nil => rfl
  | cons s page ih =>
    by_cases h : s.row.rowId = rowId
    · have hfind : (s :: page).findIdx? (fun s => decide (s.row.rowId = rowId)) = some 0 := by
        rw [findIdx?_cons, if_pos (by simp [h])]
      rw [pageGroup, hfind]
      exact takeWhile_eq_filter hs (forall_mem_cons.mpr
        ⟨Nat.le_of_eq h.symm, fun t ht => h ▸ (pairwise_cons.mp hs).1 t ht⟩)
    · rw [filter_cons_of_neg (by simp [h]), ← ih (pairwise_cons.mp hs).2, pageGroup,
        pageGroup, findIdx?_cons, if_neg (by simp [h])]
      cases page.findIdx? fun s => decide (s.row.rowId = rowId) <;> rfl

theorem pageMayContain_of_mem (hmem : s ∈ page) :
    pageMayContain s.row.rowId page = true := by
  have hfirst : ∃ first, page.head? = some first ∧ first.row.rowId ≤ s.row.rowId := by
    cases page with
    | nil => exact absurd hmem not_mem_nil
    | cons a page =>
      refine ⟨a, rfl, ?_⟩
      rcases mem_cons.mp hmem with rfl | hmem
      · exact le_rfl
      · exact (pairwise_cons.mp hs).1 s hmem
  have hlast : ∃ last, page.getLast? = some last ∧ s.row.rowId ≤ last.row.rowId := by
    rcases eq_nil_or_concat' page with rfl | ⟨l, b, rfl⟩
    · exact absurd hmem not_mem_nil
    · refine ⟨b, by simp, ?_⟩
      rcases mem_append.mp hmem with hmem | hmem
      · exact (pairwise_append.mp hs).2.2 s hmem b (by simp)
      · rw [mem_singleton.mp hmem]
  obtain ⟨first, hf, hle⟩ := hfirst
  obtain ⟨last, hl, hge⟩ := hlast
  simp [pageMayContain, hf, hl, hle, hge]

end

theorem candidatePages_flatMap (rowId : Nat) (pages : List (List (Slot F)))
    (hs : pages.flatten.Pairwise fun a b => a.row.rowId ≤ b.row.rowId) :
    (pages.filter (pageMayContain rowId)).flatMap (pageGroup rowId) =
      pages.flatten.filter fun s => decide (s.row.rowId = rowId) := by
  induction pages with
  | nil => rfl
  | cons page pages ih =>
    rw [flatten_cons] at hs ⊢
    obtain ⟨hpage, hpages, -⟩ := pairwise_append.mp hs
    rw [filter_append, ← ih hpages]
    by_cases hmay : pageMayContain rowId page = true
    · rw [filter_cons_of_pos hmay, flatMap_cons, pageGroup_eq_filter hpage]
    · have hnil : page.filter (fun s => decide (s.row.rowId = rowId)) = [] := by
        rw [filter_eq_nil_iff]
        intro s hmem hid
        rw [decide_eq_true_eq] at hid
        exact hmay (hid ▸ pageMayContain_of_mem hpage hmem)
      rw [filter_cons_of_neg hmay, hnil, nil_append]

/-- The versions of `rowId` a point lookup considers: those the snapshot observes at their
*stored* epoch. -/
def storedGroup (r : RunReader F) (snap : Snapshot) (rowId : Nat) : List (Slot F) :=
  (r.run.slots.filter (r.storedVisible snap)).filter fun s => decide (s.row.rowId = rowId)

theorem findVersionPageAt_eq (r : RunReader F) (rowId : Nat) (snap : Snapshot) :
    r.findVersionPageAt rowId snap = lastWins r.storedStampOf (r.storedGroup snap rowId) := by
  rw [findVersionPageAt, candidatePages_flatMap rowId _ Run.slots_rowId_le, storedGroup,
    filter_comm]
  rfl

theorem mem_storedGroup :
    s ∈ r.storedGroup snap rowId ↔
      s ∈ r.run.slots ∧ r.storedVisible snap s = true ∧ s.row.rowId = rowId := by
  rw [storedGroup, mem_filter, mem_filter, decide_eq_true_eq, and_assoc]

end RunReader

end MongrelDB.Storage
