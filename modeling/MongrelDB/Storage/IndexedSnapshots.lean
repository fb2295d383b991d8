import Mathlib.Tactic.MkIffOfInductiveProp
import MongrelDB.Storage.BitmapWrites

/-!
# Do the bitmap indexes cover an older snapshot?

A bitmap index has no versions. A delete leaves the row's entries where they are, so
that older snapshots still find the row.
-/

namespace MongrelDB.Storage.WritePath

open Epoch Lib List
open Option hiding any_eq_true mem_map

variable {F : Type}

namespace Writer

variable {rows : List (Row F)}

/-- The index has an entry for each value of the row. -/
def Listed (c : Schema F) (b : Bitmap) (row : Row F) : Prop :=
  ∀ idx ∈ c.indexes, ∀ v, row.get idx.columnId = some v → v ≠ .null →
    b.contains idx.columnId (c.indexLookupKey idx.columnId v) row.rowId = true

/-- Each column with an index and a value has an index that takes the row. -/
def Covered (c : Schema F) (row : Row F) : Prop :=
  ∀ idx ∈ c.indexes, ∀ v ∈ row.get idx.columnId, isNull v = false →
    ∃ other ∈ c.indexes, other.columnId = idx.columnId ∧
      other.predicate.all (evalPartialPredicate row) = true
  deriving Decidable

/-- `index_row` enters each value of the row under the key it is looked up by. -/
def Indexed (c : Schema F) (row : Row F) : Prop :=
  ∀ idx ∈ c.indexes, ∀ v ∈ row.get idx.columnId, isNull v = false →
    (idx.columnId, c.indexLookupKey idx.columnId v) ∈ indexKeys c row
  deriving Decidable

theorem isNull_eq_false {v : Value F} (h : v ≠ .null) : isNull v = false := by
  cases v <;> first | rfl | exact absurd rfl h

/-- What the snapshot shows is listed, or a row of `rest` that is still to be entered. -/
structure Covering (c : Schema F) (snap : Snapshot) (rest : List (Row F)) (s : Writer F) :
    Prop where
  ordered : s.table.Ordered
  listed : ∀ rowId row, newest snap (s.table.versions rowId) = some row → row.deleted = false →
    Listed c s.bitmap row ∨ ∃ r ∈ rest, Indexed c r ∧ row.rowId = r.rowId ∧
      ∀ col v, row.get col = some v → v ≠ .null → r.get col = some v

variable {c : Schema F} {snap at_ : Snapshot} {nowNanos : Int} {probe : Bool} {s s' : Writer F}
  {row old : Row F} {rowId : Nat} {stamp : Stamp}

theorem Covering.listed_all (h : Covering c snap [] s)
    (hrow : newest snap (s.table.versions rowId) = some row) (hlive : row.deleted = false) :
    Listed c s.bitmap row :=
  (h.listed rowId row hrow hlive).resolve_right fun ⟨_, hr, _⟩ => not_mem_nil hr

theorem rowId_of_mem_versions {t : Table F} {id : Nat} (h : row ∈ t.versions id) :
    row.rowId = id := by
  rw [Table.versions, Table.storedVersions, Table.overlayVersions, mem_append, mem_append,
    mem_flatMap] at h
  rcases h with ⟨rr, -, h⟩ | h | h
  · obtain ⟨s, hs, rfl⟩ := mem_map.mp h
    exact of_decide_eq_true (mem_filter.mp hs).2
  · exact (mem_versionsOf.mp h).2
  · exact (mem_versionsOf.mp h).2

/-! ## Tombstones -/

theorem newest_tombstoneRow (h : s.table.Ordered) (hw : s.table.WriteInOrder rowId stamp)
    (id : Nat) :
    newest snap ((s.tombstoneRow rowId stamp true).table.versions id) =
      if rowId = id ∧ snap.observesVersion stamp = true then some (Table.tombstone rowId stamp)
      else newest snap (s.table.versions id) := by
  have hput : (s.table.put (Table.tombstone rowId stamp)).versions id = _ :=
    Table.versions_put h hw id
  show newest snap ((s.table.put (Table.tombstone rowId stamp)).versions id) = _
  rw [hput, versionsOf_singleton]
  by_cases hid : (Table.tombstone (F := F) rowId stamp).rowId = id
  · rw [if_pos hid, newest_concat]
    have hid' : rowId = id := hid
    simp only [hid', true_and]
    rfl
  · rw [if_neg hid, append_nil, if_neg fun h => hid h.1]

theorem Covering.tombstoneRow {rest : List (Row F)} (h : Covering c snap rest s)
    (hw : s.table.WriteInOrder rowId stamp) :
    Covering c snap rest (s.tombstoneRow rowId stamp true) := by
  have hput : (s.table.put (Table.tombstone rowId stamp)).Ordered := h.ordered.put hw
  refine ⟨hput, fun id row hrow hlive => ?_⟩
  rw [newest_tombstoneRow h.ordered hw] at hrow
  split at hrow
  · obtain rfl := some.inj hrow
    exact nomatch hlive
  · exact h.listed id row hrow hlive

/-! ## Puts -/

/-- A put after which the snapshot's rows are still listed. -/
@[mk_iff]
structure Harmless (c : Schema F) (snap at_ : Snapshot) (nowNanos : Int) (probe : Bool)
    (s : Writer F) (row : Row F) : Prop where
  written : row.deleted = false
  inOrder : s.table.WriteInOrder row.rowId row.stamp
  holder : ∀ old ∈ s.holder c probe row, s.table.WriteInOrder old row.stamp
  /-- a row the snapshot sees is entered under each of its values -/
  covered : snap.observesVersion row.stamp = true → Covered c row ∧
    ∀ idx ∈ c.indexes, ∀ v ∈ row.get idx.columnId, isNull v = false →
      FoundBy c s (s.makeRoom c at_ nowNanos probe row).2 row idx.columnId v
  /-- the snapshot does not see the row that is replaced, or sees the put, or the entries by which
  it finds the row are not the ones the replacement takes out -/
  unseen : ∀ old ∈ (s.makeRoom c at_ nowNanos probe row).2,
    ∀ shown ∈ newest snap (s.table.versions old.rowId), shown.deleted = true ∨
      (snap.observesVersion row.stamp = true ∧
        (old.rowId = row.rowId ∨ s.holder c probe row = some old.rowId)) ∨
      ∀ idx ∈ c.indexes, ∀ v ∈ shown.get idx.columnId, isNull v = false →
        bitmapKeyForColumn c old idx.columnId ≠ some (c.indexLookupKey idx.columnId v)

theorem Harmless.listed_new (h : Harmless c snap at_ nowNanos probe s row)
    (hobs : snap.observesVersion row.stamp = true)
    (hput : s.applyPutRow c at_ nowNanos probe row = some s') : Listed c s'.bitmap row := by
  rw [applyPutRow_eq] at hput
  obtain ⟨s₁, hs₁, rfl⟩ := map_eq_some_iff.mp hput
  obtain ⟨hcovered, hheld⟩ := h.covered hobs
  intro idx hidx v hv hnull
  have hn := isNull_eq_false hnull
  -- an index on the column takes the row, and the entry is the column's
  obtain ⟨other, hother, hcol, hp⟩ := hcovered idx hidx v hv hn
  have hfound := hheld idx hidx v hv hn
  rw [← hcol] at hv hfound ⊢
  refine (contains_index_new h.written hs₁ hother hp hv).mpr ?_
  rwa [FoundBy, bitmapEq, bitmap_makeRoom]

/-- The entries of other rows stay, but for those of the row that is replaced. -/
theorem listed_of_put (hrow : row.deleted = false)
    (hput : s.applyPutRow c at_ nowNanos probe row = some s') {r : Row F}
    (hne : ∀ old ∈ (s.makeRoom c at_ nowNanos probe row).2, old.rowId = r.rowId →
      ∀ idx ∈ c.indexes, ∀ v ∈ r.get idx.columnId, isNull v = false →
        bitmapKeyForColumn c old idx.columnId ≠ some (c.indexLookupKey idx.columnId v))
    (h : Listed c s.bitmap r) : Listed c s'.bitmap r := by
  rw [applyPutRow_eq] at hput
  obtain ⟨s₁, hs₁, rfl⟩ := map_eq_some_iff.mp hput
  intro idx hidx v hv hnull
  have hb := h idx hidx v hv hnull
  rw [← show (s.makeRoom c at_ nowNanos probe row).1.bitmap = s.bitmap from bitmap_makeRoom] at hb
  show s₁.bitmap.contains _ _ _ = true
  rcases himage : (s.makeRoom c at_ nowNanos probe row).2 with _ | old
  · rw [himage] at hs₁
    exact (contains_indexRow hrow hs₁).mpr (.inr hb)
  · rw [himage] at hs₁
    exact contains_replace_of_ne hrow hs₁ (fun hold =>
      hne old himage hold.1 idx hidx v hv (isNull_eq_false hnull) hold.2) hb

/-- What the snapshot shows of a row while the holder of the key goes. -/
theorem newest_evict (h : s.table.Ordered)
    (hw : ∀ old ∈ s.holder c probe row, s.table.WriteInOrder old row.stamp) (id : Nat) :
    newest snap ((s.evict c probe row).table.versions id) =
      if s.holder c probe row = some id ∧ snap.observesVersion row.stamp = true
      then some (Table.tombstone id row.stamp) else newest snap (s.table.versions id) := by
  rw [evict]
  rcases hhold : s.holder c probe row with _ | old
  · simp
  · simp only [some.injEq]
    rw [newest_tombstoneRow h (hw old hhold)]
    by_cases hid : old = id
    · rw [hid]
    · simp [hid]

theorem evict_ordered (h : s.table.Ordered) (hok : Harmless c snap at_ nowNanos probe s row) :
    (s.evict c probe row).table.Ordered ∧
      (s.evict c probe row).table.WriteInOrder row.rowId row.stamp := by
  rw [evict]
  split
  next old hold =>
    have hw := hok.holder old hold
    have hput : (s.table.put (Table.tombstone old row.stamp)).Ordered := h.put hw
    exact ⟨hput,
      writeInOrder_tombstoneRow h hw (ne_of_mem_holder hold) hok.inOrder⟩
  next => exact ⟨h, hok.inOrder⟩

theorem Covering.put (h : Covering c snap [] s) (hok : Harmless c snap at_ nowNanos probe s row)
    (hput : s.applyPutRow c at_ nowNanos probe row = some s') : Covering c snap [] s' := by
  obtain ⟨hordered, hw⟩ := evict_ordered h.ordered hok
  have htable := (applyPutRow_frame hput).1
  refine ⟨htable ▸ hordered.put hw, fun id r hr hlive => .inl ?_⟩
  rw [htable, Table.versions_put hordered hw, versionsOf_singleton] at hr
  by_cases hnew : row.rowId = id ∧ snap.observesVersion row.stamp = true
  · -- the snapshot shows the new row
    rw [if_pos hnew.1, newest_concat, if_pos (show observed snap row = true from hnew.2)] at hr
    obtain rfl := some.inj hr
    exact hok.listed_new hnew.2 hput
  · -- the snapshot shows what it showed before, or the tombstone of the holder
    have hbefore : newest snap ((s.evict c probe row).table.versions id) = some r := by
      split at hr
      next hid =>
        rwa [newest_concat, if_neg (show ¬ observed snap row = true from fun h => hnew ⟨hid, h⟩)]
          at hr
      next => rwa [append_nil] at hr
    rw [newest_evict h.ordered hok.holder] at hbefore
    split at hbefore
    next =>
      obtain rfl := some.inj hbefore
      exact nomatch hlive
    next hgone =>
      have hid : r.rowId = id := rowId_of_mem_versions (mem_of_mem_filter (mem_of_getLast? hbefore))
      refine listed_of_put hok.written hput (fun old hold heq => ?_)
        (h.listed_all hbefore hlive)
      rcases hok.unseen old hold r (by rwa [heq, hid]) with hdead | ⟨hobs, hsame | hheld⟩ | hapart
      · exact absurd (hlive.symm.trans hdead) Bool.false_ne_true
      · exact absurd ⟨by rw [← hsame, heq, hid], hobs⟩ hnew
      · exact absurd ⟨by rw [hheld, heq, hid], hobs⟩ hgone
      · exact hapart

/-! ## Spilled batches -/

/-- A spilled batch after which the snapshot's rows are still listed. -/
@[mk_iff]
structure SpilledHarmless (c : Schema F) (snap : Snapshot) (s : Writer F) (stamp : Stamp)
    (rows : List (Row F)) : Prop where
  distinct : (partitionPkWinners c rows).1 = []
  inOrder : LinkInOrder s.table stamp.epoch rows
  covered : ∀ row ∈ rows, row.deleted = false ∧
    (snap.observesVersion ⟨stamp.epoch, none⟩ = true → Indexed c row)
  holders : ∀ t ∈ linkRun s.table stamp.epoch rows,
    EachStep (fun s e => some (s.tombstoneHolder stamp e))
      (fun s e => ∀ old ∈ s.hot.lookup e.1, old ≠ e.2 → s.table.WriteInOrder old stamp)
      (s.linked t rows) (partitionPkWinners c rows).2

theorem Covering.link {t : Table F} (h : Covering c snap [] s)
    (hok : SpilledHarmless c snap s stamp rows)
    (hlink : linkRun s.table stamp.epoch rows = some t) :
    Covering c snap rows (s.linked t rows) := by
  obtain ⟨hordered, hversions⟩ := linkRun_spec h.ordered hok.inOrder hlink
  refine ⟨hordered, fun id row hrow hlive => ?_⟩
  have hall : newest snap (s.table.versions id ++
      (versionsOf id rows).map (published s.table.schema stamp.epoch)) = some row := by
    rw [← hversions]
    exact hrow
  rw [newest_append, or_eq_some_iff] at hall
  rcases hall with hnew | ⟨-, hbefore⟩
  · -- a row of the batch
    have hmem := mem_filter.mp (mem_of_getLast? hnew)
    obtain ⟨r, hr, rfl⟩ := mem_map.mp hmem.1
    have hr := (mem_versionsOf.mp hr).1
    exact .inr ⟨r, hr, (hok.covered r hr).2 hmem.2, rfl, fun _ _ => Row.get_readBack⟩
  · exact .inl (h.listed_all hbefore hlive)

theorem Covering.tombstoneHolder {rest : List (Row F)} {e : Key × Nat}
    (h : Covering c snap rest s)
    (hok : ∀ old ∈ s.hot.lookup e.1, old ≠ e.2 → s.table.WriteInOrder old stamp) :
    Covering c snap rest (s.tombstoneHolder stamp e) := by
  rw [Writer.tombstoneHolder]
  split
  next old hold =>
    split
    next hne => exact h.tombstoneRow (hok old hold hne)
    next => exact h
  next => exact h

theorem Covering.indexRows (h : Covering c snap rows s)
    (hrows : ∀ row ∈ rows, row.deleted = false)
    (hindex : rows.foldlM (fun s row => s.indexRow c row) s = some s') : Covering c snap [] s' := by
  induction rows generalizing s with
  | nil =>
    obtain rfl := some.inj hindex
    exact h
  | cons r rows ih =>
    rw [foldlM_cons] at hindex
    obtain ⟨s₁, hs₁, hindex⟩ := bind_eq_some_iff.mp hindex
    refine ih ?_ (fun row hrow => hrows row (mem_cons_of_mem r hrow)) hindex
    have htable := (indexRow_frame hs₁).1
    have hcontains : ∀ col k id, s₁.bitmap.contains col k id = true ↔ _ := fun col k id =>
      contains_indexRow (hrows r mem_cons_self) hs₁
    refine ⟨htable ▸ h.ordered, fun id row hrow hlive => ?_⟩
    rw [htable] at hrow
    rcases h.listed id row hrow hlive with hlisted | ⟨r', hr', hindexed, hid, hvalues⟩
    · exact .inl fun idx hidx v hv hnull =>
        (hcontains _ _ _).mpr (.inr (hlisted idx hidx v hv hnull))
    · rcases mem_cons.mp hr' with rfl | hr'
      · refine .inl fun idx hidx v hv hnull => (hcontains _ _ _).mpr (.inl ⟨?_, hid.symm⟩)
        exact hindexed idx hidx v (hvalues _ v hv hnull) (isNull_eq_false hnull)
      · exact .inr ⟨r', hr', hindexed, hid, hvalues⟩

theorem Covering.spilled (h : Covering c snap [] s)
    (hok : SpilledHarmless c snap s stamp rows)
    (hstep : s.applyRunMetadata c stamp rows = some s') : Covering c snap [] s' := by
  obtain ⟨t, s₁, s₂, s₃, hlink, hs₁, htable, -, hbitmap, hindex, rfl⟩ :=
    applyRunMetadata_cases hok.distinct hstep
  have hevicted : Covering c snap rows s₁ := by
    rw [hs₁]
    refine EachStep.invariant (I := Covering c snap rows) (fun s e s' hI hok hstep => ?_)
      (hok.holders t hlink) (tombstoneHolders_eq _ _ _) (h.link hok hlink)
    obtain rfl := some.inj hstep
    exact hI.tombstoneHolder hok
  have hready : Covering c snap rows s₂ := by
    refine ⟨htable ▸ hevicted.ordered, fun id row hrow hlive => ?_⟩
    rw [hbitmap]
    rw [htable] at hrow
    exact hevicted.listed id row hrow hlive
  have hdone := hready.indexRows (fun row hrow => (hok.covered row hrow).1) hindex
  exact ⟨hdone.ordered, hdone.listed⟩

end Writer

/-! ## Every run -/

open Writer

/-- The steps after which the snapshot's rows are still listed. -/
def HarmlessStep (c : Schema F) (snap : Snapshot) (s : Writer F) : Label F → Prop
  | .put at_ nowNanos checkExistingPk rows =>
    EachStep (fun s' row => s'.applyPutRow c at_ nowNanos (probes c checkExistingPk s rows) row)
      (Harmless c snap at_ nowNanos (probes c checkExistingPk s rows)) s rows
  | .delete _ _ rowId stamp => s.table.WriteInOrder rowId stamp
  | .spilled stamp rows => SpilledHarmless c snap s stamp rows
  | .upkeep u => u.InOrder s.table
  | .truncate | .finishCommit => True

theorem covering_step {c : Schema F} {snap : Snapshot} {s s' : Writer F} {l : Label F}
    (h : Covering c snap [] s) (hok : HarmlessStep c snap s l) (hstep : step c s l = some s') :
    Covering c snap [] s' := by
  cases l with
  | put at_ nowNanos checkExistingPk rows =>
    exact EachStep.invariant (I := Covering c snap []) (fun s row s' hI hok hput => hI.put hok hput)
      hok hstep h
  | delete at_ nowNanos rowId stamp =>
    obtain rfl := some.inj hstep
    have hdeleted := h.tombstoneRow hok
    exact ⟨hdeleted.ordered, hdeleted.listed⟩
  | truncate =>
    obtain rfl := some.inj hstep
    exact ⟨Table.ordered_new s.table.schema none |>.congr (fun _ => rfl) fun _ => rfl,
      fun id row hrow => absurd hrow nofun⟩
  | spilled stamp rows => exact h.spilled hok hstep
  | finishCommit =>
    obtain rfl := some.inj hstep
    exact ⟨h.ordered, h.listed⟩
  | upkeep u =>
    obtain ⟨t, ht, rfl⟩ := map_eq_some_iff.mp hstep
    obtain ⟨hordered, -, hversions⟩ := upkeep_spec h.ordered hok ht
    refine ⟨hordered, fun id row' hrow hlive => .inl ?_⟩
    have hrel := newest_forall₂ (hversions id) snap
    rw [show newest snap (t.versions id) = some row' from hrow] at hrel
    rcases hbefore : newest snap (s.table.versions id) with _ | row
    · rw [hbefore] at hrel
      exact nomatch hrel
    · rw [hbefore] at hrel
      cases hrel with
      | some hreads =>
        have hlisted := h.listed_all hbefore (hreads.deleted.symm.trans hlive)
        intro idx hidx v hv hnull
        rw [hreads.rowId]
        exact hlisted idx hidx v (hreads.values _ v hv hnull) hnull

instance (c : Schema F) (snap at_ : Snapshot) (nowNanos : Int) (probe : Bool) (s : Writer F)
    (row : Row F) : Decidable (Harmless c snap at_ nowNanos probe s row) :=
  decidable_of_iff _ (harmless_iff ..).symm

instance (c : Schema F) (snap : Snapshot) (s : Writer F) (stamp : Stamp) (rows : List (Row F)) :
    Decidable (SpilledHarmless c snap s stamp rows) :=
  decidable_of_iff _ (spilledHarmless_iff ..).symm

instance (c : Schema F) (snap : Snapshot) (s : Writer F) (l : Label F) :
    Decidable (HarmlessStep c snap s l) := by
  unfold HarmlessStep
  split <;> infer_instance

/-- The row ids a bitmap condition resolves to hold every visible row with the value. -/
theorem bitmap_covers_snapshot (c : Schema F) (schema : List ColumnDef) (ttl : Option TtlPolicy)
    (snap : Snapshot) (s : Writer F)
    (h : Reachable (step c) (HarmlessStep c snap) (Writer.new schema ttl) s) (nowNanos : Int) :
    ∀ row ∈ s.table.visibleRowsAtTime snap nowNanos, ∀ idx ∈ c.indexes, ∀ v,
      row.get idx.columnId = some v → v ≠ .null →
        s.bitmapEq c idx.columnId (c.encodeKey v) row.rowId = true ∧
        ∀ values, c.encodeKey v ∈ values →
          s.bitmapIn c idx.columnId values row.rowId = true := by
  have hnew : Covering c snap [] (Writer.new schema ttl) :=
    ⟨Table.ordered_new schema ttl, fun id row hrow =>
      absurd (show newest snap ([] : List (Row F)) = some row from hrow) nofun⟩
  have hinv : Covering c snap [] s :=
    Reachable.invariant hnew (fun _ _ _ hI hok hstep => covering_step hI hok hstep) h
  intro row hrow idx hidx v hv hnull
  rw [Table.mem_visibleRowsAtTime, Table.visibleRow, Table.winner_scanned hinv.ordered,
    filter_eq_some_iff] at hrow
  have hlive : row.deleted = false := by
    have := hrow.2
    rw [Table.isLive, Bool.not_eq_true', Bool.or_eq_false_iff] at this
    exact this.1
  have heq := hinv.listed_all hrow.1 hlive idx hidx v hv hnull
  exact ⟨heq, fun values hmem => any_eq_true.mpr ⟨c.encodeKey v, hmem, heq⟩⟩

/-- A reader at epoch 3. A key is put twice before that, a row is deleted after it, and the memtable
goes to a run. -/
theorem covered_after_replace_and_delete :
    ∃ s : Writer Nat, (Reachable (step (sampleSchema false))
        (HarmlessStep (sampleSchema false) (.atEpoch 3)) (Writer.new sampleColumns none) s ∧
          (s.table.visibleRowsAtTime (.atEpoch 3) 0).length = 2) ∧
      ∀ row ∈ s.table.visibleRowsAtTime (.atEpoch 3) 0, ∀ idx ∈ (sampleSchema false).indexes, ∀ v,
        row.get idx.columnId = some v → v ≠ .null →
          s.bitmapEq (sampleSchema false) idx.columnId
            ((sampleSchema false).encodeKey v) row.rowId = true ∧
          ∀ values, (sampleSchema false).encodeKey v ∈ values →
            s.bitmapIn (sampleSchema false) idx.columnId values row.rowId = true := by
  obtain ⟨s, hs, hlen⟩ := exists_reachable_of_execute (step (sampleSchema false))
    (HarmlessStep (sampleSchema false) (.atEpoch 3)) (Writer.new sampleColumns none)
    (fun s => (s.table.visibleRowsAtTime (.atEpoch 3) 0).length = 2)
    [putLabel 0 1 5 1, .finishCommit, putLabel 1 1 6 2, putLabel 2 2 6 3, .finishCommit,
      .upkeep .flushMemtable, .upkeep (.spillMutableRun 3), .delete (.atEpoch 3) 0 2 ⟨4, none⟩,
      .spilled ⟨5, none⟩ [keyedRow 3 3 5 0, keyedRow 4 4 5 0], .finishCommit] (by decide +kernel)
  exact ⟨s, ⟨hs, hlen⟩, bitmap_covers_snapshot _ _ _ _ s hs 0⟩

/-- The key is put again at epoch 2. The reader at epoch 1 still sees the old row, and does not
find it by its value. -/
theorem replaced_row_unlisted :
    ∃ s : Writer Nat,
      Reachable (step (sampleSchema false)) anyStep (Writer.new sampleColumns none) s ∧
      (∃ row ∈ s.table.visibleRowsAtTime (.atEpoch 1) 0, row.get 1 = some (.int64 5) ∧
        s.bitmapEq (sampleSchema false) 1 (sampleKey (.int64 5)) row.rowId = false) :=
  exists_reachable_of_execute (step (sampleSchema false)) anyStep (Writer.new sampleColumns none)
    (fun s => ∃ row ∈ s.table.visibleRowsAtTime (.atEpoch 1) 0, row.get 1 = some (.int64 5) ∧
      s.bitmapEq (sampleSchema false) 1 (sampleKey (.int64 5)) row.rowId = false)
    [putLabel 0 1 5 1, .finishCommit, putLabel 1 1 6 2] (by decide +kernel)

end MongrelDB.Storage.WritePath
