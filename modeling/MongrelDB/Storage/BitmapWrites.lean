import MongrelDB.Storage.AppliedWrites

/-!
# Does a put reach the bitmap indexes?

A row is applied after its commit is durable, when there is no way back. Its row id
comes from the allocator, or in a clustered table from a hash of the primary key of 64
bits.
-/

namespace MongrelDB.Storage.WritePath

open Epoch Lib List
open Option hiding any_eq_false any_eq_true

variable {F : Type}

/-! ## Entries -/

namespace Bitmap

variable {b b' : Bitmap} {columnId col rowId id : Nat} {key k : Key}

theorem contains_iff :
    b.contains col key id = true ↔ ∃ h : id < 2 ^ 32, (col, key, ⟨id, h⟩) ∈ b := by
  rw [contains, any_eq_true]
  constructor
  · rintro ⟨⟨col', key', id'⟩, hmem, hdec⟩
    obtain ⟨rfl, rfl, rfl⟩ := of_decide_eq_true hdec
    exact ⟨id'.isLt, hmem⟩
  · rintro ⟨h, hmem⟩
    exact ⟨_, hmem, decide_eq_true ⟨rfl, rfl, rfl⟩⟩

theorem lt_of_contains (h : b.contains col key id = true) : id < 2 ^ 32 :=
  (contains_iff.mp h).1

theorem insert_eq_some (h : rowId < 2 ^ 32) :
    b.insert columnId key rowId = some ((columnId, key, ⟨rowId, h⟩) :: b) := dif_pos h

theorem contains_insert (h : b.insert columnId key rowId = some b') :
    b'.contains col k id = true ↔
      (columnId = col ∧ key = k ∧ rowId = id) ∨ b.contains col k id = true := by
  rw [insert] at h
  split at h
  next hlt =>
    obtain rfl := some.inj h
    rw [contains, any_cons, Bool.or_eq_true, decide_eq_true_eq]
    rfl
  next => exact nomatch h

theorem contains_remove :
    (b.remove columnId key rowId).contains col k id = true ↔
      b.contains col k id = true ∧ ¬ (columnId = col ∧ key = k ∧ rowId = id) := by
  simp only [contains_iff, remove, mem_filter, decide_eq_true_eq]
  constructor
  · rintro ⟨h, hmem, hne⟩
    exact ⟨⟨h, hmem⟩, fun ⟨hcol, hkey, hid⟩ => hne ⟨hcol.symm, hkey.symm, hid.symm⟩⟩
  · rintro ⟨⟨h, hmem⟩, hne⟩
    exact ⟨h, hmem, fun ⟨hcol, hkey, hid⟩ => hne ⟨hcol.symm, hkey.symm, hid.symm⟩⟩

theorem contains_insertAll {keys : List (Nat × Key)} (h : b.insertAll rowId keys = some b') :
    b'.contains col k id = true ↔
      ((col, k) ∈ keys ∧ rowId = id) ∨ b.contains col k id = true := by
  induction keys generalizing b with
  | nil =>
    obtain rfl := some.inj h
    simp
  | cons e keys ih =>
    rw [insertAll, foldlM_cons] at h
    obtain ⟨b₁, hb₁, h⟩ := bind_eq_some_iff.mp h
    rw [ih h, contains_insert hb₁, mem_cons]
    constructor
    · rintro (⟨hmem, hid⟩ | ⟨rfl, rfl, hid⟩ | hb)
      · exact .inl ⟨.inr hmem, hid⟩
      · exact .inl ⟨.inl rfl, hid⟩
      · exact .inr hb
    · rintro (⟨rfl | hmem, hid⟩ | hb)
      · exact .inr (.inl ⟨rfl, rfl, hid⟩)
      · exact .inl ⟨hmem, hid⟩
      · exact .inr (.inr hb)

theorem exists_insertAll {keys : List (Nat × Key)} (h : keys ≠ [] → rowId < 2 ^ 32) :
    ∃ b', b.insertAll rowId keys = some b' := by
  induction keys generalizing b with
  | nil => exact ⟨b, rfl⟩
  | cons e keys ih =>
    have hlt := h (cons_ne_nil e keys)
    rw [insertAll, foldlM_cons, insert_eq_some hlt]
    exact ih fun _ => hlt

/-! ## Replacement -/

section Replace

variable {c : Schema F} {old new : Row F} {idx : IndexDef}

/-- What a replacement plans for one index. -/
def deltaOf (c : Schema F) (old new : Row F) (idx : IndexDef) : BitmapIndexDelta :=
  match bitmapKeyForColumn c old idx.columnId, bitmapKeyForColumn c new idx.columnId with
  | some o, some n =>
    if o = n then .repoint idx.columnId o else .move idx.columnId (some o) (some n)
  | oldKey, newKey => .move idx.columnId oldKey newKey

theorem planBitmapSecondaryDeltas_eq :
    planBitmapSecondaryDeltas c old new = c.indexes.map (deltaOf c old new) := rfl

theorem exists_applyDelta
    (h : (bitmapKeyForColumn c new idx.columnId).isSome → new.rowId < 2 ^ 32) :
    ∃ b', b.applyDelta old.rowId new.rowId (deltaOf c old new idx) = some b' := by
  rcases hold : bitmapKeyForColumn c old idx.columnId with _ | o <;>
    rcases hnew : bitmapKeyForColumn c new idx.columnId with _ | n <;>
    simp only [deltaOf, hold, hnew, applyDelta]
  · exact ⟨b, rfl⟩
  · exact ⟨_, insert_eq_some (h (by rw [hnew]; rfl))⟩
  · exact ⟨_, rfl⟩
  · have hlt : new.rowId < 2 ^ 32 := h (by rw [hnew]; rfl)
    by_cases hkey : o = n
    · by_cases hrow : old.rowId = new.rowId
      · exact ⟨b, by simp [hkey, hrow]⟩
      · exact ⟨_, by simp only [if_pos hkey, ne_eq, hrow, not_false_eq_true, if_true]
                     exact insert_eq_some hlt⟩
    · exact ⟨_, by simp only [if_neg hkey]; exact insert_eq_some hlt⟩

/-- The entries after the delta of one index: the old row's is gone, the new row's is there, and
a row that keeps id and value has the entry it had. -/
theorem contains_applyDelta
    (h : b.applyDelta old.rowId new.rowId (deltaOf c old new idx) = some b') :
    b'.contains col k id = true ↔
      if idx.columnId = col ∧ old.rowId = new.rowId ∧ bitmapKeyForColumn c old col = some k ∧
          bitmapKeyForColumn c new col = some k then b.contains col k id = true
      else (b.contains col k id = true ∧ ¬ (idx.columnId = col ∧ old.rowId = id ∧
          bitmapKeyForColumn c old col = some k)) ∨
        (idx.columnId = col ∧ new.rowId = id ∧ bitmapKeyForColumn c new col = some k) := by
  rcases hold : bitmapKeyForColumn c old idx.columnId with _ | o <;>
    rcases hnew : bitmapKeyForColumn c new idx.columnId with _ | n <;>
    simp only [deltaOf, hold, hnew, applyDelta] at h
  · obtain rfl := some.inj h
    grind
  · rw [contains_insert h]
    grind
  · obtain rfl := some.inj h
    rw [contains_remove]
    grind
  · by_cases hkey : o = n
    · by_cases hrow : old.rowId = new.rowId
      · obtain rfl : b = b' := by simpa [hkey, hrow] using h
        grind
      · simp only [if_pos hkey, ne_eq, hrow, not_false_eq_true, if_true] at h
        rw [contains_insert h, contains_remove]
        grind
    · simp only [if_neg hkey] at h
      rw [contains_insert h, contains_remove]
      grind

theorem exists_deltas {indexes : List IndexDef}
    (h : ∀ idx ∈ indexes, (bitmapKeyForColumn c new idx.columnId).isSome → new.rowId < 2 ^ 32) :
    ∃ b', b.applyBitmapSecondaryDelta (indexes.map (deltaOf c old new)) old.rowId new.rowId =
      some b' := by
  induction indexes generalizing b with
  | nil => exact ⟨b, rfl⟩
  | cons idx indexes ih =>
    obtain ⟨b₁, hb₁⟩ : ∃ b₁, b.applyDelta old.rowId new.rowId (deltaOf c old new idx) = some b₁ :=
      exists_applyDelta (h idx mem_cons_self)
    rw [applyBitmapSecondaryDelta, map_cons, foldlM_cons, hb₁]
    exact ih fun i hi => h i (mem_cons_of_mem idx hi)

section

variable {indexes : List IndexDef}
  (h : b.applyBitmapSecondaryDelta (indexes.map (deltaOf c old new)) old.rowId new.rowId = some b')
include h

/-- The entries of the new row after all deltas: under its value it is entered, unless it keeps id
and value; under another value it has what it had, unless that was the old row's. -/
theorem contains_deltas_new :
    b'.contains col k new.rowId = true ↔
      ((∃ idx ∈ indexes, idx.columnId = col) ∧ bitmapKeyForColumn c new col = some k ∧
        ¬ (old.rowId = new.rowId ∧ bitmapKeyForColumn c old col = some k)) ∨
      (b.contains col k new.rowId = true ∧ ¬ ((∃ idx ∈ indexes, idx.columnId = col) ∧
        old.rowId = new.rowId ∧ bitmapKeyForColumn c old col = some k ∧
          bitmapKeyForColumn c new col ≠ some k)) := by
  induction indexes generalizing b with
  | nil =>
    obtain rfl := some.inj h
    simp
  | cons idx indexes ih =>
    rw [applyBitmapSecondaryDelta, map_cons, foldlM_cons] at h
    obtain ⟨b₁, hb₁, h⟩ := bind_eq_some_iff.mp h
    rw [ih h, contains_applyDelta hb₁, exists_mem_cons_iff]
    grind

theorem contains_deltas_of_ne (hne : ¬ (old.rowId = id ∧ bitmapKeyForColumn c old col = some k))
    (hb : b.contains col k id = true) : b'.contains col k id = true := by
  induction indexes generalizing b with
  | nil =>
    obtain rfl := some.inj h
    exact hb
  | cons idx indexes ih =>
    rw [applyBitmapSecondaryDelta, map_cons, foldlM_cons] at h
    obtain ⟨b₁, hb₁, h⟩ := bind_eq_some_iff.mp h
    refine ih h ((contains_applyDelta hb₁).mpr ?_)
    grind

end

theorem contains_unindexMembership :
    (b.unindexMembership c old).contains col k id = true ↔ b.contains col k id = true ∧
      ¬ (old.deleted = false ∧ (∃ idx ∈ c.indexes, idx.columnId = col) ∧ old.rowId = id ∧
        bitmapKeyForColumn c old col = some k) := by
  rw [unindexMembership]
  split
  next hdel => simp [hdel]
  next hlive =>
    rw [Bool.not_eq_true] at hlive
    simp only [hlive, true_and]
    generalize c.indexes = indexes
    induction indexes generalizing b with
    | nil => simp
    | cons idx indexes ih =>
      rw [foldl_cons, ih, exists_mem_cons_iff]
      split
      next key hkey =>
        rw [contains_remove]
        grind
      next hkey => grind

end Replace

end Bitmap

/-! ## One row -/

theorem mem_indexKeys {c : Schema F} {row : Row F} {col : Nat} {k : Key} :
    (col, k) ∈ indexKeys c row ↔ ∃ idx ∈ c.indexes,
      idx.predicate.all (evalPartialPredicate row) = true ∧ idx.columnId = col ∧
        ∃ v, row.get col = some v ∧ c.indexKey col v = k := by
  simp only [indexKeys, mem_filterMap]
  constructor
  · rintro ⟨idx, hmem, h⟩
    split at h
    next hp =>
      obtain ⟨v, hv, he⟩ := map_eq_some_iff.mp h
      obtain ⟨rfl, rfl⟩ := Prod.mk.inj he
      exact ⟨idx, hmem, hp, rfl, v, hv, rfl⟩
    next => exact nomatch h
  · rintro ⟨idx, hmem, hp, rfl, v, hv, rfl⟩
    exact ⟨idx, hmem, by rw [if_pos hp, hv]; rfl⟩

theorem accepts_of_not_hasPartial {c : Schema F} (h : c.hasPartial = false) {row : Row F}
    {idx : IndexDef} (hidx : idx ∈ c.indexes) :
    idx.predicate.all (evalPartialPredicate row) = true := by
  rw [Schema.hasPartial, Bool.or_eq_false_iff, any_eq_false] at h
  rw [not_isSome_iff_eq_none.mp (h.2 idx hidx)]
  rfl

namespace Writer

variable {c : Schema F} {s s' : Writer F} {old row : Row F} {col id : Nat} {k : Key}

theorem exists_indexRow (h : indexKeys c row ≠ [] → row.rowId < 2 ^ 32) :
    ∃ s', s.indexRow c row = some s' := by
  rw [indexRow]
  split
  · exact ⟨s, rfl⟩
  · obtain ⟨b, hb⟩ := Bitmap.exists_insertAll (b := s.bitmap) h
    rw [hb]
    exact ⟨_, rfl⟩

@[simp] theorem bitmap_insertHot {key : Option Key} :
    (s.insertHot row key).bitmap = s.bitmap := by
  cases key <;> rfl

theorem contains_indexRow (hrow : row.deleted = false) (h : s.indexRow c row = some s') :
    s'.bitmap.contains col k id = true ↔
      ((col, k) ∈ indexKeys c row ∧ row.rowId = id) ∨ s.bitmap.contains col k id = true := by
  simp only [indexRow, hrow, Bool.false_eq_true, if_false] at h
  obtain ⟨b, hb, h⟩ := bind_eq_some_iff.mp h
  obtain rfl := some.inj h
  rw [← Bitmap.contains_insertAll hb]
  split
  · rfl
  · rw [bitmap_insertHot]

/-- An entry that is not the old row's stays. -/
theorem contains_replace_of_ne (hrow : row.deleted = false)
    (h : s.maintainIndexesOnPkReplace c old row = some s')
    (hne : ¬ (old.rowId = id ∧ bitmapKeyForColumn c old col = some k))
    (hb : s.bitmap.contains col k id = true) : s'.bitmap.contains col k id = true := by
  rw [maintainIndexesOnPkReplace] at h
  split at h
  · refine (contains_indexRow hrow h).mpr (.inr (Bitmap.contains_unindexMembership.mpr ⟨hb, ?_⟩))
    exact fun hgone => hne hgone.2.2
  · obtain ⟨b, hreplace, h⟩ := bind_eq_some_iff.mp h
    obtain rfl := some.inj h
    rw [hrow, if_neg Bool.false_ne_true, bitmap_insertHot]
    exact Bitmap.contains_deltas_of_ne hreplace hne hb

/-- The put enters the row under the key its value is looked up by. A row that replaces one of the
same id and value is not entered again. -/
def Enters (c : Schema F) (image : Option (Row F)) (row : Row F) (col : Nat) (v : Value F) : Prop :=
  (image.isNone = true → c.indexKey col v = c.indexLookupKey col v) ∧
    ∀ old ∈ image, c.encodeKey v = c.indexLookupKey col v ∧
      (c.hasPartial = false →
        ¬ (old.rowId = row.rowId ∧ bitmapKeyForColumn c old col = some (c.encodeKey v)))
  deriving Decidable

/-- Replacing `old` takes out the entry of the row under `key`. -/
def TakesOut (c : Schema F) (old row : Row F) (col : Nat) (key : Key) : Prop :=
  old.rowId = row.rowId ∧ bitmapKeyForColumn c old col = some key ∧
    (c.hasPartial = true → old.deleted = false) ∧
    (c.hasPartial = false → bitmapKeyForColumn c row col ≠ some key)
  deriving Decidable

/-- After the put the row is found by the value: it is entered, or it had the entry and keeps it. -/
def FoundBy (c : Schema F) (s : Writer F) (image : Option (Row F)) (row : Row F) (col : Nat)
    (v : Value F) : Prop :=
  Enters c image row col v ∨ (s.bitmapEq c col (c.encodeKey v) row.rowId = true ∧
    ∀ old ∈ image, ¬ TakesOut c old row col (c.indexLookupKey col v))
  deriving Decidable

theorem contains_replace_new (hrow : row.deleted = false)
    (h : s.maintainIndexesOnPkReplace c old row = some s') {idx : IndexDef}
    (hidx : idx ∈ c.indexes) (hp : idx.predicate.all (evalPartialPredicate row) = true)
    {v : Value F} (hv : row.get idx.columnId = some v) :
    s'.bitmapEq c idx.columnId (c.encodeKey v) row.rowId = true ↔
      FoundBy c s (some old) row idx.columnId v := by
  have hex : ∃ i ∈ c.indexes, i.columnId = idx.columnId := ⟨idx, hidx, rfl⟩
  have hkey : bitmapKeyForColumn c row idx.columnId = some (c.encodeKey v) := by
    rw [bitmapKeyForColumn, hv, map_some]
  rw [maintainIndexesOnPkReplace] at h
  show s'.bitmap.contains _ (c.indexLookupKey idx.columnId v) _ = true ↔ _
  split at h
  next hpartial =>
    have hmem : (idx.columnId, c.indexLookupKey idx.columnId v) ∈ indexKeys c row ↔
        c.encodeKey v = c.indexLookupKey idx.columnId v := by
      rw [mem_indexKeys]
      constructor
      · rintro ⟨_, -, -, -, w, hw, hk⟩
        rw [hv, some.injEq] at hw
        subst hw
        rwa [Schema.indexKey, if_pos hpartial] at hk
      · intro hk
        exact ⟨idx, hidx, hp, rfl, v, hv, by rwa [Schema.indexKey, if_pos hpartial]⟩
    rw [contains_indexRow hrow h, hmem, and_iff_left rfl, Bitmap.contains_unindexMembership]
    simp [FoundBy, Enters, TakesOut, hpartial, bitmapEq, Schema.indexLookupKey, hex]
    grind
  next hpartial =>
    obtain ⟨b, hreplace, h⟩ := bind_eq_some_iff.mp h
    obtain rfl := some.inj h
    rw [hrow, if_neg Bool.false_ne_true, bitmap_insertHot]
    refine (Bitmap.contains_deltas_new hreplace).trans ?_
    rw [Bool.not_eq_true] at hpartial
    simp only [FoundBy, Enters, TakesOut, hpartial, bitmapEq, hex, hkey, Schema.indexLookupKey]
    grind

theorem contains_index_new (hrow : row.deleted = false) {image : Option (Row F)}
    (h : s.index c image row = some s') {idx : IndexDef} (hidx : idx ∈ c.indexes)
    (hp : idx.predicate.all (evalPartialPredicate row) = true) {v : Value F}
    (hv : row.get idx.columnId = some v) :
    s'.bitmapEq c idx.columnId (c.encodeKey v) row.rowId = true ↔
      FoundBy c s image row idx.columnId v := by
  cases image with
  | some old => exact contains_replace_new hrow h hidx hp hv
  | none =>
    show s'.bitmap.contains _ (c.indexLookupKey idx.columnId v) _ = true ↔ _
    have hmem : (idx.columnId, c.indexLookupKey idx.columnId v) ∈ indexKeys c row ↔
        c.indexKey idx.columnId v = c.indexLookupKey idx.columnId v := by
      rw [mem_indexKeys]
      constructor
      · rintro ⟨_, -, -, -, w, hw, hk⟩
        rw [hv, some.injEq] at hw
        subst hw
        exact hk
      · exact fun hk => ⟨idx, hidx, hp, rfl, v, hv, hk⟩
    rw [contains_indexRow hrow h, hmem, and_iff_left rfl]
    simp [FoundBy, Enters, bitmapEq, Schema.indexLookupKey]

theorem exists_replace (h : indexKeys c row ≠ [] → row.rowId < 2 ^ 32) :
    ∃ s', s.maintainIndexesOnPkReplace c old row = some s' := by
  rw [maintainIndexesOnPkReplace]
  split
  · exact exists_indexRow h
  next hpartial =>
    have hp : c.hasPartial = false := Bool.eq_false_iff.mpr hpartial
    have hids : ∀ idx ∈ c.indexes, (bitmapKeyForColumn c row idx.columnId).isSome →
        row.rowId < 2 ^ 32 := by
      intro idx hidx hkey
      obtain ⟨v, hv⟩ := isSome_iff_exists.mp (isSome_map.symm.trans hkey)
      exact h (ne_nil_of_mem (mem_indexKeys.mpr
        ⟨idx, hidx, accepts_of_not_hasPartial hp hidx, rfl, v, hv, rfl⟩))
    obtain ⟨b, hb⟩ : ∃ b, s.bitmap.applyBitmapSecondaryDelta (c.indexes.map
        (Bitmap.deltaOf c old row)) old.rowId row.rowId = some b := Bitmap.exists_deltas hids
    rw [Bitmap.maintainOnReplace, Bitmap.planBitmapSecondaryDeltas_eq, hb]
    exact ⟨_, rfl⟩

@[simp] theorem bitmap_displace {snap : Snapshot} {nowNanos : Int} {key : Key} :
    (s.displace snap nowNanos row key).1.bitmap = s.bitmap := by
  rw [displace]
  split <;> split <;> rfl

@[simp] theorem bitmap_makeRoom {snap : Snapshot} {nowNanos : Int} {probe : Bool} :
    (s.makeRoom c snap nowNanos probe row).1.bitmap = s.bitmap := by
  rw [makeRoom]
  split
  · rfl
  · split
    · exact bitmap_displace
    · rfl
  · rfl

/-- The row can be found through each index that covers it. -/
def Findable (c : Schema F) (s : Writer F) (row : Row F) : Prop :=
  ∀ idx ∈ c.indexes, idx.predicate.all (evalPartialPredicate row) = true →
    ∀ v, row.get idx.columnId = some v →
      s.bitmapEq c idx.columnId (c.encodeKey v) row.rowId = true

/-- What the indexes can take: an id of 32 bits if there is anything to enter; and each value is
entered under the key it is looked up by, or has its entry and keeps it. -/
structure Enterable (c : Schema F) (s : Writer F) (image : Option (Row F)) (row : Row F) :
    Prop where
  fits : ∀ idx ∈ c.indexes, idx.predicate.all (evalPartialPredicate row) = true →
    (row.get idx.columnId).isSome → row.rowId < 2 ^ 32
  found : ∀ idx ∈ c.indexes, idx.predicate.all (evalPartialPredicate row) = true →
    ∀ v, row.get idx.columnId = some v → FoundBy c s image row idx.columnId v

theorem index_findable_iff {image : Option (Row F)} (hrow : row.deleted = false) :
    (∃ s', s.index c image row = some s' ∧ Findable c s' row) ↔ Enterable c s image row := by
  constructor
  · rintro ⟨s', hs', hfind⟩
    refine ⟨fun idx hidx hp hsome => ?_, fun idx hidx hp v hv => ?_⟩
    · obtain ⟨v, hv⟩ := isSome_iff_exists.mp hsome
      exact Bitmap.lt_of_contains (hfind idx hidx hp v hv)
    · exact (contains_index_new hrow hs' hidx hp hv).mp (hfind idx hidx hp v hv)
  · rintro ⟨hfits, hfound⟩
    have hlt : indexKeys c row ≠ [] → row.rowId < 2 ^ 32 := by
      intro hne
      obtain ⟨⟨col, k⟩, hmem⟩ := exists_mem_of_ne_nil _ hne
      obtain ⟨idx, hidx, hp, rfl, v, hv, -⟩ := mem_indexKeys.mp hmem
      exact hfits idx hidx hp (by rw [hv]; rfl)
    obtain ⟨s', hs'⟩ : ∃ s', s.index c image row = some s' := by
      cases image with
      | none => exact exists_indexRow hlt
      | some old => exact exists_replace hlt
    exact ⟨s', hs', fun idx hidx hp v hv =>
      (contains_index_new hrow hs' hidx hp hv).mpr (hfound idx hidx hp v hv)⟩

/-- A put gets through and makes its row findable exactly when the indexes can take it. -/
theorem applyPutRow_findable_iff (c : Schema F) (s : Writer F) (snap : Snapshot) (nowNanos : Int)
    (probe : Bool) (rowId : Nat) (stamp : Stamp) (columns : List (Nat × Value F)) :
    let row : Row F := ⟨rowId, stamp.epoch, columns, false, stamp.commitTs⟩
    (∃ s', s.applyPutRow c snap nowNanos probe row = some s' ∧ Findable c s' row) ↔
      Enterable c s (s.makeRoom c snap nowNanos probe row).2 row := by
  intro row
  have hiff : (∃ s', (s.makeRoom c snap nowNanos probe row).1.index c
      (s.makeRoom c snap nowNanos probe row).2 row = some s' ∧ _) ↔ _ :=
    index_findable_iff rfl
  have henter : Enterable c (s.makeRoom c snap nowNanos probe row).1
      (s.makeRoom c snap nowNanos probe row).2 row ↔
        Enterable c s (s.makeRoom c snap nowNanos probe row).2 row := by
    have hsame : ∀ col v, FoundBy c (s.makeRoom c snap nowNanos probe row).1
        (s.makeRoom c snap nowNanos probe row).2 row col v ↔
          FoundBy c s (s.makeRoom c snap nowNanos probe row).2 row col v := by
      intro col v
      rw [FoundBy, FoundBy, bitmapEq, bitmapEq, bitmap_makeRoom]
    constructor
    · exact fun h => ⟨h.fits, fun idx hidx hp v hv => (hsame _ v).mp (h.found idx hidx hp v hv)⟩
    · exact fun h => ⟨h.fits, fun idx hidx hp v hv => (hsame _ v).mpr (h.found idx hidx hp v hv)⟩
  rw [← henter, ← hiff, applyPutRow_eq]
  constructor
  · rintro ⟨s', hs', hfind⟩
    obtain ⟨s₁, hs₁, rfl⟩ := map_eq_some_iff.mp hs'
    exact ⟨s₁, hs₁, hfind⟩
  · rintro ⟨s₁, hs₁, hfind⟩
    exact ⟨_, map_eq_some_iff.mpr ⟨s₁, hs₁, rfl⟩, hfind⟩

end Writer

/-! ## A clustered table -/

/-- `Value::encode_key`, for the keys of the table below. -/
def sampleKey : Value Nat → Key
  | .int64 n => beBytes 8 (n % 2 ^ 64).toNat
  | .bytes b => b
  | _ => []

/-- The key in column 0, an index on column 1. -/
def sampleSchema (clustered : Bool) : Schema Nat :=
  ⟨some 0, clustered, [⟨1, none⟩], false, sampleKey, fun _ => none⟩

def sampleColumns : List ColumnDef := [⟨0, .int64⟩, ⟨1, .int64⟩]

def keyedRow (id key value epoch : Nat) : Row Nat :=
  ⟨id, epoch, [(0, .int64 key), (1, .int64 value)], false, none⟩

/-- A put of one row, with the table's own reads at the epoch before. -/
def putLabel (id key value epoch : Nat) : Label Nat :=
  .put (.atEpoch (epoch - 1)) 0 true [keyedRow id key value epoch]

/-- The first row of a clustered table: its id is the hash of its key, and the index panics. -/
theorem clustered_put_panics :
    let id := (clusteredRowId (beBytes 8 1)).toNat
    assignRowId (sampleSchema true) 0 (keyedRow id 1 5 1).columns = .ok (id, 0) ∧
      ¬ ∃ s', (Writer.new sampleColumns none).applyPutRow (sampleSchema true) (.atEpoch 0) 0 true
          (keyedRow id 1 5 1) = some s' ∧
        Writer.Findable (sampleSchema true) s' (keyedRow id 1 5 1) := by
  refine ⟨rfl, ?_⟩
  rintro ⟨s', hs', -⟩
  have hnone : ((Writer.new sampleColumns none).applyPutRow (sampleSchema true) (.atEpoch 0) 0 true
      (keyedRow (clusteredRowId (beBytes 8 1)).toNat 1 5 1)).isNone = true := by decide +kernel
  rw [hs'] at hnone
  exact nomatch hnone

end MongrelDB.Storage.WritePath
