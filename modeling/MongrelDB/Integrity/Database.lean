import MongrelDB.Integrity.Schema
import MongrelDB.Txn.ConflictIndex

/-!
# Rows and staged writes

A state of the database is, per table, the visible rows and the next row id.
-/

namespace MongrelDB.Integrity

open Lib
open Txn (WriteKey)
open List

/-! ## Rows -/

structure Row where
  rowId : RowId
  columns : Columns

structure Table where
  rows : List Row
  nextRowId : RowId
  fresh : ∀ r ∈ rows, r.rowId < nextRowId
  distinct : (rows.map (·.rowId)).Nodup

def Table.empty : Table := ⟨[], 0, nofun, nodup_nil⟩

def Table.get (t : Table) (id : RowId) : Option Row := t.rows.find? fun r => r.rowId = id

theorem Table.get_eq_some {t : Table} {id : RowId} {r : Row} :
    t.get id = some r ↔ r ∈ t.rows ∧ r.rowId = id :=
  find?_key_eq_some t.distinct

abbrev Database := TableId → Table

/-! ## Staged writes -/

abbrev Cells := List (ColumnId × Value)

/-- Cells as a map; a later cell of one column wins. -/
def collect (cells : Cells) : Columns := Std.TreeMap.ofList cells

theorem collect_toList (m : Columns) (c : ColumnId) : (collect m.toList)[c]? = m[c]? := by
  cases h : m[c]? with
  | some v =>
    exact Std.TreeMap.getElem?_ofList_of_mem (by simp) Std.TreeMap.distinct_keys_toList
      (Std.TreeMap.mem_toList_iff_getElem?_eq_some.mpr h)
  | none =>
    refine Std.TreeMap.getElem?_ofList_of_contains_eq_false ?_
    rw [Std.TreeMap.map_fst_toList_eq_keys, ← Bool.not_eq_true, contains_iff_mem,
      Std.TreeMap.mem_keys, Std.TreeMap.mem_iff_isSome_getElem?, h]
    exact Bool.false_ne_true

inductive Staged where
  | put (cells : Cells)
  | delete (rowId : RowId)
  /-- Of the row's old image only the id. -/
  | update (rowId : RowId) (newRow : Cells)
  | truncate
  deriving DecidableEq

namespace Staged

/-- The row it brings. -/
def image : Staged → Option Cells
  | put cells => some cells
  | update _ newRow => some newRow
  | delete _ => none
  | truncate => none

/-- The row it takes away by its id. -/
def removes : Staged → Option RowId
  | delete rowId => some rowId
  | update rowId _ => some rowId
  | put _ => none
  | truncate => none

end Staged

instance instLawfulBEqStaged : LawfulBEq (TableId × Staged) := inferInstance

abbrev Staging := List (TableId × Staged)

def Brings (staging : Staging) (table : TableId) (cells : Cells) : Prop :=
  ∃ op, (table, op) ∈ staging ∧ op.image = some cells

def Removes (staging : Staging) (table : TableId) (id : RowId) : Prop :=
  ∃ op, (table, op) ∈ staging ∧ op.removes = some id

instance (staging : Staging) (table : TableId) (id : RowId) :
    Decidable (Removes staging table id) :=
  decidable_of_iff (∃ op ∈ staging, op.1 = table ∧ op.2.removes = some id)
    ⟨fun ⟨_, hop, htable, hid⟩ => ⟨_, htable ▸ hop, hid⟩, fun ⟨_, hop, hid⟩ => ⟨_, hop, rfl, hid⟩⟩

/-! ## Normalized writes -/

inductive Write where
  | put (cells : Cells)
  | delete (rowId : RowId)
  | truncate
  deriving DecidableEq

def Staged.normalize : Staged → List Write
  | put cells => [.put cells]
  | delete rowId => [.delete rowId]
  | update rowId newRow => [.delete rowId, .put newRow]
  | truncate => [.truncate]

def normalize (staging : Staging) : List (TableId × Write) :=
  staging.flatMap fun op => op.2.normalize.map fun w => (op.1, w)

variable {table : TableId} {w : Write} {staging : Staging}

theorem mem_normalize :
    (table, w) ∈ normalize staging ↔ ∃ op, (table, op) ∈ staging ∧ w ∈ op.normalize := by
  simp only [normalize, mem_flatMap, mem_map, Prod.mk.injEq, Prod.exists]
  constructor
  · rintro ⟨_, op, hop, w, hw, rfl, rfl⟩
    exact ⟨op, hop, hw⟩
  · rintro ⟨op, hop, hw⟩
    exact ⟨table, op, hop, w, hw, rfl, rfl⟩

theorem put_mem_normalize {cells : Cells} :
    (table, .put cells) ∈ normalize staging ↔ Brings staging table cells := by
  rw [mem_normalize, Brings]
  refine exists_congr fun op => and_congr_right fun _ => ?_
  cases op <;> simp [Staged.normalize, Staged.image, eq_comm]

theorem delete_mem_normalize {id : RowId} :
    (table, .delete id) ∈ normalize staging ↔ Removes staging table id := by
  rw [mem_normalize, Removes]
  refine exists_congr fun op => and_congr_right fun _ => ?_
  cases op <;> simp [Staged.normalize, Staged.removes, eq_comm]

theorem truncate_mem_normalize :
    (table, .truncate) ∈ normalize staging ↔ (table, .truncate) ∈ staging := by
  rw [mem_normalize]
  constructor
  · rintro ⟨op, hop, hw⟩
    cases op <;> simp [Staged.normalize] at hw
    exact hop
  · exact fun h => ⟨.truncate, h, by simp [Staged.normalize]⟩

/-! ## Application -/

/-- The rows have one primary key, so that the second takes the place of the first. -/
def samePrimaryKey (pk : Option ColumnId) (old new : Columns) : Bool :=
  match pk with
  | none => false
  | some c =>
    match new[c]? with
    | none => false
    | some v => old[c]?.map encodeKey = some (encodeKey v)

namespace Write

/-- The row is still there after the write. -/
def keeps (pk : Option ColumnId) : Write → Row → Bool
  | put cells, r => !samePrimaryKey pk r.columns (collect cells)
  | delete id, r => r.rowId != id
  | truncate, _ => false

/-- The rows a write adds, from the next row id on. -/
def arrivals (next : RowId) : Write → List Row
  | put cells => [⟨next, collect cells⟩]
  | delete _ => []
  | truncate => []

theorem arrivals_rowId {next : RowId} {r : Row} (h : r ∈ w.arrivals next) :
    r.rowId = next ∧ ∃ cells, w = .put cells ∧ r.columns = collect cells := by
  cases w with
  | put cells =>
    obtain rfl := mem_singleton.mp h
    exact ⟨rfl, cells, rfl, rfl⟩
  | delete _ => exact (not_mem_nil h).elim
  | truncate => exact (not_mem_nil h).elim

end Write

namespace Table

def apply (pk : Option ColumnId) (t : Table) (w : Write) : Table where
  rows := t.rows.filter (w.keeps pk) ++ w.arrivals t.nextRowId
  nextRowId := t.nextRowId + (w.arrivals t.nextRowId).length
  fresh := by
    intro r hr
    rcases mem_append.mp hr with hr | hr
    · exact Nat.lt_add_right _ (t.fresh r (mem_filter.mp hr).1)
    · rw [(Write.arrivals_rowId hr).1]
      exact Nat.lt_add_of_pos_right (length_pos_of_mem hr)
  distinct := by
    rw [map_append, nodup_append]
    refine ⟨t.distinct.sublist (List.Sublist.map _ filter_sublist), ?_, ?_⟩
    · cases w <;> simp [Write.arrivals]
    · intro id hold id' hnew
      obtain ⟨r, hr, rfl⟩ := mem_map.mp hold
      obtain ⟨r', hr', rfl⟩ := mem_map.mp hnew
      rw [(Write.arrivals_rowId hr').1]
      exact Nat.ne_of_lt (t.fresh r (mem_filter.mp hr).1)

def applyAll (pk : Option ColumnId) (t : Table) (ws : List Write) : Table := ws.foldl (apply pk) t

variable {pk : Option ColumnId} {t : Table} {ws : List Write}

theorem nextRowId_le_applyAll : t.nextRowId ≤ (t.applyAll pk ws).nextRowId := by
  induction ws generalizing t with
  | nil => exact le_rfl
  | cons w ws ih => exact Nat.le_trans (Nat.le_add_right _ _) (@ih (t.apply pk w))

theorem mem_applyAll {r : Row} (h : r ∈ (t.applyAll pk ws).rows) :
    (r ∈ t.rows ∧ ∀ w ∈ ws, w.keeps pk r = true) ∨
      (t.nextRowId ≤ r.rowId ∧ ∃ cells, .put cells ∈ ws ∧ r.columns = collect cells) := by
  induction ws generalizing t with
  | nil => exact .inl ⟨h, fun w hw => (not_mem_nil hw).elim⟩
  | cons w ws ih =>
    rcases ih (t := t.apply pk w) h with ⟨hr, hkeeps⟩ | ⟨hid, cells, hcells, heq⟩
    · rcases mem_append.mp hr with hr | hr
      · obtain ⟨hr, hw⟩ := mem_filter.mp hr
        exact .inl ⟨hr, forall_mem_cons.mpr ⟨hw, hkeeps⟩⟩
      · obtain ⟨hid, cells, rfl, heq⟩ := Write.arrivals_rowId hr
        exact .inr ⟨hid.ge, cells, mem_cons_self, heq⟩
    · exact .inr ⟨Nat.le_trans (Nat.le_add_right _ _) hid, cells, mem_cons_of_mem w hcells,
        heq⟩

/-- What is put, in order. -/
def puts (ws : List Write) : List Columns :=
  ws.filterMap fun w =>
    match w with
    | .put cells => some (collect cells)
    | .delete _ => none
    | .truncate => none

theorem puts_cons (w : Write) (ws : List Write) : puts (w :: ws) = puts [w] ++ puts ws :=
  @filterMap_append _ _ [w] ws _

theorem rows_applyAll : ∃ new : List Row,
    (t.applyAll pk ws).rows = t.rows.filter (fun r => ws.all (·.keeps pk r)) ++ new ∧
      (new.map (·.columns)).Sublist (puts ws) := by
  induction ws generalizing t with
  | nil => exact ⟨[], by simp [applyAll], Sublist.refl _⟩
  | cons w ws ih =>
    obtain ⟨new, hrows, hnew⟩ := @ih (t.apply pk w)
    refine ⟨(w.arrivals t.nextRowId).filter (fun r => ws.all (·.keeps pk r)) ++ new, ?_, ?_⟩
    · rw [← append_assoc]
      refine hrows.trans (congrArg (· ++ new) ?_)
      rw [apply, filter_append, filter_filter]
      simp only [all_cons, Bool.and_comm]
    · have harrivals : (((w.arrivals t.nextRowId).filter fun r => ws.all (·.keeps pk r)).map
          (·.columns)).Sublist (puts [w]) := by
        refine (filter_sublist.map _).trans ?_
        cases w <;> exact Sublist.refl _
      rw [map_append, puts_cons]
      exact harrivals.append hnew

/-! ## Keys that stay -/

/-- A row with this key that is not `gone`. -/
def Offers (t : Table) (ref : List ColumnId) (k : Key) (gone : RowId → Prop) : Prop :=
  ∃ r ∈ t.rows, encodeCompositeKey ref r.columns = some k ∧ ¬ gone r.rowId

variable {ref : List ColumnId} {c : ColumnId} {k : Key} {gone : RowId → Prop}

theorem Offers.mono {gone' : RowId → Prop} (h : t.Offers ref k gone)
    (hgone : ∀ id, gone' id → gone id) : t.Offers ref k gone' :=
  let ⟨r, hr, hkey, hstays⟩ := h
  ⟨r, hr, hkey, fun h => hstays (hgone _ h)⟩

/-- Where the second row takes the place of the first and the first has the key, the second has
it too. -/
def Agree (pk : Option ColumnId) (ref : List ColumnId) (k : Key) (old new : Columns) : Prop :=
  samePrimaryKey pk old new = true →
    encodeCompositeKey ref old = some k → encodeCompositeKey ref new = some k
  deriving Decidable

theorem agree_primaryKey {old new : Columns} (hnull : new[c]? ≠ some .null) :
    Agree (some c) [c] k old new := by
  intro h hkey
  obtain ⟨v, hv, -, rfl⟩ := encodeCompositeKey_singleton.mp hkey
  simp only [samePrimaryKey] at h
  split at h
  · cases h
  next v' hv' =>
    rw [hv] at h
    have henc : encodeKey v = encodeKey v' := by simpa using h
    refine encodeCompositeKey_singleton.mpr ⟨v', hv', ?_, by rw [henc]⟩
    rintro rfl
    exact hnull hv'

theorem Offers.apply (h : t.Offers ref k gone)
    (hgone : ∀ id, gone id → id < t.nextRowId)
    (hput : ∀ cells, w = .put cells → ∀ r ∈ t.rows, ¬ gone r.rowId →
      Agree pk ref k r.columns (collect cells))
    (hdelete : ∀ id, w = .delete id → gone id) (htruncate : w ≠ .truncate) :
    (t.apply pk w).Offers ref k gone := by
  obtain ⟨r, hr, hkey, hstays⟩ := h
  cases hw : w.keeps pk r with
  | true =>
    exact ⟨r, mem_append_left _ (mem_filter.mpr ⟨hr, hw⟩), hkey, hstays⟩
  | false =>
    cases w with
    | put cells =>
      have hsame : samePrimaryKey pk r.columns (collect cells) = true := by
        simpa [Write.keeps] using hw
      refine ⟨⟨t.nextRowId, collect cells⟩, mem_append_right _ (mem_singleton.mpr rfl),
        hput cells rfl r hr hstays hsame hkey, fun h => ?_⟩
      exact Nat.lt_irrefl _ (hgone _ h)
    | delete id =>
      have heq : r.rowId = id := by simpa [Write.keeps] using hw
      exact absurd (hdelete id rfl) (heq ▸ hstays)
    | truncate => exact absurd rfl htruncate

/-- The writes do not take the key `k` away, rows in `gone` apart: what takes the place of a row
that has it has it too. -/
structure Gentle (t : Table) (pk : Option ColumnId) (ref : List ColumnId) (k : Key)
    (gone : RowId → Prop) (ws : List Write) : Prop where
  gone_lt : ∀ id, gone id → id < t.nextRowId
  rows : ∀ r ∈ t.rows, ¬ gone r.rowId → ∀ b ∈ puts ws, Agree pk ref k r.columns b
  puts : (puts ws).Pairwise (Agree pk ref k)
  delete : ∀ id, .delete id ∈ ws → gone id
  truncate : .truncate ∉ ws

theorem Gentle.tail (h : t.Gentle pk ref k gone (w :: ws)) :
    (t.apply pk w).Gentle pk ref k gone ws := by
  obtain ⟨hlt, hrows, hputs, hdelete, htruncate⟩ := h
  rw [puts_cons] at hrows hputs
  obtain ⟨-, hputs, hlater⟩ := pairwise_append.mp hputs
  refine ⟨fun id hid => Nat.lt_add_right _ (hlt id hid), fun r hr hstays b hb => ?_, hputs,
    fun id hid => hdelete id (mem_cons_of_mem w hid),
    fun hmem => htruncate (mem_cons_of_mem w hmem)⟩
  rcases mem_append.mp hr with hr | hr
  · exact hrows r (mem_filter.mp hr).1 hstays b (mem_append_right _ hb)
  · obtain ⟨-, cells, rfl, hcolumns⟩ := Write.arrivals_rowId hr
    rw [hcolumns]
    exact hlater _ mem_cons_self b hb

theorem Gentle.head (h : t.Gentle pk ref k gone (w :: ws))
    (hoffers : t.Offers ref k gone) : (t.apply pk w).Offers ref k gone := by
  refine hoffers.apply h.gone_lt (fun cells hw r hr hstays => ?_)
    (fun id hw => h.delete id (hw ▸ mem_cons_self)) (fun hw => h.truncate (hw ▸ mem_cons_self))
  subst hw
  exact h.rows r hr hstays _ mem_cons_self

theorem Offers.applyAll (h : t.Gentle pk ref k gone ws) (hoffers : t.Offers ref k gone) :
    (t.applyAll pk ws).Offers ref k gone := by
  induction ws generalizing t with
  | nil => exact hoffers
  | cons w ws ih => exact ih h.tail (h.head hoffers)

theorem Gentle.offers_put (h : t.Gentle pk ref k gone ws) {cells : Cells} (hput : .put cells ∈ ws)
    (hkey : encodeCompositeKey ref (collect cells) = some k) :
    (t.applyAll pk ws).Offers ref k gone := by
  induction ws generalizing t with
  | nil => exact (not_mem_nil hput).elim
  | cons w ws ih =>
    rcases mem_cons.mp hput with rfl | hput
    · show ((t.apply pk (.put cells)).applyAll pk ws).Offers ref k gone
      refine Offers.applyAll h.tail ⟨⟨t.nextRowId, collect cells⟩, ?_, hkey, fun hgone => ?_⟩
      · exact mem_append_right _ (mem_singleton.mpr rfl)
      · exact Nat.lt_irrefl _ (h.gone_lt _ hgone)
    · exact ih h.tail hput

end Table

/-! ## Batches -/

def writesOn (ws : List (TableId × Write)) (table : TableId) : List Write :=
  (ws.filter fun w => w.1 = table).map (·.2)

theorem mem_writesOn {ws : List (TableId × Write)} :
    w ∈ writesOn ws table ↔ (table, w) ∈ ws := by
  simp [writesOn]

/-- The rows a batch brings to a table. -/
def images (staging : Staging) (table : TableId) : List Columns :=
  staging.filterMap fun op => if op.1 = table then op.2.image.map collect else none

theorem mem_images {a : Columns} :
    a ∈ images staging table ↔ ∃ cells, Brings staging table cells ∧ collect cells = a := by
  simp only [images, mem_filterMap, Option.ite_none_right_eq_some, Option.map_eq_some_iff,
    Prod.exists, Brings]
  constructor
  · rintro ⟨_, op, hop, rfl, cells, himage, rfl⟩
    exact ⟨cells, ⟨op, hop, himage⟩, rfl⟩
  · rintro ⟨cells, ⟨op, hop, himage⟩, rfl⟩
    exact ⟨table, op, hop, rfl, cells, himage, rfl⟩

theorem puts_normalize (staging : Staging) (table : TableId) :
    Table.puts (writesOn (normalize staging) table) = images staging table := by
  induction staging with
  | nil => rfl
  | cons op staging ih =>
    obtain ⟨table', op⟩ := op
    have hcons : normalize ((table', op) :: staging) =
        op.normalize.map (fun w => (table', w)) ++ normalize staging := rfl
    rw [hcons, writesOn, filter_append, map_append, Table.puts, filterMap_append]
    show _ ++ Table.puts (writesOn (normalize staging) table) = _
    rw [ih]
    by_cases htable : table' = table
    · subst htable
      cases op <;> simp [images, Staged.normalize, Staged.image]
    · cases op <;> simp [images, Staged.normalize, htable]

/-- Per table the writes in their order. -/
def applyBatch (cat : Catalog) (db : Database) (ws : List (TableId × Write)) : Database :=
  fun table => (db table).applyAll (cat.primaryKey table) (writesOn ws table)

/-! ## Write keys -/

/-- The key of a declared unique constraint is kept apart from the primary key's. -/
def uniqueIndexId (id : Nat) : Nat := id ||| 0x8000

/-- The conflict keys of one write; `hash` is the hasher's verdict on key bytes. -/
def Write.writeKeys (hash : Key → Nat) (cat : Catalog) (table : TableId) : Write → List WriteKey
  | put cells =>
    match cat.entry table with
    | none => []
    | some entry =>
      ((entry.schema.primaryKey.bind fun c => cells.find? fun cell => cell.1 = c).map fun cell =>
          WriteKey.unique table 0 (hash (encodeKey cell.2))).toList ++
        entry.schema.uniques.filterMap fun uc =>
          (encodeCompositeKey uc.columns (collect cells)).map fun key =>
            WriteKey.unique table (uniqueIndexId uc.id) (hash key)
  | delete rowId => [.row table rowId]
  | truncate => [.table table]

def writeKeys (hash : Key → Nat) (cat : Catalog) (ws : List (TableId × Write)) : List WriteKey :=
  ws.flatMap fun w => w.2.writeKeys hash cat w.1

end MongrelDB.Integrity
