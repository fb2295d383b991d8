import MongrelDB.Columnar.Page
import MongrelDB.Lib.Records

/-!
# Declared constraints

`constraint.rs`: what a table declares besides its columns, and the composite keys by
which unique constraints and foreign keys compare rows.
-/

namespace MongrelDB.Integrity

open Lib

abbrev TableId := Nat

abbrev ColumnId := Nat

abbrev RowId := Nat

/-- Rows are addressed by table and row id. -/
instance instLawfulBEqAddress : LawfulBEq (TableId × RowId) := inferInstance

/-- The metadata of a generated embedding as its text. -/
abbrev Value := Columnar.Value String

abbrev Columns := Std.TreeMap ColumnId Value

abbrev Key := Bytes

/-! ## Keys -/

/-- `Value::encode_key` -/
def encodeKey : Value → Key
  | .null => []
  | .bool b => [if b then 1 else 0]
  | .int64 x => beBytes 8 x.toNat
  | .float64 bits => beBytes 8 bits.toNat
  | .bytes b => b
  | .embedding vector => vector.flatMap fun x => beBytes 4 x.toNat
  | .generatedEmbedding vector _ => vector.flatMap fun x => beBytes 4 x.toNat
  | .decimal x => beBytes 16 x.toNat
  | .interval months days nanos =>
    beBytes 8 months.toNat ++ beBytes 4 days.toNat ++ beBytes 8 nanos.toNat
  | .uuid b => beBytes 16 b.toNat
  | .json b => b

def encodeCompositeKey : List ColumnId → Columns → Option Key
  | [], _ => some []
  | c :: rest, cells =>
    match cells[c]? with
    | none => none
    | some v =>
      if v = .null then none
      else
        (encodeCompositeKey rest cells).map fun out =>
          beBytes 4 (encodeKey v).length ++ encodeKey v ++ out

theorem encodeCompositeKey_congr {cs : List ColumnId} {cells cells' : Columns}
    (h : ∀ c ∈ cs, cells[c]? = cells'[c]?) :
    encodeCompositeKey cs cells = encodeCompositeKey cs cells' := by
  induction cs with
  | nil => rfl
  | cons c rest ih =>
    rw [encodeCompositeKey, encodeCompositeKey, h c List.mem_cons_self,
      ih fun c' hc' => h c' (List.mem_cons_of_mem c hc')]

theorem encodeCompositeKey_singleton {c : ColumnId} {cells : Columns} {k : Key} :
    encodeCompositeKey [c] cells = some k ↔
      ∃ v, cells[c]? = some v ∧ v ≠ .null ∧
        k = beBytes 4 (encodeKey v).length ++ encodeKey v := by
  rw [encodeCompositeKey]
  cases cells[c]? with
  | none => simp
  | some v =>
    by_cases hnull : v = .null
    · simp [hnull]
    · simp [hnull, encodeCompositeKey, eq_comm]

/-! ## Declarations -/

inductive FkAction where
  | restrict
  | cascade
  | setNull
  deriving DecidableEq, Repr

structure UniqueConstraint where
  id : Nat
  name : String
  columns : List ColumnId
  deriving DecidableEq, Repr

structure ForeignKey where
  id : Nat
  name : String
  columns : List ColumnId
  /-- The parent table, by name. -/
  refTable : String
  refColumns : List ColumnId
  onDelete : FkAction
  onUpdate : FkAction
  deriving DecidableEq, Repr

/-- An action of this key may write its columns in a child row. -/
def ForeignKey.Rewrites (fk : ForeignKey) : Prop :=
  fk.onUpdate ≠ .restrict ∨ fk.onDelete = .setNull
  deriving Decidable

structure CheckConstraint where
  id : Nat
  name : String
  /-- The expression is not `False` of the row. -/
  satisfied : Columns → Bool

structure TableSchema where
  primaryKey : Option ColumnId
  uniques : List UniqueConstraint
  foreignKeys : List ForeignKey
  checks : List CheckConstraint

structure CatalogEntry where
  tableId : TableId
  name : String
  schema : TableSchema

/-- The live tables. -/
structure Catalog where
  tables : List CatalogEntry
  distinctIds : (tables.map (·.tableId)).Nodup
  distinctNames : (tables.map (·.name)).Nodup

namespace Catalog

def entry (cat : Catalog) (id : TableId) : Option CatalogEntry :=
  cat.tables.find? fun e => e.tableId = id

def entryByName (cat : Catalog) (name : String) : Option CatalogEntry :=
  cat.tables.find? fun e => e.name = name

def primaryKey (cat : Catalog) (id : TableId) : Option ColumnId :=
  (cat.entry id).bind (·.schema.primaryKey)

/-- The foreign keys that name a table, with the tables that declare them. -/
def referencing (cat : Catalog) (name : String) : List (CatalogEntry × ForeignKey) :=
  cat.tables.flatMap fun child =>
    (child.schema.foreignKeys.filter fun fk => fk.refTable = name).map fun fk => (child, fk)

variable {cat : Catalog}

theorem mem_referencing {name : String} {child : CatalogEntry} {fk : ForeignKey} :
    (child, fk) ∈ cat.referencing name ↔
      child ∈ cat.tables ∧ fk ∈ child.schema.foreignKeys ∧ fk.refTable = name := by
  simp only [referencing, List.mem_flatMap, List.mem_map, List.mem_filter, decide_eq_true_eq,
    Prod.mk.injEq]
  constructor
  · rintro ⟨child', hchild, fk', ⟨hfk, hname⟩, rfl, rfl⟩
    exact ⟨hchild, hfk, hname⟩
  · rintro ⟨hchild, hfk, hname⟩
    exact ⟨child, hchild, fk, ⟨hfk, hname⟩, rfl, rfl⟩

theorem entry_eq_some {e : CatalogEntry} {id : TableId} :
    cat.entry id = some e ↔ e ∈ cat.tables ∧ e.tableId = id :=
  find?_key_eq_some cat.distinctIds

theorem entryByName_eq_some {e : CatalogEntry} {name : String} :
    cat.entryByName name = some e ↔ e ∈ cat.tables ∧ e.name = name :=
  find?_key_eq_some cat.distinctNames

end Catalog

end MongrelDB.Integrity
