import Mathlib.Algebra.Group.Nat.Defs
import Mathlib.Algebra.Ring.Int.Defs
import MongrelDB.Txn.Commit

/-!
# Staged operations, the serial run, and answers that survive a commit

The operations a transaction stages (an update is a delete and a put), the write keys
that `commit_transaction` derives from them, and `serialExec`, which applies whole
transactions one after the other.
-/

namespace MongrelDB.Txn

open List
open Option hiding filter_filter mem_map_of_mem

universe u v

/-! ## Tables and staged operations -/

/-- How values become key bytes and key hashes; any such functions will do. -/
structure KeyCodec (V : Type v) where
  isNull : V → Bool
  encodeKey : V → List UInt8
  hash : List UInt8 → Nat

structure UniqueConstraint where
  id : Nat
  columns : List Nat

structure TableSchema where
  /-- columns flagged `PRIMARY_KEY`; the first one is the primary key -/
  primaryKeyColumns : List Nat
  uniques : List UniqueConstraint

variable {V : Type v}

/-- Column id and value, in staging order. -/
abbrev Cells (V : Type v) := List (Nat × V)

/-- Four big-endian bytes. -/
def toBeBytes (n : Nat) : List UInt8 :=
  [UInt8.ofNat (n / 2 ^ 24), UInt8.ofNat (n / 2 ^ 16), UInt8.ofNat (n / 2 ^ 8), UInt8.ofNat n]

/-- Length-prefixed concatenation, `none` when a column is missing or null. -/
def encodeCompositeKey (codec : KeyCodec V) (cells : Cells V) : List Nat → Option (List UInt8)
  | [] => some []
  | c :: cs =>
    match cells.reverse.lookup c with
    | none => none
    | some v =>
      if codec.isNull v then none
      else
        let k := codec.encodeKey v
        (encodeCompositeKey codec cells cs).map fun rest => toBeBytes k.length ++ k ++ rest

/-- A staged operation as the transaction keeps it. -/
inductive Staged (V : Type v) where
  | put (tableId : Nat) (cells : Cells V)
  | delete (tableId rowId : Nat)
  | truncate (tableId : Nat)
  | update (tableId rowId : Nat) (newRow : Cells V)

/-- A staged operation after `Update` was split into `Delete` and `Put`. -/
inductive Op (V : Type v) where
  | put (tableId : Nat) (cells : Cells V)
  | delete (tableId rowId : Nat)
  | truncate (tableId : Nat)

def Staged.normalize : Staged V → List (Op V)
  | .put t cells => [.put t cells]
  | .delete t r => [.delete t r]
  | .truncate t => [.truncate t]
  | .update t r cells => [.delete t r, .put t cells]

/-- Hash keys of a put: one per primary-key column and one per complete unique key. -/
def putKeys (codec : KeyCodec V) (schema : TableSchema) (t : Nat) (cells : Cells V) :
    List WriteKey :=
  schema.primaryKeyColumns.filterMap (fun c =>
    (cells.lookup c).map fun v => .unique t 0 (codec.hash (codec.encodeKey v))) ++
  schema.uniques.filterMap (fun uc =>
    (encodeCompositeKey codec cells uc.columns).map fun k =>
      .unique t (uc.id ||| 0x8000) (codec.hash k))

structure StoredRow (V : Type v) where
  tableId : Nat
  rowId : Nat
  cells : Cells V
  deriving DecidableEq

/-- An answer given to a transaction. -/
inductive Observation (V : Type v) where
  | get (tableId rowId : Nat) (result : Option (Cells V))
  | scan (tableId : Nat) (rows : List (StoredRow V))

section Catalog

variable (codec : KeyCodec V) (catalog : Nat → TableSchema)

def Op.keys : Op V → List WriteKey
  | .put t cells => putKeys codec (catalog t) t cells
  | .delete t r => [.row t r]
  | .truncate t => [.table t]

def Op.tableId : Op V → Nat
  | .put t _ | .delete t _ | .truncate t => t

def writeKeys (ops : List (Op V)) : List WriteKey := ops.flatMap (Op.keys codec catalog)

/-! ## The stored rows and the serial run -/

structure Db (V : Type v) where
  rows : List (StoredRow V)
  /-- row-id allocator of each table -/
  nextRowId : Nat → Nat

def Db.empty : Db V where
  rows := []
  nextRowId := fun _ => 0

def Db.get (db : Db V) (t r : Nat) : Option (Cells V) :=
  (db.rows.find? fun row => row.tableId == t && row.rowId == r).map (·.cells)

def Db.scan (db : Db V) (t : Nat) : List (StoredRow V) := db.rows.filter (·.tableId == t)

/-- The put displaces this row: same table, same primary key. -/
def displaces (t : Nat) (cells : Cells V) (row : StoredRow V) : Bool :=
  row.tableId == t &&
    match (catalog t).primaryKeyColumns.head? with
    | none => false
    | some c =>
      match cells.lookup c, row.cells.lookup c with
      | some v, some w => codec.encodeKey v == codec.encodeKey w
      | _, _ => false

def Db.apply (db : Db V) : Op V → Db V
  | .put t cells =>
    { rows := db.rows.filter (fun row => !displaces codec catalog t cells row) ++
        [⟨t, db.nextRowId t, cells⟩]
      nextRowId := fun t' => if t' = t then db.nextRowId t + 1 else db.nextRowId t' }
  | .delete t r =>
    { db with rows := db.rows.filter fun row => !(row.tableId == t && row.rowId == r) }
  | .truncate t => { db with rows := db.rows.filter fun row => !(row.tableId == t) }

def Db.applyAll (db : Db V) (ops : List (Op V)) : Db V := ops.foldl (Db.apply codec catalog) db

/-- A committed transaction: the answers it was given and the operations it applied. -/
structure CommittedTxn (V : Type v) where
  observed : List (Observation V)
  ops : List (Op V)

/-- The serial run of whole transactions, in the order of the log. -/
def serialExec (log : List (CommittedTxn V)) (db : Db V) : Db V :=
  log.foldl (fun db c => db.applyAll codec catalog c.ops) db

/-! ## What an operation does not touch -/

/-- The put displaces no stored row. -/
def Op.Gentle (db : Db V) : Op V → Prop
  | .put t cells => ∀ row ∈ db.rows, displaces codec catalog t cells row = false
  | .delete _ _ | .truncate _ => True

/-- No put of the sequence displaces a row when its turn comes. -/
def AllGentle : Db V → List (Op V) → Prop
  | _, [] => True
  | db, op :: ops => op.Gentle codec catalog db ∧ AllGentle (db.apply codec catalog op) ops

instance (db : Db V) : (op : Op V) → Decidable (op.Gentle codec catalog db)
  | .put t cells =>
    inferInstanceAs (Decidable (∀ row ∈ db.rows, displaces codec catalog t cells row = false))
  | .delete _ _ | .truncate _ => isTrue trivial

instance decidableAllGentle :
    (db : Db V) → (ops : List (Op V)) → Decidable (AllGentle codec catalog db ops)
  | _, [] => isTrue trivial
  | db, op :: ops =>
    have := decidableAllGentle (db.apply codec catalog op) ops
    inferInstanceAs (Decidable (_ ∧ _))

variable {codec catalog} {db : Db V} {op : Op V} {t r : Nat}

theorem putKeys_tableId {schema : TableSchema} {cells : Cells V} {k : WriteKey}
    (hk : k ∈ putKeys codec schema t cells) : k.tableId = t := by
  simp only [putKeys, mem_append, mem_filterMap, map_eq_some_iff] at hk
  rcases hk with ⟨_, _, _, _, rfl⟩ | ⟨_, _, _, _, rfl⟩ <;> rfl

theorem Op.keys_tableId {k : WriteKey} (hk : k ∈ op.keys codec catalog) :
    k.tableId = op.tableId := by
  cases op with
  | put t cells => exact putKeys_tableId hk
  | delete t r =>
    obtain rfl := mem_singleton.mp hk
    rfl
  | truncate t =>
    obtain rfl := mem_singleton.mp hk
    rfl

/-- A keyed operation that no table key of `t` overlaps works on another table. -/
theorem Op.tableId_ne (hkeyed : op.keys codec catalog ≠ [])
    (hclear : ∀ k ∈ op.keys codec catalog, ¬(WriteKey.table t).Overlaps k) : op.tableId ≠ t := by
  rintro rfl
  obtain ⟨k, hk⟩ := exists_mem_of_ne_nil _ hkeyed
  exact hclear k hk (.inr ⟨.inl rfl, (keys_tableId hk).symm⟩)

theorem Db.scan_apply (h : op.tableId ≠ t) : (db.apply codec catalog op).scan t = db.scan t := by
  have hkeep : ∀ q : StoredRow V → Bool, (∀ row, q row = true → row.tableId = op.tableId) →
      (db.rows.filter fun row => !q row).filter (·.tableId == t) =
        db.rows.filter (·.tableId == t) := by
    intro q hq
    rw [filter_filter]
    refine filter_congr fun row _ => ?_
    by_cases hrow : row.tableId = t
    · have : q row = false := by
        by_contra hc
        exact h ((hq row (by simpa using hc)).symm.trans hrow)
      simp [hrow, this]
    · simp [hrow]
  cases op with
  | put t' cells =>
    simp only [scan, apply, filter_append]
    rw [hkeep _ fun row hrow => ?_]
    · have : (t' == t) = false := by simpa [Op.tableId] using h
      simp [this]
    · simp only [displaces, Bool.and_eq_true, beq_iff_eq] at hrow
      exact hrow.1
  | delete t' r' =>
    refine hkeep _ fun row hrow => ?_
    simp only [Bool.and_eq_true, beq_iff_eq] at hrow
    exact hrow.1
  | truncate t' => exact hkeep _ fun row hrow => eq_of_beq hrow

theorem Db.get_eq_of_scan {db' : Db V} (h : db'.scan t = db.scan t) : db'.get t r = db.get t r := by
  have hfind : ∀ d : Db V, d.get t r = ((d.scan t).find? (·.rowId == r)).map (·.cells) := by
    intro d
    unfold get scan
    rw [find?_filter]
    congr 2
    funext row
    simp [Bool.beq_eq_decide_eq]
  rw [hfind, hfind, h]

/-- A row that is there stays unless it is named by a key or displaced. -/
theorem Db.get_apply {cells : Cells V} (hfound : db.get t r = some cells)
    (hgentle : op.Gentle codec catalog db)
    (hclear : ∀ k ∈ op.keys codec catalog, ¬(WriteKey.row t r).Overlaps k) :
    (db.apply codec catalog op).get t r = some cells := by
  obtain ⟨row, hrow, rfl⟩ := map_eq_some_iff.mp hfound
  have hid := find?_some hrow
  simp only [Bool.and_eq_true, beq_iff_eq] at hid
  have hkeep : ∀ q : StoredRow V → Bool, (∀ row, row.tableId = t → row.rowId = r → q row = true) →
      (db.rows.filter q).find? (fun row => row.tableId == t && row.rowId == r) = some row := by
    intro q hq
    rw [find?_filter, ← hrow]
    congr 1
    funext row'
    by_cases h : row'.tableId = t ∧ row'.rowId = r
    · simp [h, hq row' h.1 h.2]
    · by_cases ht : row'.tableId = t <;> simp_all
  unfold get
  cases op with
  | put t' c' =>
    have hall : db.rows.filter (fun row => !displaces codec catalog t' c' row) = db.rows :=
      filter_eq_self.mpr fun row' h' => by simp [hgentle row' h']
    simp only [apply, hall, find?_append, hrow, some_or, map_some]
  | delete t' r' =>
    have hne : ¬(t = t' ∧ r = r') := by
      rintro ⟨rfl, rfl⟩
      exact hclear _ (mem_singleton.mpr rfl) (.inl rfl)
    simp only [apply]
    rw [hkeep _ fun row' ht hr => ?_, map_some]
    rw [ht, hr, Bool.not_eq_true', ← Bool.not_eq_true, Bool.and_eq_true, beq_iff_eq, beq_iff_eq]
    exact hne
  | truncate t' =>
    have hne : t ≠ t' := by
      rintro rfl
      exact hclear _ (mem_singleton.mpr rfl) (.inr ⟨.inr rfl, rfl⟩)
    simp only [apply]
    rw [hkeep _ fun row' ht _ => by simpa [ht] using hne, map_some]

/-! ## Answers that survive a commit -/

def Observation.Holds (db : Db V) : Observation V → Prop
  | .get t r result => db.get t r = result
  | .scan t rows => db.scan t = rows

instance [DecidableEq V] (db : Db V) : (o : Observation V) → Decidable (o.Holds db)
  | .get t r result => inferInstanceAs (Decidable (db.get t r = result))
  | .scan t rows => inferInstanceAs (Decidable (db.scan t = rows))

/-- The answer depends only on what the read set and the predicate set name. -/
def Observation.Tracked (readSet : List (Nat × Nat)) (predicateSet : List Nat) :
    Observation V → Prop
  | .get t r (some _) => (t, r) ∈ readSet
  | .get t _ none => t ∈ predicateSet
  | .scan t _ => t ∈ predicateSet

/-- What the read paths record by themselves: found rows and scanned tables. -/
def Observation.Recorded (readSet : List (Nat × Nat)) (predicateSet : List Nat) :
    Observation V → Prop
  | .get t r (some _) => (t, r) ∈ readSet
  | .get _ _ none => True
  | .scan t _ => t ∈ predicateSet

/-- The point read missed. -/
def Observation.missed : Observation V → Option Nat
  | .get t _ none => some t
  | .get _ _ (some _) | .scan _ _ => none

theorem Observation.Recorded.tracked {o : Observation V} {rs : List (Nat × Nat)} {ps : List Nat}
    (h : o.Recorded rs ps) (hmiss : ∀ t ∈ o.missed, t ∈ ps) : o.Tracked rs ps := by
  match o with
  | .get _ _ (some _) => exact h
  | .get t _ none => exact hmiss t rfl
  | .scan _ _ => exact h

section Survive

variable {o : Observation V} {rs : List (Nat × Nat)} {ps : List Nat}

theorem Observation.Holds.apply (ho : o.Holds db) (htr : o.Tracked rs ps)
    (hgentle : op.Gentle codec catalog db) (hkeyed : op.keys codec catalog ≠ [])
    (hclear : ¬KeysOverlap (ssiValidationKeys rs ps) (op.keys codec catalog)) :
    o.Holds (db.apply codec catalog op) := by
  have htable : ∀ t ∈ ps, (db.apply codec catalog op).scan t = db.scan t := fun t ht =>
    Db.scan_apply (Op.tableId_ne hkeyed fun k hk hov =>
      hclear ⟨.table t, mem_append_right _ (mem_map_of_mem ht), k, hk, hov⟩)
  match o with
  | .get t r (some cells) =>
    refine Db.get_apply ho hgentle fun k hk hov => hclear ⟨.row t r, ?_, k, hk, hov⟩
    exact mem_append_left _ (mem_map_of_mem (f := fun p => WriteKey.row p.1 p.2) htr)
  | .get t r none => exact (Db.get_eq_of_scan (htable t htr)).trans ho
  | .scan t rows => exact (htable t htr).trans ho

theorem KeysOverlap.mono_right {as bs bs' : List WriteKey} (hsub : ∀ b ∈ bs, b ∈ bs')
    (h : KeysOverlap as bs) : KeysOverlap as bs' := by
  obtain ⟨a, ha, b, hb, hov⟩ := h
  exact ⟨a, ha, b, hsub b hb, hov⟩

theorem Observation.Holds.applyAll (htr : o.Tracked rs ps) :
    ∀ (ops : List (Op V)) {db : Db V}, o.Holds db → AllGentle codec catalog db ops →
      (∀ op ∈ ops, op.keys codec catalog ≠ []) →
      ¬KeysOverlap (ssiValidationKeys rs ps) (writeKeys codec catalog ops) →
      o.Holds (db.applyAll codec catalog ops)
  | [], _, ho, _, _, _ => ho
  | op :: ops, db, ho, hgentle, hkeyed, hclear => by
    refine Observation.Holds.applyAll htr ops (ho.apply htr hgentle.1 (hkeyed op (by simp)) ?_)
      hgentle.2 (fun op' h' => hkeyed op' (mem_cons_of_mem _ h')) ?_
    · exact fun h => hclear (h.mono_right fun k hk => mem_append_left _ hk)
    · exact fun h => hclear (h.mono_right fun k hk => mem_append_right _ hk)

variable (codec catalog) in
/-- Every transaction of the log leaves a key for each operation and displaces no row. -/
def LogTracked : Db V → List (CommittedTxn V) → Prop
  | _, [] => True
  | db, c :: cs => AllGentle codec catalog db c.ops ∧ (∀ op ∈ c.ops, op.keys codec catalog ≠ []) ∧
      LogTracked (db.applyAll codec catalog c.ops) cs

theorem logTracked_append (cs cs' : List (CommittedTxn V)) : ∀ {db : Db V},
    LogTracked codec catalog db (cs ++ cs') ↔ LogTracked codec catalog db cs ∧
      LogTracked codec catalog (serialExec codec catalog cs db) cs' := by
  induction cs with
  | nil => simp [LogTracked, serialExec]
  | cons c cs ih =>
    intro db
    simp only [cons_append, LogTracked, ih, and_assoc]
    rfl

/-- An answer survives the transactions that overlap none of its keys. -/
theorem Observation.Holds.serialExec (htr : o.Tracked rs ps) :
    ∀ (cs : List (CommittedTxn V)) {db : Db V}, o.Holds db → LogTracked codec catalog db cs →
      (∀ c ∈ cs, ¬KeysOverlap (ssiValidationKeys rs ps) (writeKeys codec catalog c.ops)) →
      o.Holds (Txn.serialExec codec catalog cs db)
  | [], _, ho, _, _ => ho
  | c :: cs, db, ho, hlog, hclear =>
    Observation.Holds.serialExec htr cs
      (ho.applyAll htr c.ops hlog.1 hlog.2.1 (hclear c (by simp))) hlog.2.2
      fun c' h' => hclear c' (mem_cons_of_mem _ h')

end Survive

end Catalog

end MongrelDB.Txn
