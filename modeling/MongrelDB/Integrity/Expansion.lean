import MongrelDB.Integrity.Database
import MongrelDB.Locks.Manager

/-!
# Referential actions

The first half of `validate_constraints`.
-/

namespace MongrelDB.Integrity

open Lib
open Locks (LockKey LockMode)
open List
open Option hiding any_eq_true mem_map

/-! ## Locks and children -/

/-- A parent-protection lock. -/
structure FkLock where
  key : LockKey
  mode : LockMode
  deriving DecidableEq

/-- `b"fk:"` -/
def fkNamespace : Key := [102, 107, 58]

def fkLock (table : TableId) (key : Key) (mode : LockMode) : FkLock :=
  ⟨.key table (fkNamespace ++ key), mode⟩

/-- The rows of the snapshot that have `key` in a foreign key. -/
def childRows (db : Database) (child : CatalogEntry) (fk : ForeignKey) (key : Key) : List Row :=
  (db child.tableId).rows.filter fun r => encodeCompositeKey fk.columns r.columns = some key

variable {fk : ForeignKey} {child : CatalogEntry}

variable {r : Row}

theorem mem_childRows {db : Database} {key : Key} : r ∈ childRows db child fk key ↔
      r ∈ (db child.tableId).rows ∧ encodeCompositeKey fk.columns r.columns = some key := by
  simp [childRows]

/-! ## ON UPDATE -/

/-- What a child's column becomes when the parent's key changes. -/
def rewriteValue (action : FkAction) (newMap : Columns) (parentColumn : ColumnId) : Value :=
  match action with
  | .cascade => newMap[parentColumn]?.getD .null
  | .setNull => .null
  | .restrict => .null

/-- The child's image with the columns of the key rewritten, in column order. -/
def Row.moved (r : Row) (fk : ForeignKey) (newMap : Columns) : Cells :=
  ((fk.columns.zip fk.refColumns).foldl
    (fun m c => m.insert c.1 (rewriteValue fk.onUpdate newMap c.2)) r.columns).toList

structure PendingUpdate where
  index : Nat
  tableId : TableId
  rowId : RowId
  newCells : Cells

/-- The updates no pass has expanded yet. -/
def pendingUpdates (processed : List Nat) (staging : Staging) : List PendingUpdate :=
  staging.zipIdx.filterMap fun op =>
    match op with
    | ((table, .update rowId newRow), index) =>
      if index ∈ processed then none else some ⟨index, table, rowId, newRow⟩
    | _ => none

structure UpdatePass where
  staging : Staging
  processed : List Nat
  newOps : Staging
  locks : List FkLock

def Staged.isUpdateOf (id : RowId) : Staged → Bool
  | update rowId _ => rowId = id
  | _ => false

/-- One child of an old key; an update already staged for it is overwritten. -/
def moveChild (child : CatalogEntry) (fk : ForeignKey) (newMap : Columns) (x : UpdatePass)
    (r : Row) : UpdatePass :=
  if (child.tableId, .delete r.rowId) ∈ x.staging then x
  else
    let op := (child.tableId, Staged.update r.rowId (r.moved fk newMap))
    match x.staging.findIdx? fun op => op.1 = child.tableId ∧ op.2.isUpdateOf r.rowId with
    | some i =>
      if x.staging[i]? = some op then x
      else
        { x with
          staging := x.staging.set i op
          processed := x.processed.filter fun j => j ≠ i }
    | none => { x with newOps := x.newOps ++ [op] }

/-- One foreign key that names the table of an updated row. -/
def expandUpdateOf (db : Database) (table : TableId) (old : Row) (newMap : Columns)
    (x : UpdatePass) (ref : CatalogEntry × ForeignKey) : UpdatePass :=
  match encodeCompositeKey ref.2.refColumns old.columns with
  | none => x
  | some oldKey =>
    if encodeCompositeKey ref.2.refColumns newMap = some oldKey then x
    else if ref.2.onUpdate = .restrict then x
    else
      (childRows db ref.1 ref.2 oldKey).foldl (moveChild ref.1 ref.2 newMap)
        { x with locks := x.locks ++ [fkLock table oldKey .exclusive] }

def expandUpdate (cat : Catalog) (db : Database) (x : UpdatePass) (p : PendingUpdate) :
    UpdatePass :=
  let x := { x with processed := p.index :: x.processed }
  match cat.entry p.tableId with
  | none => x
  | some entry =>
    match (db p.tableId).get p.rowId with
    | none => x
    | some old =>
      (cat.referencing entry.name).foldl (expandUpdateOf db p.tableId old (collect p.newCells)) x

/-- Phase A1, at most `fuel` passes. -/
def expandUpdates (cat : Catalog) (db : Database) :
    Nat → Staging → List Nat → List FkLock → Option (Staging × List FkLock)
  | 0, _, _, _ => none
  | fuel + 1, staging, processed, locks =>
    match pendingUpdates processed staging with
    | [] => some (staging, locks)
    | pending =>
      let x := pending.foldl (expandUpdate cat db) ⟨staging, processed, [], locks⟩
      expandUpdates cat db fuel (x.staging ++ x.newOps) x.processed x.locks

/-! ## ON DELETE -/

/-- The child's image with the columns of the key set to null. -/
def Row.nulled (r : Row) (fk : ForeignKey) : Cells :=
  (fk.columns.foldl (fun m c => m.insert c .null) r.columns).toList

structure DeletePass where
  cascaded : List (TableId × RowId)
  newOps : Staging
  locks : List FkLock

/-- A staged put of the same table has the referenced key. -/
def keyPreserved (staging : Staging) (table : TableId) (fk : ForeignKey) (key : Key) : Bool :=
  staging.any fun op =>
    match op with
    | (t, .put cells) =>
      t = table ∧ encodeCompositeKey fk.refColumns (collect cells) = some key
    | _ => false

def expandDeleteOf (db : Database) (staging : Staging) (table : TableId) (parent : Row)
    (x : DeletePass) (ref : CatalogEntry × ForeignKey) : DeletePass :=
  match encodeCompositeKey ref.2.refColumns parent.columns with
  | none => x
  | some key =>
    if keyPreserved staging table ref.2 key then x
    else
      let locks := x.locks ++ [fkLock table key .exclusive]
      let children := (childRows db ref.1 ref.2 key).filter fun r =>
        (ref.1.tableId, r.rowId) ∉ x.cascaded
      match ref.2.onDelete with
      | .restrict => { x with locks }
      | .cascade =>
        { x with
          locks
          newOps := x.newOps ++ children.map fun r => (ref.1.tableId, .delete r.rowId) }
      | .setNull =>
        { x with
          locks
          newOps := x.newOps ++
            children.map fun r => (ref.1.tableId, .update r.rowId (r.nulled ref.2)) }

def expandDelete (cat : Catalog) (db : Database) (staging : Staging) (x : DeletePass)
    (d : TableId × RowId) : DeletePass :=
  if d ∈ x.cascaded then x
  else
    let x := { x with cascaded := d :: x.cascaded }
    match cat.entry d.1 with
    | none => x
    | some entry =>
      match (db d.1).get d.2 with
      | none => x
      | some parent =>
        (cat.referencing entry.name).foldl (expandDeleteOf db staging d.1 parent) x

def deleteIds (staging : Staging) : List (TableId × RowId) :=
  staging.filterMap fun op =>
    match op with
    | (table, .delete rowId) => some (table, rowId)
    | _ => none

/-- Phase A2, at most `fuel` passes. -/
def expandDeletes (cat : Catalog) (db : Database) :
    Nat → Staging → List (TableId × RowId) → List FkLock → Option (Staging × List FkLock)
  | 0, _, _, _ => none
  | fuel + 1, staging, cascaded, locks =>
    let x := (deleteIds staging).foldl (expandDelete cat db staging) ⟨cascaded, [], locks⟩
    match x.newOps with
    | [] => some (staging, x.locks)
    | newOps => expandDeletes cat db fuel (staging ++ newOps) x.cascaded x.locks

/-! ## What the actions stage -/

/-- The image of a visible row in which an action has written the columns of one key. -/
def Rewritten (cat : Catalog) (db : Database) (table : TableId) (id : RowId) (cells : Cells) :
    Prop :=
  ∃ entry, cat.entry table = some entry ∧ ∃ r ∈ (db table).rows, r.rowId = id ∧
    ∃ fk ∈ entry.schema.foreignKeys, fk.Rewrites ∧
      ∀ c, c ∉ fk.columns → (collect cells)[c]? = r.columns[c]?

theorem getElem?_foldl_insert {α : Type} {key : α → ColumnId} {value : α → Value} {c : ColumnId} :
    ∀ {l : List α} {m : Columns}, (∀ a ∈ l, key a ≠ c) →
      (l.foldl (fun m a => m.insert (key a) (value a)) m)[c]? = m[c]?
  | [], _, _ => rfl
  | a :: l, m, h => by
    obtain ⟨ha, hl⟩ := forall_mem_cons.mp h
    rw [foldl_cons, getElem?_foldl_insert hl, Std.TreeMap.getElem?_insert,
      if_neg (by simpa using ha)]

theorem collect_moved {newMap : Columns} {c : ColumnId} (h : c ∉ fk.columns) :
    (collect (r.moved fk newMap))[c]? = r.columns[c]? := by
  rw [Row.moved, collect_toList]
  refine getElem?_foldl_insert fun a ha => ?_
  rintro rfl
  exact h (of_mem_zip ha).1

theorem collect_nulled {c : ColumnId} (h : c ∉ fk.columns) :
    (collect (r.nulled fk))[c]? = r.columns[c]? := by
  rw [Row.nulled, collect_toList]
  refine @getElem?_foldl_insert ColumnId id (fun _ => .null) c fk.columns r.columns fun a ha => ?_
  rintro rfl
  exact h ha

/-! ## One update -/

variable {locks locks' : List FkLock} {table : TableId}

section Updates

variable {cat : Catalog} {db : Database} {x x' x'' : UpdatePass}

/-- All that is staged, the children found in this pass included. -/
def UpdatePass.all (x : UpdatePass) : Staging := x.staging ++ x.newOps

/-- What a part of a pass does: it rewrites updates in their place and stages further
rewritten ones. -/
structure Extends (cat : Catalog) (db : Database) (x x' : UpdatePass) : Prop where
  staging : ∀ i : Nat, x'.staging[i]? = x.staging[i]? ∨ ∃ table id cells cells',
    x.staging[i]? = some (table, .update id cells) ∧
      x'.staging[i]? = some (table, .update id cells') ∧ Rewritten cat db table id cells'
  newOps : ∃ ops, x'.newOps = x.newOps ++ ops ∧ ∀ op ∈ ops, ∃ id cells,
    op.2 = .update id cells ∧ Rewritten cat db op.1 id cells
  locks : ∀ l ∈ x.locks, l ∈ x'.locks

theorem Extends.refl (x : UpdatePass) : Extends cat db x x :=
  ⟨fun _ => .inl rfl, ⟨[], by simp⟩, fun _ h => h⟩

theorem Extends.trans (h : Extends cat db x x') (h' : Extends cat db x' x'') :
    Extends cat db x x'' := by
  refine ⟨fun i => ?_, ?_, fun l hl => h'.locks l (h.locks l hl)⟩
  · rcases h'.staging i with hsame | ⟨table, id, cells, cells', hold, hnew, hrewritten⟩
    · rw [hsame]
      exact h.staging i
    · right
      rcases h.staging i with hsame | ⟨table₀, id₀, cells₀, cells₁, hold₀, hnew₀, -⟩
      · exact ⟨table, id, cells, cells', hsame ▸ hold, hnew, hrewritten⟩
      · obtain ⟨rfl, hop⟩ := Prod.mk.inj (some.inj (hnew₀.symm.trans hold))
        cases hop
        exact ⟨_, _, cells₀, cells', hold₀, hnew, hrewritten⟩
  · obtain ⟨ops, heq, hops⟩ := h.newOps
    obtain ⟨ops', heq', hops'⟩ := h'.newOps
    exact ⟨ops ++ ops', by rw [heq', heq, append_assoc], forall_mem_append.mpr ⟨hops, hops'⟩⟩

theorem Extends.removes (h : Extends cat db x x') {id : RowId}
    (hremoves : Removes x.all table id) : Removes x'.all table id := by
  obtain ⟨op, hop, hid⟩ := hremoves
  rcases mem_append.mp hop with hop | hop
  · obtain ⟨i, hi⟩ := mem_iff_getElem?.mp hop
    rcases h.staging i with hsame | ⟨table', id', cells, cells', hold, hnew, -⟩
    · exact ⟨op, mem_append_left _ (mem_of_getElem? (hsame.trans hi)), hid⟩
    · obtain ⟨rfl, rfl⟩ := Prod.mk.inj (some.inj (hi.symm.trans hold))
      exact ⟨.update id' cells', mem_append_left _ (mem_of_getElem? hnew), hid⟩
  · obtain ⟨ops, heq, -⟩ := h.newOps
    refine ⟨op, mem_append_right _ ?_, hid⟩
    rw [heq]
    exact mem_append_left _ hop

section

variable (hchild : child ∈ cat.tables) (hfk : fk ∈ child.schema.foreignKeys)
  (haction : fk.onUpdate ≠ .restrict)
include hchild hfk haction

theorem rewritten_moved (hr : r ∈ (db child.tableId).rows) (newMap : Columns) :
    Rewritten cat db child.tableId r.rowId (r.moved fk newMap) :=
  ⟨child, Catalog.entry_eq_some.mpr ⟨hchild, rfl⟩, r, hr, rfl, fk, hfk, .inl haction,
    fun _ => collect_moved⟩

theorem moveChild_spec (hr : r ∈ (db child.tableId).rows) (newMap : Columns) (x : UpdatePass) :
    Extends cat db x (moveChild child fk newMap x r) ∧
      Removes (moveChild child fk newMap x r).all child.tableId r.rowId ∧
      ∀ i ∈ (moveChild child fk newMap x r).processed, i ∈ x.processed := by
  have hrewritten := rewritten_moved hchild hfk haction hr newMap
  unfold moveChild
  split
  next hdelete =>
    exact ⟨.refl x, ⟨.delete r.rowId, mem_append_left _ hdelete, rfl⟩, fun _ h => h⟩
  simp only
  split
  next i hi =>
    obtain ⟨hlt, hfound, -⟩ := findIdx?_eq_some_iff_getElem.mp hi
    obtain ⟨htable, hupdate⟩ := of_decide_eq_true hfound
    obtain ⟨cells, hcells⟩ : ∃ cells, x.staging[i] = (child.tableId, .update r.rowId cells) := by
      rw [← htable]
      cases hop : x.staging[i].2 with
      | update id cells =>
        rw [hop] at hupdate
        exact ⟨cells, Prod.ext rfl (hop.trans (by rw [of_decide_eq_true hupdate]))⟩
      | put | delete | truncate => rw [hop] at hupdate; cases hupdate
    have hget : x.staging[i]? = some (child.tableId, .update r.rowId cells) := by
      rw [getElem?_eq_getElem hlt, hcells]
    split
    next hsame =>
      refine ⟨.refl x, ⟨_, mem_append_left _ (mem_of_getElem? hsame), rfl⟩, ?_⟩
      exact fun _ h => h
    next =>
      have hset : (x.staging.set i (child.tableId, .update r.rowId (r.moved fk newMap)))[i]? =
          some (child.tableId, .update r.rowId (r.moved fk newMap)) :=
        getElem?_set_self hlt
      refine ⟨⟨fun j => ?_, ⟨[], by simp⟩, fun _ h => h⟩,
        ⟨_, mem_append_left _ (mem_of_getElem? hset), rfl⟩, fun j hj => ?_⟩
      · by_cases hij : i = j
        · subst hij
          exact .inr ⟨_, _, _, _, hget, hset, hrewritten⟩
        · exact .inl (getElem?_set_ne hij)
      · exact (mem_filter.mp hj).1
  next =>
    refine ⟨⟨fun _ => .inl rfl, ⟨_, rfl, ?_⟩, fun _ h => h⟩,
      ⟨.update r.rowId (r.moved fk newMap), ?_, rfl⟩, fun _ h => h⟩
    · intro op hop
      obtain rfl := mem_singleton.mp hop
      exact ⟨_, _, rfl, hrewritten⟩
    · exact mem_append_right _ (mem_append_right _ (mem_singleton.mpr rfl))

theorem moveChildren_spec (newMap : Columns) {rows : List Row}
    (hrows : ∀ r ∈ rows, r ∈ (db child.tableId).rows)
    (x : UpdatePass) :
    let x' := rows.foldl (moveChild child fk newMap) x
    Extends cat db x x' ∧ (∀ r ∈ rows, Removes x'.all child.tableId r.rowId) ∧
      ∀ i ∈ x'.processed, i ∈ x.processed := by
  induction rows generalizing x with
  | nil => exact ⟨.refl x, fun r hr => (not_mem_nil hr).elim, fun _ h => h⟩
  | cons r rows ih =>
    obtain ⟨hr, hrows⟩ := forall_mem_cons.mp hrows
    obtain ⟨hext, hremoves, hproc⟩ := moveChild_spec hchild hfk haction hr newMap x
    obtain ⟨hext', hremoves', hproc'⟩ := ih hrows (moveChild child fk newMap x r)
    exact ⟨hext.trans hext', forall_mem_cons.mpr ⟨hext'.removes hremoves, hremoves'⟩,
      fun i hi => hproc i (hproc' i hi)⟩

end

/-- The children of the key an update gives up are staged, and the key is locked. -/
def Followed (cat : Catalog) (db : Database) (all : Staging) (locks : List FkLock)
    (table : TableId) (id : RowId) (newMap : Columns) : Prop :=
  ∀ entry old, cat.entry table = some entry → (db table).get id = some old →
    ∀ child fk, (child, fk) ∈ cat.referencing entry.name → fk.onUpdate ≠ .restrict →
      ∀ k, encodeCompositeKey fk.refColumns old.columns = some k →
        encodeCompositeKey fk.refColumns newMap ≠ some k →
        fkLock table k .exclusive ∈ locks ∧
          ∀ r ∈ childRows db child fk k, Removes all child.tableId r.rowId

theorem Followed.mono {all all' : Staging}
    {id : RowId} {newMap : Columns} (h : Followed cat db all locks table id newMap)
    (hremoves : ∀ table id, Removes all table id → Removes all' table id)
    (hlocks : ∀ l ∈ locks, l ∈ locks') : Followed cat db all' locks' table id newMap := by
  intro entry old hentry hold child fk hfk haction k hk hnew
  obtain ⟨hlock, hchildren⟩ := h entry old hentry hold child fk hfk haction k hk hnew
  exact ⟨hlocks _ hlock, fun r hr => hremoves _ _ (hchildren r hr)⟩

theorem expandUpdateOf_spec {name : String}
    (href : (child, fk) ∈ cat.referencing name) (table : TableId) (old : Row) (newMap : Columns)
    (x : UpdatePass) :
    let x' := expandUpdateOf db table old newMap x (child, fk)
    Extends cat db x x' ∧ (∀ i ∈ x'.processed, i ∈ x.processed) ∧
      (fk.onUpdate ≠ .restrict → ∀ k, encodeCompositeKey fk.refColumns old.columns = some k →
        encodeCompositeKey fk.refColumns newMap ≠ some k →
        fkLock table k .exclusive ∈ x'.locks ∧
          ∀ r ∈ childRows db child fk k, Removes x'.all child.tableId r.rowId) := by
  obtain ⟨hchild, hfk, -⟩ := Catalog.mem_referencing.mp href
  unfold expandUpdateOf
  dsimp only
  split
  next hnone =>
    refine ⟨.refl x, fun _ h => h, fun _ k hk => ?_⟩
    cases hnone.symm.trans hk
  next oldKey hkey =>
    simp only [hkey, some.injEq, forall_eq']
    split
    next hkept => exact ⟨.refl x, fun _ h => h, fun _ hnew => absurd hkept hnew⟩
    split
    next hrestrict => exact ⟨.refl x, fun _ h => h, fun haction => absurd hrestrict haction⟩
    next haction =>
      have hlock :
          Extends cat db x { x with locks := x.locks ++ [fkLock table oldKey .exclusive] } :=
        ⟨fun _ => .inl rfl, ⟨[], by simp⟩, fun l hl => mem_append_left _ hl⟩
      obtain ⟨hext, hremoves, hproc⟩ := moveChildren_spec hchild hfk haction newMap
        (fun r hr => (mem_childRows.mp hr).1)
        { x with locks := x.locks ++ [fkLock table oldKey .exclusive] }
      exact ⟨hlock.trans hext, hproc, fun _ _ =>
        ⟨hext.locks _ (mem_append_right _ (mem_singleton.mpr rfl)), hremoves⟩⟩

theorem expandRefs_spec {name : String} {refs : List (CatalogEntry × ForeignKey)}
    (hrefs : ∀ ref ∈ refs, ref ∈ cat.referencing name) (table : TableId) (old : Row)
    (newMap : Columns) (x : UpdatePass) :
    let x' := refs.foldl (expandUpdateOf db table old newMap) x
    Extends cat db x x' ∧ (∀ i ∈ x'.processed, i ∈ x.processed) ∧
      ∀ child fk, (child, fk) ∈ refs → fk.onUpdate ≠ .restrict →
        ∀ k, encodeCompositeKey fk.refColumns old.columns = some k →
          encodeCompositeKey fk.refColumns newMap ≠ some k →
          fkLock table k .exclusive ∈ x'.locks ∧
            ∀ r ∈ childRows db child fk k, Removes x'.all child.tableId r.rowId := by
  induction refs generalizing x with
  | nil => exact ⟨.refl x, fun _ h => h, fun child fk h => (not_mem_nil h).elim⟩
  | cons ref refs ih =>
    obtain ⟨href, hrefs⟩ := forall_mem_cons.mp hrefs
    obtain ⟨hext, hproc, hfollowed⟩ := expandUpdateOf_spec href table old newMap x
    obtain ⟨hext', hproc', hfollowed'⟩ := ih hrefs (expandUpdateOf db table old newMap x ref)
    refine ⟨hext.trans hext', fun i hi => hproc i (hproc' i hi), ?_⟩
    intro child fk hmem haction k hk hnew
    rcases mem_cons.mp hmem with rfl | hmem
    · obtain ⟨hlock, hchildren⟩ := hfollowed haction k hk hnew
      exact ⟨hext'.locks _ hlock, fun r hr => hext'.removes (hchildren r hr)⟩
    · exact hfollowed' child fk hmem haction k hk hnew

theorem expandUpdate_spec (cat : Catalog) (db : Database) (x : UpdatePass) (p : PendingUpdate) :
    Extends cat db x (expandUpdate cat db x p) ∧
      (∀ i ∈ (expandUpdate cat db x p).processed, i = p.index ∨ i ∈ x.processed) ∧
      Followed cat db (expandUpdate cat db x p).all (expandUpdate cat db x p).locks p.tableId
        p.rowId (collect p.newCells) := by
  have hstart : Extends cat db x { x with processed := p.index :: x.processed } :=
    ⟨fun _ => .inl rfl, ⟨[], by simp⟩, fun _ h => h⟩
  simp only [expandUpdate]
  split
  next hnone =>
    refine ⟨hstart, fun i hi => mem_cons.mp hi, fun entry old hentry => ?_⟩
    cases hnone.symm.trans hentry
  next entry hentry =>
    split
    next hnone =>
      refine ⟨hstart, fun i hi => mem_cons.mp hi, fun entry old _ hold => ?_⟩
      cases hnone.symm.trans hold
    next old hold =>
      obtain ⟨hext, hproc, hfollowed⟩ := expandRefs_spec (fun _ h => h) p.tableId old
        (collect p.newCells) { x with processed := p.index :: x.processed }
      refine ⟨hstart.trans hext, fun i hi => mem_cons.mp (hproc i hi), ?_⟩
      intro entry' old' hentry' hold'
      obtain rfl : entry = entry' := some.inj (hentry.symm.trans hentry')
      obtain rfl : old = old' := some.inj (hold.symm.trans hold')
      exact hfollowed

/-! ## All updates -/

/-- At an index no pass will look at again stands no update, or one whose children are
staged, or one an action has written. -/
def Settled (cat : Catalog) (db : Database) (x : UpdatePass) : Prop :=
  ∀ i ∈ x.processed, ∀ table id cells, x.staging[i]? = some (table, .update id cells) →
    Followed cat db x.all x.locks table id (collect cells) ∨ Rewritten cat db table id cells

theorem expandPass_spec {start : UpdatePass} {pending : List PendingUpdate}
    (hpending : ∀ p ∈ pending, start.staging[p.index]? =
      some (p.tableId, .update p.rowId p.newCells)) (hext : Extends cat db start x)
    (hx : Settled cat db x) :
    Extends cat db start (pending.foldl (expandUpdate cat db) x) ∧
      Settled cat db (pending.foldl (expandUpdate cat db) x) := by
  induction pending generalizing x with
  | nil => exact ⟨hext, hx⟩
  | cons p pending ih =>
    obtain ⟨hp, hpending⟩ := forall_mem_cons.mp hpending
    obtain ⟨hstep, hproc, hfollowed⟩ := expandUpdate_spec cat db x p
    refine ih hpending (hext.trans hstep) ?_
    intro i hi table id cells hget
    rcases hproc i hi with rfl | hi
    · -- its own update: as it was at the start, or overwritten since
      rcases (hext.trans hstep).staging p.index with hsame | ⟨_, _, _, _, _, hnew, hrewritten⟩
      · cases some.inj (hget.symm.trans (hsame.trans hp))
        exact .inl hfollowed
      · cases some.inj (hget.symm.trans hnew)
        exact .inr hrewritten
    · rcases hstep.staging i with hsame | ⟨_, _, _, _, _, hnew, hrewritten⟩
      · rcases hx i hi table id cells (hsame ▸ hget) with hfollowed | hrewritten
        · exact .inl (hfollowed.mono (fun _ _ => hstep.removes) hstep.locks)
        · exact .inr hrewritten
      · cases some.inj (hget.symm.trans hnew)
        exact .inr hrewritten

theorem extends_foldl (cat : Catalog) (db : Database) (pending : List PendingUpdate)
    (x : UpdatePass) :
    Extends cat db x (pending.foldl (expandUpdate cat db) x) := by
  induction pending generalizing x with
  | nil => exact .refl x
  | cons p pending ih => exact (expandUpdate_spec cat db x p).1.trans (ih _)

/-- An update is expanded with the cells it has at the start of the pass. -/
theorem followed_foldl {pending : List PendingUpdate} {p : PendingUpdate} (hp : p ∈ pending)
    (x : UpdatePass) :
    let x' := pending.foldl (expandUpdate cat db) x
    Followed cat db x'.all x'.locks p.tableId p.rowId (collect p.newCells) := by
  induction pending generalizing x with
  | nil => exact (not_mem_nil hp).elim
  | cons q pending ih =>
    rcases mem_cons.mp hp with rfl | hp
    · have hrest := extends_foldl cat db pending (expandUpdate cat db x p)
      exact (expandUpdate_spec cat db x p).2.2.mono (fun _ _ => hrest.removes) hrest.locks
    · exact ih hp _

theorem mem_pendingUpdates {processed : List Nat} {staging : Staging} {p : PendingUpdate} :
    p ∈ pendingUpdates processed staging ↔
      staging[p.index]? = some (p.tableId, .update p.rowId p.newCells) ∧
        p.index ∉ processed := by
  simp only [pendingUpdates, mem_filterMap]
  constructor
  · rintro ⟨⟨⟨table, op⟩, index⟩, hmem, h⟩
    rw [mem_zipIdx_iff_getElem?] at hmem
    cases op with
    | update id cells =>
      simp only at h
      split at h
      · cases h
      next hnew =>
        cases h
        exact ⟨hmem, hnew⟩
    | put | delete | truncate => cases h
  · rintro ⟨hget, hnew⟩
    refine ⟨((p.tableId, .update p.rowId p.newCells), p.index), ?_, by simp [hnew]⟩
    rw [mem_zipIdx_iff_getElem?]
    exact hget

/-- What a phase has done to the staged operations: everything but updates stays, row ids
stay, and what is new is written by an action. -/
structure Grows (cat : Catalog) (db : Database) (staging staging' : Staging) : Prop where
  kept : ∀ table op, (table, op) ∈ staging → (∀ id cells, op ≠ .update id cells) →
    (table, op) ∈ staging'
  removes : ∀ table id, Removes staging table id → Removes staging' table id
  origin : ∀ table op, (table, op) ∈ staging' → (table, op) ∈ staging ∨
    (∃ id cells, op = .update id cells ∧ Rewritten cat db table id cells) ∨
    ∃ r ∈ (db table).rows, op = .delete r.rowId

theorem Grows.refl (staging : Staging) : Grows cat db staging staging :=
  ⟨fun _ _ h _ => h, fun _ _ h => h, fun _ _ h => .inl h⟩

theorem Grows.trans {s s' s'' : Staging} (h : Grows cat db s s') (h' : Grows cat db s' s'') :
    Grows cat db s s'' := by
  refine ⟨fun table op hop hnot => h'.kept _ _ (h.kept _ _ hop hnot) hnot,
    fun table id hid => h'.removes _ _ (h.removes _ _ hid), fun table op hop => ?_⟩
  rcases h'.origin table op hop with hold | hnew
  · exact h.origin table op hold
  · exact .inr hnew

theorem Extends.grows (h : Extends cat db x x') (hnew : x.newOps = []) :
    Grows cat db x.staging x'.all := by
  have hall : x.all = x.staging := by rw [UpdatePass.all, hnew, append_nil]
  refine ⟨fun table op hop hnot => ?_, fun table id hid => ?_, fun table op hop => ?_⟩
  · obtain ⟨i, hi⟩ := mem_iff_getElem?.mp hop
    rcases h.staging i with hsame | ⟨_, id, cells, _, hold, -, -⟩
    · exact mem_append_left _ (mem_of_getElem? (hsame.trans hi))
    · cases some.inj (hi.symm.trans hold)
      exact absurd rfl (hnot id cells)
  · exact h.removes (hall.symm ▸ hid)
  · rcases mem_append.mp hop with hop | hop
    · obtain ⟨i, hi⟩ := mem_iff_getElem?.mp hop
      rcases h.staging i with hsame | ⟨_, id, _, cells, _, hnew, hrewritten⟩
      · exact .inl (mem_of_getElem? (hsame ▸ hi))
      · cases some.inj (hi.symm.trans hnew)
        exact .inr (.inl ⟨id, cells, rfl, hrewritten⟩)
    · obtain ⟨ops, heq, hops⟩ := h.newOps
      rw [heq, hnew, nil_append] at hop
      obtain ⟨id, cells, rfl, hrewritten⟩ := hops (table, op) hop
      exact .inr (.inl ⟨id, cells, rfl, hrewritten⟩)

theorem expandUpdates_spec {fuel : Nat} {staging staging' : Staging} {processed : List Nat}
    (h : expandUpdates cat db fuel staging processed locks = some (staging', locks'))
    (hsettled : Settled cat db ⟨staging, processed, [], locks⟩) :
    Grows cat db staging staging' ∧ ∀ table id cells, (table, .update id cells) ∈ staging' →
      Followed cat db staging' locks' table id (collect cells) ∨
        Rewritten cat db table id cells := by
  induction fuel generalizing staging processed locks with
  | zero => cases h
  | succ fuel ih =>
    rw [expandUpdates] at h
    split at h
    next hdone =>
      cases h
      refine ⟨.refl _, fun table id cells hmem => ?_⟩
      obtain ⟨i, hi⟩ := mem_iff_getElem?.mp hmem
      have hprocessed : i ∈ processed := by
        by_contra hnot
        have hp : (⟨i, table, id, cells⟩ : PendingUpdate) ∈ pendingUpdates processed staging' :=
          mem_pendingUpdates.mpr ⟨hi, hnot⟩
        rw [hdone] at hp
        exact not_mem_nil hp
      simpa [UpdatePass.all] using hsettled i hprocessed table id cells hi
    next pending _ =>
      obtain ⟨hext, hpass⟩ := expandPass_spec
        (fun p hp => (mem_pendingUpdates.mp hp).1) (.refl _) hsettled
      refine (ih h ?_).imp_left (hext.grows rfl).trans
      intro i hi table id cells hget
      simp only [getElem?_append] at hget
      split at hget
      · simpa [UpdatePass.all] using hpass i hi table id cells hget
      · -- staged in this pass, hence written by an action
        obtain ⟨ops, heq, hops⟩ := hext.newOps
        rw [nil_append] at heq
        obtain ⟨_, _, hop, hrewritten⟩ := hops _ (heq ▸ mem_of_getElem? hget)
        cases hop
        exact .inr hrewritten

theorem expandUpdates_mono {fuel : Nat} {staging staging' : Staging} {processed : List Nat}
    (h : expandUpdates cat db fuel staging processed locks = some (staging', locks')) :
    (∀ table id, Removes staging table id → Removes staging' table id) ∧
      ∀ l ∈ locks, l ∈ locks' := by
  induction fuel generalizing staging processed locks with
  | zero => cases h
  | succ fuel ih =>
    rw [expandUpdates] at h
    split at h
    · cases h
      exact ⟨fun _ _ h => h, fun _ h => h⟩
    next pending _ =>
      have hext := extends_foldl cat db (pendingUpdates processed staging)
        ⟨staging, processed, [], locks⟩
      obtain ⟨hremoves, hlocks⟩ := ih h
      exact ⟨fun table id hid => hremoves table id (hext.removes (by simpa [UpdatePass.all])),
        fun l hl => hlocks l (hext.locks l hl)⟩

/-- Every update the batch stages itself is followed, whatever becomes of its cells. -/
theorem expandUpdates_followed {fuel : Nat} {staging staging' : Staging} {id : RowId}
    {cells : Cells} (h : expandUpdates cat db fuel staging [] locks = some (staging', locks'))
    (hmem : (table, .update id cells) ∈ staging) :
    Followed cat db staging' locks' table id (collect cells) := by
  obtain ⟨i, hi⟩ := mem_iff_getElem?.mp hmem
  have hp : (⟨i, table, id, cells⟩ : PendingUpdate) ∈ pendingUpdates [] staging :=
    mem_pendingUpdates.mpr ⟨hi, not_mem_nil⟩
  cases fuel with
  | zero => cases h
  | succ fuel =>
    rw [expandUpdates] at h
    split at h
    next hnone =>
      rw [hnone] at hp
      exact (not_mem_nil hp).elim
    next =>
      obtain ⟨hremoves, hlocks⟩ := expandUpdates_mono h
      exact (followed_foldl hp _).mono hremoves hlocks

end Updates

/-! ## Deletes -/

section Deletes

variable {cat : Catalog} {db : Database} {staging : Staging} {x x' x'' : DeletePass}

/-- The children of the key a delete takes away are staged and the key is locked, unless a
put brings the key back. Under `RESTRICT` the children are left to the checks. -/
def Answered (cat : Catalog) (db : Database) (all : Staging) (locks : List FkLock)
    (table : TableId) (id : RowId) : Prop :=
  ∀ entry parent, cat.entry table = some entry → (db table).get id = some parent →
    ∀ child fk, (child, fk) ∈ cat.referencing entry.name →
      ∀ k, encodeCompositeKey fk.refColumns parent.columns = some k →
        (∃ cells, (table, .put cells) ∈ all ∧
          encodeCompositeKey fk.refColumns (collect cells) = some k) ∨
        fkLock table k .exclusive ∈ locks ∧
          (fk.onDelete ≠ .restrict → ∀ r ∈ childRows db child fk k,
            Removes all child.tableId r.rowId)

/-- What a part of a pass does: it stages operations of the actions. -/
structure Adds (cat : Catalog) (db : Database) (x x' : DeletePass) : Prop where
  newOps : ∃ ops, x'.newOps = x.newOps ++ ops ∧ ∀ table op, (table, op) ∈ ops →
    (∃ id cells, op = .update id cells ∧ Rewritten cat db table id cells) ∨
      ∃ r ∈ (db table).rows, op = .delete r.rowId
  locks : ∀ l ∈ x.locks, l ∈ x'.locks

theorem Adds.refl (x : DeletePass) : Adds cat db x x := ⟨⟨[], by simp⟩, fun _ h => h⟩

theorem Adds.trans (h : Adds cat db x x') (h' : Adds cat db x' x'') : Adds cat db x x'' := by
  obtain ⟨ops, heq, hops⟩ := h.newOps
  obtain ⟨ops', heq', hops'⟩ := h'.newOps
  refine ⟨⟨ops ++ ops', by rw [heq', heq, append_assoc], fun table op hop => ?_⟩,
    fun l hl => h'.locks l (h.locks l hl)⟩
  rcases mem_append.mp hop with hop | hop
  · exact hops table op hop
  · exact hops' table op hop

theorem Adds.mem (h : Adds cat db x x') {op : TableId × Staged} (hop : op ∈ staging ++ x.newOps) :
    op ∈ staging ++ x'.newOps := by
  obtain ⟨ops, heq, -⟩ := h.newOps
  rw [heq, ← append_assoc]
  exact mem_append_left _ hop

theorem Answered.mono {all all' : Staging}
    {id : RowId} (h : Answered cat db all locks table id) (hall : ∀ op ∈ all, op ∈ all')
    (hlocks : ∀ l ∈ locks, l ∈ locks') : Answered cat db all' locks' table id := by
  intro entry parent hentry hparent child fk hfk k hk
  rcases h entry parent hentry hparent child fk hfk k hk with ⟨cells, hput, hcells⟩ | ⟨hlock, hch⟩
  · exact .inl ⟨cells, hall _ hput, hcells⟩
  · refine .inr ⟨hlocks _ hlock, fun haction r hr => ?_⟩
    obtain ⟨op, hop, hid⟩ := hch haction r hr
    exact ⟨op, hall _ hop, hid⟩

theorem keyPreserved_iff {k : Key} :
    keyPreserved staging table fk k = true ↔ ∃ cells, (table, .put cells) ∈ staging ∧
      encodeCompositeKey fk.refColumns (collect cells) = some k := by
  simp only [keyPreserved, any_eq_true]
  constructor
  · rintro ⟨⟨t, op⟩, hmem, h⟩
    cases op with
    | put cells =>
      obtain ⟨rfl, hkey⟩ := of_decide_eq_true h
      exact ⟨cells, hmem, hkey⟩
    | delete | update | truncate => cases h
  · rintro ⟨cells, hmem, hkey⟩
    exact ⟨(table, .put cells), hmem, decide_eq_true ⟨rfl, hkey⟩⟩

/-- The children staged for one key are all of them, but for rows already deleted. -/
theorem expandDeleteOf_spec {name : String}
    (href : (child, fk) ∈ cat.referencing name) (table : TableId) (parent : Row)
    (x : DeletePass) :
    let x' := expandDeleteOf db staging table parent x (child, fk)
    Adds cat db x x' ∧ x'.cascaded = x.cascaded ∧
      ∀ k, encodeCompositeKey fk.refColumns parent.columns = some k →
        keyPreserved staging table fk k = true ∨
        fkLock table k .exclusive ∈ x'.locks ∧
          (fk.onDelete ≠ .restrict → ∀ r ∈ childRows db child fk k,
            (child.tableId, r.rowId) ∈ x.cascaded ∨ Removes x'.newOps child.tableId r.rowId) := by
  obtain ⟨hchild, hfk, -⟩ := Catalog.mem_referencing.mp href
  unfold expandDeleteOf
  dsimp only
  split
  next hnone =>
    refine ⟨.refl x, rfl, fun k hk => ?_⟩
    cases hnone.symm.trans hk
  next key hkey =>
    simp only [hkey, some.injEq, forall_eq']
    split
    next hpreserved => exact ⟨.refl x, rfl, .inl hpreserved⟩
    have hlock : fkLock table key .exclusive ∈ x.locks ++ [fkLock table key .exclusive] :=
      mem_append_right _ (mem_singleton.mpr rfl)
    split
    next hrestrict =>
      exact ⟨⟨⟨[], by simp⟩, fun l hl => mem_append_left _ hl⟩, rfl,
        .inr ⟨hlock, fun haction => absurd hrestrict haction⟩⟩
    next =>
      refine ⟨⟨⟨_, rfl, fun t op hop => .inr ?_⟩, fun l hl => mem_append_left _ hl⟩, rfl,
        .inr ⟨hlock, fun _ r hr => or_iff_not_imp_left.mpr fun hnot => ?_⟩⟩
      · obtain ⟨r, hr, heq⟩ := mem_map.mp hop
        cases heq
        exact ⟨r, (mem_childRows.mp (mem_filter.mp hr).1).1, rfl⟩
      · refine ⟨.delete r.rowId, mem_append_right _ (mem_map.mpr ⟨r, ?_, rfl⟩), rfl⟩
        exact mem_filter.mpr ⟨hr, decide_eq_true hnot⟩
    next hsetNull =>
      refine ⟨⟨⟨_, rfl, fun t op hop => .inl ?_⟩, fun l hl => mem_append_left _ hl⟩, rfl,
        .inr ⟨hlock, fun _ r hr => or_iff_not_imp_left.mpr fun hnot => ?_⟩⟩
      · obtain ⟨r, hr, heq⟩ := mem_map.mp hop
        cases heq
        exact ⟨_, _, rfl, child, Catalog.entry_eq_some.mpr ⟨hchild, rfl⟩, r,
          (mem_childRows.mp (mem_filter.mp hr).1).1, rfl, fk, hfk, .inr hsetNull,
          fun _ => collect_nulled⟩
      · refine ⟨.update r.rowId (r.nulled fk),
          mem_append_right _ (mem_map.mpr ⟨r, ?_, rfl⟩), rfl⟩
        exact mem_filter.mpr ⟨hr, decide_eq_true hnot⟩

/-- Rows already deleted are staged. -/
def CascadedStaged (staging : Staging) (cascaded : List (TableId × RowId)) : Prop :=
  ∀ table id, (table, id) ∈ cascaded → (table, .delete id) ∈ staging

theorem expandDeleteRefs_spec {name : String} {refs : List (CatalogEntry × ForeignKey)}
    (hrefs : ∀ ref ∈ refs, ref ∈ cat.referencing name) (table : TableId) (parent : Row)
    (x : DeletePass) (hstaged : CascadedStaged staging x.cascaded) :
    let x' := refs.foldl (expandDeleteOf db staging table parent) x
    Adds cat db x x' ∧ x'.cascaded = x.cascaded ∧
      ∀ child fk, (child, fk) ∈ refs → ∀ k,
        encodeCompositeKey fk.refColumns parent.columns = some k →
        keyPreserved staging table fk k = true ∨
        fkLock table k .exclusive ∈ x'.locks ∧
          (fk.onDelete ≠ .restrict → ∀ r ∈ childRows db child fk k,
            Removes (staging ++ x'.newOps) child.tableId r.rowId) := by
  induction refs generalizing x with
  | nil => exact ⟨.refl x, rfl, fun child fk h => (not_mem_nil h).elim⟩
  | cons ref refs ih =>
    obtain ⟨href, hrefs⟩ := forall_mem_cons.mp hrefs
    obtain ⟨hadds, hsame, hkeys⟩ :=
      @expandDeleteOf_spec ref.2 ref.1 cat db staging name href table parent x
    obtain ⟨hadds', hsame', hkeys'⟩ := ih hrefs (expandDeleteOf db staging table parent x ref)
      (hsame ▸ hstaged)
    refine ⟨hadds.trans hadds', hsame'.trans hsame, fun child fk hmem k hk => ?_⟩
    rcases mem_cons.mp hmem with rfl | hmem
    · refine (hkeys k hk).imp_right fun ⟨hlock, hchildren⟩ => ⟨hadds'.locks _ hlock, ?_⟩
      intro haction r hr
      rcases hchildren haction r hr with hdeleted | ⟨op, hop, hid⟩
      · exact ⟨_, mem_append_left _ (hstaged _ _ hdeleted), rfl⟩
      · exact ⟨op, hadds'.mem (mem_append_right _ hop), hid⟩
    · exact hkeys' child fk hmem k hk

theorem expandDelete_spec (x : DeletePass) {d : TableId × RowId}
    (hd : (d.1, .delete d.2) ∈ staging) (hstaged : CascadedStaged staging x.cascaded)
    (hx : ∀ table id, (table, id) ∈ x.cascaded →
      Answered cat db (staging ++ x.newOps) x.locks table id) :
    let x' := expandDelete cat db staging x d
    Adds cat db x x' ∧ d ∈ x'.cascaded ∧ (∀ d' ∈ x.cascaded, d' ∈ x'.cascaded) ∧
      CascadedStaged staging x'.cascaded ∧
      ∀ table id, (table, id) ∈ x'.cascaded →
        Answered cat db (staging ++ x'.newOps) x'.locks table id := by
  unfold expandDelete
  dsimp only
  split
  next hmem => exact ⟨.refl x, hmem, fun _ h => h, hstaged, hx⟩
  have hstart : Adds cat db x { x with cascaded := d :: x.cascaded } :=
    ⟨⟨[], by simp⟩, fun _ h => h⟩
  have hstaged' : CascadedStaged staging (d :: x.cascaded) := by
    intro table id hmem
    rcases mem_cons.mp hmem with rfl | hmem
    · exact hd
    · exact hstaged table id hmem
  split
  next hnone =>
    refine ⟨hstart, mem_cons_self, fun _ h => mem_cons_of_mem d h, hstaged', ?_⟩
    refine fun table id hmem => (mem_cons.mp hmem).elim ?_ (hx table id)
    rintro rfl entry parent hentry
    cases hnone.symm.trans hentry
  next entry hentry =>
    split
    next hnone =>
      refine ⟨hstart, mem_cons_self, fun _ h => mem_cons_of_mem d h, hstaged', ?_⟩
      refine fun table id hmem => (mem_cons.mp hmem).elim ?_ (hx table id)
      rintro rfl entry parent - hparent
      cases hnone.symm.trans hparent
    next parent hparent =>
      obtain ⟨hadds, hsame, hkeys⟩ :=
        @expandDeleteRefs_spec cat db staging entry.name _ (fun _ h => h) d.1 parent
          { x with cascaded := d :: x.cascaded } hstaged'
      refine ⟨hstart.trans hadds, hsame ▸ mem_cons_self,
        fun d' h => hsame ▸ mem_cons_of_mem d h, hsame ▸ hstaged', ?_⟩
      intro table id hmem
      rw [hsame] at hmem
      rcases mem_cons.mp hmem with rfl | hmem
      · intro entry' parent' hentry' hparent' child fk hfk k hk
        obtain rfl : entry = entry' := some.inj (hentry.symm.trans hentry')
        obtain rfl : parent = parent' := some.inj (hparent.symm.trans hparent')
        refine (hkeys child fk hfk k hk).imp_left fun hpreserved => ?_
        obtain ⟨cells, hput, hcells⟩ := keyPreserved_iff.mp hpreserved
        exact ⟨cells, mem_append_left _ hput, hcells⟩
      · have hadds' := hstart.trans hadds
        exact (hx table id hmem).mono (fun op => hadds'.mem) hadds'.locks

theorem expandDeletePass_spec {ds : List (TableId × RowId)}
    (hds : ∀ d ∈ ds, (d.1, .delete d.2) ∈ staging) (x : DeletePass)
    (hstaged : CascadedStaged staging x.cascaded)
    (hx : ∀ table id, (table, id) ∈ x.cascaded →
      Answered cat db (staging ++ x.newOps) x.locks table id) :
    let x' := ds.foldl (expandDelete cat db staging) x
    Adds cat db x x' ∧ (∀ d ∈ ds, d ∈ x'.cascaded) ∧ (∀ d ∈ x.cascaded, d ∈ x'.cascaded) ∧
      CascadedStaged staging x'.cascaded ∧
      ∀ table id, (table, id) ∈ x'.cascaded →
        Answered cat db (staging ++ x'.newOps) x'.locks table id := by
  induction ds generalizing x with
  | nil => exact ⟨.refl x, fun d hd => (not_mem_nil hd).elim, fun _ h => h, hstaged, hx⟩
  | cons d ds ih =>
    obtain ⟨hd, hds⟩ := forall_mem_cons.mp hds
    obtain ⟨hadds, hmem, hmono, hstaged', hx'⟩ := expandDelete_spec x hd hstaged hx
    obtain ⟨hadds', hall, hmono', hstaged'', hx''⟩ :=
      ih hds (expandDelete cat db staging x d) hstaged' hx'
    exact ⟨hadds.trans hadds', forall_mem_cons.mpr ⟨hmono' d hmem, hall⟩,
      fun d' h => hmono' d' (hmono d' h), hstaged'', hx''⟩

theorem mem_deleteIds {id : RowId} :
    (table, id) ∈ deleteIds staging ↔ (table, .delete id) ∈ staging := by
  simp only [deleteIds, mem_filterMap]
  constructor
  · rintro ⟨⟨t, op⟩, hmem, h⟩
    cases op with
    | delete id' =>
      cases h
      exact hmem
    | put | update | truncate => cases h
  · exact fun h => ⟨_, h, rfl⟩

theorem expandDeletes_spec {fuel : Nat} {staging staging' : Staging}
    {cascaded : List (TableId × RowId)}
    (h : expandDeletes cat db fuel staging cascaded locks = some (staging', locks'))
    (hstaged : CascadedStaged staging cascaded)
    (hanswered : ∀ table id, (table, id) ∈ cascaded → Answered cat db staging locks table id) :
    Grows cat db staging staging' ∧ (∀ op ∈ staging, op ∈ staging') ∧
      (∀ l ∈ locks, l ∈ locks') ∧
      ∀ table id, (table, .delete id) ∈ staging' →
        Answered cat db staging' locks' table id := by
  induction fuel generalizing staging cascaded locks with
  | zero => cases h
  | succ fuel ih =>
    rw [expandDeletes] at h
    obtain ⟨hadds, hall, -, hstaged', hx⟩ := expandDeletePass_spec
      (fun d hd => mem_deleteIds.mp hd) ⟨cascaded, [], locks⟩ hstaged
      (by simpa using hanswered)
    split at h
    next hnone =>
      cases h
      refine ⟨.refl _, fun _ h => h, hadds.locks, fun table id hmem => ?_⟩
      simpa [hnone] using hx table id (hall _ (mem_deleteIds.mpr hmem))
    next =>
      obtain ⟨hgrows, hkept, hlocks, hdone⟩ := ih h
        (fun table id hmem => mem_append_left _ (hstaged' table id hmem)) hx
      refine ⟨Grows.trans ⟨fun _ _ hop _ => mem_append_left _ hop,
          fun _ _ ⟨op, hop, hid⟩ => ⟨op, mem_append_left _ hop, hid⟩, ?_⟩ hgrows,
        fun op hop => hkept op (mem_append_left _ hop),
        fun l hl => hlocks l (hadds.locks l hl), hdone⟩
      intro table op hop
      rcases mem_append.mp hop with hop | hop
      · exact .inl hop
      · obtain ⟨ops, heq, hops⟩ := hadds.newOps
        rw [heq] at hop
        exact .inr (hops table op hop)

end Deletes

end MongrelDB.Integrity
