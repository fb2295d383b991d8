import Mathlib
import MongrelDB.Integrity.Expansion
import MongrelDB.Lib.Checks

/-!
# The checks of a transaction

The second half of `validate_constraints`: every staged operation, those of the
referential actions included, is checked against the rows of the snapshot and the
staged images.
-/

namespace MongrelDB.Integrity

open Lib List
open Option hiding all_eq_true any_eq_true

inductive ConstraintError where
  /-- "CHECK constraint '{}' failed" -/
  | checkFailed (name : String)
  /-- "UNIQUE constraint '{}' on table '{}' violated within batch" -/
  | uniqueWithinBatch (name table : String)
  /-- "UNIQUE constraint '{}' on table '{}' violated" -/
  | uniqueViolated (name table : String)
  /-- "FOREIGN KEY '{}' references unknown table '{}'" -/
  | unknownParent (name refTable : String)
  /-- "FOREIGN KEY '{}' on table '{}' has no matching parent in '{}'" -/
  | noParent (name table refTable : String)
  /-- "FOREIGN KEY '{}' on table '{}' restricts update (parent key referenced)" -/
  | restrictsUpdate (name child : String)
  /-- "FOREIGN KEY '{}' on table '{}' restricts delete (parent referenced)" -/
  | restrictsDelete (name child : String)
  /-- "FOREIGN KEY '{}' on table '{}' restricts truncate of '{}'" -/
  | restrictsTruncate (name child table : String)
  /-- The expansion has not ended within the passes allowed. -/
  | endless
  deriving DecidableEq

/-- What the checks collect: the unique keys seen in the batch and the locks asked for. -/
structure Progress where
  seen : List (TableId × Nat × Key)
  locks : List FkLock

/-- Rows staged for deletion, the old versions of updated rows included. -/
def stagedDeletes (staging : Staging) : List (TableId × RowId) :=
  staging.filterMap fun op => op.2.removes.map fun id => (op.1, id)

theorem mem_stagedDeletes {staging : Staging} {table : TableId} {id : RowId} :
    (table, id) ∈ stagedDeletes staging ↔ Removes staging table id := by
  simp only [stagedDeletes, mem_filterMap, map_eq_some_iff, Prod.mk.injEq, Removes,
    Prod.exists]
  constructor
  · rintro ⟨_, op, hop, _, hid, rfl, rfl⟩
    exact ⟨op, hop, hid⟩
  · rintro ⟨op, hop, hid⟩
    exact ⟨table, op, hop, id, hid, rfl, rfl⟩

/-! ## Images -/

def validateChecks (cells : Columns) : List CheckConstraint → Except ConstraintError Unit
  | [] => .ok ()
  | check :: checks =>
    if check.satisfied cells then validateChecks cells checks
    else .error (.checkFailed check.name)

def checkUnique (db : Database) (removed : List (TableId × RowId)) (entry : CatalogEntry)
    (cells : Columns) (p : Progress) (uc : UniqueConstraint) : Except ConstraintError Progress :=
  match encodeCompositeKey uc.columns cells with
  | none => .ok p
  | some key => do
    ensure ((entry.tableId, uc.id, key) ∉ p.seen) (.uniqueWithinBatch uc.name entry.name)
    ensure (∀ r ∈ (db entry.tableId).rows, (entry.tableId, r.rowId) ∉ removed →
      encodeCompositeKey uc.columns r.columns ≠ some key) (.uniqueViolated uc.name entry.name)
    return { p with seen := (entry.tableId, uc.id, key) :: p.seen }

/-- A row of the snapshot that is not staged for deletion has the key, or a staged image. -/
def hasParent (db : Database) (staging : Staging) (removed : List (TableId × RowId))
    (parent : TableId) (refColumns : List ColumnId) (key : Key) : Bool :=
  ((db parent).rows.any fun r => (parent, r.rowId) ∉ removed ∧
      encodeCompositeKey refColumns r.columns = some key) ||
    staging.any fun op => op.1 = parent ∧
      (op.2.image.bind fun cells => encodeCompositeKey refColumns (collect cells)) = some key

section

variable (cat : Catalog) (db : Database) (staging : Staging) (removed : List (TableId × RowId))
  (entry : CatalogEntry) (cells : Columns) (p : Progress)

def checkParent (fk : ForeignKey) : Except ConstraintError Progress :=
  match encodeCompositeKey fk.columns cells with
  | none => .ok p
  | some key => do
    let parent ← orElseFail (cat.entryByName fk.refTable) (.unknownParent fk.name fk.refTable)
    ensure (hasParent db staging removed parent.tableId fk.refColumns key = true)
      (.noParent fk.name entry.name fk.refTable)
    return { p with locks := p.locks ++ [fkLock parent.tableId key .shared] }

def checkImage :
    Except ConstraintError Progress := do
  validateChecks cells entry.schema.checks
  let p ← entry.schema.uniques.foldlM (checkUnique db removed entry cells) p
  entry.schema.foreignKeys.foldlM (checkParent cat db staging removed entry cells) p

end

/-! ## Parents -/

/-- The key the batch gives a child: none when nothing is staged for it. -/
def replacement (staging : Staging) (child : CatalogEntry) (fk : ForeignKey) (id : RowId) :
    Option (Option Key) :=
  staging.findSome? fun op =>
    match op with
    | (table, .delete rowId) =>
      if table = child.tableId ∧ rowId = id then some none else none
    | (table, .update rowId cells) =>
      if table = child.tableId ∧ rowId = id then
        some (encodeCompositeKey fk.columns (collect cells))
      else none
    | _ => none

def checkUpdateOf (db : Database) (staging : Staging) (table : TableId) (old : Row)
    (cells : Columns) (p : Progress) (ref : CatalogEntry × ForeignKey) :
    Except ConstraintError Progress :=
  if ref.2.onUpdate ≠ .restrict then .ok p
  else
    match encodeCompositeKey ref.2.refColumns old.columns with
    | none => .ok p
    | some oldKey =>
      if encodeCompositeKey ref.2.refColumns cells = some oldKey then .ok p
      else do
        ensure (∀ r ∈ childRows db ref.1 ref.2 oldKey,
            (replacement staging ref.1 ref.2 r.rowId).any (fun key => key ≠ some oldKey) = true)
          (.restrictsUpdate ref.2.name ref.1.name)
        return { p with locks := p.locks ++ [fkLock table oldKey .exclusive] }

def checkUpdate (cat : Catalog) (db : Database) (staging : Staging) (entry : CatalogEntry)
    (id : RowId) (cells : Columns) (p : Progress) : Except ConstraintError Progress :=
  match (db entry.tableId).get id with
  | none => .ok p
  | some old =>
    (cat.referencing entry.name).foldlM (checkUpdateOf db staging entry.tableId old cells) p

def checkDeleteOf (db : Database) (removed : List (TableId × RowId)) (parent : Row)
    (ref : CatalogEntry × ForeignKey) : Except ConstraintError Unit :=
  if ref.2.onDelete ≠ .restrict then .ok ()
  else
    match encodeCompositeKey ref.2.refColumns parent.columns with
    | none => .ok ()
    | some key =>
      ensure (∀ r ∈ childRows db ref.1 ref.2 key, (ref.1.tableId, r.rowId) ∈ removed)
        (.restrictsDelete ref.2.name ref.1.name)

def checkDelete (cat : Catalog) (db : Database) (removed : List (TableId × RowId))
    (entry : CatalogEntry) (id : RowId) : Except ConstraintError Unit :=
  match (db entry.tableId).get id with
  | none => .ok ()
  | some parent => (cat.referencing entry.name).forM (checkDeleteOf db removed parent)

def checkTruncate (cat : Catalog) (db : Database) (entry : CatalogEntry) :
    Except ConstraintError Unit :=
  (cat.referencing entry.name).forM fun ref =>
    ensure (∀ r ∈ (db ref.1.tableId).rows, encodeCompositeKey ref.2.columns r.columns = none)
      (.restrictsTruncate ref.2.name ref.1.name entry.name)

/-! ## The batch -/

def checkStaged (cat : Catalog) (db : Database) (staging : Staging)
    (removed : List (TableId × RowId)) (p : Progress) (op : TableId × Staged) :
    Except ConstraintError Progress :=
  match cat.entry op.1 with
  | none => .ok p
  | some entry =>
    match op.2 with
    | .put cells => checkImage cat db staging removed entry (collect cells) p
    | .update id cells => do
      let p ← checkImage cat db staging removed entry (collect cells) p
      checkUpdate cat db staging entry id (collect cells) p
    | .delete id => do
      checkDelete cat db removed entry id
      return p
    | .truncate => do
      checkTruncate cat db entry
      return p

def TableSchema.unconstrained (schema : TableSchema) : Bool :=
  schema.uniques.isEmpty && schema.foreignKeys.isEmpty && schema.checks.isEmpty

/-- The batch with its expansion, and the parent-protection locks in the order they are
asked for. -/
def validateConstraints (fuel : Nat) (cat : Catalog) (db : Database) (staging : Staging) :
    Except ConstraintError (Staging × List FkLock) :=
  if cat.tables.all fun e => e.schema.unconstrained then .ok (staging, [])
  else do
    let updated ← orElseFail (expandUpdates cat db fuel staging [] []) .endless
    let expanded ← orElseFail (expandDeletes cat db fuel updated.1 [] updated.2) .endless
    let p ← expanded.1.foldlM
      (checkStaged cat db expanded.1 (stagedDeletes expanded.1)) ⟨[], expanded.2⟩
    return (expanded.1, p.locks)

/-! ## What the checks have found -/

/-- Nothing collected is lost. -/
structure Progress.Le (p p' : Progress) : Prop where
  seen : ∀ m ∈ p.seen, m ∈ p'.seen
  locks : ∀ l ∈ p.locks, l ∈ p'.locks

theorem Progress.Le.refl (p : Progress) : p.Le p := ⟨fun _ h => h, fun _ h => h⟩

theorem Progress.Le.trans {p p' p'' : Progress} (h : p.Le p') (h' : p'.Le p'') : p.Le p'' :=
  ⟨fun m hm => h'.seen m (h.seen m hm), fun l hl => h'.locks l (h.locks l hl)⟩

section Checks

variable {cat : Catalog} {db : Database} {staging : Staging} {removed : List (TableId × RowId)}
  {child : CatalogEntry}
  {fk : ForeignKey}
  {entry : CatalogEntry} {cells : Columns} {p p' : Progress}

theorem checkUnique_le {uc : UniqueConstraint}
    (h : checkUnique db removed entry cells p uc = .ok p') : p.Le p' := by
  unfold checkUnique at h
  split at h
  · cases h
    exact .refl p
  · simp only [bind_eq_ok, ensure_eq_ok] at h
    obtain ⟨_, -, _, -, h⟩ := h
    cases h
    exact ⟨fun m hm => mem_cons_of_mem _ hm, fun _ h => h⟩

theorem checkUnique_spec {uc : UniqueConstraint} {k : Key}
    (h : checkUnique db removed entry cells p uc = .ok p')
    (hk : encodeCompositeKey uc.columns cells = some k) :
    (entry.tableId, uc.id, k) ∉ p.seen ∧ (entry.tableId, uc.id, k) ∈ p'.seen ∧
      ∀ r ∈ (db entry.tableId).rows, (entry.tableId, r.rowId) ∉ removed →
        encodeCompositeKey uc.columns r.columns ≠ some k := by
  unfold checkUnique at h
  rw [hk] at h
  simp only [bind_eq_ok, ensure_eq_ok] at h
  obtain ⟨_, hnew, _, hrows, h⟩ := h
  cases h
  exact ⟨hnew, mem_cons_self, hrows⟩

theorem checkParent_le
    (h : checkParent cat db staging removed entry cells p fk = .ok p') : p.Le p' := by
  unfold checkParent at h
  split at h
  · cases h
    exact .refl p
  · simp only [bind_eq_ok] at h
    obtain ⟨_, -, _, -, h⟩ := h
    cases h
    exact ⟨fun _ h => h, fun l hl => mem_append_left _ hl⟩

/-- The key of a child has its parent among the rows and images that count. -/
def ParentFound (cat : Catalog) (db : Database) (staging : Staging) (locks : List FkLock)
    (cells : Columns) (fk : ForeignKey) : Prop :=
  ∀ k, encodeCompositeKey fk.columns cells = some k →
    ∃ parent, cat.entryByName fk.refTable = some parent ∧
      fkLock parent.tableId k .shared ∈ locks ∧
      ((∃ r ∈ (db parent.tableId).rows, ¬ Removes staging parent.tableId r.rowId ∧
          encodeCompositeKey fk.refColumns r.columns = some k) ∨
        ∃ image, Brings staging parent.tableId image ∧
          encodeCompositeKey fk.refColumns (collect image) = some k)

theorem hasParent_iff {parent : TableId} {refColumns : List ColumnId} {k : Key} :
    hasParent db staging (stagedDeletes staging) parent refColumns k = true ↔
      (∃ r ∈ (db parent).rows, ¬ Removes staging parent r.rowId ∧
          encodeCompositeKey refColumns r.columns = some k) ∨
        ∃ image, Brings staging parent image ∧
          encodeCompositeKey refColumns (collect image) = some k := by
  simp only [hasParent, Bool.or_eq_true, any_eq_true, decide_eq_true_eq, mem_stagedDeletes,
    bind_eq_some_iff, Brings]
  refine or_congr_right ⟨?_, ?_⟩
  · rintro ⟨⟨_, op⟩, hop, rfl, image, himage, hkey⟩
    exact ⟨image, ⟨op, hop, himage⟩, hkey⟩
  · rintro ⟨image, ⟨op, hop, himage⟩, hkey⟩
    exact ⟨(parent, op), hop, rfl, image, himage, hkey⟩

theorem checkParent_spec
    (h : checkParent cat db staging (stagedDeletes staging) entry cells p fk = .ok p') :
    ParentFound cat db staging p'.locks cells fk := by
  intro k hk
  unfold checkParent at h
  rw [hk] at h
  simp only [bind_eq_ok, orElseFail_eq_ok, ensure_eq_ok] at h
  obtain ⟨parent, hparent, _, hfound, h⟩ := h
  cases h
  exact ⟨parent, hparent, mem_append_right _ (mem_singleton.mpr rfl),
    hasParent_iff.mp hfound⟩

theorem ParentFound.mono {locks locks' : List FkLock}
    (h : ParentFound cat db staging locks cells fk) (hlocks : ∀ l ∈ locks, l ∈ locks') :
    ParentFound cat db staging locks' cells fk := by
  intro k hk
  obtain ⟨parent, hparent, hlock, hfound⟩ := h k hk
  exact ⟨parent, hparent, hlocks _ hlock, hfound⟩

/-- A unique key of an image: not seen before, marked, and free in the snapshot. -/
def UniqueFree (db : Database) (staging : Staging) (entry : CatalogEntry) (cells : Columns) :
    Prop :=
  ∀ uc ∈ entry.schema.uniques, ∀ k, encodeCompositeKey uc.columns cells = some k →
    ∀ r ∈ (db entry.tableId).rows, ¬ Removes staging entry.tableId r.rowId →
      encodeCompositeKey uc.columns r.columns ≠ some k

theorem checkImage_spec
    (h : checkImage cat db staging (stagedDeletes staging) entry cells p = .ok p') :
    p.Le p' ∧ UniqueFree db staging entry cells ∧
      (∀ uc ∈ entry.schema.uniques, ∀ k, encodeCompositeKey uc.columns cells = some k →
        (entry.tableId, uc.id, k) ∉ p.seen ∧ (entry.tableId, uc.id, k) ∈ p'.seen) ∧
      ∀ fk ∈ entry.schema.foreignKeys, ParentFound cat db staging p'.locks cells fk := by
  simp only [checkImage, bind_eq_ok] at h
  obtain ⟨_, -, p₁, huniques, hfks⟩ := h
  obtain ⟨hle₁, hunique⟩ := foldlM_ok Progress.Le.refl Progress.Le.trans checkUnique_le huniques
  obtain ⟨hle₂, hfk⟩ := foldlM_ok Progress.Le.refl Progress.Le.trans checkParent_le hfks
  refine ⟨hle₁.trans hle₂, fun uc huc k hk r hr hnot => ?_, fun uc huc k hk => ?_,
    fun fk hmem => ?_⟩
  · obtain ⟨_, _, -, hcheck, -⟩ := hunique uc huc
    exact (checkUnique_spec hcheck hk).2.2 r hr fun h => hnot (mem_stagedDeletes.mp h)
  · obtain ⟨q, q', hq, hcheck, hq'⟩ := hunique uc huc
    obtain ⟨hnew, hseen, -⟩ := checkUnique_spec hcheck hk
    exact ⟨fun h => hnew (hq.seen _ h), hle₂.seen _ (hq'.seen _ hseen)⟩
  · obtain ⟨_, _, -, hcheck, hle⟩ := hfk fk hmem
    exact (checkParent_spec hcheck).mono hle.locks

/-- The children of a key that an update gives up under `RESTRICT` are staged, and the key
is locked. -/
def Restricted (cat : Catalog) (db : Database) (staging : Staging) (locks : List FkLock)
    (entry : CatalogEntry) (id : RowId) (cells : Columns) : Prop :=
  ∀ old, (db entry.tableId).get id = some old →
    ∀ child fk, (child, fk) ∈ cat.referencing entry.name → fk.onUpdate = .restrict →
      ∀ k, encodeCompositeKey fk.refColumns old.columns = some k →
        encodeCompositeKey fk.refColumns cells ≠ some k →
        fkLock entry.tableId k .exclusive ∈ locks ∧
          ∀ r ∈ childRows db child fk k, Removes staging child.tableId r.rowId

theorem removes_of_replacement {id : RowId}
    {key : Option Key} (h : replacement staging child fk id = some key) :
    Removes staging child.tableId id := by
  obtain ⟨⟨table, op⟩, hop, h⟩ := exists_of_findSome?_eq_some h
  cases op with
  | delete rowId =>
    simp only at h
    split at h
    next heq => exact ⟨.delete rowId, heq.1 ▸ hop, congrArg some heq.2⟩
    next => cases h
  | update rowId cells =>
    simp only at h
    split at h
    next heq => exact ⟨.update rowId cells, heq.1 ▸ hop, congrArg some heq.2⟩
    next => cases h
  | put | truncate => cases h

theorem checkUpdateOf_le {table : TableId} {old : Row} {ref : CatalogEntry × ForeignKey}
    (h : checkUpdateOf db staging table old cells p ref = .ok p') : p.Le p' := by
  unfold checkUpdateOf at h
  split at h
  · cases h
    exact .refl p
  split at h
  · cases h
    exact .refl p
  split at h
  · cases h
    exact .refl p
  · simp only [bind_eq_ok] at h
    obtain ⟨_, -, h⟩ := h
    cases h
    exact ⟨fun _ h => h, fun l hl => mem_append_left _ hl⟩

theorem checkUpdate_spec {id : RowId}
    (h : checkUpdate cat db staging entry id cells p = .ok p') :
    p.Le p' ∧ Restricted cat db staging p'.locks entry id cells := by
  unfold checkUpdate at h
  split at h
  next hnone =>
    cases h
    refine ⟨.refl p, fun old hold => ?_⟩
    cases hnone.symm.trans hold
  next old hold =>
    obtain ⟨hle, hmem⟩ := foldlM_ok Progress.Le.refl Progress.Le.trans checkUpdateOf_le h
    refine ⟨hle, fun old' hold' child fk href haction k hk hchanged => ?_⟩
    obtain rfl : old = old' := some.inj (hold.symm.trans hold')
    obtain ⟨_, _, -, hcheck, hle⟩ := hmem (child, fk) href
    simp only [checkUpdateOf, ne_eq, haction, not_true_eq_false, if_false, hk, hchanged,
      bind_eq_ok, ensure_eq_ok] at hcheck
    obtain ⟨_, hchildren, hcheck⟩ := hcheck
    cases hcheck
    refine ⟨hle.locks _ (mem_append_right _ (mem_singleton.mpr rfl)), fun r hr => ?_⟩
    obtain ⟨key, hkey, -⟩ := (Option.any_eq_true ..).mp (hchildren r hr)
    exact removes_of_replacement hkey

/-- Under `ON DELETE RESTRICT` the children of a deleted row are staged. -/
theorem checkDelete_spec {id : RowId}
    (h : checkDelete cat db (stagedDeletes staging) entry id = .ok ()) {parent : Row}
    (hparent : (db entry.tableId).get id = some parent)
    (href : (child, fk) ∈ cat.referencing entry.name) (haction : fk.onDelete = .restrict) {k : Key}
    (hk : encodeCompositeKey fk.refColumns parent.columns = some k) :
    ∀ r ∈ childRows db child fk k, Removes staging child.tableId r.rowId := by
  simp only [checkDelete, hparent] at h
  have hcheck := forM_ok h (child, fk) href
  simp only [checkDeleteOf, ne_eq, haction, not_true_eq_false, if_false, hk, ensure_eq_ok] at hcheck
  exact fun r hr => mem_stagedDeletes.mp (hcheck r hr)

theorem checkTruncate_spec (h : checkTruncate cat db entry = .ok ())
    (href : (child, fk) ∈ cat.referencing entry.name) :
    ∀ r ∈ (db child.tableId).rows, encodeCompositeKey fk.columns r.columns = none := by
  have hcheck := forM_ok h (child, fk) href
  simpa using hcheck

/-- What one operation has been checked for. -/
structure OpChecked (cat : Catalog) (db : Database) (staging : Staging) (locks : List FkLock)
    (entry : CatalogEntry) (op : Staged) : Prop where
  image : ∀ cells, op.image = some cells → UniqueFree db staging entry (collect cells) ∧
    ∀ fk ∈ entry.schema.foreignKeys, ParentFound cat db staging locks (collect cells) fk
  update : ∀ id cells, op = .update id cells →
    Restricted cat db staging locks entry id (collect cells)
  delete : ∀ id parent, op = .delete id → (db entry.tableId).get id = some parent →
    ∀ child fk, (child, fk) ∈ cat.referencing entry.name → fk.onDelete = .restrict →
      ∀ k, encodeCompositeKey fk.refColumns parent.columns = some k →
        ∀ r ∈ childRows db child fk k, Removes staging child.tableId r.rowId
  truncate : op = .truncate → ∀ child fk, (child, fk) ∈ cat.referencing entry.name →
    ∀ r ∈ (db child.tableId).rows, encodeCompositeKey fk.columns r.columns = none

/-- The unique keys of an operation's image. -/
def UniqueMark (cat : Catalog) (op : TableId × Staged) (m : TableId × Nat × Key) : Prop :=
  ∃ entry cells, cat.entry op.1 = some entry ∧ op.2.image = some cells ∧
    ∃ uc ∈ entry.schema.uniques, ∃ k,
      encodeCompositeKey uc.columns (collect cells) = some k ∧ m = (entry.tableId, uc.id, k)

theorem checkStaged_spec {op : TableId × Staged}
    (h : checkStaged cat db staging (stagedDeletes staging) p op = .ok p') :
    p.Le p' ∧ (∀ entry, cat.entry op.1 = some entry →
        OpChecked cat db staging p'.locks entry op.2) ∧
      ∀ m, UniqueMark cat op m → m ∉ p.seen ∧ m ∈ p'.seen := by
  obtain ⟨table, op⟩ := op
  unfold checkStaged at h
  split at h
  next hnone =>
    cases h
    refine ⟨.refl p, fun entry hentry => ?_, fun m hm => ?_⟩
    · cases hnone.symm.trans hentry
    · obtain ⟨entry, _, hentry, -⟩ := hm
      cases hnone.symm.trans hentry
  next entry hentry =>
    have hsame : ∀ entry', cat.entry table = some entry' → entry = entry' :=
      fun entry' hentry' => some.inj (hentry.symm.trans hentry')
    cases op with
    | put cells =>
      obtain ⟨hle, hfree, hmarks, hfks⟩ := checkImage_spec h
      refine ⟨hle, fun entry' hentry' => ?_, ?_⟩
      · obtain rfl := hsame entry' hentry'
        refine ⟨?_, nofun, nofun, nofun⟩
        rintro _ ⟨⟩
        exact ⟨hfree, hfks⟩
      · rintro m ⟨entry', _, hentry', ⟨⟩, uc, huc, k, hk, rfl⟩
        obtain rfl := hsame entry' hentry'
        exact hmarks uc huc k hk
    | update id cells =>
      rw [bind_eq_ok] at h
      obtain ⟨q, himage, hupdate⟩ := h
      obtain ⟨hle, hfree, hmarks, hfks⟩ := checkImage_spec himage
      obtain ⟨hle', hrestricted⟩ := checkUpdate_spec hupdate
      refine ⟨hle.trans hle', fun entry' hentry' => ?_, ?_⟩
      · obtain rfl := hsame entry' hentry'
        refine ⟨?_, ?_, nofun, nofun⟩
        · rintro _ ⟨⟩
          exact ⟨hfree, fun fk hfk => (hfks fk hfk).mono hle'.locks⟩
        · rintro _ _ ⟨⟩
          exact hrestricted
      · rintro m ⟨entry', _, hentry', ⟨⟩, uc, huc, k, hk, rfl⟩
        obtain rfl := hsame entry' hentry'
        exact (hmarks uc huc k hk).imp_right (hle'.seen _)
    | delete id =>
      rw [bind_eq_ok] at h
      obtain ⟨_, hdelete, h⟩ := h
      cases h
      refine ⟨.refl p, fun entry' hentry' => ?_, ?_⟩
      · obtain rfl := hsame entry' hentry'
        refine ⟨nofun, nofun, ?_, nofun⟩
        rintro _ parent ⟨⟩ hparent child fk href haction k hk
        exact checkDelete_spec hdelete hparent href haction hk
      · rintro m ⟨_, _, _, ⟨⟩, _⟩
    | truncate =>
      rw [bind_eq_ok] at h
      obtain ⟨_, htruncate, h⟩ := h
      cases h
      refine ⟨.refl p, fun entry' hentry' => ?_, ?_⟩
      · obtain rfl := hsame entry' hentry'
        exact ⟨nofun, nofun, nofun, fun _ child fk href => checkTruncate_spec htruncate href⟩
      · rintro m ⟨_, _, _, ⟨⟩, _⟩

theorem OpChecked.mono {locks locks' : List FkLock} {op : Staged}
    (h : OpChecked cat db staging locks entry op) (hlocks : ∀ l ∈ locks, l ∈ locks') :
    OpChecked cat db staging locks' entry op := by
  refine ⟨fun cells hcells => ?_, fun id cells hop => ?_, h.delete, h.truncate⟩
  · obtain ⟨hfree, hfks⟩ := h.image cells hcells
    exact ⟨hfree, fun fk hfk => (hfks fk hfk).mono hlocks⟩
  · intro old hold child fk href haction k hk hchanged
    obtain ⟨hlock, hch⟩ := h.update id cells hop old hold child fk href haction k hk hchanged
    exact ⟨hlocks _ hlock, hch⟩

end Checks

/-! ## The whole validation -/

/-- What an accepted batch has been checked for. -/
structure Validated (cat : Catalog) (db : Database) (staging expanded : Staging)
    (locks : List FkLock) : Prop where
  grows : Grows cat db staging expanded
  staged : ∀ table id cells, (table, .update id cells) ∈ staging →
    Followed cat db expanded locks table id (collect cells)
  updates : ∀ table id cells, (table, .update id cells) ∈ expanded →
    Followed cat db expanded locks table id (collect cells) ∨ Rewritten cat db table id cells
  deletes : ∀ table id, (table, .delete id) ∈ expanded → Answered cat db expanded locks table id
  checked : ∀ table op entry, (table, op) ∈ expanded → cat.entry table = some entry →
    OpChecked cat db expanded locks entry op
  distinct : expanded.Pairwise fun a b => ∀ m, UniqueMark cat a m → ¬ UniqueMark cat b m

theorem validated_of_unconstrained {cat : Catalog} {db : Database} {staging : Staging}
    (h : cat.tables.all (fun e => e.schema.unconstrained) = true) :
    Validated cat db staging staging [] := by
  have hempty : ∀ e ∈ cat.tables, e.schema.uniques = [] ∧ e.schema.foreignKeys = [] := by
    intro e he
    have := all_eq_true.mp h e he
    simp only [TableSchema.unconstrained, Bool.and_eq_true, List.isEmpty_iff] at this
    exact this.1
  have href : ∀ {name : String} {child : CatalogEntry} {fk : ForeignKey},
      (child, fk) ∉ cat.referencing name := by
    intro name child fk hmem
    obtain ⟨hchild, hfk, -⟩ := Catalog.mem_referencing.mp hmem
    rw [(hempty child hchild).2] at hfk
    exact not_mem_nil hfk
  refine ⟨.refl _, fun _ _ _ _ _ _ _ _ _ _ hfk => (href hfk).elim,
    fun _ _ _ _ => .inl fun _ _ _ _ _ _ hfk => (href hfk).elim,
    fun _ _ _ _ _ _ _ _ _ hfk => (href hfk).elim, fun table op entry _ hentry => ?_, ?_⟩
  · have hentry := hempty entry (Catalog.entry_eq_some.mp hentry).1
    refine ⟨fun cells _ => ⟨?_, ?_⟩, fun _ _ _ _ _ _ _ hfk => (href hfk).elim,
      fun _ _ _ _ _ _ hfk => (href hfk).elim, fun _ _ _ hfk => (href hfk).elim⟩
    · intro uc huc
      rw [hentry.1] at huc
      exact (not_mem_nil huc).elim
    · intro fk hfk
      rw [hentry.2] at hfk
      exact (not_mem_nil hfk).elim
  · refine pairwise_of_forall ?_
    rintro a b m ⟨entry, _, hentry, -, uc, huc, -⟩
    rw [(hempty entry (Catalog.entry_eq_some.mp hentry).1).1] at huc
    exact (not_mem_nil huc).elim

theorem validateConstraints_spec {fuel : Nat} {cat : Catalog} {db : Database}
    {staging expanded : Staging} {locks : List FkLock}
    (h : validateConstraints fuel cat db staging = .ok (expanded, locks)) :
    Validated cat db staging expanded locks := by
  unfold validateConstraints at h
  split at h
  next hnone =>
    cases h
    exact validated_of_unconstrained hnone
  simp only [bind_eq_ok, orElseFail_eq_ok] at h
  obtain ⟨⟨s₁, locks₁⟩, hupdates, ⟨s₂, locks₂⟩, hdeletes, p, hchecks, h⟩ := h
  cases h
  obtain ⟨hgrows₁, hfollowed⟩ := expandUpdates_spec hupdates (fun i hi => (not_mem_nil hi).elim)
  obtain ⟨hgrows₂, -, hlocks₂, hanswered⟩ := expandDeletes_spec hdeletes
    (fun _ _ hmem => (not_mem_nil hmem).elim) (fun _ _ hmem => (not_mem_nil hmem).elim)
  obtain ⟨hle, hops⟩ := foldlM_ok Progress.Le.refl Progress.Le.trans
    (fun h => (checkStaged_spec h).1) hchecks
  refine ⟨hgrows₁.trans hgrows₂, fun table id cells hmem => ?_, fun table id cells hmem => ?_,
    fun table id hmem => ?_, fun table op entry hmem hentry => ?_, ?_⟩
  · exact (expandUpdates_followed hupdates hmem).mono hgrows₂.removes
      fun l hl => hle.locks l (hlocks₂ l hl)
  · rcases hgrows₂.origin table _ hmem with hold | ⟨_, _, ⟨⟩, hrewritten⟩ | ⟨_, _, ⟨⟩⟩
    · refine (hfollowed table id cells hold).imp_left fun hf => ?_
      exact hf.mono hgrows₂.removes fun l hl => hle.locks l (hlocks₂ l hl)
    · exact .inr hrewritten
  · exact (hanswered table id hmem).mono (fun _ h => h) hle.locks
  · obtain ⟨_, _, -, hcheck, hle⟩ := hops (table, op) hmem
    exact ((checkStaged_spec hcheck).2.1 entry hentry).mono hle.locks
  · exact foldlM_pairwise (fun p m => m ∈ p.seen)
      (fun h => (checkStaged_spec h).1.seen) (fun h => (checkStaged_spec h).2.2) hchecks

end MongrelDB.Integrity
