import Mathlib.Tactic.MkIffOfInductiveProp
import MongrelDB.Integrity.Validate

/-!
# Foreign keys across one batch

Whether a batch that `validate_constraints` accepts keeps the foreign keys. It need
not. The checks look for a parent among the rows of the snapshot that no delete or
update of the batch names. A truncate names none of the rows it removes, nor does a
put that takes the place of the row with its primary key; and an update staged by
`ON DELETE SET NULL`, or overwritten by an `ON UPDATE` action in the pass that looks at
it, is not followed to its own children. `Guarded` asks, for the keys that child rows
have in the end, that none of the three takes the key away.
-/

namespace MongrelDB.Integrity

open Lib

/-- Every row with a key in a declared foreign key has its parent. -/
def ForeignKeysHold (cat : Catalog) (db : Database) : Prop :=
  ∀ child ∈ cat.tables, ∀ fk ∈ child.schema.foreignKeys, ∀ r ∈ (db child.tableId).rows,
    ∀ k ∈ encodeCompositeKey fk.columns r.columns,
      ∃ parent ∈ cat.tables, parent.name = fk.refTable ∧
        ∃ p ∈ (db parent.tableId).rows, encodeCompositeKey fk.refColumns p.columns = some k
  deriving Decidable

/-! ## The condition -/

/-- No referential action writes these columns. -/
def Untouched (entry : CatalogEntry) (cs : List ColumnId) : Prop :=
  ∀ f ∈ entry.schema.foreignKeys, f.Rewrites → ∀ c ∈ cs, c ∉ f.columns
  deriving Decidable

/-- The rows of a table and those the batch brings. -/
def inPlay (db : Database) (staging : Staging) (table : TableId) : List Columns :=
  (db table).rows.map (·.columns) ++ images staging table

variable {table : TableId}

theorem mem_inPlay {db : Database} {staging : Staging} {a : Columns} :
    a ∈ inPlay db staging table ↔ (∃ r ∈ (db table).rows, r.columns = a) ∨
      ∃ cells, Brings staging table cells ∧ collect cells = a := by
  rw [inPlay, List.mem_append, List.mem_map, mem_images]

/-- The operations after the last truncate of the table. -/
def sinceTruncate (table : TableId) : Staging → Staging
  | [] => []
  | op :: staging =>
    if (table, .truncate) ∈ staging then sinceTruncate table staging
    else if op = (table, .truncate) then staging else op :: staging

theorem exists_sinceTruncate {staging : Staging} (h : (table, .truncate) ∈ staging) :
    ∃ before, staging = before ++ (table, .truncate) :: sinceTruncate table staging ∧
      (table, .truncate) ∉ sinceTruncate table staging := by
  induction staging with
  | nil => cases h
  | cons op staging ih =>
    rw [sinceTruncate]
    split
    next hlater =>
      obtain ⟨before, heq, hlast⟩ := ih hlater
      exact ⟨op :: before, congrArg (op :: ·) heq, hlast⟩
    next hlast =>
      obtain rfl := (List.mem_cons.mp h).resolve_right hlast
      rw [if_pos rfl]
      exact ⟨[], rfl, hlast⟩

/-- The keys of the child rows that no operation removes by their ids, and of the images. -/
def wantedKeys (db : Database) (expanded : Staging) (child : CatalogEntry) (fk : ForeignKey) :
    List Key :=
  (((db child.tableId).rows.filter fun r => ¬ Removes expanded child.tableId r.rowId).map
    (·.columns) ++ images expanded child.tableId).filterMap (encodeCompositeKey fk.columns)

/-- The batch takes the key `k` away by row ids only. What takes the place of a row it leaves, or
of one of its images, has the key too, and where an action has changed the key of a parent row
the children of the row have been followed. -/
@[mk_iff]
structure KeyKept (db : Database) (staging expanded : Staging) (fk : ForeignKey)
    (child parent : CatalogEntry) (k : Key) : Prop where
  truncate : (parent.tableId, .truncate) ∉ expanded
  rows : ∀ p ∈ (db parent.tableId).rows, ¬ Removes expanded parent.tableId p.rowId →
    ∀ b ∈ images expanded parent.tableId,
      Table.Agree parent.schema.primaryKey fk.refColumns k p.columns b
  images : (images expanded parent.tableId).Pairwise
    (Table.Agree parent.schema.primaryKey fk.refColumns k)
  followed : ∀ op ∈ expanded, op.1 = parent.tableId → op ∉ staging → ∀ cells ∈ op.2.image,
    ∀ p ∈ (db parent.tableId).rows, op.2.removes = some p.rowId →
      encodeCompositeKey fk.refColumns p.columns = some k →
      encodeCompositeKey fk.refColumns (collect cells) ≠ some k →
      ∀ r ∈ childRows db child fk k, Removes expanded child.tableId r.rowId

/-- The batch empties the parent table and brings the key `k` afterwards. -/
@[mk_iff]
structure KeyBrought (expanded : Staging) (fk : ForeignKey) (parent : CatalogEntry) (k : Key) :
    Prop where
  truncate : (parent.tableId, .truncate) ∈ expanded
  image : ∃ a ∈ images (sinceTruncate parent.tableId expanded) parent.tableId,
    encodeCompositeKey fk.refColumns a = some k
  images : (images (sinceTruncate parent.tableId expanded) parent.tableId).Pairwise
    (Table.Agree parent.schema.primaryKey fk.refColumns k)

instance (db : Database) (staging expanded : Staging) (fk : ForeignKey)
    (child parent : CatalogEntry) (k : Key) :
    Decidable (KeyKept db staging expanded fk child parent k) :=
  decidable_of_iff _ (keyKept_iff ..).symm

instance (expanded : Staging) (fk : ForeignKey) (parent : CatalogEntry) (k : Key) :
    Decidable (KeyBrought expanded fk parent k) :=
  decidable_of_iff _ (keyBrought_iff ..).symm

/-- The batch names rows of the parent table that have been there. -/
def NamesRows (db : Database) (expanded : Staging) (parent : CatalogEntry) : Prop :=
  ∀ op ∈ expanded, op.1 = parent.tableId → ∀ id ∈ op.2.removes,
    id < (db parent.tableId).nextRowId
  deriving Decidable

/-- The expanded batch leaves or brings every key that a child row will have. -/
def Guarded (cat : Catalog) (db : Database) (staging expanded : Staging) : Prop :=
  ∀ child ∈ cat.tables, ∀ fk ∈ child.schema.foreignKeys, ∀ parent ∈ cat.tables,
    parent.name = fk.refTable → ∀ k ∈ wantedKeys db expanded child fk,
      NamesRows db expanded parent ∧
        (KeyKept db staging expanded fk child parent k ∨ KeyBrought expanded fk parent k)
  deriving Decidable

/-! ## The expansion stays safe -/

variable {cat : Catalog} {db : Database} {staging expanded : Staging} {locks : List FkLock}
  {fk : ForeignKey} {child parent : CatalogEntry} {k : Key}

theorem Rewritten.unchanged {entry : CatalogEntry} (hentry : entry ∈ cat.tables)
    {cs : List ColumnId} (hcs : Untouched entry cs) {id : RowId} {cells : Cells}
    (h : Rewritten cat db entry.tableId id cells) :
    ∃ r ∈ (db entry.tableId).rows, r.rowId = id ∧
      ∀ c ∈ cs, (collect cells)[c]? = r.columns[c]? := by
  obtain ⟨entry', hentry', r, hr, hid, f, hf, hrewrites, hsame⟩ := h
  obtain rfl : entry = entry' := by
    have hself := Catalog.entry_eq_some.mpr ⟨hentry, rfl⟩
    exact Option.some.inj (hself.symm.trans hentry')
  exact ⟨r, hr, hid, fun c hc => hsame c (hcs f hf hrewrites c hc)⟩

/-- Up to columns that actions may write, an image of the expansion is a row in play. -/
theorem Grows.image (hgrows : Grows cat db staging expanded) {entry : CatalogEntry}
    (hentry : entry ∈ cat.tables) {cs : List ColumnId} (hcs : Untouched entry cs) {cells : Cells}
    (h : Brings expanded entry.tableId cells) :
    ∃ a ∈ inPlay db staging entry.tableId, ∀ c ∈ cs, (collect cells)[c]? = a[c]? := by
  obtain ⟨op, hop, himage⟩ := h
  rcases hgrows.origin _ op hop with hold | ⟨id, cells', rfl, hcells⟩ | ⟨r, hr, rfl⟩
  · exact ⟨_, mem_inPlay.mpr (.inr ⟨cells, ⟨op, hold, himage⟩, rfl⟩), fun _ _ => rfl⟩
  · cases himage
    obtain ⟨r, hr, -, hsame⟩ := hcells.unchanged hentry hcs
    exact ⟨_, mem_inPlay.mpr (.inl ⟨r, hr, rfl⟩), hsame⟩
  · cases himage

theorem Grows.removes_lt (hgrows : Grows cat db staging expanded)
    (hstaged : ∀ id, Removes staging table id → id < (db table).nextRowId) {id : RowId}
    (h : Removes expanded table id) : id < (db table).nextRowId := by
  obtain ⟨op, hop, hid⟩ := h
  rcases hgrows.origin _ op hop with hold | ⟨id', cells, rfl, hcells⟩ | ⟨r, hr, rfl⟩
  · exact hstaged id ⟨op, hold, hid⟩
  · cases hid
    obtain ⟨-, -, r, hr, rfl, -⟩ := hcells
    exact (db table).fresh r hr
  · cases hid
    exact (db table).fresh r hr

theorem Grows.truncate (hgrows : Grows cat db staging expanded)
    (h : (table, .truncate) ∈ expanded) : (table, .truncate) ∈ staging := by
  rcases hgrows.origin _ _ h with hold | ⟨id, cells, hop, -⟩ | ⟨r, -, hop⟩
  · exact hold
  · cases hop
  · cases hop

theorem primaryKey_eq (hparent : parent ∈ cat.tables) :
    cat.primaryKey parent.tableId = parent.schema.primaryKey := by
  rw [Catalog.primaryKey, Catalog.entry_eq_some.mpr ⟨hparent, rfl⟩]
  rfl

/-! ## A key that loses its row -/

/-- Some row or image has the key, and no removal by row id takes it. -/
def KeyStays (t : Table) (expanded : Staging) (table : TableId) (ref : List ColumnId)
    (k : Key) : Prop :=
  t.Offers ref k (Removes expanded table) ∨
    ∃ cells, Brings expanded table cells ∧ encodeCompositeKey ref (collect cells) = some k

theorem KeyStays.offers {t : Table} {pk : Option ColumnId} {ref : List ColumnId}
    (hstays : KeyStays t expanded table ref k)
    (h : t.Gentle pk ref k (Removes expanded table) (writesOn (normalize expanded) table)) :
    (t.applyAll pk (writesOn (normalize expanded) table)).Offers ref k
      (Removes expanded table) := by
  rcases hstays with hrow | ⟨cells, hcells, hk⟩
  · exact hrow.applyAll h
  · exact h.offers_put (mem_writesOn.mpr (put_mem_normalize.mpr hcells)) hk

/-- When the batch removes a row with a referenced key, the key stays all the same, or it is
locked and all its children in the snapshot are removed too, or an action has changed it. -/
theorem Validated.key_or_children_or_moved (hv : Validated cat db staging expanded locks)
    (hparent : parent ∈ cat.tables) (hchild : child ∈ cat.tables)
    (hfk : fk ∈ child.schema.foreignKeys) (hname : parent.name = fk.refTable) {p : Row}
    (hp : p ∈ (db parent.tableId).rows) (hk : encodeCompositeKey fk.refColumns p.columns = some k)
    (hremoved : Removes expanded parent.tableId p.rowId) :
    (∃ cells, Brings expanded parent.tableId cells ∧
        encodeCompositeKey fk.refColumns (collect cells) = some k) ∨
      (fkLock parent.tableId k .exclusive ∈ locks ∧
        ∀ r ∈ childRows db child fk k, Removes expanded child.tableId r.rowId) ∨
      ∃ cells, (parent.tableId, .update p.rowId cells) ∈ expanded ∧
        (parent.tableId, .update p.rowId cells) ∉ staging ∧
        Rewritten cat db parent.tableId p.rowId cells ∧
        encodeCompositeKey fk.refColumns (collect cells) ≠ some k := by
  have hentry : cat.entry parent.tableId = some parent := Catalog.entry_eq_some.mpr ⟨hparent, rfl⟩
  have hrefs : (child, fk) ∈ cat.referencing parent.name :=
    Catalog.mem_referencing.mpr ⟨hchild, hfk, hname.symm⟩
  have hget : (db parent.tableId).get p.rowId = some p := Table.get_eq_some.mpr ⟨hp, rfl⟩
  obtain ⟨op, hop, hid⟩ := hremoved
  have hchecked := hv.checked _ _ _ hop hentry
  cases op with
  | put | truncate => cases hid
  | delete id =>
    cases hid
    rcases hv.deletes _ _ hop parent p hentry hget child fk hrefs k hk with
      ⟨cells, hput, hkey⟩ | ⟨hlock, hchildren⟩
    · exact .inl ⟨cells, ⟨_, hput, rfl⟩, hkey⟩
    · refine .inr (.inl ⟨hlock, ?_⟩)
      by_cases haction : fk.onDelete = .restrict
      · exact hchecked.delete _ p rfl hget child fk hrefs haction k hk
      · exact hchildren haction
  | update id cells =>
    cases hid
    by_cases hsame : encodeCompositeKey fk.refColumns (collect cells) = some k
    · exact .inl ⟨cells, ⟨_, hop, rfl⟩, hsame⟩
    by_cases haction : fk.onUpdate = .restrict
    · exact .inr (.inl (hchecked.update _ cells rfl p hget child fk hrefs haction k hk hsame))
    have hchildren (hf : Followed cat db expanded locks parent.tableId p.rowId (collect cells)) :=
      hf parent p hentry hget child fk hrefs haction k hk hsame
    by_cases hstaged : (parent.tableId, .update p.rowId cells) ∈ staging
    · exact .inr (.inl (hchildren (hv.staged _ _ _ hstaged)))
    · rcases hv.updates _ _ _ hop with hfollowed | hrewritten
      · exact .inr (.inl (hchildren hfollowed))
      · exact .inr (.inr ⟨cells, hop, hstaged, hrewritten, hsame⟩)

/-- No action has changed a key that none writes. -/
theorem Validated.key_or_children (hv : Validated cat db staging expanded locks)
    (href : Untouched parent fk.refColumns) (hparent : parent ∈ cat.tables)
    (hchild : child ∈ cat.tables) (hfk : fk ∈ child.schema.foreignKeys)
    (hname : parent.name = fk.refTable) {p : Row} (hp : p ∈ (db parent.tableId).rows)
    (hk : encodeCompositeKey fk.refColumns p.columns = some k)
    (hremoved : Removes expanded parent.tableId p.rowId) :
    (∃ cells, Brings expanded parent.tableId cells ∧
        encodeCompositeKey fk.refColumns (collect cells) = some k) ∨
      fkLock parent.tableId k .exclusive ∈ locks ∧
        ∀ r ∈ childRows db child fk k, Removes expanded child.tableId r.rowId := by
  rcases hv.key_or_children_or_moved hparent hchild hfk hname hp hk hremoved with
    himage | hchildren | ⟨cells, -, -, hrewritten, hne⟩
  · exact .inl himage
  · exact .inr hchildren
  · obtain ⟨r, hr, hid, hcolumns⟩ := hrewritten.unchanged hparent href
    have hget : (db parent.tableId).get p.rowId = some p := Table.get_eq_some.mpr ⟨hp, rfl⟩
    obtain rfl : p = r := Option.some.inj (hget.symm.trans (Table.get_eq_some.mpr ⟨hr, hid⟩))
    exact absurd ((encodeCompositeKey_congr hcolumns).trans hk) hne

/-! ## The batch -/

section Batch

variable (hrows : NamesRows db expanded parent)
include hrows

theorem KeyKept.gentle (h : KeyKept db staging expanded fk child parent k) :
    (db parent.tableId).Gentle parent.schema.primaryKey fk.refColumns k
      (Removes expanded parent.tableId) (writesOn (normalize expanded) parent.tableId) where
  gone_lt := by
    rintro id ⟨_, hop, hid⟩
    exact hrows _ hop rfl id hid
  rows := by
    rw [puts_normalize]
    exact h.rows
  puts := by
    rw [puts_normalize]
    exact h.images
  delete id hid := delete_mem_normalize.mp (mem_writesOn.mp hid)
  truncate hmem := h.truncate (truncate_mem_normalize.mp (mem_writesOn.mp hmem))

/-- After the truncate the table is empty, so only the images that follow matter. -/
theorem KeyBrought.offers (h : KeyBrought expanded fk parent k) :
    ((db parent.tableId).applyAll parent.schema.primaryKey
      (writesOn (normalize expanded) parent.tableId)).Offers fk.refColumns k
        (Removes expanded parent.tableId) := by
  obtain ⟨before, heq, hlast⟩ := exists_sinceTruncate h.truncate
  obtain ⟨a, ha, hkey⟩ := h.image
  obtain ⟨cells, hcells, rfl⟩ := mem_images.mp ha
  set after := sinceTruncate parent.tableId expanded with hafter
  have hwrites : writesOn (normalize expanded) parent.tableId =
      writesOn (normalize before) parent.tableId ++
        .truncate :: writesOn (normalize after) parent.tableId := by
    conv_lhs => rw [heq]
    simp [normalize, writesOn, Staged.normalize]
  set t := ((db parent.tableId).applyAll parent.schema.primaryKey
    (writesOn (normalize before) parent.tableId)).apply parent.schema.primaryKey .truncate with ht
  have happly : (db parent.tableId).applyAll parent.schema.primaryKey
      (writesOn (normalize expanded) parent.tableId) =
      t.applyAll parent.schema.primaryKey (writesOn (normalize after) parent.tableId) := by
    rw [hwrites, Table.applyAll, List.foldl_append]
    rfl
  have hempty : t.rows = [] := by
    simp [ht, Table.apply, Write.keeps, Write.arrivals]
  have hgentle : t.Gentle parent.schema.primaryKey fk.refColumns k
      (Removes expanded parent.tableId) (writesOn (normalize after) parent.tableId) := by
    refine ⟨?_, ?_, ?_, fun id hid => ?_, fun hmem => ?_⟩
    · rintro id ⟨_, hop, hid⟩
      exact Nat.lt_of_lt_of_le (hrows _ hop rfl id hid)
        (Nat.le_trans Table.nextRowId_le_applyAll (Nat.le_add_right _ _))
    · intro r hr
      rw [hempty] at hr
      cases hr
    · rw [puts_normalize]
      exact h.images
    · obtain ⟨op, hop, hid⟩ := delete_mem_normalize.mp (mem_writesOn.mp hid)
      refine ⟨op, ?_, hid⟩
      rw [heq]
      exact List.mem_append_right _ (List.mem_cons_of_mem _ hop)
    · exact hlast (truncate_mem_normalize.mp (mem_writesOn.mp hmem))
  rw [happly]
  exact hgentle.offers_put (mem_writesOn.mpr (put_mem_normalize.mpr hcells)) hkey

end Batch

/-- A child row in the resulting state was left alone by its id or is an image. -/
theorem mem_wantedKeys {r : Row}
    (hr : r ∈ (applyBatch cat db (normalize expanded) child.tableId).rows)
    (hk : encodeCompositeKey fk.columns r.columns = some k) :
    k ∈ wantedKeys db expanded child fk := by
  refine List.mem_filterMap.mpr ⟨r.columns, ?_, hk⟩
  rcases Table.mem_applyAll hr with ⟨hold, hkept⟩ | ⟨-, cells, hput, hcolumns⟩
  · refine List.mem_append_left _ (List.mem_map.mpr ⟨r, List.mem_filter.mpr ⟨hold, ?_⟩, rfl⟩)
    refine decide_eq_true fun hremoved => ?_
    have hkeeps := hkept _ (mem_writesOn.mpr (delete_mem_normalize.mpr hremoved))
    simp [Write.keeps] at hkeeps
  · exact List.mem_append_right _
      (mem_images.mpr ⟨cells, put_mem_normalize.mp (mem_writesOn.mp hput), hcolumns.symm⟩)

/-- Parents by their id, with a code in column 1; a child refers to a column of its parent. -/
def family (refColumn : ColumnId) : Catalog where
  tables :=
    [⟨0, "parents", ⟨some 0, [⟨1, "code", [1]⟩], [], []⟩⟩,
      ⟨1, "children",
        ⟨some 0, [], [⟨1, "parent", [1], "parents", [refColumn], .cascade, .restrict⟩], []⟩⟩]
  distinctIds := by simp
  distinctNames := by simp

/-- The families after these puts. -/
def familiesOf (parents : List Cells) (children : List Cells) : Database :=
  applyBatch (family 0) (fun _ => .empty)
    (parents.map (fun cells => (0, .put cells)) ++ children.map (fun cells => (1, .put cells)))

/-- A put over the parent's primary key takes away the code its child refers to. -/
example :
    let db := familiesOf [[(0, .int64 1), (1, .int64 5)]] [[(0, .int64 7), (1, .int64 5)]]
    let batch : Staging := [(0, .put [(0, .int64 1), (1, .int64 6)])]
    ForeignKeysHold (family 1) db ∧
      (∃ locks, validateConstraints 2 (family 1) db batch = .ok (batch, locks)) ∧
      ¬ ForeignKeysHold (family 1) (applyBatch (family 1) db (normalize batch)) :=
  ⟨by decide +kernel, ⟨_, rfl⟩, by decide +kernel⟩

end MongrelDB.Integrity
