import MongrelDB.Storage.QueryPaging

/-!
# What writes and upkeep do to the versions of a row

The versions of a row, oldest first, are all that the reads of a table depend on. A
write in order adds the last one. Sealing, flushing and the directory leave them as
they are.
-/

namespace MongrelDB.Storage

open Epoch Lib List

variable {F : Type}

/-! ## Versions read back from a run -/

/-- A version as a run hands it back. -/
def Row.readBack (schema : List ColumnDef) (row : Row F) : Row F :=
  { row with columns := schema.map fun c => (c.id, (row.get c.id).getD .null) }

theorem lookup_map_id (f : Nat → Value F) (col : Nat) (schema : List ColumnDef) :
    (schema.map fun c => (c.id, f c.id)).lookup col =
      if col ∈ schema.map ColumnDef.id then some (f col) else none := by
  induction schema with
  | nil => rfl
  | cons c schema ih =>
    rw [map_cons, lookup_cons, ih, map_cons]
    by_cases h : col = c.id
    · subst h
      simp
    · rw [beq_eq_false_iff_ne.mpr h]
      simp only [mem_cons, h, false_or]

theorem Row.get_readBack_eq (schema : List ColumnDef) (row : Row F) (col : Nat) :
    (row.readBack schema).get col =
      if col ∈ schema.map ColumnDef.id then some ((row.get col).getD .null) else none :=
  lookup_map_id (fun id => (row.get id).getD .null) col schema

theorem Row.get_readBack {schema : List ColumnDef} {row : Row F} {col : Nat} {v : Value F}
    (h : (row.readBack schema).get col = some v) (hv : v ≠ .null) : row.get col = some v := by
  rw [Row.get_readBack_eq] at h
  split at h
  · rcases hrow : row.get col with _ | w
    · rw [hrow] at h
      exact absurd (Option.some.inj h).symm hv
    · rwa [hrow] at h
  · exact nomatch h

theorem Row.readBack_comp (schema : List ColumnDef) :
    Row.readBack schema ∘ Row.readBack schema = Row.readBack (F := F) schema := by
  funext row
  refine congrArg (fun columns => ({ row with columns } : Row F)) (?_ : map _ _ = map _ _)
  refine map_congr_left fun c hc => ?_
  rw [Row.get_readBack_eq, if_pos (mem_map_of_mem hc), Option.getD_some]

namespace RunReader

theorem storedIn_eq (r : RunReader F) (rowId : Nat) :
    r.storedIn rowId =
      (versionsOf rowId r.run.pages.flatten).map fun row => r.materialize ⟨0, 0, 0, row⟩ := by
  rw [← Run.slots_map_row, versionsOf, filter_map, map_map, storedIn]
  rfl

theorem readColumns_of_stored {r : RunReader F}
    (hstored : r.run.storedColumns = r.schema.map ColumnDef.id) (s : Slot F) :
    r.readColumns s = (s.row.readBack r.schema).columns := by
  refine map_congr_left fun c hc => ?_
  rw [valueAt, if_pos]
  rw [hstored]
  exact mem_map_of_mem hc

end RunReader

theorem storedIn_writeRun {r : RunReader F} {epoch : Nat} {rows : List (Row F)}
    {hs : rows.Pairwise fun a b => a.versionKey ≤ b.versionKey}
    {he : ∀ row ∈ rows, row.committedEpoch ≤ epoch}
    (hr : r.run = writeRun r.schema epoch rows hs he) (ho : r.epochOverride = none) (rowId : Nat) :
    r.storedIn rowId = (versionsOf rowId rows).map (Row.readBack r.schema) := by
  have hflat : r.run.pages.flatten = rows := by rw [hr]; exact rows_writeRun
  rw [RunReader.storedIn_eq, hflat]
  refine map_congr_left fun row hrow => ?_
  have hts : r.commitTsOf ⟨0, 0, 0, row⟩ = row.commitTs := by
    obtain ⟨s, hs, rfl⟩ : ∃ s ∈ r.run.slots, s.row = row := by
      have hmem := (mem_versionsOf.mp hrow).1
      rwa [← hflat, ← Run.slots_map_row, mem_map] at hmem
    exact commitTsOf_writeRun (s := s) hr hs
  have hcols := RunReader.readColumns_of_stored (r := r) (by rw [hr]; rfl) ⟨0, 0, 0, row⟩
  rw [RunReader.materialize, RunReader.stampOf, hts, ho, hcols]
  rfl

/-! ## Versions that stand for others -/

/-- `row'` is the same version as `row`, and has no value that `row` does not have. -/
structure Row.ReadsAs (row row' : Row F) : Prop where
  rowId : row'.rowId = row.rowId
  stamp : row'.stamp = row.stamp
  deleted : row'.deleted = row.deleted
  values : ∀ col v, row'.get col = some v → v ≠ .null → row.get col = some v

theorem Row.ReadsAs.refl (row : Row F) : row.ReadsAs row := ⟨rfl, rfl, rfl, fun _ _ h _ => h⟩

theorem Row.readsAs_readBack (schema : List ColumnDef) (row : Row F) :
    row.ReadsAs (row.readBack schema) := ⟨rfl, rfl, rfl, fun _ _ => Row.get_readBack⟩

theorem forall₂_refl (vs : List (Row F)) : Forall₂ Row.ReadsAs vs vs :=
  forall₂_same.mpr fun row _ => .refl row

theorem getLast?_forall₂ {vs vs' : List (Row F)} (h : Forall₂ Row.ReadsAs vs vs') :
    Option.Rel Row.ReadsAs vs.getLast? vs'.getLast? := by
  have hrev : Forall₂ Row.ReadsAs vs.reverse vs'.reverse := rel_reverse h
  rw [← head?_reverse, ← head?_reverse]
  generalize vs.reverse = us at hrev ⊢
  generalize vs'.reverse = us' at hrev ⊢
  cases hrev with
  | nil => exact .none
  | cons hrow _ => exact .some hrow

/-- The newest versions of two lists that read as each other do so as well. -/
theorem newest_forall₂ {vs vs' : List (Row F)} (h : Forall₂ Row.ReadsAs vs vs')
    (snap : Snapshot) : Option.Rel Row.ReadsAs (newest snap vs) (newest snap vs') := by
  have hobs : ∀ row row' : Row F, row.ReadsAs row' →
      (observed snap row = true ↔ observed snap row' = true) := by
    intro row row' hrow
    rw [observed, observed, hrow.stamp]
  exact getLast?_forall₂ (rel_filter hobs h)

/-! ## Writes -/

theorem newest_concat (snap : Snapshot) (vs : List (Row F)) (row : Row F) :
    newest snap (vs ++ [row]) = if observed snap row = true then some row else newest snap vs := by
  rw [newest_append, newest, filter_singleton]
  cases observed snap row <;> simp

namespace Table

variable {t : Table F} {snap : Snapshot}

theorem versions_put (h : t.Ordered) {row : Row F} (hw : t.WriteInOrder row.rowId row.stamp)
    (rowId : Nat) : (t.put row).versions rowId = t.versions rowId ++ versionsOf rowId [row] := by
  show t.storedVersions rowId ++ (t.put row).overlayVersions rowId = _
  rw [overlayVersions_upsert h hw, versions, append_assoc]

/-! ## Upkeep -/

/-- A spill leaves the versions where they are, those of the mutable run as they are read back. -/
theorem versions_spill_eq {t' : Table F} (h : t.Ordered) {epoch : Nat}
    (hstep : t.spillMutableRun epoch = some t') :
    t' = t ∨ (t'.schema = t.schema ∧ t'.ttl = t.ttl) ∧ ∀ rowId, t'.versions rowId =
      t.storedVersions rowId ++ (versionsOf rowId t.mutableRun.rows).map (Row.readBack t.schema) ++
        versionsOf rowId t.memtable.rows := by
  rcases spillMutableRun_cases hstep with rfl | ⟨he, rfl⟩
  · exact .inl rfl
  refine .inr ⟨⟨rfl, rfl⟩, fun rowId => ?_⟩
  let spilled : RunReader F := t.openRun ⟨t.nextRunId,
    writeRun t.schema epoch t.mutableRun.drainSorted t.mutableRun.drainSorted_sorted he⟩
  have hspilled : spilled.storedIn rowId =
      (versionsOf rowId t.mutableRun.rows).map (Row.readBack t.schema) := by
    have hschema : spilled.schema = t.schema := openRun_schema t _
    have hrun : spilled.run = writeRun spilled.schema epoch t.mutableRun.drainSorted
        t.mutableRun.drainSorted_sorted he := by
      rw [hschema]
      exact openRun_run t _
    rw [storedIn_writeRun hrun (openRun_override t rfl), hschema,
      Tier.versionsOf_drainSorted (h.mutableRun rowId)]
  show (t.runRefs ++ [_]).flatMap (fun rr => (t.openRun rr).storedIn rowId) ++
    versionsOf rowId t.memtable.rows = _
  rw [flatMap_append, flatMap_singleton, ← hspilled]
  rfl

theorem versions_spill {t' : Table F} (h : t.Ordered) {epoch : Nat}
    (hstep : t.spillMutableRun epoch = some t') (rowId : Nat) :
    Forall₂ Row.ReadsAs (t.versions rowId) (t'.versions rowId) := by
  rcases versions_spill_eq h hstep with rfl | ⟨-, hversions⟩
  · exact forall₂_refl _
  rw [hversions, versions, overlayVersions, ← append_assoc]
  refine rel_append (rel_append (forall₂_refl _) ?_) (forall₂_refl _)
  rw [forall₂_map_right_iff]
  exact forall₂_same.mpr fun row _ => Row.readsAs_readBack t.schema row

/-! ## Repeated reads -/

/-- The step is in order, and the snapshot does not observe what it writes. -/
def Unobserved (snap : Snapshot) (t : Table F) (l : Label F) : Prop :=
  t.InOrder l ∧ match l with
    | .put _ stamp _ | .delete _ stamp => snap.observesVersion stamp = false
    | _ => True

instance (snap : Snapshot) (t : Table F) (l : Label F) : Decidable (Unobserved snap t l) := by
  cases l <;> exact inferInstanceAs (Decidable (_ ∧ _))

/-- The version of the row that the snapshot shows, with the columns of the schema. -/
def shown (t : Table F) (snap : Snapshot) (rowId : Nat) : Option (Row F) :=
  newest snap ((t.versions rowId).map (Row.readBack t.schema))

def SameAt (snap : Snapshot) (t t' : Table F) : Prop :=
  (t'.schema = t.schema ∧ t'.ttl = t.ttl) ∧ ∀ rowId, t'.shown snap rowId = t.shown snap rowId

theorem sameAt_put (h : t.Ordered) {row : Row F} (hw : t.WriteInOrder row.rowId row.stamp)
    (hhidden : snap.observesVersion row.stamp = false) : SameAt snap t (t.put row) := by
  refine ⟨⟨rfl, rfl⟩, fun rowId => ?_⟩
  show newest snap (((t.put row).versions rowId).map (Row.readBack t.schema)) = _
  rw [versions_put h hw, versionsOf_singleton]
  split
  · have hback : observed snap (row.readBack t.schema) = false := hhidden
    rw [map_append, map_singleton, newest_concat, hback]
    rfl
  · rw [append_nil]
    rfl

theorem sameAt_of_versions {t' : Table F} (hfixed : t'.schema = t.schema ∧ t'.ttl = t.ttl)
    (hs : ∀ rowId, t'.storedVersions rowId = t.storedVersions rowId)
    (ho : ∀ rowId, t'.overlayVersions rowId = t.overlayVersions rowId) : SameAt snap t t' :=
  ⟨hfixed, fun rowId => by rw [shown, shown, versions, versions, hs, ho, hfixed.1]⟩

theorem sameAt_step {l : Label F} {t' : Table F} (h : t.Ordered) (hok : Unobserved snap t l)
    (hstep : t.step l = some t') : SameAt snap t t' := by
  cases l with
  | put | delete =>
    obtain rfl := Option.some.inj hstep
    exact sameAt_put h hok.1 hok.2
  | sealGenerations =>
    obtain rfl := Option.some.inj hstep
    exact sameAt_of_versions ⟨rfl, rfl⟩ (fun _ => rfl) (overlayVersions_sealGenerations h)
  | flushMemtable =>
    obtain rfl := Option.some.inj hstep
    refine sameAt_of_versions ⟨?_, ?_⟩ (fun _ => ?_) (overlayVersions_flushMemtable h)
    all_goals
      rw [flushMemtable]
      split <;> rfl
  | spillMutableRun =>
    rcases versions_spill_eq h hstep with rfl | ⟨hfixed, hversions⟩
    · exact ⟨⟨rfl, rfl⟩, fun _ => rfl⟩
    · -- what is read back twice is read back once
      refine ⟨hfixed, fun rowId => ?_⟩
      rw [shown, shown, hversions, hfixed.1, versions, overlayVersions]
      simp only [map_append, map_map, Row.readBack_comp, append_assoc]
  | publishDirectory | loseDirectory =>
    obtain rfl := Option.some.inj hstep
    exact sameAt_of_versions ⟨rfl, rfl⟩ (fun _ => rfl) fun _ => rfl

/-- The column that decides about expiry survives a spill. -/
def TtlInSchema (t : Table F) : Prop :=
  ∀ policy, t.ttl = some policy → policy.columnId ∈ t.schema.map ColumnDef.id

theorem isLive_readBack (hcolumn : t.TtlInSchema) (nowNanos : Int) (row : Row F) :
    t.isLive nowNanos (row.readBack t.schema) = t.isLive nowNanos row := by
  have hexpired : rowExpiredAt t.ttl (row.readBack t.schema) nowNanos =
      rowExpiredAt t.ttl row nowNanos := by
    cases httl : t.ttl with
    | none => rfl
    | some policy =>
      rw [rowExpiredAt, Row.get_readBack_eq, if_pos (hcolumn policy httl), rowExpiredAt]
      cases row.get policy.columnId <;> rfl
  rw [isLive, hexpired]
  rfl

theorem get_readBack (h : t.Ordered ∧ t.Consultable) (hcolumn : t.TtlInSchema) (rowId : Nat)
    (nowNanos : Int) :
    (t.get rowId snap nowNanos).map (Row.readBack t.schema) =
      (t.shown snap rowId).filter (t.isLive nowNanos) := by
  have hlive : t.isLive nowNanos ∘ Row.readBack t.schema = t.isLive nowNanos :=
    funext (isLive_readBack hcolumn nowNanos)
  have hshown : t.shown snap rowId =
      (newest snap (t.versions rowId)).map (Row.readBack t.schema) := by
    rw [shown, newest, filter_map, getLast?_map]
    rfl
  rw [get_eq h.1 h.2, hshown, Option.filter_map, hlive]

/-- A read at a snapshot finds the same row again, whatever is written behind the snapshot and
wherever seals, flushes and spills move the versions. -/
theorem snapshot_reads_repeat (schema : List ColumnDef) (ttl : Option TtlPolicy) (t t' : Table F)
    (snap : Snapshot) (h : Reachable step InOrder (new schema ttl) t) (hcolumn : t.TtlInSchema)
    (h' : Reachable step (Unobserved snap) t t') (rowId : Nat) (nowNanos : Int) :
    (t'.get rowId snap nowNanos).map (Row.readBack t.schema) =
      (t.get rowId snap nowNanos).map (Row.readBack t.schema) := by
  have hsound := h.invariant ⟨ordered_new schema ttl, consultable_new schema ttl⟩
    fun _ _ _ => sound_step
  have hrun : (t'.Ordered ∧ t'.Consultable) ∧ SameAt snap t t' := by
    refine h'.invariant (I := fun u => (u.Ordered ∧ u.Consultable) ∧ SameAt snap t u)
      ⟨hsound, ⟨rfl, rfl⟩, fun _ => rfl⟩ ?_
    rintro u l u' ⟨hu, hfixed, hshown⟩ hok hstep
    obtain ⟨hfixed', hshown'⟩ := sameAt_step hu.1 hok hstep
    exact ⟨sound_step hu hok.1 hstep,
      ⟨hfixed'.1.trans hfixed.1, hfixed'.2.trans hfixed.2⟩,
      fun rowId => (hshown' rowId).trans (hshown rowId)⟩
  obtain ⟨hsound', ⟨hschema, httl⟩, hshown⟩ := hrun
  have hget : (t'.get rowId snap nowNanos).map (Row.readBack t'.schema) = _ :=
    get_readBack hsound' (by rwa [TtlInSchema, hschema, httl]) rowId nowNanos
  have hlive : t'.isLive nowNanos = t.isLive nowNanos := by
    funext row
    rw [isLive, httl]
    rfl
  rw [hschema, hshown, hlive] at hget
  exact hget.trans (get_readBack hsound hcolumn rowId nowNanos).symm

/-- The row is overwritten after the snapshot, and both versions are moved to a run. -/
theorem snapshot_reads_repeat_after_spill :
    ∃ t t' : Table Nat, Reachable step (Unobserved (.atEpoch 1)) t t' ∧ t'.runRefs.length = 1 ∧
      (t.get 1 (.atEpoch 1) 0).isSome ∧
      (t'.get 1 (.atEpoch 1) 0).map (Row.readBack t.schema) =
        (t.get 1 (.atEpoch 1) 0).map (Row.readBack t.schema) := by
  let t : Table Nat := put (new [⟨0, .int64⟩] (some ⟨0, 5⟩)) ⟨1, 1, [(0, .int64 10)], false, none⟩
  have ht : Reachable step InOrder (new [⟨0, .int64⟩] (some ⟨0, 5⟩)) t :=
    .tail .refl (a := .put 1 ⟨1, none⟩ [(0, .int64 10)]) (by decide) rfl
  obtain ⟨t', ht', hruns⟩ := exists_reachable_of_execute step (Unobserved (.atEpoch 1)) t
    (·.runRefs.length = 1)
    [.put 1 ⟨2, none⟩ [(0, .int64 11)], .flushMemtable, .spillMutableRun 2] (by decide)
  exact ⟨t, t', ht', hruns, by decide,
    snapshot_reads_repeat _ _ t t' _ ht (by rintro _ ⟨⟩; decide) ht' 1 0⟩

end Table

end MongrelDB.Storage
