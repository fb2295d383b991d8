import MongrelDB.Lib.Transition
import MongrelDB.Storage.TableReads

/-!
# Do the reads of a table agree?

A point read, a full scan and a streaming scan at one snapshot should find the
same row under a row id (`ReadsAgree`), whatever the table went through.
-/

namespace MongrelDB.Storage

open Epoch Lib List
open Option hiding any_eq_false filter_map mem_map map_map mem_map_of_mem

variable {F : Type}

namespace Table

/-- Scan and stream find, under this row id, exactly what the point read finds. -/
structure ReadsAgree (t : Table F) (snap : Snapshot) (nowNanos : Int) (rowId : Nat) : Prop where
  scan : versionsOf rowId (t.visibleRowsAtTime snap nowNanos) =
    (t.get rowId snap nowNanos).toList
  stream : versionsOf rowId (t.forEachVisibleRowControlled snap nowNanos).visited =
    (t.get rowId snap nowNanos).toList

/-! ## The condition on the steps -/

/-- A write comes after every stored version of its row by both clocks, and after every version in
memory or with the same stamp. -/
def WriteInOrder (t : Table F) (rowId : Nat) (stamp : Stamp) : Prop :=
  (∀ v ∈ t.storedVersions rowId, Before v.stamp stamp) ∧
    ∀ v ∈ t.overlayVersions rowId, NotAfter v.stamp stamp
  deriving Decidable

/-- No version in the mutable run has the stamp of another version of its row in memory. -/
def SpillsNoTie (t : Table F) : Prop :=
  t.mutableRun.rows.Pairwise (fun a b => a.rowId = b.rowId → a.stamp ≠ b.stamp) ∧
    ∀ a ∈ t.mutableRun.rows, ∀ b ∈ t.memtable.rows, a.rowId = b.rowId → a.stamp ≠ b.stamp
  deriving Decidable

def InOrder (t : Table F) : Label F → Prop
  | .put rowId stamp _ => t.WriteInOrder rowId stamp
  | .delete rowId stamp => t.WriteInOrder rowId stamp
  | .spillMutableRun _ => t.SpillsNoTie ∧ ∀ c ∈ t.schema, c.ty.streamable = true
  | _ => True

instance (t : Table F) : (l : Label F) → Decidable (t.InOrder l)
  | .put rowId stamp _ => inferInstanceAs (Decidable (t.WriteInOrder rowId stamp))
  | .delete rowId stamp => inferInstanceAs (Decidable (t.WriteInOrder rowId stamp))
  | .spillMutableRun _ => inferInstanceAs (Decidable (_ ∧ _))
  | .sealGenerations => isTrue trivial
  | .flushMemtable => isTrue trivial
  | .publishDirectory => isTrue trivial
  | .loseDirectory => isTrue trivial

/-! ## Steps that keep every log -/

variable {t t' : Table F}

theorem Ordered.congr (h : t.Ordered)
    (hs : ∀ rowId, t'.storedVersions rowId = t.storedVersions rowId)
    (ho : ∀ rowId, t'.overlayVersions rowId = t.overlayVersions rowId) : t'.Ordered where
  stored rowId := by
    rw [hs]
    exact h.stored rowId
  overlay rowId := by
    rw [ho]
    exact h.overlay rowId
  cross rowId := by
    rw [hs, ho]
    exact h.cross rowId

theorem overlayVersions_sealGenerations (h : t.Ordered) (rowId : Nat) :
    t.sealGenerations.overlayVersions rowId = t.overlayVersions rowId := by
  show versionsOf rowId t.mutableRun.toTier.sealActive.rows ++
    versionsOf rowId t.memtable.toTier.sealActive.rows = _
  rw [Tier.versionsOf_sealActive (h.mutableRun rowId),
    Tier.versionsOf_sealActive (h.memtable rowId)]
  rfl

theorem overlayVersions_flushMemtable (h : t.Ordered) (rowId : Nat) :
    t.flushMemtable.overlayVersions rowId = t.overlayVersions rowId := by
  have hdrained := Tier.versionsOf_drainSorted (h.memtable rowId)
  unfold flushMemtable
  split
  next hempty =>
    rw [List.isEmpty_iff] at hempty
    rw [hempty] at hdrained
    rw [overlayVersions, overlayVersions, ← hdrained]
    rfl
  next =>
    have hlog : versionsOf rowId (t.mutableRun.rows ++ t.memtable.drainSorted) =
        t.overlayVersions rowId := by
      rw [versionsOf_append, hdrained]
      rfl
    show versionsOf rowId (t.mutableRun.insertMany t.memtable.drainSorted _).rows ++ [] = _
    rw [append_nil, MutableRun.versionsOf_insertMany _ (by rw [hlog]; exact h.overlay rowId),
      hlog]

/-! ## Writes -/

theorem overlayVersions_upsert (h : t.Ordered) {row : Row F}
    (hw : t.WriteInOrder row.rowId row.stamp) (rowId : Nat) :
    (t.put row).overlayVersions rowId = t.overlayVersions rowId ++ versionsOf rowId [row] := by
  have hlog : InCommitOrder (versionsOf rowId (t.memtable.rows ++ [row])) := by
    rw [versionsOf_append]
    refine pairwise_append.mpr ⟨h.memtable rowId, ?_, ?_⟩
    · rw [versionsOf_singleton]
      split <;> simp
    · intro a ha b hb
      obtain ⟨hb, hid⟩ := mem_versionsOf.mp hb
      rw [mem_singleton.mp hb] at hid ⊢
      exact hw.2 a (by rw [hid]; exact mem_append_right _ ha)
  show versionsOf rowId t.mutableRun.rows ++ versionsOf rowId (t.memtable.upsert row).rows = _
  rw [Memtable.versionsOf_upsert hlog, versionsOf_append, overlayVersions, append_assoc]

theorem Ordered.put (h : t.Ordered) {row : Row F} (hw : t.WriteInOrder row.rowId row.stamp) :
    (t.put row).Ordered where
  stored := h.stored
  overlay rowId := by
    rw [overlayVersions_upsert h hw]
    refine pairwise_append.mpr ⟨h.overlay rowId, ?_, ?_⟩
    · rw [versionsOf_singleton]
      split <;> simp
    · intro a ha b hb
      obtain ⟨hb, hid⟩ := mem_versionsOf.mp hb
      rw [mem_singleton.mp hb] at hid ⊢
      exact hw.2 a (hid ▸ ha)
  cross rowId a ha b hb := by
    rw [overlayVersions_upsert h hw, mem_append] at hb
    rcases hb with hb | hb
    · exact h.cross rowId a ha b hb
    · obtain ⟨hb, hid⟩ := mem_versionsOf.mp hb
      rw [mem_singleton.mp hb] at hid ⊢
      exact hw.1 a (hid ▸ ha)

end Table

/-! ## Spills -/

section WriteRun

variable {schema : List ColumnDef} {epoch : Nat} {rows : List (Row F)}
  {hs : rows.Pairwise fun a b => a.versionKey ≤ b.versionKey}
  {he : ∀ row ∈ rows, row.committedEpoch ≤ epoch}

theorem rows_writeRun : (writeRun schema epoch rows hs he).pages.flatten = rows :=
  flatten_cutPages (by decide) _ rows le_rfl

/-- The timestamp column is left out only when no version has a timestamp. -/
theorem commitTsOf_writeRun {r : RunReader F} (hr : r.run = writeRun schema epoch rows hs he)
    {s : Slot F} (hmem : s ∈ r.run.slots) : r.commitTsOf s = s.row.commitTs := by
  have hrow : s.row ∈ rows := by
    have := Run.row_mem hmem
    rwa [hr, rows_writeRun] at this
  rw [RunReader.commitTsOf, hr]
  show (if rows.any (fun row => row.commitTs.isSome) then s.row.commitTs else none) = _
  split
  · rfl
  next hany =>
    rw [Bool.not_eq_true, any_eq_false] at hany
    have hnone := hany s.row hrow
    cases hts : s.row.commitTs with
    | none => rfl
    | some ts => simp [hts] at hnone

theorem stamps_storedIn_writeRun {r : RunReader F} (hr : r.run = writeRun schema epoch rows hs he)
    (ho : r.epochOverride = none) (rowId : Nat) :
    (r.storedIn rowId).map Row.stamp = (versionsOf rowId rows).map Row.stamp := by
  have hrows : (r.run.slots.filter fun s => decide (s.row.rowId = rowId)).map Slot.row =
      versionsOf rowId rows := by
    have hall : r.run.slots.map Slot.row = rows := by
      rw [Run.slots_map_row, hr, rows_writeRun]
    rw [versionsOf, ← hall, filter_map]
    rfl
  rw [RunReader.storedIn, ← hrows, map_map, map_map]
  refine map_congr_left fun s hmem => ?_
  show r.stampOf s = s.row.stamp
  rw [RunReader.stampOf, commitTsOf_writeRun hr (mem_of_mem_filter hmem), ho]
  rfl

end WriteRun

namespace Table

variable {t t' : Table F}

/-- What a spill does: nothing, or it turns the mutable run into the newest sorted run. -/
theorem spillMutableRun_cases {epoch : Nat} (h : t.spillMutableRun epoch = some t') :
    t' = t ∨ ∃ he, t' = { t with
      mutableRun := .empty
      runRefs := t.runRefs ++ [⟨t.nextRunId,
        writeRun t.schema epoch t.mutableRun.drainSorted t.mutableRun.drainSorted_sorted he⟩]
      nextRunId := t.nextRunId + 1 } := by
  unfold spillMutableRun at h
  split at h
  · exact Or.inl (some.inj h).symm
  · split at h
    next he => exact Or.inr ⟨he, (some.inj h).symm⟩
    next => cases h

/-- Without ties, versions in commit order are strictly so. -/
theorem SpillsNoTie.before (hn : t.SpillsNoTie) (h : t.Ordered) (rowId : Nat) :
    (versionsOf rowId t.mutableRun.rows).Pairwise fun a b => Before a.stamp b.stamp := by
  have hne := hn.1.filter fun row => decide (row.rowId = rowId)
  refine Pairwise.imp_of_mem ?_ ((h.mutableRun rowId).and hne)
  intro a b ha hb hab
  have hid := (mem_versionsOf.mp ha).2.trans (mem_versionsOf.mp hb).2.symm
  exact hab.1.resolve_left (hab.2 hid)

theorem SpillsNoTie.before_memtable (hn : t.SpillsNoTie) (h : t.Ordered) {rowId : Nat} {a b : Row F}
    (ha : a ∈ versionsOf rowId t.mutableRun.rows) (hb : b ∈ versionsOf rowId t.memtable.rows) :
    Before a.stamp b.stamp := by
  have hab := (pairwise_append.mp (h.overlay rowId)).2.2 a ha b hb
  obtain ⟨ha, hida⟩ := mem_versionsOf.mp ha
  obtain ⟨hb, hidb⟩ := mem_versionsOf.mp hb
  exact hab.resolve_left (hn.2 a ha b hb (hida.trans hidb.symm))

theorem pairwise_of_stamps {l l' : List (Row F)} (hl : l.map Row.stamp = l'.map Row.stamp)
    (h : l'.Pairwise fun a b => Before a.stamp b.stamp) :
    l.Pairwise fun a b => Before a.stamp b.stamp := by
  rw [← pairwise_map (f := Row.stamp)] at h ⊢
  rw [hl]
  exact h

theorem Ordered.spill (h : t.Ordered) (hn : t.SpillsNoTie) {epoch : Nat}
    (hstep : t.spillMutableRun epoch = some t') : t'.Ordered := by
  rcases spillMutableRun_cases hstep with rfl | ⟨he, ht'⟩
  · exact h
  let spilled : RunReader F := t.openRun ⟨t.nextRunId,
    writeRun t.schema epoch t.mutableRun.drainSorted t.mutableRun.drainSorted_sorted he⟩
  have hstored : ∀ rowId, t'.storedVersions rowId =
      t.storedVersions rowId ++ spilled.storedIn rowId := by
    intro rowId
    rw [ht']
    show (t.runRefs ++ [_]).flatMap _ = _
    rw [flatMap_append, flatMap_singleton]
    rfl
  have hoverlay : ∀ rowId, t'.overlayVersions rowId = versionsOf rowId t.memtable.rows :=
    fun rowId => by rw [ht']; rfl
  have hspilled : ∀ rowId, (spilled.storedIn rowId).map Row.stamp =
      (versionsOf rowId t.mutableRun.rows).map Row.stamp := by
    intro rowId
    have hrun : spilled.run = writeRun t.schema epoch t.mutableRun.drainSorted
      t.mutableRun.drainSorted_sorted he := openRun_run t _
    rw [← Tier.versionsOf_drainSorted (h.mutableRun rowId)]
    exact stamps_storedIn_writeRun hrun (openRun_override t rfl) rowId
  have hmem : ∀ rowId, ∀ b ∈ spilled.storedIn rowId,
      ∃ v ∈ versionsOf rowId t.mutableRun.rows, v.stamp = b.stamp := by
    intro rowId b hb
    have := mem_map_of_mem (f := Row.stamp) hb
    rw [hspilled] at this
    exact mem_map.mp this
  refine ⟨fun rowId => ?_, fun rowId => ?_, fun rowId a ha b hb => ?_⟩
  · rw [hstored]
    refine pairwise_append.mpr ⟨h.stored rowId,
      pairwise_of_stamps (hspilled rowId) (hn.before h rowId), fun a ha b hb => ?_⟩
    obtain ⟨v, hv, hvb⟩ := hmem rowId b hb
    rw [← hvb]
    exact h.cross rowId a ha v (mem_append_left _ hv)
  · rw [hoverlay]
    exact h.memtable rowId
  · rw [hstored, mem_append] at ha
    rw [hoverlay] at hb
    rcases ha with ha | ha
    · exact h.cross rowId a ha b (mem_append_right _ hb)
    · obtain ⟨v, hv, hva⟩ := hmem rowId a ha
      rw [← hva]
      exact hn.before_memtable h hv hb

theorem Consultable.spill (hc : t.Consultable) (hty : ∀ c ∈ t.schema, c.ty.streamable = true)
    {epoch : Nat} (hstep : t.spillMutableRun epoch = some t') : t'.Consultable := by
  rcases spillMutableRun_cases hstep with rfl | ⟨he, rfl⟩
  · exact hc
  refine ⟨fun rr hrr => ?_, ?_, ?_, fun hcomplete => ?_⟩
  · rcases mem_append.mp hrr with hrr | hrr
    · exact hc.plain rr hrr
    · rw [mem_singleton.mp hrr]
      refine ⟨openRun_override _ rfl, fun c hcm => hty c ?_⟩
      rwa [openRun_schema] at hcm
  · rw [map_append, pairwise_append]
    refine ⟨hc.runIds, pairwise_singleton _ _, fun i hi j hj => ?_⟩
    obtain ⟨rr, hrr, rfl⟩ := mem_map.mp hi
    rw [mem_singleton.mp hj]
    exact hc.runIds_lt rr hrr
  · exact forall_mem_append.mpr ⟨fun rr hrr => Nat.lt_succ_of_lt (hc.runIds_lt rr hrr),
      forall_mem_singleton.mpr (Nat.lt_succ_self _)⟩
  · -- a directory published before the spill covers the same initial part of the runs
    obtain ⟨n, hdir, hfp⟩ := hc.directory hcomplete
    refine ⟨min n t.runRefs.length, ?_, ?_⟩
    all_goals
      rw [take_append_of_le_length (Nat.min_le_right _ _), take_eq_take_min.symm]
    · exact hdir
    · exact hfp

/-! ## Every run -/

theorem Consultable.publish (hc : t.Consultable) : t.publishRunLookupDirectory.Consultable := by
  refine ⟨hc.plain, hc.runIds, hc.runIds_lt, fun _ => ⟨t.runRefs.length, ?_⟩⟩
  show some (t.rebuildFromRuns t.runRefs) = some (t.rebuildFromRuns (t.runRefs.take _)) ∧
    t.runRefs.map RunRef.runId = (t.runRefs.take _).map RunRef.runId
  rw [take_length]
  exact ⟨rfl, rfl⟩

theorem sound_step {l : Label F} (h : t.Ordered ∧ t.Consultable) (hok : t.InOrder l)
    (hstep : t.step l = some t') : t'.Ordered ∧ t'.Consultable := by
  obtain ⟨ho, hc⟩ := h
  cases l with
  | put | delete =>
    obtain rfl := some.inj hstep
    exact ⟨ho.put hok, ⟨hc.plain, hc.runIds, hc.runIds_lt, hc.directory⟩⟩
  | sealGenerations =>
    obtain rfl := some.inj hstep
    exact ⟨ho.congr (fun _ => rfl) (overlayVersions_sealGenerations ho),
      ⟨hc.plain, hc.runIds, hc.runIds_lt, hc.directory⟩⟩
  | flushMemtable =>
    obtain rfl := some.inj hstep
    have hruns : t.flushMemtable.Consultable := by
      unfold flushMemtable
      split <;> exact ⟨hc.plain, hc.runIds, hc.runIds_lt, hc.directory⟩
    refine ⟨ho.congr (fun rowId => ?_) (overlayVersions_flushMemtable ho), hruns⟩
    unfold flushMemtable
    split <;> rfl
  | spillMutableRun epoch => exact ⟨ho.spill hok.1 hstep, hc.spill hok.2 hstep⟩
  | publishDirectory =>
    obtain rfl := some.inj hstep
    exact ⟨ho.congr (fun _ => rfl) fun _ => rfl, hc.publish⟩
  | loseDirectory =>
    obtain rfl := some.inj hstep
    exact ⟨ho.congr (fun _ => rfl) fun _ => rfl,
      ⟨hc.plain, hc.runIds, hc.runIds_lt, fun h => absurd h Bool.false_ne_true⟩⟩

theorem ordered_new (schema : List ColumnDef) (ttl : Option TtlPolicy) :
    (new schema ttl : Table F).Ordered :=
  ⟨fun _ => Pairwise.nil, fun _ => Pairwise.nil,
    fun _ _ ha => absurd ha not_mem_nil⟩

theorem consultable_new (schema : List ColumnDef) (ttl : Option TtlPolicy) :
    (new schema ttl : Table F).Consultable :=
  ⟨fun _ h => absurd h not_mem_nil, Pairwise.nil, fun _ h => absurd h not_mem_nil,
    fun h => absurd h Bool.false_ne_true⟩

/-- In every run in order, the three reads agree at every snapshot at which the mutable run has no
gap. -/
theorem readsAgree_of_inOrder (schema : List ColumnDef) (ttl : Option TtlPolicy) (t : Table F)
    (h : Reachable step InOrder (new schema ttl) t) (snap : Snapshot)
    (hgap : t.mutableRun.Gapless snap) (nowNanos : Int) (rowId : Nat) :
    t.ReadsAgree snap nowNanos rowId := by
  obtain ⟨ho, hc⟩ := h.invariant ⟨ordered_new schema ttl, consultable_new schema ttl⟩
    fun _ _ _ => sound_step
  have hget := get_eq ho hc rowId snap nowNanos
  exact
    { scan := by rw [hget, versionsOf_visibleRowsAtTime ho]
      stream := by rw [hget, versionsOf_visited ho hc hgap] }

/-- A row put twice and a row put and deleted, over all three tiers. -/
theorem readsAgree_over_three_tiers :
    ∃ t : Table Nat, Reachable step InOrder (new [⟨0, .int64⟩] none) t ∧
      t.runRefs.length = 1 ∧ t.ReadsAgree (Snapshot.atEpoch 3) 0 1 := by
  obtain ⟨t, ht, hruns, hgap⟩ := exists_reachable_of_execute step InOrder
    (new [⟨0, .int64⟩] none : Table Nat)
    (fun t => t.runRefs.length = 1 ∧ t.mutableRun.Gapless (Snapshot.atEpoch 3))
    [.put 1 ⟨1, none⟩ [(0, .int64 10)], .put 2 ⟨1, none⟩ [(0, .int64 20)], .flushMemtable,
      .spillMutableRun 1, .publishDirectory, .put 1 ⟨2, none⟩ [(0, .int64 11)], .flushMemtable,
      .delete 2 ⟨3, none⟩] (by decide)
  exact ⟨t, ht, hruns, readsAgree_of_inOrder _ _ t ht _ hgap 0 1⟩

/-- Row 2 is put at epoch 1 and row 1 at epoch 2, and both are flushed to the mutable run. At epoch
1 the point read finds row 2, but the cursor of the mutable run meets row 1 first, sees no version
of it and reports the end. -/
theorem stream_stops_at_gap :
    ∃ t : Table Nat, Reachable step anyStep (new [] none) t ∧
      ¬ t.ReadsAgree (Snapshot.atEpoch 1) 0 2 := by
  obtain ⟨t, ht, hstream, hget⟩ := exists_reachable_of_execute step anyStep
    (new [] none : Table Nat)
    (fun t => versionsOf 2 (t.forEachVisibleRowControlled (Snapshot.atEpoch 1) 0).visited = [] ∧
      (t.get 2 (Snapshot.atEpoch 1) 0).toList ≠ [])
    [.put 2 ⟨1, none⟩ [], .put 1 ⟨2, none⟩ [], .flushMemtable] (by decide)
  refine ⟨t, ht, fun h => hget ?_⟩
  rw [← h.stream, hstream]

end Table

end MongrelDB.Storage
