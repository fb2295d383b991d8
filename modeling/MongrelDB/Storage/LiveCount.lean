import Mathlib.Data.Finset.Card
import Mathlib.Tactic.MkIffOfInductiveProp
import MongrelDB.Storage.BitmapWrites

/-!
# Is the counter of live rows exact?

A table without a TTL answers `count` from a counter. It goes up by one with every row
that is put, and down with a tombstone if the newest version of the row was live.
-/

namespace MongrelDB.Storage

open Epoch Lib List

variable {F : Type}

namespace Table

/-! ## Live rows -/

/-- The last version is no tombstone. -/
def live (t : Table F) (rowId : Nat) : Bool := (t.versions rowId).getLast?.any fun v => !v.deleted

/-- Every version is visible. -/
def FullyObserved (t : Table F) (snap : Snapshot) : Prop :=
  (∀ row ∈ t.mutableRun.rows ++ t.memtable.rows, observed snap row = true) ∧
    ∀ rr ∈ t.runRefs, ∀ slot ∈ rr.run.slots,
      snap.observesVersion ((t.openRun rr).stampOf slot) = true
  deriving Decidable

variable {t t' : Table F} {snap : Snapshot} {rowId : Nat}

theorem FullyObserved.versions (h : t.FullyObserved snap) (rowId : Nat) :
    ∀ v ∈ t.versions rowId, observed snap v = true := by
  intro v hv
  rcases mem_append.mp hv with hv | hv
  · obtain ⟨rr, hrr, hv⟩ := mem_flatMap.mp hv
    obtain ⟨slot, hslot, rfl⟩ := mem_map.mp hv
    rw [openRun_run] at hslot
    exact h.2 rr hrr slot (mem_of_mem_filter hslot)
  · rw [overlayVersions, ← versionsOf_append] at hv
    exact h.1 v (mem_versionsOf.mp hv).1

theorem FullyObserved.newest_eq (h : t.FullyObserved snap) (rowId : Nat) :
    newest snap (t.versions rowId) = (t.versions rowId).getLast? := by
  rw [newest, filter_eq_self.mpr (h.versions rowId)]

/-- A scan that sees everything returns the live rows. -/
theorem exists_visible_iff (h : t.Ordered) (httl : t.ttl = none) (hobs : t.FullyObserved snap)
    (nowNanos : Int) :
    rowId ∈ (t.visibleRowsAtTime snap nowNanos).map Row.rowId ↔ t.live rowId = true := by
  have hisLive : t.isLive nowNanos = fun row => !row.deleted := by
    funext row
    rw [isLive, httl]
    simp [rowExpiredAt]
  have hmem : rowId ∈ (t.visibleRowsAtTime snap nowNanos).map Row.rowId ↔
      versionsOf rowId (t.visibleRowsAtTime snap nowNanos) ≠ [] := by
    rw [mem_map]
    constructor
    · rintro ⟨row, hrow⟩
      exact ne_nil_of_mem (mem_versionsOf.mpr hrow)
    · intro hne
      obtain ⟨row, hrow⟩ := exists_mem_of_ne_nil _ hne
      exact ⟨row, mem_versionsOf.mp hrow⟩
  rw [hmem, versionsOf_visibleRowsAtTime h rowId snap nowNanos, hobs.newest_eq, hisLive, live]
  rcases (t.versions rowId).getLast? with _ | v
  · simp
  · cases hdel : v.deleted <;> simp [hdel]

theorem live_put (h : t.Ordered) {row : Row F} (hw : t.WriteInOrder row.rowId row.stamp)
    (rowId : Nat) :
    (t.put row).live rowId = if row.rowId = rowId then !row.deleted else t.live rowId := by
  rw [live, versions_put h hw, versionsOf_singleton]
  split
  · rw [getLast?_concat, Option.any_some]
  · rw [append_nil]
    rfl

theorem live_of_forall₂ (h : Forall₂ Row.ReadsAs (t.versions rowId) (t'.versions rowId)) :
    t'.live rowId = t.live rowId := by
  have hlast := getLast?_forall₂ h
  rw [live, live]
  generalize (t.versions rowId).getLast? = v at hlast ⊢
  generalize (t'.versions rowId).getLast? = v' at hlast ⊢
  cases hlast with
  | none => rfl
  | some hrow => rw [Option.any_some, Option.any_some, hrow.deleted]

/-- The memtable knows whether the row is live, or the row is. -/
def Countable (t : Table F) (rowId : Nat) (stamp : Stamp) : Prop :=
  t.WriteInOrder rowId stamp ∧ (t.live rowId = true ∨ versionsOf rowId t.memtable.rows ≠ [])
  deriving Decidable

theorem live_of_memtable (h : versionsOf rowId t.memtable.rows ≠ []) :
    t.live rowId = (versionsOf rowId t.memtable.rows).getLast?.any fun v => !v.deleted := by
  rw [live, versions, overlayVersions, ← append_assoc, getLast?_append_of_ne_nil _ h]

end Table

namespace WritePath

/-! ## Tombstones -/

namespace Writer

variable {c : Schema F} {s s' : Writer F} {rowId : Nat} {stamp : Stamp} {row : Row F}

theorem prevWasLive_eq (h : s.table.Ordered) (hc : s.table.Countable rowId stamp) :
    s.prevWasLive rowId stamp.epoch = s.table.live rowId := by
  have hobs : ∀ v ∈ versionsOf rowId s.table.memtable.rows,
      observed (Snapshot.atEpoch stamp.epoch) v = true := by
    intro v hv
    have hle := (hc.1.2 v (mem_append_right _ hv)).epoch_le
    rw [observed, Snapshot.observesVersion_of_epoch (.inl rfl)]
    exact decide_eq_true hle
  rw [prevWasLive, Memtable.getVersionAt_eq (h.memtable rowId), newest,
    filter_eq_self.mpr hobs]
  rcases hvs : versionsOf rowId s.table.memtable.rows with _ | ⟨v, vs⟩
  · rw [(hc.2.resolve_right fun hne => hne hvs)]
    rfl
  · have hne : versionsOf rowId s.table.memtable.rows ≠ [] := by
      rw [hvs]
      exact cons_ne_nil v vs
    rw [Table.live_of_memtable hne, ← hvs, getLast?_eq_some_getLast hne]
    rfl

/-- The counter is the number of live rows, those of `rest` not counted. -/
def Tallied (s : Writer F) (rest : List Nat) : Prop :=
  ∃ ids : Finset Nat, (∀ id, id ∈ ids ↔ s.table.live id = true ∧ id ∉ rest) ∧
    ids.card = s.liveCount

/-- What the invariant needs of the table. -/
structure Sound (s : Writer F) : Prop where
  ordered : s.table.Ordered
  ttl : s.table.ttl = none

theorem Sound.tombstoneRow (h : s.Sound) (hw : s.table.WriteInOrder rowId stamp) :
    (s.tombstoneRow rowId stamp true).Sound where
  ordered := show (s.table.put (Table.tombstone rowId stamp)).Ordered from h.ordered.put hw
  ttl := h.ttl

theorem live_tombstoneRow (h : s.Sound) (hw : s.table.WriteInOrder rowId stamp) (id : Nat) :
    (s.tombstoneRow rowId stamp true).table.live id =
      if rowId = id then false else s.table.live id :=
  show (s.table.put (Table.tombstone rowId stamp)).live id = _ from Table.live_put h.ordered hw id

theorem Tallied.tombstoneRow {rest : List Nat} (ht : s.Tallied rest) (h : s.Sound)
    (hc : s.table.Countable rowId stamp) (hrest : rowId ∉ rest) :
    (s.tombstoneRow rowId stamp true).Tallied rest := by
  obtain ⟨ids, hids, hcard⟩ := ht
  refine ⟨ids.erase rowId, fun id => ?_, ?_⟩
  · rw [Finset.mem_erase, hids, live_tombstoneRow h hc.1]
    by_cases hid : rowId = id
    · simp [hid]
    · simp [hid, Ne.symm hid]
  · show _ = if true && s.prevWasLive rowId stamp.epoch then s.liveCount - 1 else s.liveCount
    rw [Bool.true_and, prevWasLive_eq h.ordered hc, ← hcard]
    split
    next hlive => exact Finset.card_erase_of_mem ((hids rowId).mpr ⟨hlive, hrest⟩)
    next hdead => rw [Finset.erase_eq_of_notMem fun hmem => hdead ((hids rowId).mp hmem).1]

/-! ## Puts -/

/-- The row is new under its id, and whoever holds its key can be counted. -/
@[mk_iff]
structure PutOk (c : Schema F) (probe : Bool) (s : Writer F) (row : Row F) : Prop where
  written : row.deleted = false
  inOrder : s.table.WriteInOrder row.rowId row.stamp
  unused : s.table.live row.rowId = false
  holder : ∀ old ∈ s.holder c probe row, s.table.Countable old row.stamp

theorem evict_spec {probe : Bool} (h : s.Sound) (ht : s.Tallied []) (hok : PutOk c probe s row) :
    (s.evict c probe row).Sound ∧ (s.evict c probe row).Tallied [] ∧
      (s.evict c probe row).table.WriteInOrder row.rowId row.stamp ∧
      (s.evict c probe row).table.live row.rowId = false := by
  rw [evict]
  split
  next old hold =>
    have hc := hok.holder old hold
    have hne := ne_of_mem_holder hold
    refine ⟨h.tombstoneRow hc.1, ht.tombstoneRow h hc not_mem_nil, ?_, ?_⟩
    · exact writeInOrder_tombstoneRow h.ordered hc.1 hne hok.inOrder
    · rw [live_tombstoneRow h hc.1, if_neg hne]
      exact hok.unused
  next => exact ⟨h, ht, hok.inOrder, hok.unused⟩

theorem applyPutRow_tallied {snap : Snapshot} {nowNanos : Int} {probe : Bool} (h : s.Sound)
    (ht : s.Tallied []) (hok : PutOk c probe s row)
    (hput : s.applyPutRow c snap nowNanos probe row = some s') : s'.Sound ∧ s'.Tallied [] := by
  obtain ⟨htable, hcount⟩ := applyPutRow_frame hput
  obtain ⟨hsound, ⟨ids, hids, hcard⟩, hw, hunused⟩ := evict_spec h ht hok
  have hlive : ∀ id, s'.table.live id =
      if row.rowId = id then true else (s.evict c probe row).table.live id := by
    intro id
    rw [htable, Table.live_put hsound.ordered hw, hok.written]
    rfl
  refine ⟨⟨by rw [htable]; exact hsound.ordered.put hw, by rw [htable]; exact hsound.ttl⟩,
    insert row.rowId ids, fun id => ?_, ?_⟩
  · rw [Finset.mem_insert, hids, hlive]
    by_cases hid : row.rowId = id
    · simp [hid]
    · simp [hid, Ne.symm hid]
  · have hnew : row.rowId ∉ ids := fun hmem =>
      Bool.false_ne_true (hunused.symm.trans ((hids row.rowId).mp hmem).1)
    rw [Finset.card_insert_of_notMem hnew, hcard, hcount]

/-! ## Spilled batches -/

/-- The batch has one row per key and new rows only, and whoever holds one of its keys can be
counted when it goes. -/
@[mk_iff]
structure SpilledOk (c : Schema F) (s : Writer F) (stamp : Stamp) (rows : List (Row F)) : Prop where
  distinct : (partitionPkWinners c rows).1 = []
  inOrder : LinkInOrder s.table stamp.epoch rows
  unused : ∀ row ∈ rows, row.deleted = false ∧ s.table.live row.rowId = false
  holders : ∀ t ∈ linkRun s.table stamp.epoch rows,
    EachStep (fun s e => some (s.tombstoneHolder stamp e))
      (fun s e => ∀ old ∈ s.hot.lookup e.1, old ≠ e.2 → s.table.Countable old stamp)
      (s.linked t rows) (partitionPkWinners c rows).2

/-- While the holders go, the rows of the batch are live and not counted yet. -/
structure Linked (s : Writer F) (epoch : Nat) (batch : List Nat) : Prop where
  sound : s.Sound
  tallied : s.Tallied batch
  live : ∀ id ∈ batch, s.table.live id = true
  stored : ∀ id ∈ batch, ∃ v ∈ s.table.storedVersions id, v.stamp.epoch = epoch

theorem linked_spec {rows : List (Row F)} {t : Table F} (h : s.Sound) (ht : s.Tallied [])
    (hok : SpilledOk c s stamp rows) (hlink : linkRun s.table stamp.epoch rows = some t) :
    (s.linked t rows).Linked stamp.epoch (rows.map Row.rowId) := by
  obtain ⟨-, httl, hversions⟩ := linkRun_versions hlink
  obtain ⟨hordered, hall⟩ := linkRun_spec h.ordered hok.inOrder hlink
  have hother : ∀ id, id ∉ rows.map Row.rowId → t.live id = s.table.live id := by
    intro id hid
    have hnil : versionsOf id rows = [] := by
      rw [eq_nil_iff_forall_not_mem]
      intro row hrow
      obtain ⟨hmem, rfl⟩ := mem_versionsOf.mp hrow
      exact hid (mem_map_of_mem hmem)
    rw [Table.live, hall, hnil, map_nil, append_nil]
    rfl
  have hbatch : ∀ id ∈ rows.map Row.rowId, ∃ row ∈ versionsOf id rows,
      (versionsOf id rows).getLast? = some row := by
    intro id hid
    obtain ⟨row, hrow, rfl⟩ := mem_map.mp hid
    have hmem : row ∈ versionsOf row.rowId rows := mem_versionsOf.mpr ⟨hrow, rfl⟩
    have hne := ne_nil_of_mem hmem
    exact ⟨_, getLast_mem hne, getLast?_eq_some_getLast hne⟩
  refine ⟨⟨hordered, httl.trans h.ttl⟩, ?_, fun id hid => ?_, fun id hid => ?_⟩
  · obtain ⟨ids, hids, hcard⟩ := ht
    refine ⟨ids, fun id => (hids id).trans ?_, hcard⟩
    by_cases hid : id ∈ rows.map Row.rowId
    · obtain ⟨row, hrow, rfl⟩ := mem_map.mp hid
      simp [(hok.unused row hrow).2, hid]
    · rw [show (s.linked t rows).table.live id = s.table.live id from hother id hid]
      simp [hid]
  · obtain ⟨row, hrow, hlast⟩ := hbatch id hid
    show t.live id = true
    rw [Table.live, hall, getLast?_append, getLast?_map, hlast]
    show (!row.deleted) = true
    rw [(hok.unused row (mem_versionsOf.mp hrow).1).1]
    rfl
  · obtain ⟨row, hrow, -⟩ := hbatch id hid
    refine ⟨published s.table.schema stamp.epoch row, ?_, rfl⟩
    show _ ∈ t.storedVersions id
    rw [(hversions id).2]
    exact mem_append_right _ (mem_map_of_mem hrow)

theorem Linked.tombstoneHolder {batch : List Nat} {e : Key × Nat}
    (h : s.Linked stamp.epoch batch)
    (hok : ∀ old ∈ s.hot.lookup e.1, old ≠ e.2 → s.table.Countable old stamp) :
    (s.tombstoneHolder stamp e).Linked stamp.epoch batch := by
  rw [Writer.tombstoneHolder]
  split
  next old hold =>
    split
    next hne =>
      have hc := hok old hold hne
      -- the rows of the batch have a version of this very epoch already
      have hout : old ∉ batch := by
        intro hmem
        obtain ⟨v, hv, hepoch⟩ := h.stored old hmem
        have hlt := (hc.1.1 v hv).1
        omega
      refine ⟨h.sound.tombstoneRow hc.1, h.tallied.tombstoneRow h.sound hc hout,
        fun id hid => ?_, h.stored⟩
      rw [live_tombstoneRow h.sound hc.1, if_neg fun heq : old = id => hout (heq ▸ hid)]
      exact h.live id hid
    next => exact h
  next => exact h

theorem applyRunMetadata_tallied {rows : List (Row F)} (h : s.Sound) (ht : s.Tallied [])
    (hok : SpilledOk c s stamp rows) (hstep : s.applyRunMetadata c stamp rows = some s') :
    s'.Sound ∧ s'.Tallied [] := by
  obtain ⟨t, s₁, s₂, s₃, hlink, hs₁, htable, hcount, -, hindex, rfl⟩ :=
    applyRunMetadata_cases hok.distinct hstep
  obtain ⟨htable', hcount'⟩ := indexRows_frame hindex
  have hfinal : s₁.Linked stamp.epoch (rows.map Row.rowId) := by
    rw [hs₁]
    refine EachStep.invariant (I := fun s => s.Linked stamp.epoch (rows.map Row.rowId))
      (fun s e s' hI hok hstep => ?_) (hok.holders t hlink) (tombstoneHolders_eq _ _ _)
      (linked_spec h ht hok hlink)
    obtain rfl := Option.some.inj hstep
    exact hI.tombstoneHolder hok
  have heq : s₃.table = s₁.table := htable'.trans htable
  obtain ⟨ids, hids, hcard⟩ := hfinal.tallied
  have hnodup : (rows.map Row.rowId).Nodup :=
    pairwise_map.mpr ((linkRun_versions hlink).1.imp Nat.ne_of_lt)
  refine ⟨⟨heq ▸ hfinal.sound.ordered, heq ▸ hfinal.sound.ttl⟩,
    ids ∪ (rows.map Row.rowId).toFinset, fun id => ?_, ?_⟩
  · show _ ↔ s₃.table.live id = true ∧ _
    rw [heq, Finset.mem_union, hids, mem_toFinset]
    by_cases hid : id ∈ rows.map Row.rowId
    · simp only [hid, not_true, and_false, false_or, hfinal.live id hid, not_mem_nil,
        not_false_eq_true, and_self]
    · simp only [hid, not_false_eq_true, and_true, or_false, not_mem_nil]
  · have hdisjoint : Disjoint ids (rows.map Row.rowId).toFinset := by
      rw [Finset.disjoint_left]
      intro id hid hmem
      exact ((hids id).mp hid).2 (mem_toFinset.mp hmem)
    show _ = s₃.liveCount + rows.length
    rw [Finset.card_union_of_disjoint hdisjoint, hcard, toFinset_card_of_nodup hnodup,
      length_map, hcount', hcount]

end Writer

/-! ## Every run -/

open Writer

/-- The steps after which the counter is right. -/
def Careful (c : Schema F) (s : Writer F) : Label F → Prop
  | .put snap nowNanos checkExistingPk rows =>
    EachStep (fun s' row => s'.applyPutRow c snap nowNanos (probes c checkExistingPk s rows) row)
      (PutOk c (probes c checkExistingPk s rows)) s rows
  | .delete _ _ rowId stamp => s.table.Countable rowId stamp
  | .spilled stamp rows => SpilledOk c s stamp rows
  | .upkeep u => u.InOrder s.table
  | .truncate | .finishCommit => True

theorem tallied_step {c : Schema F} {s s' : Writer F} {l : Label F}
    (h : s.Sound ∧ s.Tallied []) (hok : Careful c s l) (hstep : step c s l = some s') :
    s'.Sound ∧ s'.Tallied [] := by
  obtain ⟨hs, ht⟩ := h
  cases l with
  | put snap nowNanos checkExistingPk rows =>
    exact EachStep.invariant (fun s row s' hI hok hput => applyPutRow_tallied hI.1 hI.2 hok hput)
      hok hstep ⟨hs, ht⟩
  | delete snap nowNanos rowId stamp =>
    obtain rfl := Option.some.inj hstep
    have hc : s.table.Countable rowId stamp := hok
    exact ⟨⟨(hs.tombstoneRow hc.1).ordered, hs.ttl⟩, ht.tombstoneRow hs hc not_mem_nil⟩
  | truncate =>
    obtain rfl := Option.some.inj hstep
    refine ⟨⟨Table.ordered_new s.table.schema none |>.congr (fun _ => rfl) fun _ => rfl, hs.ttl⟩,
      ∅, fun id => ?_, rfl⟩
    simp only [Finset.notMem_empty, false_iff, not_and]
    exact fun hlive => nomatch hlive
  | spilled stamp rows => exact applyRunMetadata_tallied hs ht hok hstep
  | finishCommit =>
    obtain rfl := Option.some.inj hstep
    exact ⟨⟨hs.ordered, hs.ttl⟩, ht⟩
  | upkeep u =>
    obtain ⟨t, ht', rfl⟩ := Option.map_eq_some_iff.mp hstep
    obtain ⟨hordered, httl, hversions⟩ := upkeep_spec hs.ordered hok ht'
    obtain ⟨ids, hids, hcard⟩ := ht
    refine ⟨⟨hordered, httl.trans hs.ttl⟩, ids, fun id => ?_, hcard⟩
    rw [hids, show t.live id = s.table.live id from Table.live_of_forall₂ (hversions id)]

instance (c : Schema F) (probe : Bool) (s : Writer F) (row : Row F) :
    Decidable (PutOk c probe s row) :=
  decidable_of_iff _ (putOk_iff ..).symm

instance (c : Schema F) (s : Writer F) (stamp : Stamp) (rows : List (Row F)) :
    Decidable (SpilledOk c s stamp rows) :=
  decidable_of_iff _ (spilledOk_iff ..).symm

instance (c : Schema F) (s : Writer F) (l : Label F) : Decidable (Careful c s l) :=
  match l with
  | .put .. | .delete .. | .spilled .. | .upkeep _ | .truncate | .finishCommit => by
    dsimp only [Careful]
    infer_instance

/-- Where every version is visible, the counter is the number of rows of a scan. -/
theorem count_exact (c : Schema F) (schema : List ColumnDef) (s : Writer F)
    (h : Reachable (step c) (Careful c) (Writer.new schema none) s) (snap : Snapshot)
    (nowNanos : Int) (hobs : s.table.FullyObserved snap) :
    s.count snap nowNanos = (s.table.visibleRowsAtTime snap nowNanos).length := by
  have hinv : s.Sound ∧ s.Tallied [] := by
    refine Reachable.invariant (I := fun s => s.Sound ∧ s.Tallied [])
      ⟨⟨Table.ordered_new schema none, rfl⟩, ∅, fun id => ?_, rfl⟩
      (fun _ _ _ hI hok hstep => tallied_step hI hok hstep) h
    simp only [Finset.notMem_empty, false_iff, not_and]
    exact fun hlive => nomatch hlive
  obtain ⟨hs, ids, hids, hcard⟩ := hinv
  rw [Writer.count]
  split
  · have hsorted := Table.visibleRowsAtTime_sorted s.table snap nowNanos
    have hnodup : ((s.table.visibleRowsAtTime snap nowNanos).map Row.rowId).Nodup :=
      pairwise_map.mpr (hsorted.imp Nat.ne_of_lt)
    have hall : ids = ((s.table.visibleRowsAtTime snap nowNanos).map Row.rowId).toFinset := by
      ext id
      rw [hids, mem_toFinset, Table.exists_visible_iff hs.ordered hs.ttl hobs]
      simp
    rw [← hcard, hall, toFinset_card_of_nodup hnodup, length_map]
  · rfl

/-- A key is put twice, everything goes to a run, a row of it is deleted and a batch is spilled. -/
theorem count_after_replace_and_spill :
    ∃ s : Writer Nat, (Reachable (step (sampleSchema false)) (Careful (sampleSchema false))
        (Writer.new sampleColumns none) s ∧ s.table.FullyObserved (.atEpoch 5) ∧
          s.table.runRefs.length = 2 ∧ s.liveCount = 3) ∧
      s.count (.atEpoch 5) 0 = (s.table.visibleRowsAtTime (.atEpoch 5) 0).length := by
  obtain ⟨s, hs, hobs, hrest⟩ := exists_reachable_of_execute (step (sampleSchema false))
    (Careful (sampleSchema false)) (Writer.new sampleColumns none)
    (fun s => s.table.FullyObserved (.atEpoch 5) ∧ s.table.runRefs.length = 2 ∧ s.liveCount = 3)
    [putLabel 0 1 5 1, .finishCommit, putLabel 1 1 6 2, putLabel 2 2 6 3, .finishCommit,
      .upkeep .flushMemtable, .upkeep (.spillMutableRun 3), .delete (.atEpoch 3) 0 2 ⟨4, none⟩,
      .spilled ⟨5, none⟩ [keyedRow 3 3 5 0, keyedRow 4 4 5 0], .finishCommit] (by decide +kernel)
  exact ⟨s, ⟨hs, hobs, hrest⟩, count_exact _ _ s hs _ _ hobs⟩

/-- One row is put, a row id that was never used is deleted, and `count` is 0. -/
theorem absent_delete_miscounts :
    ∃ s : Writer Nat,
      Reachable (step (sampleSchema false)) anyStep (Writer.new sampleColumns none) s ∧
      s.pendingPutCols = [] ∧ s.pendingDeleteRids = [] ∧ s.table.FullyObserved (.atEpoch 2) ∧
      s.count (.atEpoch 2) 0 ≠ (s.table.visibleRowsAtTime (.atEpoch 2) 0).length :=
  exists_reachable_of_execute (step (sampleSchema false)) anyStep (Writer.new sampleColumns none)
    (fun s => s.pendingPutCols = [] ∧ s.pendingDeleteRids = [] ∧
      s.table.FullyObserved (.atEpoch 2) ∧
      s.count (.atEpoch 2) 0 ≠ (s.table.visibleRowsAtTime (.atEpoch 2) 0).length)
    [putLabel 0 1 5 1, .delete (.atEpoch 1) 0 9 ⟨2, none⟩, .finishCommit] (by decide +kernel)

end WritePath

end MongrelDB.Storage
