import MongrelDB.Storage.TableWrites
import MongrelDB.Storage.WritePath

/-!
# What the write path does to the versions of a row

Each write is taken apart once: who makes room for a put, which versions a write adds,
what the counter does, and that the indexes are beside all that.
-/

namespace MongrelDB.Storage.WritePath

open Epoch Lib List
open Option hiding filter_map mem_map map_map

variable {F : Type}

namespace Writer

variable {c : Schema F} {s s' : Writer F} {old row : Row F} {snap : Snapshot} {nowNanos : Int}
  {probe : Bool}

/-! ## Puts -/

/-- The holder of the key makes room: the state then, and the image to replace. -/
def makeRoom (c : Schema F) (snap : Snapshot) (nowNanos : Int) (probe : Bool) (s : Writer F)
    (row : Row F) : Writer F × Option (Row F) :=
  let s := { s with pendingPutCols := s.pendingPutCols ++ row.columns.map Prod.fst }
  match c.primaryKey, c.pkKey row with
  | none, _ => ({ s with hot := (beBytes 8 row.rowId, row.rowId) :: s.hot }, none)
  | some _, some key => if probe then s.displace snap nowNanos row key else (s, none)
  | some _, none => (s, none)

def index (c : Schema F) (s : Writer F) (image : Option (Row F)) (row : Row F) :
    Option (Writer F) :=
  match image with
  | some old => s.maintainIndexesOnPkReplace c old row
  | none => s.indexRow c row

theorem applyPutRow_eq :
    s.applyPutRow c snap nowNanos probe row =
      ((s.makeRoom c snap nowNanos probe row).1.index c
        (s.makeRoom c snap nowNanos probe row).2 row).map fun s =>
          { s with table := s.table.put row, liveCount := s.liveCount + 1 } := by
  rw [Option.map_eq_bind, applyPutRow, makeRoom]
  rcases c.primaryKey with _ | pk <;> rcases c.pkKey row with _ | key
  · rfl
  · rfl
  · rfl
  · cases probe
    · rfl
    · simp only [if_true]
      rcases displace _ snap nowNanos row key with ⟨s₁, _ | old⟩ <;> rfl

/-- Another row that holds the key. -/
def holder (c : Schema F) (probe : Bool) (s : Writer F) (row : Row F) : Option Nat :=
  if probe then
    (c.pkKey row).bind fun key => (s.hot.lookup key).filter fun old => old ≠ row.rowId
  else none

/-- The holder is tombstoned. -/
def evict (c : Schema F) (probe : Bool) (s : Writer F) (row : Row F) : Writer F :=
  match s.holder c probe row with
  | some old => s.tombstoneRow old row.stamp true
  | none => s

theorem pkKey_of_no_primaryKey (h : c.primaryKey = none) : c.pkKey row = none := by
  rw [Schema.pkKey, h]
  rfl

theorem ne_of_mem_holder {old : Nat} (h : old ∈ s.holder c probe row) : old ≠ row.rowId := by
  rw [holder] at h
  split at h
  · obtain ⟨key, -, hold⟩ := bind_eq_some_iff.mp h
    exact of_decide_eq_true (filter_eq_some_iff.mp hold).2
  · exact nomatch h

theorem writeInOrder_tombstoneRow {rowId id : Nat} {stamp stamp' : Stamp} {adjust : Bool}
    (h : s.table.Ordered) (hw : s.table.WriteInOrder rowId stamp) (hne : rowId ≠ id)
    (hid : s.table.WriteInOrder id stamp') :
    (s.tombstoneRow rowId stamp adjust).table.WriteInOrder id stamp' := by
  have hput : (s.table.put (Table.tombstone rowId stamp)).overlayVersions id = _ :=
    Table.overlayVersions_upsert h hw id
  rw [versionsOf_singleton, if_neg (show (Table.tombstone rowId stamp).rowId ≠ id from hne),
    append_nil] at hput
  refine ⟨hid.1, fun v hv => hid.2 v ?_⟩
  rwa [← hput]

theorem makeRoom_spec :
    (s.makeRoom c snap nowNanos probe row).1.table = (s.evict c probe row).table ∧
      (s.makeRoom c snap nowNanos probe row).1.liveCount = (s.evict c probe row).liveCount := by
  rw [makeRoom, evict, holder]
  rcases hpk : c.primaryKey with _ | pk
  · rw [pkKey_of_no_primaryKey hpk]
    cases probe <;> exact ⟨rfl, rfl⟩
  rcases hkey : c.pkKey row with _ | key
  · cases probe <;> exact ⟨rfl, rfl⟩
  cases probe
  · exact ⟨rfl, rfl⟩
  simp only [if_true, Option.bind_some, displace]
  rcases (s.hot.lookup key).filter (fun old => old ≠ row.rowId) with _ | old <;>
    rcases s.recentDeletePreimages.lookup key with _ | image <;> exact ⟨rfl, rfl⟩

theorem insertHot_frame {key : Option Key} : (s.insertHot row key).table = s.table ∧
    (s.insertHot row key).liveCount = s.liveCount := by
  cases key <;> exact ⟨rfl, rfl⟩

theorem indexRow_frame (h : s.indexRow c row = some s') :
    s'.table = s.table ∧ s'.liveCount = s.liveCount := by
  rw [indexRow] at h
  split at h
  · obtain rfl := some.inj h
    exact ⟨rfl, rfl⟩
  · obtain ⟨b, -, h⟩ := bind_eq_some_iff.mp h
    obtain rfl := some.inj h
    split
    · exact ⟨rfl, rfl⟩
    · exact insertHot_frame

theorem index_frame {image : Option (Row F)} (h : s.index c image row = some s') :
    s'.table = s.table ∧ s'.liveCount = s.liveCount := by
  cases image with
  | none => exact indexRow_frame h
  | some old =>
    rw [index, maintainIndexesOnPkReplace] at h
    split at h
    · obtain ⟨htable, hcount⟩ := indexRow_frame h
      exact ⟨htable, hcount⟩
    · obtain ⟨b, -, h⟩ := bind_eq_some_iff.mp h
      obtain rfl := some.inj h
      split
      · exact ⟨rfl, rfl⟩
      · exact insertHot_frame

theorem applyPutRow_frame (h : s.applyPutRow c snap nowNanos probe row = some s') :
    s'.table = (s.evict c probe row).table.put row ∧
      s'.liveCount = (s.evict c probe row).liveCount + 1 := by
  rw [applyPutRow_eq] at h
  obtain ⟨s₁, hs₁, rfl⟩ := map_eq_some_iff.mp h
  obtain ⟨htable, hcount⟩ := index_frame hs₁
  obtain ⟨htable', hcount'⟩ : (s.makeRoom c snap nowNanos probe row).1.table = _ ∧ _ :=
    makeRoom_spec
  exact ⟨by rw [← htable', ← htable], by rw [← hcount', ← hcount]⟩

end Writer

/-- Somebody may hold a key of the batch. -/
def probes (c : Schema F) (checkExistingPk : Bool) (s : Writer F) (rows : List (Row F)) : Bool :=
  match rows with
  | [_] => checkExistingPk
  | _ => checkExistingPk && !(s.hot.isEmpty &&
      c.primaryKey.any fun pk => Writer.rowsPkStrictlyIncreasing pk none rows)

/-! ## Upkeep -/

/-- A spill may not meet versions of equal stamps. -/
def Upkeep.InOrder (t : Table F) : Upkeep → Prop
  | spillMutableRun _ => t.SpillsNoTie
  | _ => True

instance (t : Table F) : (u : Upkeep) → Decidable (u.InOrder t)
  | .spillMutableRun _ => inferInstanceAs (Decidable t.SpillsNoTie)
  | .sealGenerations | .flushMemtable | .publishDirectory | .loseDirectory => isTrue trivial

theorem upkeep_spec {t t' : Table F} {u : Upkeep} (h : t.Ordered) (hu : u.InOrder t)
    (hstep : t.step u.label = some t') :
    t'.Ordered ∧ t'.ttl = t.ttl ∧
      ∀ rowId, Forall₂ Row.ReadsAs (t.versions rowId) (t'.versions rowId) := by
  have same (hs : ∀ rowId, t'.storedVersions rowId = t.storedVersions rowId)
      (ho : ∀ rowId, t'.overlayVersions rowId = t.overlayVersions rowId) (httl : t'.ttl = t.ttl) :
      t'.Ordered ∧ t'.ttl = t.ttl ∧
        ∀ rowId, Forall₂ Row.ReadsAs (t.versions rowId) (t'.versions rowId) := by
    refine ⟨h.congr hs ho, httl, fun rowId => ?_⟩
    rw [Table.versions, Table.versions, hs, ho]
    exact forall₂_refl _
  cases u with
  | sealGenerations =>
    obtain rfl := some.inj hstep
    exact same (fun _ => rfl) (Table.overlayVersions_sealGenerations h) rfl
  | flushMemtable =>
    obtain rfl := some.inj hstep
    refine same (fun _ => ?_) (Table.overlayVersions_flushMemtable h) ?_
    all_goals
      rw [Table.flushMemtable]
      split <;> rfl
  | spillMutableRun epoch =>
    refine ⟨h.spill hu hstep, ?_, Table.versions_spill h hstep⟩
    rcases Table.spillMutableRun_cases hstep with rfl | ⟨he, rfl⟩ <;> rfl
  | publishDirectory | loseDirectory =>
    obtain rfl := some.inj hstep
    exact same (fun _ => rfl) (fun _ => rfl) rfl

/-! ## Spilled runs -/

/-- A row of a spilled run, as it is read: under the epoch of the commit and without a timestamp. -/
def published (schema : List ColumnDef) (epoch : Nat) (row : Row F) : Row F :=
  { row.readBack schema with committedEpoch := epoch, commitTs := none }

/-- The rows of the batch have no versions in memory, and older ones in the runs. -/
def LinkInOrder (t : Table F) (epoch : Nat) (rows : List (Row F)) : Prop :=
  ∀ row ∈ rows, t.overlayVersions row.rowId = [] ∧
    ∀ v ∈ t.storedVersions row.rowId, Before v.stamp ⟨epoch, none⟩
  deriving Decidable

namespace Writer

theorem storedIn_spilledRun {t : Table F} {runId epoch : Nat} {rows : List (Row F)}
    {h : rows.Pairwise fun a b => a.rowId < b.rowId} (rowId : Nat) :
    (t.openRun ⟨runId, spilledRun t.schema epoch rows h⟩).storedIn rowId =
      (versionsOf rowId rows).map (published t.schema epoch) := by
  let r := t.openRun ⟨runId, spilledRun t.schema epoch rows h⟩
  let stored : Row F → Row F := fun row => { row with committedEpoch := 0, commitTs := none }
  have hflat : r.run.pages.flatten = rows.map stored := flatten_cutPages (by decide) _ _ le_rfl
  have hstored : r.run.storedColumns = r.schema.map ColumnDef.id := by
    show t.schema.map ColumnDef.id = _
    rw [Table.openRun_schema]
  show r.storedIn rowId = _
  rw [RunReader.storedIn_eq, hflat, versionsOf, filter_map, map_map]
  refine map_congr_left fun row _ => ?_
  have hcols := RunReader.readColumns_of_stored hstored ⟨0, 0, 0, stored row⟩
  rw [Table.openRun_schema] at hcols
  rw [Function.comp_apply, RunReader.materialize, hcols]
  rfl

variable {t t' : Table F} {epoch : Nat} {rows : List (Row F)}

theorem linkRun_versions (hlink : linkRun t epoch rows = some t') :
    (rows.Pairwise fun a b => a.rowId < b.rowId) ∧ t'.ttl = t.ttl ∧
      ∀ rowId, t'.overlayVersions rowId = t.overlayVersions rowId ∧ t'.storedVersions rowId =
        t.storedVersions rowId ++ (versionsOf rowId rows).map (published t.schema epoch) := by
  rw [linkRun] at hlink
  split at hlink
  next hrows =>
    obtain rfl := some.inj hlink
    refine ⟨hrows, rfl, fun rowId => ⟨rfl, ?_⟩⟩
    show (t.runRefs ++ [_]).flatMap _ = _
    rw [flatMap_append, flatMap_singleton]
    exact congrArg _ (storedIn_spilledRun rowId)
  next => exact nomatch hlink

theorem mem_published {rowId : Nat} {b : Row F}
    (hb : b ∈ (versionsOf rowId rows).map (published t.schema epoch)) :
    b.stamp = ⟨epoch, none⟩ ∧ ∃ row ∈ rows, row.rowId = rowId := by
  obtain ⟨row, hrow, rfl⟩ := mem_map.mp hb
  exact ⟨rfl, row, mem_versionsOf.mp hrow⟩

theorem linkRun_spec (h : t.Ordered) (hl : LinkInOrder t epoch rows)
    (hlink : linkRun t epoch rows = some t') :
    t'.Ordered ∧ ∀ rowId, t'.versions rowId =
      t.versions rowId ++ (versionsOf rowId rows).map (published t.schema epoch) := by
  obtain ⟨hrows, -, hversions⟩ := linkRun_versions hlink
  -- a row of the batch has nothing in memory, the other rows nothing in the batch
  have hcases : ∀ rowId, versionsOf rowId rows = [] ∨ t.overlayVersions rowId = [] := by
    intro rowId
    rcases hvs : versionsOf rowId rows with _ | ⟨row, rest⟩
    · exact .inl rfl
    · obtain ⟨hmem, rfl⟩ := mem_versionsOf.mp (hvs ▸ mem_cons_self : row ∈ _)
      exact .inr (hl row hmem).1
  refine ⟨⟨fun rowId => ?_, fun rowId => ?_, fun rowId a ha b hb => ?_⟩, fun rowId => ?_⟩
  · rw [(hversions rowId).2]
    refine pairwise_append.mpr ⟨h.stored rowId, ?_, fun a ha b hb => ?_⟩
    · -- ids go up strictly, so the batch has at most one version of a row
      refine pairwise_map.mpr (Pairwise.imp_of_mem ?_ (hrows.filter _))
      intro a b ha hb hab
      rw [(mem_versionsOf.mp ha).2, (mem_versionsOf.mp hb).2] at hab
      exact absurd hab (Nat.lt_irrefl _)
    · obtain ⟨hstamp, row, hrow, rfl⟩ := mem_published hb
      rw [hstamp]
      exact (hl row hrow).2 a ha
  · rw [(hversions rowId).1]
    exact h.overlay rowId
  · rw [(hversions rowId).2, mem_append] at ha
    rw [(hversions rowId).1] at hb
    rcases ha with ha | ha
    · exact h.cross rowId a ha b hb
    · obtain ⟨-, row, hrow, rfl⟩ := mem_published ha
      rw [(hl row hrow).1] at hb
      exact absurd hb not_mem_nil
  · rw [Table.versions, Table.versions, (hversions rowId).2, (hversions rowId).1]
    rcases hcases rowId with hnil | hnil
    · rw [hnil, map_nil, append_nil, append_nil]
    · rw [hnil, append_nil, append_nil]

variable {c : Schema F} {s s' : Writer F}

/-- One step of `tombstoneHolders`. -/
def tombstoneHolder (stamp : Stamp) (s : Writer F) (e : Key × Nat) : Writer F :=
  match s.hot.lookup e.1 with
  | some old => if old ≠ e.2 then s.tombstoneRow old stamp true else s
  | none => s

theorem tombstoneHolders_eq (stamp : Stamp) (s : Writer F) (winners : List (Key × Nat)) :
    winners.foldlM (fun s e => some (s.tombstoneHolder stamp e)) s =
      some (s.tombstoneHolders stamp winners) :=
  foldlM_pure

/-- The state with the run, before the holders go. -/
def linked (s : Writer F) (table : Table F) (rows : List (Row F)) : Writer F :=
  { s with
    table := table
    pendingPutCols := s.pendingPutCols ++ rows.flatMap fun row : Row F => row.columns.map Prod.fst }

theorem indexRows_frame (h : rows.foldlM (fun s row => s.indexRow c row) s = some s') :
    s'.table = s.table ∧ s'.liveCount = s.liveCount := by
  induction rows generalizing s with
  | nil =>
    obtain rfl := some.inj h
    exact ⟨rfl, rfl⟩
  | cons row rows ih =>
    rw [foldlM_cons] at h
    obtain ⟨s₁, hs₁, h⟩ := bind_eq_some_iff.mp h
    obtain ⟨htable, hcount⟩ := indexRow_frame hs₁
    obtain ⟨htable', hcount'⟩ := ih h
    exact ⟨htable'.trans htable, hcount'.trans hcount⟩

/-- A spilled batch of different keys: the run is linked, the holders of the keys go, the rows are
indexed. -/
theorem applyRunMetadata_cases {stamp : Stamp} (hl : (partitionPkWinners c rows).1 = [])
    (h : s.applyRunMetadata c stamp rows = some s') :
    ∃ (t₁ : Table F) (s₁ s₂ s₃ : Writer F), linkRun s.table stamp.epoch rows = some t₁ ∧
      s₁ = (s.linked t₁ rows).tombstoneHolders stamp (partitionPkWinners c rows).2 ∧
      s₂.table = s₁.table ∧ s₂.liveCount = s₁.liveCount ∧ s₂.bitmap = s₁.bitmap ∧
      rows.foldlM (fun s row => s.indexRow c row) s₂ = some s₃ ∧
      s' = { s₃ with liveCount := s₃.liveCount + rows.length } := by
  rw [applyRunMetadata] at h
  obtain ⟨-, -, h⟩ := bind_eq_some_iff.mp h
  obtain ⟨t₁, hlink, h⟩ := bind_eq_some_iff.mp h
  rcases hp : partitionPkWinners c rows with ⟨losers, winners⟩
  rw [hp] at hl
  obtain rfl : losers = [] := hl
  simp only [hp, not_mem_nil, not_false_eq_true, decide_true, filter_true,
    foldl_nil, length_nil, Nat.sub_zero] at h
  obtain ⟨s₃, hindex, h⟩ := bind_eq_some_iff.mp h
  obtain rfl := some.inj h
  refine ⟨t₁, _, _, s₃, hlink, rfl, ?_, ?_, ?_, hindex, rfl⟩ <;> split <;> rfl

end Writer

end MongrelDB.Storage.WritePath
