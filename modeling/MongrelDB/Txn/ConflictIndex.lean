import Mathlib.Data.List.Induction
import MongrelDB.Lib.StampMap

/-!
# ConflictIndex: recent committed write keys

`txn.rs` validates a transaction against a sharded map `WriteKey → commit_epoch` and
two per-table maps: the last truncate and the last row-level write of a table.
-/

namespace MongrelDB.Txn

open Lib (StampMap)
open List

inductive WriteKey where
  | row (tableId rowId : Nat)
  | unique (tableId indexId keyHash : Nat)
  | table (tableId : Nat)
  deriving DecidableEq, Repr

namespace WriteKey

def tableId : WriteKey → Nat
  | row t _ | unique t _ _ | table t => t

def isTable : WriteKey → Bool
  | table _ => true
  | row _ _ | unique _ _ _ => false

/-- The same key, or a whole-table key against any key of that table. -/
def Overlaps (a b : WriteKey) : Prop :=
  a = b ∨ ((a.isTable = true ∨ b.isTable = true) ∧ a.tableId = b.tableId)
  deriving Decidable

end WriteKey

/-- Some key of the first list overlaps one of the second. -/
def KeysOverlap (as bs : List WriteKey) : Prop := ∃ a ∈ as, ∃ b ∈ bs, a.Overlaps b
  deriving Decidable

structure ConflictIndex where
  shards : StampMap WriteKey
  tableTruncateEpochs : StampMap Nat
  tableWriteEpochs : StampMap Nat
  /-- Bumped by every `record`. -/
  version : Nat
  /-- Highest floor already applied by a prune. -/
  lastPruneFloor : Nat

namespace ConflictIndex

def new : ConflictIndex where
  shards := .empty
  tableTruncateEpochs := .empty
  tableWriteEpochs := .empty
  version := 0
  lastPruneFloor := 0

/-- The table-level half of the probe for one key. -/
def tableConflicts (idx : ConflictIndex) (readEpoch : Nat) : WriteKey → Bool
  | .row t _ | .unique t _ _ => idx.tableTruncateEpochs.exceeds t readEpoch
  | .table t => idx.tableWriteEpochs.exceeds t readEpoch

def conflicts (idx : ConflictIndex) (keys : List WriteKey) (readEpoch : Nat) : Bool :=
  keys.any (fun k => idx.shards.exceeds k readEpoch) ||
    keys.any (idx.tableConflicts readEpoch)

def recordTruncate (e : Nat) (m : StampMap Nat) : WriteKey → StampMap Nat
  | .table t => m.raise t e
  | .row _ _ | .unique _ _ _ => m

def recordWrite (e : Nat) (m : StampMap Nat) : WriteKey → StampMap Nat
  | .table _ => m
  | .row t _ | .unique t _ _ => m.raise t e

section

variable (idx : ConflictIndex)

def record (keys : List WriteKey) (commitEpoch : Nat) : ConflictIndex where
  shards := keys.foldl (fun m k => m.put k commitEpoch) idx.shards
  tableTruncateEpochs := keys.foldl (recordTruncate commitEpoch) idx.tableTruncateEpochs
  tableWriteEpochs := keys.foldl (recordWrite commitEpoch) idx.tableWriteEpochs
  version := idx.version + 1
  lastPruneFloor := idx.lastPruneFloor

/-- `fetch_max` on the floor, and a pass over the maps only when it rose. -/
def pruneBelow (minActive : Nat) : ConflictIndex :=
  if minActive ≤ idx.lastPruneFloor then idx
  else
    { idx with
      shards := idx.shards.retainFrom minActive
      tableTruncateEpochs := idx.tableTruncateEpochs.retainFrom minActive
      tableWriteEpochs := idx.tableWriteEpochs.retainFrom minActive
      lastPruneFloor := minActive }

@[simp] theorem pruneBelow_version (f : Nat) :
    (idx.pruneBelow f).version = idx.version := by
  unfold pruneBelow; split <;> rfl

/-! ## What a recorded key leaves behind -/

/-- The per-table trace of a recorded key. -/
def CoversTable (c : Nat) : WriteKey → Prop
  | .table t => idx.tableTruncateEpochs.AtLeast t c
  | .row t _ | .unique t _ _ => idx.tableWriteEpochs.AtLeast t c

/-- The index still knows that `k` was written at `c` or later. -/
def Covers (k : WriteKey) (c : Nat) : Prop :=
  idx.shards.AtLeast k c ∧ idx.CoversTable c k

end

variable {idx : ConflictIndex} {k k' : WriteKey} {keys : List WriteKey} {c e f r : Nat}

theorem recordTruncate_atLeast {m : StampMap Nat} {t : Nat} (h : m.AtLeast t c) :
    (recordTruncate e m k).AtLeast t c := by
  cases k with
  | table _ => exact h.raise
  | row _ _ | unique _ _ _ => exact h

theorem recordWrite_atLeast {m : StampMap Nat} {t : Nat} (h : m.AtLeast t c) :
    (recordWrite e m k).AtLeast t c := by
  cases k with
  | table _ => exact h
  | row _ _ | unique _ _ _ => exact h.raise

theorem Covers.record (h : idx.Covers k c) (hc : c ≤ e) : (idx.record keys e).Covers k c := by
  refine ⟨h.1.foldl (fun _ _ hm => hm.put hc) keys, ?_⟩
  cases k with
  | table t => exact h.2.foldl (fun _ _ => recordTruncate_atLeast) keys
  | row t _ | unique t _ _ => exact h.2.foldl (fun _ _ => recordWrite_atLeast) keys

theorem covers_record_self (hk : k ∈ keys) : (idx.record keys e).Covers k e := by
  refine ⟨StampMap.atLeast_foldl_of_mem (b := k) (fun _ => StampMap.atLeast_put_self)
    (fun _ _ hm => hm.put (Nat.le_refl e)) hk, ?_⟩
  cases k with
  | table t =>
    exact StampMap.atLeast_foldl_of_mem (b := WriteKey.table t)
      (fun _ => StampMap.atLeast_raise_self) (fun _ _ => recordTruncate_atLeast) hk
  | row t i =>
    exact StampMap.atLeast_foldl_of_mem (b := WriteKey.row t i)
      (fun _ => StampMap.atLeast_raise_self) (fun _ _ => recordWrite_atLeast) hk
  | unique t i h =>
    exact StampMap.atLeast_foldl_of_mem (b := WriteKey.unique t i h)
      (fun _ => StampMap.atLeast_raise_self) (fun _ _ => recordWrite_atLeast) hk

/-- A prune keeps what is at or above its floor, and everything when the floor did not rise. -/
theorem Covers.pruneBelow (h : idx.Covers k c) (hf : idx.lastPruneFloor < f → f ≤ c) :
    (idx.pruneBelow f).Covers k c := by
  unfold ConflictIndex.pruneBelow
  split
  next => exact h
  next hlt =>
    have hfc := hf (by omega)
    refine ⟨h.1.retainFrom hfc, ?_⟩
    cases k with
    | table t => exact h.2.retainFrom hfc
    | row t _ | unique t _ _ => exact h.2.retainFrom hfc

theorem conflicts_of_covers (hk : k ∈ keys) (ho : k.Overlaps k') (hc : idx.Covers k' c)
    (hr : r < c) : idx.conflicts keys r = true := by
  unfold conflicts
  rw [Bool.or_eq_true, any_eq_true, any_eq_true]
  rcases ho with rfl | ⟨htable, hid⟩
  · exact .inl ⟨k, hk, hc.1.exceeds hr⟩
  -- different keys: one of them is the table key, the other one decides which map answers
  · by_cases heq : k = k'
    · exact .inl ⟨k, hk, heq ▸ hc.1.exceeds hr⟩
    · refine .inr ⟨k, hk, ?_⟩
      cases k <;> cases k' <;>
        simp_all [WriteKey.isTable, WriteKey.tableId, tableConflicts, CoversTable, Covers] <;>
        exact hc.2.exceeds hr

theorem not_keysOverlap_of_covers {keys' : List WriteKey}
    (hfree : idx.conflicts keys r = false) (hr : r < c)
    (hc : ∀ k ∈ keys', idx.Covers k c) : ¬KeysOverlap keys keys' := by
  rintro ⟨k, hk, k', hk', ho⟩
  rw [conflicts_of_covers hk ho (hc k' hk') hr] at hfree
  exact Bool.noConfusion hfree

/-! ## The index against the whole history -/

/-- A call that changes the index. -/
inductive Op where
  | record (keys : List WriteKey) (commitEpoch : Nat)
  | pruneBelow (minActive : Nat)
  deriving DecidableEq, Repr

def Op.commitEpoch? : Op → Option Nat
  | record _ commitEpoch => some commitEpoch
  | pruneBelow _ => none

def apply (idx : ConflictIndex) : Op → ConflictIndex
  | .record keys commitEpoch => idx.record keys commitEpoch
  | .pruneBelow minActive => idx.pruneBelow minActive

/-- The index after these calls, oldest first. -/
def after (ops : List Op) : ConflictIndex := ops.foldl apply new

variable {ops : List Op} {op : Op}

theorem after_concat (ops : List Op) (op : Op) : after (ops ++ [op]) = (after ops).apply op := by
  rw [after, foldl_append]
  rfl

/-- Some key with property `q` was recorded at epoch `e`. -/
def Wrote (ops : List Op) (q : WriteKey → Prop) (e : Nat) : Prop :=
  ∃ keys, Op.record keys e ∈ ops ∧ ∃ k ∈ keys, q k

theorem Wrote.concat {q : WriteKey → Prop} (h : Wrote ops q e) (op : Op) :
    Wrote (ops ++ [op]) q e := by
  obtain ⟨keys, hmem, hk⟩ := h
  exact ⟨keys, mem_append_left _ hmem, hk⟩

theorem wrote_last {q : WriteKey → Prop} (hk : k ∈ keys) (hq : q k) :
    Wrote (ops ++ [.record keys e]) q e :=
  ⟨keys, by simp, k, hk, hq⟩

/-- Every stamp held comes from a recorded key of its kind. -/
structure Traced (idx : ConflictIndex) (ops : List Op) : Prop where
  shards : idx.shards.Every fun k => Wrote ops (· = k)
  truncates : idx.tableTruncateEpochs.Every fun t => Wrote ops (· = .table t)
  writes : idx.tableWriteEpochs.Every fun t =>
    Wrote ops fun k => k.isTable = false ∧ k.tableId = t

theorem Traced.record (h : idx.Traced ops) :
    (idx.record keys e).Traced (ops ++ [.record keys e]) where
  shards := (h.shards.mono fun _ _ hw => hw.concat _).foldl
    fun _ _ hk hm => hm.put (wrote_last hk rfl)
  truncates := by
    refine (h.truncates.mono fun _ _ hw => hw.concat _).foldl fun m k hk hm => ?_
    cases k with
    | table t => exact hm.raise (wrote_last hk rfl)
    | row _ _ | unique _ _ _ => exact hm
  writes := by
    refine (h.writes.mono fun _ _ hw => hw.concat _).foldl fun m k hk hm => ?_
    cases k with
    | table t => exact hm
    | row t i => exact hm.raise (wrote_last hk ⟨rfl, rfl⟩)
    | unique t i j => exact hm.raise (wrote_last hk ⟨rfl, rfl⟩)

theorem Traced.pruneBelow (h : idx.Traced ops) :
    (idx.pruneBelow f).Traced (ops ++ [.pruneBelow f]) := by
  have hs := h.shards.mono fun _ _ hw => hw.concat (.pruneBelow f)
  have ht := h.truncates.mono fun _ _ hw => hw.concat (.pruneBelow f)
  have hw := h.writes.mono fun _ _ hw => hw.concat (.pruneBelow f)
  unfold ConflictIndex.pruneBelow
  split
  next => exact ⟨hs, ht, hw⟩
  next => exact ⟨hs.retainFrom f, ht.retainFrom f, hw.retainFrom f⟩

theorem traced_after (ops : List Op) : (after ops).Traced ops := by
  induction ops using List.reverseRecOn with
  | nil => exact ⟨StampMap.every_empty, StampMap.every_empty, StampMap.every_empty⟩
  | append_singleton ops op ih =>
    rw [after_concat]
    cases op with
    | record keys e => exact ih.record
    | pruneBelow f => exact ih.pruneBelow

theorem Traced.recorded_of_conflicts (h : idx.Traced ops) (hc : idx.conflicts keys r = true) :
    ∃ keys' e, Op.record keys' e ∈ ops ∧ r < e ∧ KeysOverlap keys keys' := by
  rw [conflicts, Bool.or_eq_true, any_eq_true, any_eq_true] at hc
  rcases hc with ⟨k, hk, hex⟩ | ⟨k, hk, hex⟩
  · obtain ⟨e, he, hr⟩ := StampMap.exists_of_exceeds hex
    obtain ⟨keys', hmem, k', hk', rfl⟩ := h.shards k e he
    exact ⟨keys', e, hmem, hr, k', hk, k', hk', .inl rfl⟩
  · cases k with
    | table t =>
      obtain ⟨e, he, hr⟩ := StampMap.exists_of_exceeds hex
      obtain ⟨keys', hmem, k', hk', -, ht⟩ := h.writes t e he
      exact ⟨keys', e, hmem, hr, _, hk, k', hk', .inr ⟨.inl rfl, ht.symm⟩⟩
    | row t _ | unique t _ _ =>
      obtain ⟨e, he, hr⟩ := StampMap.exists_of_exceeds hex
      obtain ⟨keys', hmem, k', hk', rfl⟩ := h.truncates t e he
      exact ⟨keys', e, hmem, hr, _, hk, _, hk', .inr ⟨.inr rfl, rfl⟩⟩

theorem covers_after {keys' : List WriteKey} (ops : List Op)
    (hepochs : (ops.filterMap Op.commitEpoch?).Pairwise (· ≤ ·))
    (hfloors : ∀ f, Op.pruneBelow f ∈ ops → f ≤ r)
    (hmem : Op.record keys' e ∈ ops) (hr : r < e) (hk : k ∈ keys') : (after ops).Covers k e := by
  induction ops using List.reverseRecOn with
  | nil => exact absurd hmem not_mem_nil
  | append_singleton ops op ih =>
    rw [filterMap_append, pairwise_append] at hepochs
    have ih := ih hepochs.1 fun f hf => hfloors f (mem_append_left _ hf)
    rw [after_concat]
    rcases mem_append.mp hmem with hold | hnew
    · cases op with
      | record keys c =>
        -- commit epochs do not go down
        refine (ih hold).record (hepochs.2.2 e ?_ c (by simp [Op.commitEpoch?]))
        exact mem_filterMap.mpr ⟨_, hold, rfl⟩
      | pruneBelow f =>
        have hf := hfloors f (by simp)
        exact (ih hold).pruneBelow fun _ => by omega
    · rw [← mem_singleton.mp hnew]
      exact covers_record_self hk

/-- Last epochs and two table maxima say as much as the history: for records with non-decreasing
epochs and prunes at or below the read epoch, a probe finds exactly the overlapping key sets
recorded above it. -/
theorem conflicts_iff_recorded (ops : List Op) (keys : List WriteKey) (readEpoch : Nat)
    (hepochs : (ops.filterMap Op.commitEpoch?).Pairwise (· ≤ ·))
    (hfloors : ∀ f, Op.pruneBelow f ∈ ops → f ≤ readEpoch) :
    (after ops).conflicts keys readEpoch = true ↔
      ∃ keys' e, Op.record keys' e ∈ ops ∧ readEpoch < e ∧ KeysOverlap keys keys' := by
  constructor
  · exact (traced_after ops).recorded_of_conflicts
  · rintro ⟨keys', e, hmem, hr, k, hk, k', hk', ho⟩
    exact conflicts_of_covers hk ho (covers_after ops hepochs hfloors hmem hr hk') hr

/-- A truncate of table 1 is recorded at epoch 5 and survives a prune; a row of that table read at
epoch 4 meets it. -/
theorem pruned_truncate_conflicts :
    (after [.record [.row 1 7] 3, .record [.table 1] 5, .pruneBelow 4]).conflicts
      [.row 1 9] 4 = true :=
  (conflicts_iff_recorded [.record [.row 1 7] 3, .record [.table 1] 5, .pruneBelow 4] [.row 1 9] 4
    (by decide) (by simp)).mpr ⟨[.table 1], 5, by decide, by decide, by decide⟩

end ConflictIndex

end MongrelDB.Txn
