import Mathlib.Data.List.Pairwise
import MongrelDB.Epoch.Snapshot

/-!
# The idempotency ledger

A commit that carries an idempotency key goes through three calls of the ledger
(`txn.rs`).
-/

namespace MongrelDB.Txn

open Epoch (HlcTimestamp)
open List Option

/-! ## The ledger -/

structure IdempotencyRequest where
  key : List Char
  owner : List Char
  fingerprint : Nat
  /-- microseconds -/
  ttl : Option Nat

structure CommitReceipt where
  txnId : Nat
  epoch : Nat
  commitTs : HlcTimestamp
  deriving DecidableEq

inductive StoredOutcome where
  | reserved
  | committed (receipt : CommitReceipt)
  deriving DecidableEq

structure StoredRecord where
  owner : List Char
  key : List Char
  fingerprint : Nat
  expiresAtMicros : Option Nat
  outcome : StoredOutcome
  deriving DecidableEq

/-- The record belongs to the slot of the request. -/
def StoredRecord.isFor (q : IdempotencyRequest) (r : StoredRecord) : Bool :=
  r.owner == q.owner && r.key == q.key

def StoredRecord.isReserved (r : StoredRecord) : Bool := decide (r.outcome = .reserved)

/-- Commit epoch of a completed record. -/
def StoredRecord.committedEpoch (r : StoredRecord) : Option Nat :=
  match r.outcome with
  | .reserved => none
  | .committed receipt => some receipt.epoch

def u64Max : Nat := 2 ^ 64 - 1

/-- Saturating, as the source computes it. -/
def expiryMicros (ttl : Option Nat) (now : Nat) : Option Nat :=
  ttl.map fun d => min (now + min d u64Max) u64Max

/-- Not expired at `now`. -/
def StoredRecord.unexpired (now : Nat) (r : StoredRecord) : Bool :=
  r.expiresAtMicros.all (now < ·)

def sweepExpired (records : List StoredRecord) (now : Nat) : List StoredRecord :=
  records.filter (StoredRecord.unexpired now)

def maxIdempotencyRecords : Nat := 65536

/-- Remove the first completed record of the lowest epoch. -/
def evictOldest (records : List StoredRecord) : Option (List StoredRecord) :=
  (records.filterMap StoredRecord.committedEpoch).min?.map fun e =>
    records.eraseP fun r => r.committedEpoch = some e

/-- The eviction loop; every turn removes a record, so their number is enough fuel. The flag is
`false` when only reservations are left above the bound. -/
def enforceBoundsLoop : Nat → List StoredRecord → List StoredRecord × Bool
  | 0, records => (records, decide (records.length ≤ maxIdempotencyRecords))
  | fuel + 1, records =>
    if records.length ≤ maxIdempotencyRecords then (records, true)
    else
      match evictOldest records with
      | none => (records, false)
      | some rest => enforceBoundsLoop fuel rest

def enforceBounds (records : List StoredRecord) : List StoredRecord × Bool :=
  enforceBoundsLoop records.length records

structure Ledger where
  /-- the in-memory slots -/
  inner : List StoredRecord
  /-- the persisted file -/
  file : List StoredRecord

/-- `persist_locked`; `writeOk` is the outcome of the atomic write. The evictions stay in memory
also when the write fails. -/
def Ledger.persistLocked (l : Ledger) (writeOk : Bool) : Ledger × Bool :=
  let r := enforceBounds l.inner
  if r.2 && writeOk then ({ inner := r.1, file := r.1 }, true)
  else ({ l with inner := r.1 }, false)

inductive ConflictReason where
  /-- "was already used with a different request" -/
  | differentRequest
  /-- "has an in-flight or interrupted commit; retry to resolve" -/
  | inFlight
  deriving DecidableEq

inductive CheckAnswer where
  | reserved
  | replay (receipt : CommitReceipt)
  | conflict (reason : ConflictReason)
  /-- "idempotency key must not be empty", "idempotency owner must not be empty" -/
  | invalidArgument
  | persistFailed
  deriving DecidableEq

section

variable (q : IdempotencyRequest)

def validateRequest : Bool := !q.key.isEmpty && !q.owner.isEmpty

/-- The answer to a request whose slot is taken. -/
def classifyExisting (existing : StoredRecord) : CheckAnswer :=
  if existing.fingerprint ≠ q.fingerprint then .conflict .differentRequest
  else
    match existing.outcome with
    | .committed receipt => .replay receipt
    | .reserved => .conflict .inFlight

theorem classifyExisting_eq_or (existing : StoredRecord) :
    (∃ why, classifyExisting q existing = .conflict why) ∨
      ∃ receipt, classifyExisting q existing = .replay receipt := by
  unfold classifyExisting
  split
  · exact .inl ⟨_, rfl⟩
  split
  · exact .inr ⟨_, rfl⟩
  · exact .inl ⟨_, rfl⟩

def reservation (now : Nat) : StoredRecord where
  owner := q.owner
  key := q.key
  fingerprint := q.fingerprint
  expiresAtMicros := expiryMicros q.ttl now
  outcome := .reserved

end

/-- The slots after the sweep and the push of a new reservation. -/
def Ledger.pushReservation (l : Ledger) (q : IdempotencyRequest) (now : Nat) : Ledger :=
  { l with inner := sweepExpired l.inner now ++ [reservation q now] }

def Ledger.checkAndReserve (l : Ledger) (q : IdempotencyRequest) (now : Nat) (writeOk : Bool) :
    Ledger × CheckAnswer :=
  if !validateRequest q then (l, .invalidArgument)
  else
    match (sweepExpired l.inner now).find? (StoredRecord.isFor q) with
    | some existing => ({ l with inner := sweepExpired l.inner now }, classifyExisting q existing)
    | none =>
      let r := (l.pushReservation q now).persistLocked writeOk
      (r.1, if r.2 then .reserved else .persistFailed)

/-- `iter_mut().find(..)`: update the first record of the slot, `none` when there is none. -/
def modifyFirst (p : StoredRecord → Bool) (f : StoredRecord → StoredRecord) :
    List StoredRecord → Option (List StoredRecord)
  | [] => none
  | r :: rs => if p r then some (f r :: rs) else (modifyFirst p f rs).map (r :: ·)

def completeRecord (q : IdempotencyRequest) (receipt : CommitReceipt) (now : Nat)
    (r : StoredRecord) : StoredRecord :=
  { r with expiresAtMicros := expiryMicros q.ttl now, outcome := .committed receipt }

/-- `none` when the reservation "vanished during commit". -/
def Ledger.complete (l : Ledger) (q : IdempotencyRequest) (receipt : CommitReceipt) (now : Nat) :
    Option Ledger :=
  (modifyFirst (StoredRecord.isFor q) (completeRecord q receipt now) l.inner).map fun inner =>
    { l with inner }

/-- Drop the reservations of the slot; the caller persists and ignores the outcome. -/
def Ledger.release (l : Ledger) (q : IdempotencyRequest) : Ledger :=
  { l with inner := l.inner.filter fun r => !(r.isFor q && r.isReserved) }

/-- `IdempotencyLedger::open` after a crash. -/
def Ledger.reopen (l : Ledger) (now : Nat) : Ledger :=
  { l with inner := sweepExpired l.file now }

/-! ## One record for each slot -/

def UniqueSlots (records : List StoredRecord) : Prop :=
  records.Pairwise fun a b => ¬(a.owner = b.owner ∧ a.key = b.key)

variable {q : IdempotencyRequest} {r r' : StoredRecord} {rs rs' : List StoredRecord} {now : Nat}

theorem StoredRecord.isFor_iff : r.isFor q = true ↔ r.owner = q.owner ∧ r.key = q.key := by
  simp [isFor]

theorem UniqueSlots.eq_of_isFor (h : UniqueSlots rs) (hr : r ∈ rs) (hr' : r' ∈ rs)
    (hq : r.isFor q = true) (hq' : r'.isFor q = true) : r = r' := by
  rw [StoredRecord.isFor_iff] at hq hq'
  by_contra hne
  have : Std.Symm fun a b : StoredRecord => ¬(a.owner = b.owner ∧ a.key = b.key) :=
    ⟨fun a b hab hba => hab ⟨hba.1.symm, hba.2.symm⟩⟩
  exact h.forall hr hr' hne ⟨hq.1.trans hq'.1.symm, hq.2.trans hq'.2.symm⟩

theorem UniqueSlots.sublist (h : UniqueSlots rs) (hsub : rs'.Sublist rs) : UniqueSlots rs' :=
  Pairwise.sublist hsub h

theorem UniqueSlots.push (h : UniqueSlots rs) (hnone : ∀ r ∈ rs, r.isFor q = false) :
    UniqueSlots (rs ++ [reservation q now]) := by
  refine pairwise_append.mpr ⟨h, pairwise_singleton _ _, fun a ha b hb hab => ?_⟩
  obtain rfl := mem_singleton.mp hb
  have hfor : a.isFor q = true := StoredRecord.isFor_iff.mpr hab
  rw [hnone a ha] at hfor
  exact Bool.noConfusion hfor

theorem UniqueSlots.find? (h : UniqueSlots rs) (hr : r ∈ rs) (hq : r.isFor q = true) :
    rs.find? (StoredRecord.isFor q) = some r := by
  cases hf : rs.find? (StoredRecord.isFor q) with
  | none => exact absurd hq (by simpa using find?_eq_none.mp hf r hr)
  | some r' =>
    rw [h.eq_of_isFor (mem_of_find?_eq_some hf) hr (find?_some hf) hq]

theorem mem_sweepExpired : r ∈ sweepExpired rs now ↔ r ∈ rs ∧ r.unexpired now = true :=
  mem_filter

/-! ## What a persist leaves alone -/

theorem StoredRecord.committedEpoch_of_reserved (h : r.isReserved = true) :
    r.committedEpoch = none := by
  simp only [isReserved, decide_eq_true_eq] at h
  simp [committedEpoch, h]

theorem evictOldest_eq_some (h : evictOldest rs = some rs') :
    ∃ a pre post, a.isReserved = false ∧ rs = pre ++ a :: post ∧ rs' = pre ++ post := by
  obtain ⟨e, he, rfl⟩ := map_eq_some_iff.mp h
  obtain ⟨r, hr, hre⟩ := mem_filterMap.mp (min?_mem he)
  obtain ⟨a, pre, post, -, ha, hrs, herase⟩ :=
    exists_of_eraseP (p := fun r => r.committedEpoch = some e) hr (by simpa using hre)
  refine ⟨a, pre, post, ?_, hrs, herase⟩
  by_contra hres
  simp [a.committedEpoch_of_reserved (by simpa using hres)] at ha

theorem reserved_of_evictOldest_none (h : evictOldest rs = none) : ∀ r ∈ rs, r.isReserved = true :=
     by
  rw [evictOldest, map_eq_none_iff, min?_eq_none_iff, filterMap_eq_nil_iff] at h
  intro r hr
  have hnone := h r hr
  unfold StoredRecord.committedEpoch at hnone
  unfold StoredRecord.isReserved
  cases hout : r.outcome with
  | reserved => rfl
  | committed receipt => simp [hout] at hnone

/-- What the loop does to the records: it keeps the reservations, succeeds when they are not too
many, and removes nothing exactly when there is room or nothing to remove. -/
structure Bounded (rs rs' : List StoredRecord) (ok : Bool) : Prop where
  sublist : rs'.Sublist rs
  reserved : rs'.filter StoredRecord.isReserved = rs.filter StoredRecord.isReserved
  ok_iff : ok = true ↔ (rs.filter StoredRecord.isReserved).length ≤ maxIdempotencyRecords
  eq_iff : rs' = rs ↔ rs.length ≤ maxIdempotencyRecords ∨ ∀ r ∈ rs, r.isReserved = true

theorem bounded_enforceBoundsLoop : ∀ (fuel : Nat) (rs : List StoredRecord), rs.length ≤ fuel →
    Bounded rs (enforceBoundsLoop fuel rs).1 (enforceBoundsLoop fuel rs).2
  | 0, rs, h => by
    obtain rfl := length_eq_zero_iff.mp (Nat.le_zero.mp h)
    exact ⟨Sublist.refl _, rfl, by simp [enforceBoundsLoop], by simp [enforceBoundsLoop]⟩
  | fuel + 1, rs, h => by
    unfold enforceBoundsLoop
    split
    next hle =>
      have hfilter := length_filter_le StoredRecord.isReserved rs
      exact ⟨Sublist.refl _, rfl, iff_of_true rfl (hfilter.trans hle), iff_of_true rfl (.inl hle)⟩
    next hgt =>
      split
      next hnone =>
        have hall := reserved_of_evictOldest_none hnone
        refine ⟨Sublist.refl _, rfl, iff_of_false Bool.false_ne_true ?_,
          iff_of_true rfl (.inr hall)⟩
        rw [filter_eq_self.mpr hall]
        exact hgt
      next rest hrest =>
        obtain ⟨a, pre, post, ha, rfl, rfl⟩ := evictOldest_eq_some hrest
        have hsub : (pre ++ post).Sublist (pre ++ a :: post) :=
          (Sublist.refl pre).append (sublist_cons_self a post)
        have hfilter : (pre ++ post).filter StoredRecord.isReserved =
            (pre ++ a :: post).filter StoredRecord.isReserved := by
          simp [filter_append, ha]
        simp only [length_append, length_cons] at h hgt
        have ih := bounded_enforceBoundsLoop fuel (pre ++ post) (by rw [length_append]; omega)
        refine ⟨ih.sublist.trans hsub, ih.reserved.trans hfilter, hfilter ▸ ih.ok_iff,
          iff_of_false ?_ ?_⟩
        · intro heq
          have hlen := ih.sublist.length_le
          rw [heq, length_append, length_append, length_cons] at hlen
          omega
        · rintro (hle | hall)
          · simp at hle
            omega
          · exact Bool.false_ne_true (ha.symm.trans (hall a (by simp)))

theorem bounded_enforceBounds (rs : List StoredRecord) :
    Bounded rs (enforceBounds rs).1 (enforceBounds rs).2 :=
  bounded_enforceBoundsLoop rs.length rs le_rfl

theorem enforceBounds_sublist (rs : List StoredRecord) : (enforceBounds rs).1.Sublist rs :=
  (bounded_enforceBounds rs).sublist

theorem mem_enforceBounds_of_reserved (hr : r ∈ rs) (hres : r.isReserved = true) :
    r ∈ (enforceBounds rs).1 := by
  have hmem := mem_filter.mpr ⟨hr, hres⟩
  rw [← (bounded_enforceBounds rs).reserved] at hmem
  exact (mem_filter.mp hmem).1

theorem Ledger.persistLocked_inner (l : Ledger) (writeOk : Bool) :
    (l.persistLocked writeOk).1.inner = (enforceBounds l.inner).1 := by
  unfold persistLocked
  simp only
  split <;> rfl

theorem Ledger.persistLocked_file (l : Ledger) (writeOk : Bool) :
    (l.persistLocked writeOk).1.file = l.file ∨
      (l.persistLocked writeOk).1.file = (enforceBounds l.inner).1 := by
  unfold persistLocked
  simp only
  split
  · exact .inr rfl
  · exact .inl rfl

theorem Ledger.persistLocked_ok {l : Ledger} {writeOk : Bool}
    (h : (l.persistLocked writeOk).2 = true) :
    (l.persistLocked writeOk).1.file = (enforceBounds l.inner).1 := by
  unfold persistLocked at h ⊢
  simp only at h ⊢
  split at h
  next hcond => rw [if_pos hcond]
  next => simp at h

/-! ## Completing the record of a slot -/

theorem modifyFirst_eq_some {p : StoredRecord → Bool} {f : StoredRecord → StoredRecord} :
    ∀ {rs rs' : List StoredRecord}, modifyFirst p f rs = some rs' →
      ∃ pre r post, rs = pre ++ r :: post ∧ p r = true ∧ rs' = pre ++ f r :: post
  | [], _, h => by simp [modifyFirst] at h
  | r :: rs, rs', h => by
    unfold modifyFirst at h
    split at h
    next hp => exact ⟨[], r, rs, rfl, hp, (some.inj h).symm⟩
    next =>
      obtain ⟨rest, hrest, rfl⟩ := map_eq_some_iff.mp h
      obtain ⟨pre, x, post, rfl, hx, rfl⟩ := modifyFirst_eq_some hrest
      exact ⟨r :: pre, x, post, rfl, hx, rfl⟩

theorem UniqueSlots.replace {pre post : List StoredRecord} (h : UniqueSlots (pre ++ r :: post))
    (howner : r'.owner = r.owner) (hkey : r'.key = r.key) :
    UniqueSlots (pre ++ r' :: post) := by
  unfold UniqueSlots at h ⊢
  simp only [pairwise_append, pairwise_cons, forall_mem_cons, howner, hkey] at h ⊢
  exact h

/-! ## A reservation that fails -/

def CheckAnswer.isError : CheckAnswer → Bool
  | .reserved | .replay _ => false
  | .conflict _ | .invalidArgument | .persistFailed => true

/-- The same records in memory, but for those expired at `now`, and the same file. -/
def Ledger.SameRecords (now : Nat) (l l' : Ledger) : Prop :=
  sweepExpired l'.inner now = sweepExpired l.inner now ∧ l'.file = l.file

/-- The request is refused before anything is pushed, or it can be persisted, or what is pushed has
expired at once and nothing is evicted for it. -/
def Ledger.Harmless (l : Ledger) (q : IdempotencyRequest) (now : Nat) (writeOk : Bool) : Prop :=
  validateRequest q = false ∨ (∃ r ∈ sweepExpired l.inner now, r.isFor q = true) ∨
  (writeOk = true ∧
    ((sweepExpired l.inner now).filter StoredRecord.isReserved).length < maxIdempotencyRecords) ∨
  ((reservation q now).unexpired now = false ∧
    ((sweepExpired l.inner now).length < maxIdempotencyRecords ∨
      ∀ r ∈ sweepExpired l.inner now, r.isReserved = true))

theorem sweepExpired_sweepExpired (rs : List StoredRecord) (now : Nat) :
    sweepExpired (sweepExpired rs now) now = sweepExpired rs now := by
  simp [sweepExpired]

/-- A failed push keeps the records exactly when it is expired and nothing is evicted for it. -/
theorem sweep_push_eq_iff {live : List StoredRecord} (hlive : sweepExpired live now = live)
    (hfree : ∀ r ∈ live, r.isFor q = false) :
    sweepExpired (enforceBounds (live ++ [reservation q now])).1 now = live ↔
      (reservation q now).unexpired now = false ∧
        (live.length < maxIdempotencyRecords ∨ ∀ r ∈ live, r.isReserved = true) := by
  have hb := bounded_enforceBounds (live ++ [reservation q now])
  have hres : (reservation q now).isReserved = true := rfl
  have hself : (enforceBounds (live ++ [reservation q now])).1 = live ++ [reservation q now] ↔
      live.length < maxIdempotencyRecords ∨ ∀ r ∈ live, r.isReserved = true := by
    rw [hb.eq_iff, length_append, length_singleton, Nat.add_one_le_iff, forall_mem_append,
      forall_mem_singleton, and_iff_left hres]
  rw [← hself]
  constructor
  · intro heq
    have hexpired : (reservation q now).unexpired now = false := by
      by_contra hun
      have hmem : reservation q now ∈ live := by
        rw [← heq, mem_sweepExpired]
        exact ⟨mem_enforceBounds_of_reserved (by simp) hres, by simpa using hun⟩
      have hfor : (reservation q now).isFor q = true := StoredRecord.isFor_iff.mpr ⟨rfl, rfl⟩
      exact Bool.false_ne_true ((hfree _ hmem).symm.trans hfor)
    refine ⟨hexpired, ?_⟩
    -- all of `live` is still there, and so is the reservation
    have hlt : (sweepExpired (enforceBounds (live ++ [reservation q now])).1 now).length <
        (enforceBounds (live ++ [reservation q now])).1.length :=
      List.length_filter_lt_length_iff_exists.mpr
        ⟨reservation q now, mem_enforceBounds_of_reserved (by simp) hres, by simp [hexpired]⟩
    rw [heq] at hlt
    exact hb.sublist.eq_of_length_le (by rw [length_append]; exact hlt)
  · rintro ⟨hexpired, hsame⟩
    have hnone : sweepExpired [reservation q now] now = [] := by simp [sweepExpired, hexpired]
    rw [hsame, sweepExpired, filter_append]
    show sweepExpired live now ++ sweepExpired [reservation q now] now = live
    rw [hlive, hnone, append_nil]

/-- A refused request leaves the records as they are exactly when it is harmless. -/
theorem refused_keeps_records_iff (l : Ledger) (q : IdempotencyRequest) (now : Nat)
    (writeOk : Bool) :
    ((l.checkAndReserve q now writeOk).2.isError = true →
      l.SameRecords now (l.checkAndReserve q now writeOk).1) ↔ l.Harmless q now writeOk := by
  have hidem := sweepExpired_sweepExpired l.inner now
  unfold Ledger.checkAndReserve
  split
  next hvalid => exact iff_of_true (fun _ => ⟨rfl, rfl⟩) (.inl (by simpa using hvalid))
  next hvalid =>
    split
    next existing hfind =>
      exact iff_of_true (fun _ => ⟨hidem, rfl⟩)
        (.inr (.inl ⟨existing, mem_of_find?_eq_some hfind, find?_some hfind⟩))
    next hfind =>
      have hfree : ∀ r ∈ sweepExpired l.inner now, r.isFor q = false := by
        simpa using find?_eq_none.mp hfind
      have hpush := @sweep_push_eq_iff q now _ hidem hfree
      have hok := (bounded_enforceBounds (l.pushReservation q now).inner).ok_iff
      have hcount : ((l.pushReservation q now).inner.filter StoredRecord.isReserved).length =
          ((sweepExpired l.inner now).filter StoredRecord.isReserved).length + 1 := by
        simp [Ledger.pushReservation, filter_append, StoredRecord.isReserved, reservation]
      rw [hcount, Nat.add_one_le_iff] at hok
      unfold Ledger.persistLocked
      simp only
      split
      next hdone =>
        rw [Bool.and_eq_true] at hdone
        exact iff_of_true (fun h => absurd h Bool.false_ne_true)
          (.inr (.inr (.inl ⟨hdone.2, hok.mp hdone.1⟩)))
      next hfailed =>
        -- nothing was written, so it is about the records in memory
        have hnot : ¬ (writeOk = true ∧ ((sweepExpired l.inner now).filter
            StoredRecord.isReserved).length < maxIdempotencyRecords) := by
          rw [← hok, and_comm, ← Bool.and_eq_true]
          exact hfailed
        have hvalid' : ¬ validateRequest q = false := by simpa using hvalid
        have htaken : ¬ ∃ r ∈ sweepExpired l.inner now, r.isFor q = true := by
          rintro ⟨r, hr, hfor⟩
          exact Bool.false_ne_true ((hfree r hr).symm.trans hfor)
        rw [Ledger.Harmless, or_iff_right hvalid', or_iff_right htaken, or_iff_right hnot, ← hpush]
        exact ⟨fun h => (h rfl).1, fun h _ => ⟨h, rfl⟩⟩

/-- The write of the ledger file fails. The reservation stays in memory, and the next attempt with
the same key is told that a commit is in flight. -/
theorem failed_write_blocks_key :
    let q : IdempotencyRequest := ⟨['k'], ['o'], 1, none⟩
    let l : Ledger := ⟨[], []⟩
    (l.checkAndReserve q 0 false).2 = .persistFailed ∧
      ¬ l.SameRecords 0 (l.checkAndReserve q 0 false).1 ∧
      ((l.checkAndReserve q 0 false).1.checkAndReserve q 1 true).2 = .conflict .inFlight := by
  refine ⟨by decide, fun h => ?_, by decide⟩
  exact absurd h.1 (by decide)

end MongrelDB.Txn
