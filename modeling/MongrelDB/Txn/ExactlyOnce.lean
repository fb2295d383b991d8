import MongrelDB.Lib.Transition
import MongrelDB.Txn.Idempotency

/-!
# Exactly-once commits through the idempotency ledger

The system around the ledger interleaves the calls of any number of requests with
crashes and a clock that never goes back, and keeps, per request, how far its commit
has come.
-/

namespace MongrelDB.Txn

open Lib (Reachable anyStep exists_reachable_of_execute)
open List
open Option hiding any_eq_false any_eq_true

universe u

/-! ## Requests, crashes and the clock -/

/-- How far the commit of a request has come. -/
inductive RequestPhase where
  | idle
  /-- got another answer than `Reserved` -/
  | answered
  /-- told `Reserved`, nothing proposed to the log yet -/
  | reserved
  /-- proposed to the log; `durable` once the commit is -/
  | proposed (durable : Bool)
  /-- `armed`: the persist of the completion failed, the guard is still to drop -/
  | completed (receipt : CommitReceipt) (expires : Option Nat) (armed : Bool)
  /-- released before anything was proposed -/
  | released
  /-- released after the commit was proposed -/
  | abandoned (durable : Bool)
  /-- the process died before anything was proposed -/
  | stranded
  /-- the process died after the commit was proposed -/
  | crashed (durable : Bool)
  /-- completed, and the record was evicted for size -/
  | evicted
  deriving DecidableEq

namespace RequestPhase

/-- The window of the request is open at `now`: it was told `Reserved`, has not been released
cleanly, and its completed record is retained. -/
def isOpen (now : Nat) : RequestPhase → Bool
  | reserved | proposed _ | abandoned _ | stranded | crashed _ => true
  | completed _ expires _ => expires.all (now < ·)
  | idle | answered | released | evicted => false

def isDurable : RequestPhase → Bool
  | proposed d | abandoned d | crashed d => d
  | completed _ _ _ | evicted => true
  | idle | answered | reserved | released | stranded => false

def receipt? : RequestPhase → Option CommitReceipt
  | completed receipt _ _ => some receipt
  | _ => none

/-- A completed request whose record an eviction removed. -/
def retire (before after : Bool) : RequestPhase → RequestPhase
  | completed receipt expires armed =>
    if before && !after then evicted else completed receipt expires armed
  | p => p

/-- The commit record reaches stable storage, or recovery finds that it has. -/
def becomeDurable : RequestPhase → Option RequestPhase
  | proposed false => some (proposed true)
  | abandoned false => some (abandoned true)
  | crashed false => some (crashed true)
  | _ => none

/-- The guard of an error path drops the reservation. -/
def drop : RequestPhase → Option RequestPhase
  | reserved => some released
  | proposed d => some (abandoned d)
  | completed receipt expires true => some (completed receipt expires false)
  | _ => none

/-- A crash ends every call in flight. -/
def crash : RequestPhase → RequestPhase
  | reserved => stranded
  | proposed d => crashed d
  | completed receipt expires _ => completed receipt expires false
  | p => p

end RequestPhase

variable {ι : Type u}

/-- One answered `check_and_reserve`, with the phases of all requests at that moment. -/
structure AnswerEvent (ι : Type u) where
  who : ι
  answer : CheckAnswer
  now : Nat
  phases : ι → RequestPhase

structure LedgerState (ι : Type u) where
  ledger : Ledger
  now : Nat
  phase : ι → RequestPhase
  answers : List (AnswerEvent ι)

inductive LedgerLabel (ι : Type u) where
  /-- `check_and_reserve` with the clock read at `time`, before the lock -/
  | check (a : ι) (time : Nat) (writeOk : Bool)
  | propose (a : ι)
  | becomeDurable (a : ι)
  | complete (a : ι) (receipt : CommitReceipt) (writeOk : Bool)
  | release (a : ι) (writeOk : Bool)
  /-- a crash, then `open` -/
  | reopen
  | tick (micros : Nat)

namespace LedgerState

def init : LedgerState ι where
  ledger := { inner := [], file := [] }
  now := 0
  phase := fun _ => .idle
  answers := []

section Step

variable [DecidableEq ι] (req : ι → IdempotencyRequest)

def setPhase (s : LedgerState ι) (a : ι) (p : RequestPhase) : LedgerState ι :=
  { s with phase := fun b => if b = a then p else s.phase b }

/-- Requests whose record the step from `before` to the current slots evicted. -/
def retireEvicted (s : LedgerState ι) (before : List StoredRecord) : LedgerState ι :=
  { s with
    phase := fun a =>
      (s.phase a).retire (before.any (StoredRecord.isFor (req a)))
        (s.ledger.inner.any (StoredRecord.isFor (req a))) }

/-- Persist the slots as they are now. -/
def persist (s : LedgerState ι) (writeOk : Bool) : LedgerState ι :=
  { s with ledger := (s.ledger.persistLocked writeOk).1 }.retireEvicted req s.ledger.inner

/-- `check_and_reserve`; evictions happen only when a reservation was pushed. -/
def check (s : LedgerState ι) (a : ι) (time : Nat) (writeOk : Bool) : LedgerState ι :=
  let r := s.ledger.checkAndReserve (req a) time writeOk
  let s' : LedgerState ι :=
    { s with
      ledger := r.1
      answers := ⟨a, r.2, s.now, s.phase⟩ :: s.answers }
  match r.2 with
  | .reserved => (s'.retireEvicted req (s.ledger.pushReservation (req a) time).inner).setPhase
      a .reserved
  | .persistFailed => (s'.retireEvicted req (s.ledger.pushReservation (req a) time).inner).setPhase
      a .answered
  | .replay _ | .conflict _ | .invalidArgument => s'.setPhase a .answered

/-- `complete`; a vanished reservation is an error that changes nothing. -/
def complete (s : LedgerState ι) (a : ι) (receipt : CommitReceipt) (writeOk : Bool) :
    LedgerState ι :=
  match s.ledger.complete (req a) receipt s.now with
  | none => s
  | some l =>
    ({ s with ledger := l }.setPhase a (.completed receipt (expiryMicros (req a).ttl s.now)
      (!(l.persistLocked writeOk).2))).persist req writeOk

def step (s : LedgerState ι) : LedgerLabel ι → Option (LedgerState ι)
  | .check a time writeOk =>
    if s.phase a = .idle ∧ time ≤ s.now then some (s.check req a time writeOk) else none
  | .propose a =>
    if s.phase a = .reserved then some (s.setPhase a (.proposed false)) else none
  | .becomeDurable a => (s.phase a).becomeDurable.map fun p => s.setPhase a p
  | .complete a receipt writeOk =>
    if s.phase a = .proposed true then some (s.complete req a receipt writeOk) else none
  | .release a writeOk => (s.phase a).drop.map fun p =>
      ({ s with ledger := s.ledger.release (req a) }.setPhase a p).persist req writeOk
  | .reopen => some
      { s with
        ledger := s.ledger.reopen s.now
        phase := fun a => (s.phase a).crash }
  | .tick d => some { s with now := s.now + d }

end Step

/-! ## The contract and its side condition -/

variable (req : ι → IdempotencyRequest)

/-- Two requests of one `(owner, key)`. -/
def SameSlot (a b : ι) : Prop := (req a).owner = (req b).owner ∧ (req a).key = (req b).key

/-- A conflict, or the receipt of the request in phase `p`. -/
def AnswerOk (p : RequestPhase) (answer : CheckAnswer) : Prop :=
  (∃ why, answer = .conflict why) ∨ ∃ receipt, p.receipt? = some receipt ∧ answer = .replay receipt

/-- Whenever a request was answered while the window of another one of its slot was open and the
commit of that one is durable, it was given a conflict or that one's receipt. -/
def ExactlyOnce (s : LedgerState ι) : Prop :=
  ∀ e ∈ s.answers, ∀ a, a ≠ e.who → SameSlot req a e.who →
    (e.phases a).isOpen e.now = true → (s.phase a).isDurable = true →
    AnswerOk (e.phases a) e.answer

/-- No sweep drops a reservation, and no release drops one but the releasing request's own, before
its commit was proposed. -/
def ReservationsKept (s : LedgerState ι) : LedgerLabel ι → Prop
  | .check _ time _ => ∀ r ∈ s.ledger.inner, r.isReserved = true → r.unexpired time = true
  | .reopen => ∀ r ∈ s.ledger.file, r.isReserved = true → r.unexpired s.now = true
  | .release a _ => s.phase a = .reserved ∨
      ∀ r ∈ s.ledger.inner, r.isFor (req a) = true → r.isReserved = false
  | .propose _ | .becomeDurable _ | .complete _ _ _ | .tick _ => True

instance (s : LedgerState ι) (l : LedgerLabel ι) : Decidable (ReservationsKept req s l) := by
  unfold ReservationsKept
  split <;> infer_instance

end LedgerState

/-! ## The record behind an open window -/

/-- The record keeps the slot for a request in phase `p`: as a reservation, or with its receipt. -/
def StoredRecord.Backs (r : StoredRecord) (p : RequestPhase) : Prop :=
  r.isReserved = true ∨ ∃ receipt expires armed, p = .completed receipt expires armed ∧
    r.outcome = .committed receipt ∧ r.expiresAtMicros = expires

/-- While its window is open, some record keeps the slot of the request. -/
structure Backed (rs : List StoredRecord) (now : Nat) (q : IdempotencyRequest)
    (p : RequestPhase) : Prop where
  not_abandoned : ∀ d, p ≠ .abandoned d
  valid : p.isOpen now = true → validateRequest q = true
  record : p.isOpen now = true → ∃ r ∈ rs, r.isFor q = true ∧ r.Backs p

variable {r : StoredRecord} {time : Nat}

section Backed

variable {rs rs' : List StoredRecord} {now : Nat} {q : IdempotencyRequest} {p p' : RequestPhase}

theorem Backed.of_closed (hopen : p.isOpen now = false) : Backed rs now q p :=
  ⟨fun d hd => by simp [hd, RequestPhase.isOpen] at hopen, fun h => by simp [hopen] at h,
    fun h => by simp [hopen] at h⟩

theorem Backed.mono (h : Backed rs now q p)
    (hsub : ∀ r ∈ rs, r.isFor q = true → r.Backs p → p.isOpen now = true → r ∈ rs') :
    Backed rs' now q p :=
  ⟨h.not_abandoned, h.valid, fun hopen => by
    obtain ⟨r, hr, hq, hb⟩ := h.record hopen
    exact ⟨r, hsub r hr hq hb hopen, hq, hb⟩⟩

/-- A request without a receipt is kept by a reservation, in whatever phase it goes on. -/
theorem Backed.advance (h : Backed rs now q p) (hopen : p.isOpen now = true)
    (hreceipt : p.receipt? = none) (hp' : ∀ d, p' ≠ .abandoned d) : Backed rs now q p' := by
  refine ⟨hp', fun _ => h.valid hopen, fun _ => ?_⟩
  obtain ⟨r, hr, hq, hb | ⟨_, _, _, rfl, -⟩⟩ := h.record hopen
  · exact ⟨r, hr, hq, .inl hb⟩
  · simp [RequestPhase.receipt?] at hreceipt

theorem Backed.disarm {receipt : CommitReceipt} {expires : Option Nat} {armed : Bool}
    (h : Backed rs now q (.completed receipt expires armed)) (armed' : Bool) :
    Backed rs now q (.completed receipt expires armed') := by
  refine ⟨by simp, h.valid, fun hopen => ?_⟩
  obtain ⟨r, hr, hq, hres | ⟨_, _, _, heq, hout, hexp⟩⟩ := h.record hopen
  · exact ⟨r, hr, hq, .inl hres⟩
  · cases heq
    exact ⟨r, hr, hq, .inr ⟨_, _, _, rfl, hout, hexp⟩⟩

theorem StoredRecord.Backs.unexpired (h : r.Backs p)
    (hopen : p.isOpen now = true) (htime : time ≤ now)
    (hkept : r.isReserved = true → r.unexpired time = true) : r.unexpired time = true := by
  rcases h with hres | ⟨receipt, expires, armed, rfl, -, rfl⟩
  · exact hkept hres
  · simp only [RequestPhase.isOpen] at hopen
    unfold StoredRecord.unexpired
    cases hexp : r.expiresAtMicros with
    | none => rfl
    | some e =>
      rw [hexp] at hopen
      simp only [all_some, decide_eq_true_eq] at hopen ⊢
      omega

/-- A sweep that drops no reservation keeps every open slot. -/
theorem Backed.sweep (h : Backed rs now q p) (htime : time ≤ now)
    (hkept : ∀ r ∈ rs, r.isReserved = true → r.unexpired time = true) :
    Backed (sweepExpired rs time) now q p :=
  h.mono fun r hr _ hb hopen =>
    mem_sweepExpired.mpr ⟨hr, hb.unexpired hopen htime (hkept r hr)⟩

theorem RequestPhase.retire_eq_or (p : RequestPhase) (before after : Bool) :
    p.retire before after = p ∨ p.retire before after = .evicted := by
  cases p with
  | completed receipt expires armed =>
    cases before <;> cases after <;> simp [RequestPhase.retire]
  | _ => exact .inl rfl

theorem RequestPhase.isOpen_of_retire {before after : Bool}
    (h : (p.retire before after).isOpen now = true) : p.isOpen now = true := by
  rcases p.retire_eq_or before after with heq | heq
  · rwa [heq] at h
  · simp [heq, RequestPhase.isOpen] at h

theorem RequestPhase.closed_retire {before after : Bool} (h : p.isOpen now = false) :
    (p.retire before after).isOpen now = false :=
  Bool.eq_false_iff.mpr fun hopen => Bool.eq_false_iff.mp h (isOpen_of_retire hopen)

/-- An eviction takes the record of a completed request only, and retires it. -/
theorem Backed.evict (h : Backed rs now q p) (hu : UniqueSlots rs) :
    Backed (enforceBounds rs).1 now q (p.retire (rs.any (StoredRecord.isFor q))
      ((enforceBounds rs).1.any (StoredRecord.isFor q))) := by
  by_cases hopen : p.isOpen now = true
  · obtain ⟨r, hr, hq, hb⟩ := h.record hopen
    by_cases hin : r ∈ (enforceBounds rs).1
    · have hany : (enforceBounds rs).1.any (StoredRecord.isFor q) = true :=
        any_eq_true.mpr ⟨r, hin, hq⟩
      have hsame : ∀ b, p.retire b true = p := by
        intro b
        cases p <;> simp [RequestPhase.retire]
      rw [hany, hsame]
      exact ⟨h.not_abandoned, h.valid, fun _ => ⟨r, hin, hq, hb⟩⟩
    · -- not a reservation, so the request is completed; the slot has no other record
      rcases hb with hres | ⟨receipt, expires, armed, rfl, -⟩
      · exact absurd (mem_enforceBounds_of_reserved hr hres) hin
      · have hbefore : rs.any (StoredRecord.isFor q) = true := any_eq_true.mpr ⟨r, hr, hq⟩
        have hafter : (enforceBounds rs).1.any (StoredRecord.isFor q) = false := by
          rw [any_eq_false]
          intro r' hr' hq'
          rw [hu.eq_of_isFor hr ((enforceBounds_sublist rs).subset hr') hq hq'] at hin
          exact hin hr'
        rw [hbefore, hafter]
        exact .of_closed rfl
  · refine .of_closed ?_
    by_contra hopen'
    exact hopen (RequestPhase.isOpen_of_retire (by simpa using hopen'))

/-- What an eviction in memory does to the request does not matter to the file. -/
theorem Backed.retire (h : Backed rs now q p) (before after : Bool) :
    Backed rs now q (p.retire before after) := by
  rcases p.retire_eq_or before after with heq | heq
  · rwa [heq]
  · rw [heq]
    exact .of_closed rfl

end Backed

/-! ## The invariant -/

namespace LedgerState

variable (req : ι → IdempotencyRequest)

structure Inv (s : LedgerState ι) : Prop where
  inner_unique : UniqueSlots s.ledger.inner
  file_unique : UniqueSlots s.ledger.file
  inner_backed : ∀ a, Backed s.ledger.inner s.now (req a) (s.phase a)
  file_backed : ∀ a, Backed s.ledger.file s.now (req a) (s.phase a)
  single : ∀ a b, a ≠ b → SameSlot req a b → (s.phase a).isOpen s.now = true →
    (s.phase b).isOpen s.now = false
  answered : ∀ e ∈ s.answers, ∀ a, a ≠ e.who → SameSlot req a e.who →
    (e.phases a).isOpen e.now = true → AnswerOk (e.phases a) e.answer

theorem init_inv : Inv req (init : LedgerState ι) where
  inner_unique := Pairwise.nil
  file_unique := Pairwise.nil
  inner_backed _ := .of_closed rfl
  file_backed _ := .of_closed rfl
  single _ _ _ _ _ := rfl
  answered _ he := absurd he not_mem_nil

variable {req} {s : LedgerState ι} {a b : ι} {p : RequestPhase}

theorem SameSlot.symm (h : SameSlot req a b) : SameSlot req b a := ⟨h.1.symm, h.2.symm⟩

theorem SameSlot.isFor (h : SameSlot req a b) (r : StoredRecord) :
    r.isFor (req a) = r.isFor (req b) := by
  simp [StoredRecord.isFor, h.1, h.2]

theorem SameSlot.validateRequest (h : SameSlot req a b) :
    validateRequest (req a) = validateRequest (req b) := by
  simp [Txn.validateRequest, h.1, h.2]

theorem sameSlot_of_isFor (ha : r.isFor (req a) = true)
    (hb : r.isFor (req b) = true) : SameSlot req a b := by
  rw [StoredRecord.isFor_iff] at ha hb
  exact ⟨ha.1.symm.trans hb.1, ha.2.symm.trans hb.2⟩

namespace Inv

variable (h : Inv req s)
include h

theorem exists_record (hopen : (s.phase a).isOpen s.now = true) :
    ∃ r ∈ s.ledger.inner, r.isFor (req a) = true ∧ r.Backs (s.phase a) :=
  (h.inner_backed a).record hopen

theorem persist (writeOk : Bool) : Inv req (s.persist req writeOk) := by
  have hinner := s.ledger.persistLocked_inner writeOk
  have hfile := s.ledger.persistLocked_file writeOk
  have hevict : ∀ a, Backed (enforceBounds s.ledger.inner).1 s.now (req a)
      ((s.persist req writeOk).phase a) := by
    intro a
    show Backed _ _ _ ((s.phase a).retire _ ((s.ledger.persistLocked writeOk).1.inner.any _))
    rw [hinner]
    exact (h.inner_backed a).evict h.inner_unique
  refine ⟨?_, ?_, fun a => ?_, fun a => ?_, ?_, h.answered⟩
  · exact hinner ▸ h.inner_unique.sublist (enforceBounds_sublist _)
  · rcases hfile with heq | heq
    · exact heq ▸ h.file_unique
    · exact heq ▸ h.inner_unique.sublist (enforceBounds_sublist _)
  · exact hinner ▸ hevict a
  · show Backed (s.ledger.persistLocked writeOk).1.file _ _ _
    rcases hfile with heq | heq
    · exact heq ▸ (h.file_backed a).retire _ _
    · exact heq ▸ hevict a
  · intro a b hne hslot hopen
    exact RequestPhase.closed_retire (h.single a b hne hslot (RequestPhase.isOpen_of_retire hopen))

theorem sweep (htime : time ≤ s.now)
    (hkept : ∀ r ∈ s.ledger.inner, r.isReserved = true → r.unexpired time = true) :
    Inv req { s with ledger := { s.ledger with inner := sweepExpired s.ledger.inner time } } :=
  { h with
    inner_unique := h.inner_unique.sublist filter_sublist
    inner_backed := fun a => (h.inner_backed a).sweep htime hkept }

theorem push {q : IdempotencyRequest}
    (hnone : ∀ r ∈ s.ledger.inner, r.isFor q = false) :
    Inv req { s with
      ledger := { s.ledger with inner := s.ledger.inner ++ [reservation q time] } } :=
  { h with
    inner_unique := h.inner_unique.push hnone
    inner_backed := fun a => (h.inner_backed a).mono fun _ hr _ _ _ => mem_append_left _ hr }

theorem answer {e : AnswerEvent ι}
    (he : ∀ a, a ≠ e.who → SameSlot req a e.who → (e.phases a).isOpen e.now = true →
      AnswerOk (e.phases a) e.answer) : Inv req { s with answers := e :: s.answers } :=
  { h with
    answered := fun e' he' => by
      rcases mem_cons.mp he' with rfl | he'
      · exact he
      · exact h.answered e' he' }

/-- The slot of an open window is answered by a conflict or by its receipt. -/
theorem classify_ok (hslot : SameSlot req a b)
    (hopen : (s.phase a).isOpen s.now = true)
    (hfind : s.ledger.inner.find? (StoredRecord.isFor (req b)) = some r) :
    AnswerOk (s.phase a) (classifyExisting (req b) r) := by
  obtain ⟨r', hr', hq, hb⟩ := h.exists_record hopen
  rw [hslot.isFor] at hq
  obtain rfl : r' = r := some.inj ((h.inner_unique.find? hr' hq).symm.trans hfind)
  unfold classifyExisting
  split
  · exact .inl ⟨_, rfl⟩
  · rcases hb with hres | ⟨receipt, expires, armed, heq, hout, -⟩
    · simp only [StoredRecord.isReserved, decide_eq_true_eq] at hres
      rw [hres]
      exact .inl ⟨_, rfl⟩
    · rw [hout]
      exact .inr ⟨receipt, by rw [heq]; rfl, rfl⟩

theorem closed_of_find?_none (hslot : SameSlot req a b)
    (hnone : s.ledger.inner.find? (StoredRecord.isFor (req b)) = none) :
    (s.phase a).isOpen s.now = false := by
  by_contra hopen
  obtain ⟨r, hr, hq, -⟩ := h.exists_record (by simpa using hopen)
  rw [hslot.isFor] at hq
  exact find?_eq_none.mp hnone r hr hq

theorem tick (d : Nat) : Inv req { s with now := s.now + d } := by
  have hclose : ∀ p : RequestPhase, p.isOpen (s.now + d) = true → p.isOpen s.now = true := by
    intro p hp
    cases p with
    | completed receipt expires armed =>
      simp only [RequestPhase.isOpen, Option.all_eq_true, decide_eq_true_eq] at hp ⊢
      exact fun e he => Nat.lt_of_le_of_lt (Nat.le_add_right _ _) (hp e he)
    | _ => exact hp
  have hbacked : ∀ {rs q p}, Backed rs s.now q p → Backed rs (s.now + d) q p := fun hb =>
    ⟨hb.not_abandoned, fun ho => hb.valid (hclose _ ho), fun ho => hb.record (hclose _ ho)⟩
  refine { h with
    inner_backed := fun a => hbacked (h.inner_backed a)
    file_backed := fun a => hbacked (h.file_backed a)
    single := fun a b hne hslot ha => ?_ }
  by_contra hb
  have hb' := hclose _ (Bool.eq_true_of_not_eq_false hb)
  rw [h.single a b hne hslot (hclose _ ha)] at hb'
  exact Bool.noConfusion hb'

theorem reopen (hkept : ∀ r ∈ s.ledger.file, r.isReserved = true → r.unexpired s.now = true) :
    Inv req { s with ledger := s.ledger.reopen s.now, phase := fun a => (s.phase a).crash } := by
  have hopen : ∀ p : RequestPhase, p.crash.isOpen s.now = p.isOpen s.now := by
    intro p
    cases p <;> rfl
  have hcrash : ∀ {rs q p}, Backed rs s.now q p → Backed rs s.now q p.crash := by
    intro rs q p hb
    cases p with
    | reserved | proposed _ => exact hb.advance rfl rfl (by simp [RequestPhase.crash])
    | completed receipt expires armed => exact hb.disarm false
    | _ => exact hb
  refine ⟨h.file_unique.sublist filter_sublist, h.file_unique, fun a => ?_, fun a => ?_, ?_,
    h.answered⟩
  · exact (hcrash (h.file_backed a)).sweep le_rfl hkept
  · exact hcrash (h.file_backed a)
  · intro a b hne hslot ha
    rw [hopen] at ha ⊢
    exact h.single a b hne hslot ha

theorem dropSlot (hclosed : ∀ b, SameSlot req a b → (s.phase b).isOpen s.now = false) :
    Inv req { s with ledger := s.ledger.release (req a) } := by
  refine { h with
    inner_unique := h.inner_unique.sublist filter_sublist
    inner_backed := fun b => (h.inner_backed b).mono fun r hr hrb _ hopen => ?_ }
  refine mem_filter.mpr ⟨hr, ?_⟩
  cases hra : r.isFor (req a) with
  | false => rfl
  | true =>
    rw [hclosed b (sameSlot_of_isFor hra hrb)] at hopen
    exact Bool.noConfusion hopen

variable [DecidableEq ι]

theorem setPhase (hinner : Backed s.ledger.inner s.now (req a) p)
    (hfile : Backed s.ledger.file s.now (req a) p)
    (hsingle : p.isOpen s.now = true → ∀ b, b ≠ a → SameSlot req a b →
      (s.phase b).isOpen s.now = false) : Inv req (s.setPhase a p) := by
  refine { h with
    inner_backed := fun b => ?_
    file_backed := fun b => ?_
    single := fun b c hne hslot hb => ?_ }
  · show Backed _ _ _ (if b = a then p else s.phase b)
    split
    next heq => exact heq ▸ hinner
    next => exact h.inner_backed b
  · show Backed _ _ _ (if b = a then p else s.phase b)
    split
    next heq => exact heq ▸ hfile
    next => exact h.file_backed b
  · replace hb : (if b = a then p else s.phase b).isOpen s.now = true := hb
    show (if c = a then p else s.phase c).isOpen s.now = false
    split at hb
    next heq =>
      subst heq
      rw [if_neg hne.symm]
      exact hsingle hb c hne.symm hslot
    next hba =>
      split
      next heq =>
        subst heq
        by_contra hc
        have := hsingle (Bool.eq_true_of_not_eq_false hc) b hba hslot.symm
        rw [this] at hb
        exact Bool.noConfusion hb
      next => exact h.single b c hne hslot hb

theorem setClosed (hp : p.isOpen s.now = false) : Inv req (s.setPhase a p) :=
  h.setPhase (.of_closed hp) (.of_closed hp) fun ho => by simp [hp] at ho

theorem advance (hopen : (s.phase a).isOpen s.now = true)
    (hreceipt : (s.phase a).receipt? = none) (hp : ∀ d, p ≠ .abandoned d) :
    Inv req (s.setPhase a p) :=
  h.setPhase ((h.inner_backed a).advance hopen hreceipt hp)
    ((h.file_backed a).advance hopen hreceipt hp)
    fun _ b hne hslot => h.single a b hne.symm hslot hopen

/-- Replacing the record of `a` by one that backs its phase touches no other open window. -/
theorem replaceRecord {pre post : List StoredRecord}
    (r' : StoredRecord) (hinner : s.ledger.inner = pre ++ r :: post) (hr : r.isFor (req a) = true)
    (howner : r'.owner = r.owner) (hkey : r'.key = r.key) (hbacks : r'.Backs (s.phase a))
    (hclosed : ∀ b, b ≠ a → SameSlot req a b → (s.phase b).isOpen s.now = false) :
    Inv req { s with ledger := { s.ledger with inner := pre ++ r' :: post } } := by
  have hr' : r'.isFor (req a) = true := by
    simpa [StoredRecord.isFor, howner, hkey] using hr
  refine { h with
    inner_unique := (hinner ▸ h.inner_unique).replace howner hkey
    inner_backed := fun b => ?_ }
  by_cases hba : b = a
  · subst hba
    exact ⟨(h.inner_backed b).not_abandoned, (h.inner_backed b).valid,
      fun _ => ⟨r', by simp, hr', hbacks⟩⟩
  · refine (h.inner_backed b).mono fun x hx hxb _ hopen => ?_
    rw [hinner, mem_append, mem_cons] at hx
    rcases hx with hx | rfl | hx
    · exact mem_append_left _ hx
    · rw [hclosed b hba (sameSlot_of_isFor hr hxb)] at hopen
      exact Bool.noConfusion hopen
    · exact mem_append_right _ (mem_cons_of_mem _ hx)

/-! ### The calls -/

theorem check (htime : time ≤ s.now)
    (hkept : ∀ r ∈ s.ledger.inner, r.isReserved = true → r.unexpired time = true)
    (writeOk : Bool) : Inv req (s.check req a time writeOk) := by
  have hswept := h.sweep htime hkept
  unfold LedgerState.check Ledger.checkAndReserve
  split
  next hinvalid =>
    refine Inv.setClosed (h.answer fun b _ hslot hopen => ?_) rfl
    rw [← hslot.validateRequest, (h.inner_backed b).valid hopen] at hinvalid
    simp at hinvalid
  next hvalid =>
    split
    next existing hfind =>
      have hans := hswept.answer (e := ⟨a, classifyExisting (req a) existing, s.now, s.phase⟩)
        fun b _ hslot hopen => hswept.classify_ok hslot hopen hfind
      simp only
      rcases classifyExisting_eq_or (req a) existing with ⟨why, heq⟩ | ⟨receipt, heq⟩ <;>
        · rw [heq] at hans ⊢
          exact hans.setClosed rfl
    next hnone =>
      have hclosed : ∀ b, SameSlot req a b → (s.phase b).isOpen s.now = false := fun b hslot =>
        hswept.closed_of_find?_none hslot.symm hnone
      have hpushed : Inv req { s with ledger := s.ledger.pushReservation (req a) time } :=
        hswept.push (q := req a) fun r hr => by simpa using find?_eq_none.mp hnone r hr
      have hpersisted := fun answer =>
        (hpushed.answer (e := ⟨a, answer, s.now, s.phase⟩) fun b _ hslot hopen => by
          simp [hclosed b hslot.symm] at hopen).persist writeOk
      cases hok : ((s.ledger.pushReservation (req a) time).persistLocked writeOk).2 with
      | false =>
        simp only [hok]
        exact (hpersisted .persistFailed).setClosed rfl
      | true =>
        simp only [hok]
        have hreserved : Backed (enforceBounds (s.ledger.pushReservation (req a) time).inner).1
            s.now (req a) .reserved := by
          refine ⟨by simp, fun _ => by simpa using hvalid,
            fun _ => ⟨reservation (req a) time, ?_, ?_,
            .inl rfl⟩⟩
          · exact mem_enforceBounds_of_reserved (by simp [Ledger.pushReservation]) rfl
          · simp [StoredRecord.isFor, reservation]
        refine (hpersisted .reserved).setPhase ?_ ?_ ?_
        · exact (Ledger.persistLocked_inner _ writeOk) ▸ hreserved
        · exact (Ledger.persistLocked_ok hok) ▸ hreserved
        · intro _ b _ hslot
          exact RequestPhase.closed_retire (hclosed b hslot)

theorem complete (hp : s.phase a = .proposed true) (receipt : CommitReceipt)
    (writeOk : Bool) : Inv req (s.complete req a receipt writeOk) := by
  unfold LedgerState.complete
  split
  next => exact h
  next l hl =>
    obtain ⟨inner, hmod, rfl⟩ := map_eq_some_iff.mp hl
    obtain ⟨pre, r, post, hinner, hr, rfl⟩ := modifyFirst_eq_some hmod
    have hopen : (s.phase a).isOpen s.now = true := by rw [hp]; rfl
    -- first the phase, which the reservation still backs, then the record
    have hphase := h.advance (p := .completed receipt (expiryMicros (req a).ttl s.now)
      (!(Ledger.persistLocked { s.ledger with
        inner := pre ++ completeRecord (req a) receipt s.now r :: post } writeOk).2))
      hopen (by rw [hp]; rfl) (by simp)
    refine (hphase.replaceRecord (a := a) (completeRecord (req a) receipt s.now r) hinner hr
      rfl rfl ?_ ?_).persist writeOk
    · exact .inr ⟨receipt, _, _, if_pos rfl, rfl, rfl⟩
    · intro b hba hslot
      show (if b = a then _ else s.phase b).isOpen s.now = false
      rw [if_neg hba]
      exact h.single a b hba.symm hslot hopen

theorem release (hdrop : (s.phase a).drop = some p) {writeOk : Bool}
    (hok : ReservationsKept req s (.release a writeOk)) :
    Inv req (({ s with ledger := s.ledger.release (req a) }.setPhase a p).persist req writeOk) := by
  refine Inv.persist ?_ writeOk
  by_cases hp : s.phase a = .reserved
  · obtain rfl : RequestPhase.released = p := by simpa [hp, RequestPhase.drop] using hdrop
    have hopen : (s.phase a).isOpen s.now = true := by rw [hp]; rfl
    have hleft : Inv req (s.setPhase a .released) := h.setClosed rfl
    refine hleft.dropSlot fun b hslot => ?_
    show (if b = a then _ else s.phase b).isOpen s.now = false
    split
    · rfl
    next hba => exact h.single a b (Ne.symm hba) hslot hopen
  · -- there is no reservation in the slot, so nothing is dropped
    have hnone := hok.resolve_left hp
    have hsame : s.ledger.release (req a) = s.ledger := by
      unfold Ledger.release
      rw [filter_eq_self.mpr]
      intro r hr
      cases hra : r.isFor (req a) with
      | false => rfl
      | true => simp [hnone r hr hra]
    rw [hsame]
    cases hphase : s.phase a with
    | proposed d =>
      have hopen : (s.phase a).isOpen s.now = true := by rw [hphase]; rfl
      obtain ⟨r, hr, hra, hres | ⟨_, _, _, heq, -⟩⟩ := h.exists_record hopen
      · simp [hnone r hr hra] at hres
      · simp [hphase] at heq
    | completed receipt expires armed =>
      cases armed with
      | false => simp [hphase, RequestPhase.drop] at hdrop
      | true =>
        obtain rfl : RequestPhase.completed receipt expires false = p := by
          simpa [hphase, RequestPhase.drop] using hdrop
        have hin := h.inner_backed a
        have hfile := h.file_backed a
        rw [hphase] at hin hfile
        refine h.setPhase (hin.disarm false) (hfile.disarm false) fun hopen b hba hslot => ?_
        exact h.single a b hba.symm hslot (by rw [hphase]; exact hopen)
    | reserved => exact absurd hphase hp
    | _ => simp [hphase, RequestPhase.drop] at hdrop

end Inv

variable [DecidableEq ι]

theorem becomeDurable_inv (h : Inv req s) (hp : (s.phase a).becomeDurable = some p) :
    Inv req (s.setPhase a p) := by
  cases hphase : s.phase a with
  | proposed d | crashed d =>
    refine h.advance (by rw [hphase]; rfl) (by rw [hphase]; rfl) fun d' => ?_
    rintro rfl
    cases d <;> simp [hphase, RequestPhase.becomeDurable] at hp
  | abandoned d => exact absurd hphase ((h.inner_backed a).not_abandoned d)
  | _ => simp [hphase, RequestPhase.becomeDurable] at hp

theorem step_inv {s' : LedgerState ι} {l : LedgerLabel ι} (h : Inv req s)
    (hok : ReservationsKept req s l) (hs : s.step req l = some s') : Inv req s' := by
  cases l with
  | check a time writeOk =>
    simp only [step, ite_none_right_eq_some, some.injEq] at hs
    obtain ⟨⟨-, htime⟩, rfl⟩ := hs
    exact h.check htime hok writeOk
  | propose a =>
    simp only [step, ite_none_right_eq_some, some.injEq] at hs
    obtain ⟨hp, rfl⟩ := hs
    exact h.advance (by rw [hp]; rfl) (by rw [hp]; rfl) (by simp)
  | becomeDurable a =>
    obtain ⟨p, hp, rfl⟩ := map_eq_some_iff.mp hs
    exact becomeDurable_inv h hp
  | complete a receipt writeOk =>
    simp only [step, ite_none_right_eq_some, some.injEq] at hs
    obtain ⟨hp, rfl⟩ := hs
    exact h.complete hp receipt writeOk
  | release a writeOk =>
    obtain ⟨p, hp, rfl⟩ := map_eq_some_iff.mp hs
    exact h.release hp hok
  | reopen =>
    obtain rfl := some.inj hs
    exact h.reopen hok
  | tick d =>
    obtain rfl := some.inj hs
    exact h.tick d

/-- The exactly-once contract in every run that keeps its reservations. -/
theorem exactly_once_of_kept_reservations (req : ι → IdempotencyRequest) (s : LedgerState ι)
    (h : Reachable (step req) (ReservationsKept req) init s) : ExactlyOnce req s := by
  have hinv : Inv req s := h.invariant (init_inv req) fun _ _ _ => step_inv
  intro e he a hne hslot hopen _
  exact hinv.answered e he a hne hslot hopen

/-- The same request, sent by every client. -/
def sameRequest (ttl : Option Nat) : Fin 3 → IdempotencyRequest := fun _ =>
  { key := ['k'], owner := ['o'], fingerprint := 7, ttl }

def someReceipt : CommitReceipt := { txnId := 1, epoch := 1, commitTs := ⟨1, 0, 0⟩ }

/-- The second client asks while the first one is in flight, the third one after it completed. -/
theorem exactly_once_replays :
    ∃ s, Reachable (step (sameRequest (some 100))) (ReservationsKept (sameRequest (some 100)))
        init s ∧
      s.answers.map (·.answer) = [.replay someReceipt, .conflict .inFlight, .reserved] ∧
      ExactlyOnce (sameRequest (some 100)) s := by
  obtain ⟨s, hs, hanswers⟩ := exists_reachable_of_execute (step (sameRequest (some 100)))
    (ReservationsKept (sameRequest (some 100))) init
    (fun s => s.answers.map (·.answer) =
      [.replay someReceipt, .conflict .inFlight, .reserved])
    [.check 0 0 true, .propose 0, .tick 5, .check 1 5 true, .becomeDurable 0,
      .complete 0 someReceipt true, .check 2 5 true] (by decide)
  exact ⟨s, hs, hanswers, exactly_once_of_kept_reservations _ s hs⟩

/-- The first client reserves with a time to live of one microsecond and its commit becomes
durable; five microseconds later the sweep of the second client drops the reservation, and the
second client is told `Reserved` as well. -/
theorem expired_reservation_is_given_twice :
    ∃ s, Reachable (step (sameRequest (some 1))) anyStep init s ∧
      ¬ExactlyOnce (sameRequest (some 1)) s := by
  obtain ⟨s, hs, ⟨e, he, hwho, hopen, hanswer⟩, hdurable⟩ := exists_reachable_of_execute
    (step (sameRequest (some 1))) anyStep init
    (fun s => (∃ e ∈ s.answers, e.who = 1 ∧ (e.phases 0).isOpen e.now = true ∧
      e.answer = .reserved) ∧ (s.phase 0).isDurable = true)
    [.check 0 0 true, .propose 0, .becomeDurable 0, .tick 5, .check 1 5 true] (by decide)
  refine ⟨s, hs, fun honce => ?_⟩
  rcases honce e he 0 (by simp [hwho]) ⟨rfl, rfl⟩ hopen hdurable with ⟨_, h⟩ | ⟨_, -, h⟩ <;>
    simp [hanswer] at h

end LedgerState

end MongrelDB.Txn
