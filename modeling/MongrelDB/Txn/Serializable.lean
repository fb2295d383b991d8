import Mathlib.Algebra.Ring.Nat
import MongrelDB.Txn.SerialRun

/-!
# Serializable certification against the serial run

Transactions read a fixed begin snapshot (`Transaction::get`, and scans that register
their table as a predicate read), stage writes, and commit.
-/

namespace MongrelDB.Txn

open Lib (Reachable anyStep exists_reachable_of_execute)
open List
open Option hiding mem_map mem_map_of_mem

universe u v

variable {ι : Type u} {V : Type v}

/-- A transaction between `begin` and its end. -/
structure Running (V : Type v) where
  readEpoch : Nat
  readSet : List (Nat × Nat)
  predicateSet : List Nat
  /-- the answers it was given -/
  observed : List (Observation V)
  staging : List (Staged V)

namespace Running

def start (readEpoch : Nat) : Running V where
  readEpoch := readEpoch
  readSet := []
  predicateSet := []
  observed := []
  staging := []

/-- `Transaction::get`: the row is recorded only when it is found. -/
def get (x : Running V) (snapshot : Db V) (t r : Nat) : Running V :=
  let row := snapshot.get t r
  { x with
    readSet := if row.isSome then (t, r) :: x.readSet else x.readSet
    observed := .get t r row :: x.observed }

/-- A scan that reports its table to `track_predicate_read`. -/
def scan (x : Running V) (snapshot : Db V) (t : Nat) : Running V :=
  { x with
    predicateSet := t :: x.predicateSet
    observed := .scan t (snapshot.scan t) :: x.observed }

def stage (x : Running V) (op : Staged V) : Running V := { x with staging := x.staging ++ [op] }

def ops (x : Running V) : List (Op V) := x.staging.flatMap Staged.normalize

def context (codec : KeyCodec V) (catalog : Nat → TableSchema) (x : Running V) : TxnContext where
  isolation := .serializable
  readSet := x.readSet
  predicateSet := x.predicateSet
  writeKeys := writeKeys codec catalog x.ops

end Running

inductive TxnStatus (V : Type v) where
  | idle
  | running (x : Running V)
  | committed
  | aborted

/-- Commit epochs are positions in the log: the transaction at index `i` has epoch `i + 1`. -/
structure SerialState (ι : Type u) (V : Type v) where
  log : List (CommittedTxn V)
  visible : Nat
  conflicts : ConflictIndex
  /-- registered read epochs with their owner -/
  active : List (ι × Nat)
  status : ι → TxnStatus V

inductive SerialLabel (ι : Type u) (V : Type v) where
  | begin (t : ι)
  | get (t : ι) (tableId rowId : Nat)
  | scan (t : ι) (tableId : Nat)
  | stage (t : ι) (op : Staged V)
  | commit (t : ι)
  | rollback (t : ι)
  | advanceVisible

namespace SerialState

variable {s' : SerialState ι V}

def init : SerialState ι V where
  log := []
  visible := 0
  conflicts := .new
  active := []
  status := fun _ => .idle

section Step

variable [DecidableEq ι] (codec : KeyCodec V) (catalog : Nat → TableSchema)

variable (s : SerialState ι V)

/-- The rows visible at a snapshot epoch. -/
def snapshot (epoch : Nat) : Db V :=
  serialExec codec catalog (s.log.take epoch) .empty

def setStatus (t : ι) (x : TxnStatus V) : SerialState ι V :=
  { s with status := fun u => if u = t then x else s.status u }

def deregister (t : ι) : SerialState ι V :=
  { s with active := s.active.filter fun p => !decide (p.1 = t) }

/-- `prune_below(min_read_epoch)`, skipped when nothing is active. -/
def prune : SerialState ι V :=
  match (s.active.map Prod.snd).min? with
  | some f => { s with conflicts := s.conflicts.pruneBelow f }
  | none => s

/-- Assign the next epoch, apply, and record the write keys. -/
def recordCommit (x : Running V) : SerialState ι V :=
  { s with
    log := s.log ++ [{ observed := x.observed, ops := x.ops }]
    conflicts := s.conflicts.record (x.context codec catalog).writeKeys (s.log.length + 1) }

def certify (t : ι) (x : Running V) : SerialState ι V :=
  let ctx := x.context codec catalog
  if s.conflicts.conflicts ctx.writeKeys x.readEpoch ||
      ctx.readsConflict s.conflicts x.readEpoch then
    (s.deregister t).setStatus t .aborted
  else
    ((s.recordCommit codec catalog x).deregister t).setStatus t .committed

/-- A step of a running transaction. -/
def withRunning (t : ι) (f : Running V → SerialState ι V) :
    Option (SerialState ι V) :=
  match s.status t with
  | .running x => some (f x)
  | .idle | .committed | .aborted => none

def step : SerialLabel ι V → Option (SerialState ι V)
  | .begin t =>
    match s.status t with
    | .idle => some ({ s with active := (t, s.visible) :: s.active }.setStatus t
        (.running (.start s.visible)))
    | .running _ | .committed | .aborted => none
  | .get t tb r => s.withRunning t fun x =>
      s.setStatus t (.running (x.get (s.snapshot codec catalog x.readEpoch) tb r))
  | .scan t tb => s.withRunning t fun x =>
      s.setStatus t (.running (x.scan (s.snapshot codec catalog x.readEpoch) tb))
  | .stage t op => s.withRunning t fun x => s.setStatus t (.running (x.stage op))
  | .commit t => s.withRunning t fun x => s.prune.certify codec catalog t x
  | .rollback t => s.withRunning t fun _ => (s.deregister t).setStatus t .aborted
  | .advanceVisible =>
    if s.visible < s.log.length then some { s with visible := s.visible + 1 } else none

end Step

/-! ## The contract and its side condition -/

variable (codec : KeyCodec V) (catalog : Nat → TableSchema)

/-- Every answer given to a committed transaction is the answer of the serial run right before
that transaction. -/
def SeriallyEquivalent (s : SerialState ι V) : Prop :=
  ∀ i (c : CommittedTxn V), s.log[i]? = some c → ∀ o ∈ c.observed,
    o.Holds (serialExec codec catalog (s.log.take i) .empty)

/-- A committing transaction has registered the table of every point read that missed, has a
write key for every operation, and no put of it displaces a stored row. -/
def TrackedCommit (s : SerialState ι V) : TxnStatus V → Prop
  | .running x =>
    (∀ o ∈ x.observed, ∀ t ∈ o.missed, t ∈ x.predicateSet) ∧
    (∀ op ∈ x.ops, op.keys codec catalog ≠ []) ∧
    AllGentle codec catalog (serialExec codec catalog s.log .empty) x.ops
  | .idle | .committed | .aborted => True

def TrackedCommits (s : SerialState ι V) : SerialLabel ι V → Prop
  | .commit t => TrackedCommit codec catalog s (s.status t)
  | .begin _ | .get _ _ _ | .scan _ _ | .stage _ _ | .rollback _ | .advanceVisible => True

instance (s : SerialState ι V) : (st : TxnStatus V) → Decidable (TrackedCommit codec catalog s st)
  | .running _ => inferInstanceAs (Decidable (_ ∧ _ ∧ _))
  | .idle | .committed | .aborted => isTrue trivial

instance (s : SerialState ι V) :
    (l : SerialLabel ι V) → Decidable (TrackedCommits codec catalog s l)
  | .commit t => inferInstanceAs (Decidable (TrackedCommit codec catalog s (s.status t)))
  | .begin _ | .get _ _ _ | .scan _ _ | .stage _ _ | .rollback _ | .advanceVisible =>
    isTrue trivial

/-! ## The invariant -/

/-- Every commit after `r` is still in the index. -/
def Covered (s : SerialState ι V) (r : Nat) : Prop :=
  ∀ i (c : CommittedTxn V), s.log[i]? = some c → r ≤ i →
    ∀ k ∈ writeKeys codec catalog c.ops, s.conflicts.Covers k (i + 1)

/-- What is known of a running transaction. -/
structure RunningOk (s : SerialState ι V) (t : ι) (x : Running V) : Prop where
  visible : x.readEpoch ≤ s.visible
  registered : (t, x.readEpoch) ∈ s.active
  covered : Covered codec catalog s x.readEpoch
  holds : ∀ o ∈ x.observed, o.Holds (s.snapshot codec catalog x.readEpoch)
  recorded : ∀ o ∈ x.observed, o.Recorded x.readSet x.predicateSet

structure Inv (s : SerialState ι V) : Prop where
  running : ∀ t x, s.status t = .running x → RunningOk codec catalog s t x
  visible_le : s.visible ≤ s.log.length
  active_le : ∀ p ∈ s.active, p.2 ≤ s.visible
  covered : Covered codec catalog s s.visible
  tracked : LogTracked codec catalog .empty s.log
  serial : SeriallyEquivalent codec catalog s

theorem init_inv : Inv codec catalog (init : SerialState ι V) := by
  constructor <;> simp [init, Covered, LogTracked, SeriallyEquivalent]

variable {codec catalog} {s : SerialState ι V} {t : ι} {x : Running V}

/-- A running transaction is untouched by whatever leaves the log and its own registration alone
and keeps what it has still to find. -/
theorem RunningOk.frame (h : RunningOk codec catalog s t x)
    (hvis : s.visible ≤ s'.visible) (hreg : (t, x.readEpoch) ∈ s'.active) (hlog : s'.log = s.log)
    (hcov : Covered codec catalog s' x.readEpoch) : RunningOk codec catalog s' t x where
  visible := h.visible.trans hvis
  registered := hreg
  covered := hcov
  holds := by
    unfold snapshot
    rw [hlog]
    exact h.holds
  recorded := h.recorded

/-! ### Reads -/

theorem RunningOk.get (h : RunningOk codec catalog s t x) (tb r : Nat) :
    RunningOk codec catalog s t (x.get (s.snapshot codec catalog x.readEpoch) tb r) where
  visible := h.visible
  registered := h.registered
  covered := h.covered
  holds := by
    exact forall_mem_cons.mpr ⟨rfl, h.holds⟩
  recorded := by
    intro o ho
    rcases mem_cons.mp ho with rfl | ho
    · cases hres : (s.snapshot codec catalog x.readEpoch).get tb r with
      | none => trivial
      | some cells => simp [Running.get, hres, Observation.Recorded]
    · have hrec := h.recorded o ho
      match o with
      | .get t' r' (some c) =>
        show (t', r') ∈ if _ then _ else _
        split
        · exact mem_cons_of_mem _ hrec
        · exact hrec
      | .get _ _ none => trivial
      | .scan _ _ => exact hrec

theorem RunningOk.scan (h : RunningOk codec catalog s t x) (tb : Nat) :
    RunningOk codec catalog s t (x.scan (s.snapshot codec catalog x.readEpoch) tb) where
  visible := h.visible
  registered := h.registered
  covered := h.covered
  holds := by
    exact forall_mem_cons.mpr ⟨rfl, h.holds⟩
  recorded := by
    intro o ho
    rcases mem_cons.mp ho with rfl | ho
    · exact mem_cons_self
    · have hrec := h.recorded o ho
      match o with
      | .get _ _ (some _) => exact hrec
      | .get _ _ none => trivial
      | .scan _ _ => exact mem_cons_of_mem _ hrec

/-! ### Certification -/

theorem Covered.clear (h : Covered codec catalog s x.readEpoch)
    (hfree : (x.context codec catalog).readsConflict s.conflicts x.readEpoch = false) :
    ∀ c ∈ s.log.drop x.readEpoch,
      ¬KeysOverlap (ssiValidationKeys x.readSet x.predicateSet)
        (writeKeys codec catalog c.ops) := by
  intro c hc
  obtain ⟨j, hj⟩ := mem_iff_getElem?.mp hc
  rw [getElem?_drop] at hj
  have hcov := h _ c hj (Nat.le_add_right _ _)
  simp only [TxnContext.readsConflict, Bool.and_eq_false_iff, Bool.not_eq_false',
    List.isEmpty_iff] at hfree
  rcases hfree with hnil | hfree
  · rintro ⟨k, hk, -⟩
    rw [show ssiValidationKeys x.readSet x.predicateSet = [] from hnil] at hk
    exact not_mem_nil hk
  · exact ConflictIndex.not_keysOverlap_of_covers hfree (by omega) hcov

/-- A certified transaction was given the answers of the serial run up to here. -/
theorem Inv.certified (h : Inv codec catalog s) (hx : RunningOk codec catalog s t x)
    (hmiss : ∀ o ∈ x.observed, ∀ t ∈ o.missed, t ∈ x.predicateSet)
    (hfree : (x.context codec catalog).readsConflict s.conflicts x.readEpoch = false) :
    ∀ o ∈ x.observed, o.Holds (serialExec codec catalog s.log .empty) := by
  intro o ho
  have hlog := h.tracked
  rw [← take_append_drop x.readEpoch s.log, logTracked_append] at hlog
  have hsurvive := (hx.holds o ho).serialExec ((hx.recorded o ho).tracked (hmiss o ho)) _ hlog.2
    (hx.covered.clear hfree)
  rwa [snapshot, serialExec, serialExec, ← foldl_append, take_append_drop] at hsurvive

/-- The log entry at an index of the extended log is an old one or the new one. -/
theorem getElem?_snoc {log : List (CommittedTxn V)} {c c' : CommittedTxn V} {i : Nat}
    (h : (log ++ [c'])[i]? = some c) :
    (log[i]? = some c ∧ i < log.length) ∨ (i = log.length ∧ c = c') := by
  by_cases hi : i < log.length
  · rw [getElem?_append_left hi] at h
    exact .inl ⟨h, hi⟩
  · rw [getElem?_append_right (by omega)] at h
    have hlast : i - log.length = 0 := by
      by_contra hne
      rw [getElem?_eq_none (by simp; omega)] at h
      exact absurd h (by simp)
    rw [hlast] at h
    exact .inr ⟨by omega, by simpa using h.symm⟩

theorem Covered.recordCommit {r : Nat} (h : Covered codec catalog s r) :
    Covered codec catalog (s.recordCommit codec catalog x) r := by
  intro i c hc hr k hk
  rcases getElem?_snoc hc with ⟨hold, hi⟩ | ⟨rfl, rfl⟩
  · exact (h i c hold hr k hk).record (by omega)
  · exact ConflictIndex.covers_record_self hk

theorem Inv.recordCommit (h : Inv codec catalog s) (hx : RunningOk codec catalog s t x)
    (hok : TrackedCommit codec catalog s (.running x))
    (hfree : (x.context codec catalog).readsConflict s.conflicts x.readEpoch = false) :
    Inv codec catalog (s.recordCommit codec catalog x) where
  running u y hy := by
    have hu := h.running u y hy
    have hle : y.readEpoch ≤ s.log.length := hu.visible.trans h.visible_le
    refine ⟨hu.visible, hu.registered, hu.covered.recordCommit, ?_, hu.recorded⟩
    unfold snapshot SerialState.recordCommit
    rw [take_append_of_le_length hle]
    exact hu.holds
  visible_le := by
    have := h.visible_le
    simp only [SerialState.recordCommit, length_append, length_cons, length_nil]
    omega
  active_le := h.active_le
  covered := h.covered.recordCommit
  tracked := (logTracked_append _ _).mpr ⟨h.tracked, hok.2.2, hok.2.1, trivial⟩
  serial := by
    intro i c hc
    rcases getElem?_snoc hc with ⟨hold, hi⟩ | ⟨rfl, rfl⟩
    · rw [SerialState.recordCommit, take_append_of_le_length hi.le]
      exact h.serial i c hold
    · rw [SerialState.recordCommit, take_left]
      exact h.certified hx hok.1 hfree

/-! ### Every step -/

theorem Inv.prune (h : Inv codec catalog s) : Inv codec catalog s.prune := by
  unfold SerialState.prune
  split
  next f hf =>
    have hmin : ∀ p ∈ s.active, f ≤ p.2 := fun p hp =>
      (min?_eq_some_iff.mp hf).2 p.2 (mem_map_of_mem hp)
    have hfvis : f ≤ s.visible := by
      obtain ⟨p, hp, rfl⟩ := mem_map.mp (min?_mem hf)
      exact h.active_le p hp
    have hcov : ∀ r, f ≤ r → Covered codec catalog s r →
        Covered codec catalog { s with conflicts := s.conflicts.pruneBelow f } r := by
      intro r hr hc i c hi hri k hk
      exact (hc i c hi hri k hk).pruneBelow fun _ => by omega
    refine { h with running := fun u x hx => ?_, covered := hcov _ hfvis h.covered }
    have hu := h.running u x hx
    exact hu.frame le_rfl hu.registered rfl (hcov _ (hmin _ hu.registered) hu.covered)
  next => exact h

theorem prune_log (s : SerialState ι V) : s.prune.log = s.log := by
  unfold prune; split <;> rfl

theorem Inv.advanceVisible (h : Inv codec catalog s) (hlt : s.visible < s.log.length) :
    Inv codec catalog { s with visible := s.visible + 1 } where
  running u x hx :=
    (h.running u x hx).frame (Nat.le_succ _) (h.running u x hx).registered rfl
      (h.running u x hx).covered
  visible_le := hlt
  active_le p hp := Nat.le_succ_of_le (h.active_le p hp)
  covered i c hc hle := h.covered i c hc (Nat.le_of_succ_le hle)
  tracked := h.tracked
  serial := h.serial

theorem withRunning_eq_some {f : Running V → SerialState ι V}
    (h : s.withRunning t f = some s') : ∃ x, s.status t = .running x ∧ f x = s' := by
  unfold withRunning at h
  split at h
  next x hx => exact ⟨x, hx, some.inj h⟩
  all_goals exact absurd h (by simp)

variable [DecidableEq ι]

theorem Inv.setStatus (h : Inv codec catalog s) {st : TxnStatus V}
    (hst : ∀ x, st = .running x → RunningOk codec catalog s t x) :
    Inv codec catalog (s.setStatus t st) := by
  refine { h with running := fun u x hx => ?_ }
  have hx' : (if u = t then st else s.status u) = .running x := hx
  split at hx'
  next heq =>
    subst heq
    have hx := hst x hx'
    exact hx.frame le_rfl hx.registered rfl hx.covered
  next =>
    have hx := h.running u x hx'
    exact hx.frame le_rfl hx.registered rfl hx.covered

section

variable (h : Inv codec catalog s)
include h

theorem Inv.setRunning (hx : RunningOk codec catalog s t x) :
    Inv codec catalog (s.setStatus t (.running x)) :=
  h.setStatus fun _ hy => TxnStatus.running.inj hy ▸ hx

/-- The end of a transaction: it is not running any more and its read epoch is deregistered. -/
theorem Inv.finish {st : TxnStatus V} (hst : ∀ x, st ≠ .running x) :
    Inv codec catalog ((s.deregister t).setStatus t st) := by
  have hset : Inv codec catalog (s.setStatus t st) := h.setStatus fun x hx => absurd hx (hst x)
  refine { hset with
    running := fun u x hx => ?_
    active_le := fun p hp => h.active_le p (mem_filter.mp hp).1 }
  have hu := hset.running u x hx
  refine hu.frame le_rfl (mem_filter.mpr ⟨hu.registered, ?_⟩) rfl hu.covered
  have hx' : (if u = t then st else s.status u) = .running x := hx
  split at hx'
  · exact absurd hx' (hst x)
  next hne => simpa using hne

theorem Inv.begin :
    Inv codec catalog ({ s with active := (t, s.visible) :: s.active }.setStatus t
      (.running (.start s.visible))) := by
  have hreg : Inv codec catalog { s with active := (t, s.visible) :: s.active } := by
    refine { h with running := fun u x hx => ?_, active_le := fun p hp => ?_ }
    · have hu := h.running u x hx
      exact hu.frame le_rfl (mem_cons_of_mem _ hu.registered) rfl hu.covered
    · rcases mem_cons.mp hp with rfl | hp
      · exact le_rfl
      · exact h.active_le p hp
  refine hreg.setRunning ?_
  exact ⟨le_rfl, mem_cons_self, h.covered, by simp [Running.start],
    by simp [Running.start]⟩

theorem Inv.commit (hx : s.status t = .running x)
    (hok : TrackedCommit codec catalog s (.running x)) :
    Inv codec catalog (s.prune.certify codec catalog t x) := by
  have hp := h.prune
  have hxp : RunningOk codec catalog s.prune t x := hp.running t x (by
    rw [← hx]; unfold SerialState.prune; split <;> rfl)
  unfold certify
  simp only
  split
  · exact hp.finish fun _ => by simp
  next hfree =>
    simp only [Bool.or_eq_true, not_or, Bool.not_eq_true] at hfree
    have hok' : TrackedCommit codec catalog s.prune (.running x) := by
      unfold TrackedCommit
      rw [prune_log]
      exact hok
    exact (hp.recordCommit hxp hok' hfree.2).finish fun _ => by simp

end

theorem step_inv {l : SerialLabel ι V} (h : Inv codec catalog s)
    (hok : TrackedCommits codec catalog s l) (hs : s.step codec catalog l = some s') :
    Inv codec catalog s' := by
  cases l with
  | begin t =>
    simp only [step] at hs
    split at hs
    next => exact some.inj hs ▸ h.begin
    all_goals exact absurd hs (by simp)
  | get t tb r =>
    obtain ⟨x, hx, rfl⟩ := withRunning_eq_some hs
    exact h.setRunning ((h.running t x hx).get tb r)
  | scan t tb =>
    obtain ⟨x, hx, rfl⟩ := withRunning_eq_some hs
    exact h.setRunning ((h.running t x hx).scan tb)
  | stage t op =>
    obtain ⟨x, hx, rfl⟩ := withRunning_eq_some hs
    exact h.setRunning { h.running t x hx with }
  | commit t =>
    obtain ⟨x, hx, rfl⟩ := withRunning_eq_some hs
    rw [TrackedCommits, hx] at hok
    exact h.commit hx hok
  | rollback t =>
    obtain ⟨x, hx, rfl⟩ := withRunning_eq_some hs
    exact h.finish fun _ => by simp
  | advanceVisible =>
    simp only [step, ite_none_right_eq_some, some.injEq] at hs
    obtain ⟨hlt, rfl⟩ := hs
    exact h.advanceVisible hlt

/-- Serial equivalence in every interleaving whose commits are tracked. -/
theorem serial_equivalence_of_tracked (codec : KeyCodec V) (catalog : Nat → TableSchema)
    (s : SerialState ι V)
    (h : Reachable (step codec catalog) (TrackedCommits codec catalog) init s) :
    SeriallyEquivalent codec catalog s :=
  (h.invariant (init_inv codec catalog) fun _ _ _ => step_inv).serial

/-- Small numbers as values. -/
def byteCodec : KeyCodec Nat where
  isNull := fun _ => false
  encodeKey := fun v => [UInt8.ofNat v]
  hash := fun bs => (bs.map UInt8.toNat).sum

/-- Every table has column 0 as its primary key. -/
def keyedCatalog : Nat → TableSchema := fun _ => { primaryKeyColumns := [0], uniques := [] }

/-- The second transaction finds the row of the first one, scans the table and updates the row. -/
theorem serial_equivalence_read_then_update :
    ∃ s : SerialState (Fin 2) Nat,
      Reachable (step byteCodec keyedCatalog) (TrackedCommits byteCodec keyedCatalog) init s ∧
      s.log.length = 2 ∧ SeriallyEquivalent byteCodec keyedCatalog s := by
  obtain ⟨s, hs, hlen⟩ := exists_reachable_of_execute (step byteCodec keyedCatalog)
    (TrackedCommits byteCodec keyedCatalog) (init : SerialState (Fin 2) Nat)
    (fun s => s.log.length = 2)
    [.begin 0, .stage 0 (.put 0 [(0, 5), (1, 1)]), .commit 0, .advanceVisible, .begin 1,
      .get 1 0 0, .scan 1 0, .stage 1 (.update 0 0 [(0, 5), (1, 2)]), .commit 1] (by decide)
  exact ⟨s, hs, hlen, serial_equivalence_of_tracked byteCodec keyedCatalog s hs⟩

/-- The transaction at index `i` of the log was given an answer that the serial run does not
give. -/
def GivenWrongAnswer (catalog : Nat → TableSchema) (i : Nat) (s : SerialState ι Nat) : Prop :=
  ∃ c ∈ s.log[i]?, ∃ o ∈ c.observed,
    ¬o.Holds (serialExec byteCodec catalog (s.log.take i) .empty)
  deriving Decidable

omit [DecidableEq ι] in
theorem GivenWrongAnswer.not_serial {catalog : Nat → TableSchema} {i : Nat} {s : SerialState ι Nat}
    (h : GivenWrongAnswer catalog i s) : ¬SeriallyEquivalent byteCodec catalog s := by
  obtain ⟨c, hc, o, ho, hwrong⟩ := h
  exact fun hser => hwrong (hser i c hc o ho)

/-- Transaction 0 reads row 0 of the empty table, finds nothing and records nothing. Transaction
1 inserts that row and commits first; transaction 0 commits after it, although right before it
the serial run has the row. -/
theorem absent_read_not_certified :
    ∃ s : SerialState (Fin 2) Nat, Reachable (step byteCodec keyedCatalog) anyStep init s ∧
      ¬SeriallyEquivalent byteCodec keyedCatalog s := by
  obtain ⟨s, hs, hwrong⟩ := exists_reachable_of_execute (step byteCodec keyedCatalog) anyStep
    (init : SerialState (Fin 2) Nat) (GivenWrongAnswer keyedCatalog 1)
    [.begin 0, .get 0 0 0, .stage 0 (.put 0 [(0, 7)]), .begin 1, .stage 1 (.put 0 [(0, 5)]),
      .commit 1, .commit 0] (by decide)
  exact ⟨s, hs, hwrong.not_serial⟩

end SerialState

end MongrelDB.Txn
