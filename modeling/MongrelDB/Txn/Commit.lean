import Mathlib.Data.Fintype.Basic
import MongrelDB.Lib.Transition
import MongrelDB.Txn.ConflictIndex

/-!
# The optimistic commit path, interleaved

A transaction takes its read epoch, registers it as active, prunes the conflict index
below the smallest active read epoch, validates its keys outside the sequencer
(writes, then the tracked reads of a serializable transaction), loads the version of
the index, and later takes the sequencer lock, validates again only if the version has
moved, assigns its commit epoch and records its write keys.
-/

namespace MongrelDB.Txn

open Lib (Reachable anyStep exists_reachable_of_execute)
open List Option

inductive IsolationLevel where
  | repeatableRead
  | snapshot
  | readCommitted
  | serializable
  deriving DecidableEq, Repr

/-- `Snapshot` is an alias of `RepeatableRead`. -/
def IsolationLevel.canonical : IsolationLevel → IsolationLevel
  | .snapshot => .repeatableRead
  | l => l

/-- Every point read as a row key, every predicate read as a table key. -/
def ssiValidationKeys (readSet : List (Nat × Nat)) (predicateSet : List Nat) : List WriteKey :=
  readSet.map (fun r => .row r.1 r.2) ++ predicateSet.map .table

/-- What a transaction brings to its commit. -/
structure TxnContext where
  isolation : IsolationLevel
  /-- `(table_id, row_id)` point reads -/
  readSet : List (Nat × Nat)
  /-- tables with predicate or range reads -/
  predicateSet : List Nat
  writeKeys : List WriteKey

def TxnContext.ssiKeys (ctx : TxnContext) : List WriteKey :=
  match ctx.isolation.canonical with
  | .serializable => ssiValidationKeys ctx.readSet ctx.predicateSet
  | _ => []

/-- The check of the tracked reads. -/
def TxnContext.readsConflict (ctx : TxnContext) (idx : ConflictIndex) (readEpoch : Nat) : Bool :=
  !ctx.ssiKeys.isEmpty && idx.conflicts ctx.ssiKeys readEpoch

/-- How far a transaction has come; every phase keeps the locals that are still needed. -/
inductive Phase where
  | idle
  /-- has read `visible`, not registered yet -/
  | begun (read : Nat)
  | active (read : Nat)
  /-- has read `min_read_epoch`; `none` is `u64::MAX` -/
  | floorRead (read : Nat) (minActive : Option Nat)
  | pruned (read : Nat)
  | writesChecked (read : Nat)
  | prechecked (read : Nat)
  | versioned (read version : Nat)
  /-- holds the sequencer lock, from here to `assigned` -/
  | sequencing (read version : Nat)
  | validated (read : Nat)
  | assigned (read commit : Nat)
  /-- in the log and in the index, lock released -/
  | recorded (read commit : Nat)
  | published (read : Nat)
  | aborted (read : Nat)
  /-- deregistered -/
  | finished
  deriving DecidableEq, Repr

/-- The phases in which a transaction holds the sequencer lock. -/
def Phase.holdsLock : Phase → Bool
  | .sequencing _ _ | .validated _ | .assigned _ _ => true
  | _ => false

/-- The read epoch of a transaction that may still consult the index. -/
def Phase.validating : Phase → Option Nat
  | .begun r | .active r | .floorRead r _ | .pruned r | .writesChecked r | .prechecked r
  | .versioned r _ | .sequencing r _ => some r
  | .idle | .validated _ | .assigned _ _ | .recorded _ _ | .published _ | .aborted _
  | .finished => none

universe u

variable {ι : Type u}

/-- A committed transaction. -/
structure CommitRecord (ι : Type u) where
  txn : ι
  readEpoch : Nat
  commitEpoch : Nat

structure CommitState (ι : Type u) where
  assigned : Nat
  visible : Nat
  /-- assigned epochs that were published or abandoned -/
  resolved : List Nat
  /-- registered read epochs -/
  active : List Nat
  conflicts : ConflictIndex
  /-- holder of the sequencer lock -/
  commitLock : Option ι
  wal : List (CommitRecord ι)
  phase : ι → Phase

inductive Label (ι : Type u) where
  /-- the next atomic step of a transaction -/
  | next (t : ι)
  /-- an error or a rollback before the commit record -/
  | rollback (t : ι)
  /-- the reader watermark passes a resolved epoch -/
  | advanceVisible

namespace CommitState

variable {s' : CommitState ι}

def init : CommitState ι where
  assigned := 0
  visible := 0
  resolved := []
  active := []
  conflicts := .new
  commitLock := none
  wal := []
  phase := fun _ => .idle

section Step

variable [DecidableEq ι]

def setPhase (s : CommitState ι) (t : ι) (p : Phase) : CommitState ι :=
  { s with phase := fun u => if u = t then p else s.phase u }

def next (ctx : ι → TxnContext) (s : CommitState ι) (t : ι) : Option (CommitState ι) :=
  match s.phase t with
  | .idle => some (s.setPhase t (.begun s.visible))
  | .begun r => some ({ s with active := r :: s.active }.setPhase t (.active r))
  | .active r => some (s.setPhase t (.floorRead r s.active.min?))
  | .floorRead r (some f) =>
    some ({ s with conflicts := s.conflicts.pruneBelow f }.setPhase t (.pruned r))
  | .floorRead r none => some (s.setPhase t (.pruned r))
  | .pruned r =>
    if s.conflicts.conflicts (ctx t).writeKeys r then some (s.setPhase t (.aborted r))
    else some (s.setPhase t (.writesChecked r))
  | .writesChecked r =>
    if (ctx t).readsConflict s.conflicts r then some (s.setPhase t (.aborted r))
    else some (s.setPhase t (.prechecked r))
  | .prechecked r => some (s.setPhase t (.versioned r s.conflicts.version))
  | .versioned r v =>
    if s.commitLock.isSome then none
    else some ({ s with commitLock := some t }.setPhase t (.sequencing r v))
  | .sequencing r v =>
    if s.conflicts.version ≠ v ∧
        (s.conflicts.conflicts (ctx t).writeKeys r ∨ (ctx t).readsConflict s.conflicts r) then
      some ({ s with commitLock := none }.setPhase t (.aborted r))
    else some (s.setPhase t (.validated r))
  | .validated r =>
    some ({ s with assigned := s.assigned + 1 }.setPhase t (.assigned r (s.assigned + 1)))
  | .assigned r c =>
    some ({ s with
      conflicts := s.conflicts.record (ctx t).writeKeys c
      commitLock := none
      wal := ⟨t, r, c⟩ :: s.wal }.setPhase t (.recorded r c))
  | .recorded r c => some ({ s with resolved := c :: s.resolved }.setPhase t (.published r))
  | .published r | .aborted r => some ({ s with active := s.active.erase r }.setPhase t .finished)
  | .finished => none

/-- Errors and rollbacks. After the epoch is assigned the guard abandons it. -/
def rollback (s : CommitState ι) (t : ι) : Option (CommitState ι) :=
  match s.phase t with
  | .active r | .floorRead r _ | .pruned r | .writesChecked r | .prechecked r | .versioned r _ =>
    some (s.setPhase t (.aborted r))
  | .sequencing r _ | .validated r =>
    some ({ s with commitLock := none }.setPhase t (.aborted r))
  | .assigned r c =>
    some ({ s with commitLock := none, resolved := c :: s.resolved }.setPhase t (.aborted r))
  | .idle | .begun _ | .recorded _ _ | .published _ | .aborted _ | .finished => none

def step (ctx : ι → TxnContext) (s : CommitState ι) : Label ι → Option (CommitState ι)
  | .next t => s.next ctx t
  | .rollback t => s.rollback t
  | .advanceVisible =>
    if s.visible + 1 ∈ s.resolved then some { s with visible := s.visible + 1 } else none

end Step

/-! ## First committer wins -/

variable (ctx : ι → TxnContext)

/-- No committed transaction overlaps one that committed after its read epoch and before it. -/
def FirstCommitterWins (s : CommitState ι) : Prop :=
  ∀ t₁ ∈ s.wal, ∀ t₂ ∈ s.wal, t₁.readEpoch < t₂.commitEpoch → t₂.commitEpoch < t₁.commitEpoch →
    ¬KeysOverlap (ctx t₁.txn).writeKeys (ctx t₂.txn).writeKeys ∧
    ¬KeysOverlap (ctx t₁.txn).ssiKeys (ctx t₂.txn).writeKeys
  deriving Decidable

/-- A transaction `u` that sits in phase `p` between its validation and its load of the index
version is not touched by a record of `keys`. -/
def WindowClear (u : ι) (keys : List WriteKey) : Phase → Prop
  | .writesChecked _ => ¬KeysOverlap (ctx u).writeKeys keys
  | .prechecked _ => ¬KeysOverlap (ctx u).writeKeys keys ∧ ¬KeysOverlap (ctx u).ssiKeys keys
  | _ => True

/-- The two windows are respected by the next step of `t`, which is in phase `p`: a prune that
runs does not pass the read epoch of a transaction that has still to validate, and a record
overlaps no transaction that sits between its validation and its load of the index version. -/
def RespectsWindows (s : CommitState ι) (t : ι) : Phase → Prop
  | .floorRead _ (some f) => s.conflicts.lastPruneFloor < f →
      ∀ u, ∀ r ∈ (s.phase u).validating, f ≤ r + 1
  | .assigned _ _ => ∀ u, WindowClear ctx u (ctx t).writeKeys (s.phase u)
  | _ => True

def Undisturbed (s : CommitState ι) : Label ι → Prop
  | .next t => RespectsWindows ctx s t (s.phase t)
  | .rollback _ | .advanceVisible => True

instance (u : ι) (keys : List WriteKey) : (p : Phase) → Decidable (WindowClear ctx u keys p)
  | .writesChecked _ => inferInstanceAs (Decidable (¬_))
  | .prechecked _ => inferInstanceAs (Decidable (_ ∧ _))
  | .idle | .begun _ | .active _ | .floorRead _ _ | .pruned _ | .versioned _ _ | .sequencing _ _
  | .validated _ | .assigned _ _ | .recorded _ _ | .published _ | .aborted _ | .finished =>
    isTrue trivial

instance [Fintype ι] (s : CommitState ι) (t : ι) (p : Phase) :
    Decidable (RespectsWindows ctx s t p) := by
  unfold RespectsWindows
  split <;> infer_instance

instance [Fintype ι] (s : CommitState ι) : (l : Label ι) → Decidable (Undisturbed ctx s l)
  | .next t => inferInstanceAs (Decidable (RespectsWindows ctx s t _))
  | .rollback _ | .advanceVisible => isTrue trivial

/-! ## The invariant -/

/-- Every commit after `r` is still in the index. -/
def Covered (s : CommitState ι) (r : Nat) : Prop :=
  ∀ e ∈ s.wal, r < e.commitEpoch → ∀ k ∈ (ctx e.txn).writeKeys, s.conflicts.Covers k e.commitEpoch

/-- No commit after `r` wrote what `keys` name. -/
def Clear (s : CommitState ι) (keys : List WriteKey) (r : Nat) : Prop :=
  ∀ e ∈ s.wal, r < e.commitEpoch → ¬KeysOverlap keys (ctx e.txn).writeKeys

/-- Neither its writes nor its tracked reads were overtaken. -/
def TxnClear (s : CommitState ι) (t : ι) (r : Nat) : Prop :=
  Clear ctx s (ctx t).writeKeys r ∧ Clear ctx s (ctx t).ssiKeys r

/-- What is known of a transaction in each phase. -/
def TxnOk (s : CommitState ι) (t : ι) : Phase → Prop
  | .begun r => r ≤ s.visible ∧ Covered ctx s r
  | .active r | .pruned r => Covered ctx s r
  | .floorRead r f => Covered ctx s r ∧ ∀ m ∈ f, m ≤ s.visible
  | .writesChecked r => Covered ctx s r ∧ Clear ctx s (ctx t).writeKeys r
  | .prechecked r => Covered ctx s r ∧ TxnClear ctx s t r
  | .versioned r v => Covered ctx s r ∧ v ≤ s.conflicts.version ∧
      (s.conflicts.version = v → TxnClear ctx s t r)
  | .sequencing r v => s.commitLock = some t ∧ Covered ctx s r ∧
      (s.conflicts.version = v → TxnClear ctx s t r)
  | .validated r => s.commitLock = some t ∧ TxnClear ctx s t r
  | .assigned r c => s.commitLock = some t ∧ TxnClear ctx s t r ∧
      c = s.assigned ∧ ∀ e ∈ s.wal, e.commitEpoch < c
  | .idle | .recorded _ _ | .published _ | .aborted _ | .finished => True

structure Inv (s : CommitState ι) : Prop where
  txn : ∀ t, TxnOk ctx s t (s.phase t)
  active_le : ∀ r ∈ s.active, r ≤ s.visible
  wal_le : ∀ e ∈ s.wal, e.commitEpoch ≤ s.assigned
  /-- whoever begins now finds every commit it cannot see -/
  covered : Covered ctx s s.visible
  wins : FirstCommitterWins ctx s

theorem init_inv : Inv ctx (init : CommitState ι) := by
  constructor <;> simp [init, TxnOk, Covered, FirstCommitterWins]

variable {ctx} {s : CommitState ι} {t : ι} {p : Phase}

theorem TxnOk.holder (h : TxnOk ctx s t p) (hp : p.holdsLock = true) : s.commitLock = some t := by
  cases p <;> first | exact h.1 | simp [Phase.holdsLock] at hp

theorem TxnOk.covered (h : TxnOk ctx s t p) {r : Nat} (hp : r ∈ p.validating) :
    Covered ctx s r := by
  cases p <;> simp only [Phase.validating, Option.mem_def, some.injEq, reduceCtorEq] at hp
  case begun => exact hp ▸ h.2
  case active => exact hp ▸ h
  case floorRead => exact hp ▸ h.1
  case pruned => exact hp ▸ h
  case writesChecked => exact hp ▸ h.1
  case prechecked => exact hp ▸ h.1
  case versioned => exact hp ▸ h.1
  case sequencing => exact hp ▸ h.2.1

/-- What is known of a transaction survives a step of another one that leaves the log, the index
version and the lock alone and drops nothing it has still to find. -/
theorem TxnOk.frame (h : TxnOk ctx s t p) (hvis : s.visible ≤ s'.visible)
    (hwal : s'.wal = s.wal) (hver : s'.conflicts.version = s.conflicts.version)
    (hcov : ∀ r ∈ p.validating, Covered ctx s r → Covered ctx s' r)
    (hlock : p.holdsLock = true → s'.commitLock = s.commitLock)
    (hassigned : ∀ r c, p = .assigned r c → s'.assigned = s.assigned) : TxnOk ctx s' t p := by
  have hclear : ∀ r, TxnClear ctx s t r → TxnClear ctx s' t r := by
    intro r hc
    unfold TxnClear Clear
    rw [hwal]
    exact hc
  cases p with
  | idle | recorded _ _ | published _ | aborted _ | finished => trivial
  | begun r => exact ⟨h.1.trans hvis, hcov r rfl h.2⟩
  | active r => exact hcov r rfl h
  | pruned r => exact hcov r rfl h
  | floorRead r f => exact ⟨hcov r rfl h.1, fun m hm => (h.2 m hm).trans hvis⟩
  | writesChecked r =>
    refine ⟨hcov r rfl h.1, ?_⟩
    unfold Clear
    rw [hwal]
    exact h.2
  | prechecked r => exact ⟨hcov r rfl h.1, hclear r h.2⟩
  | versioned r v => exact ⟨hcov r rfl h.1, hver ▸ h.2.1, fun hv => hclear r (h.2.2 (hver ▸ hv))⟩
  | sequencing r v =>
    exact ⟨(hlock rfl).trans h.1, hcov r rfl h.2.1, fun hv => hclear r (h.2.2 (hver ▸ hv))⟩
  | validated r => exact ⟨(hlock rfl).trans h.1, hclear r h.2⟩
  | assigned r c =>
    refine ⟨(hlock rfl).trans h.1, hclear r h.2.1, ?_, ?_⟩
    · rw [hassigned r c rfl]
      exact h.2.2.1
    · rw [hwal]
      exact h.2.2.2

/-! ## Each step keeps it -/

namespace Inv

section

variable (h : Inv ctx s)
include h

theorem register {r : Nat} (hr : r ≤ s.visible) :
    Inv ctx { s with active := r :: s.active } :=
  { h with
    active_le := fun r' hr' => by
      rcases mem_cons.mp hr' with rfl | hr'
      · exact hr
      · exact h.active_le r' hr' }

theorem deregister (r : Nat) : Inv ctx { s with active := s.active.erase r } :=
  { h with active_le := fun r' hr' => h.active_le r' (mem_of_mem_erase hr') }

theorem floor_le : ∀ m ∈ s.active.min?, m ≤ s.visible := fun m hm =>
  h.active_le m (min?_mem hm)

/-- A prune at most one above `r` keeps every commit after `r`. -/
theorem prune {f : Nat} (hf : f ≤ s.visible)
    (hpass : s.conflicts.lastPruneFloor < f → ∀ u, ∀ r ∈ (s.phase u).validating, f ≤ r + 1) :
    Inv ctx { s with conflicts := s.conflicts.pruneBelow f } := by
  have hcov : ∀ r, (s.conflicts.lastPruneFloor < f → f ≤ r + 1) → Covered ctx s r →
      Covered ctx { s with conflicts := s.conflicts.pruneBelow f } r := by
    intro r hr hc e he hlt k hk
    exact (hc e he hlt k hk).pruneBelow fun hfloor => (hr hfloor).trans hlt
  refine ⟨fun u => ?_, h.active_le, h.wal_le, hcov _ (fun _ => Nat.le_succ_of_le hf) h.covered,
    h.wins⟩
  exact (h.txn u).frame le_rfl rfl (ConflictIndex.pruneBelow_version _ _)
    (fun r hr => hcov r fun hfloor => hpass hfloor u r hr) (fun _ => rfl) fun _ _ _ => rfl

theorem relock (hfree : ∀ u, (s.phase u).holdsLock = false) (holder : Option ι) :
    Inv ctx { s with commitLock := holder } := by
  refine { h with txn := fun u => ?_ }
  refine (h.txn u).frame le_rfl rfl rfl (fun _ _ hc => hc) (fun hheld => ?_)
    fun _ _ _ => rfl
  rw [hfree u] at hheld
  exact absurd hheld (by simp)

theorem assign (hnone : ∀ u r c, s.phase u ≠ .assigned r c) :
    Inv ctx { s with assigned := s.assigned + 1 } := by
  refine { h with
    txn := fun u => (h.txn u).frame le_rfl rfl rfl (fun _ _ hc => hc) (fun _ => rfl)
      fun r c heq => absurd heq (hnone u r c)
    wal_le := fun e he => Nat.le_succ_of_le (h.wal_le e he) }

theorem advanceVisible : Inv ctx { s with visible := s.visible + 1 } where
  txn u := (h.txn u).frame (Nat.le_succ _) rfl rfl (fun _ _ hc => hc)
    (fun _ => rfl) fun _ _ _ => rfl
  active_le r hr := Nat.le_succ_of_le (h.active_le r hr)
  wal_le := h.wal_le
  covered e he hlt := h.covered e he (Nat.lt_of_succ_lt hlt)
  wins := h.wins

theorem holder_unique {u : ι} (ht : (s.phase t).holdsLock = true)
    (hu : (s.phase u).holdsLock = true) : u = t := by
  have heq := ((h.txn t).holder ht).symm.trans ((h.txn u).holder hu)
  exact (some.inj heq).symm

theorem resolve (c : Nat) : Inv ctx { s with resolved := c :: s.resolved } :=
  { h with }

end

theorem covered_record {r c : Nat} (hfresh : ∀ e ∈ s.wal, e.commitEpoch < c)
    {r' : Nat} (hc : Covered ctx s r') :
    Covered ctx { s with
      conflicts := s.conflicts.record (ctx t).writeKeys c
      commitLock := none
      wal := ⟨t, r, c⟩ :: s.wal } r' := by
  intro e he hlt k hk
  rcases mem_cons.mp he with rfl | he
  · exact ConflictIndex.covers_record_self hk
  · exact (hc e he hlt k hk).record (hfresh e he).le

/-- A record at a fresh epoch, with no transaction in the sequencer any more. -/
theorem record (h : Inv ctx s) {r c : Nat} (hfree : ∀ u, (s.phase u).holdsLock = false)
    (hclear : TxnClear ctx s t r) (hfresh : ∀ e ∈ s.wal, e.commitEpoch < c) (hc : c ≤ s.assigned)
    (hwindow : ∀ u, WindowClear ctx u (ctx t).writeKeys (s.phase u)) :
    Inv ctx { s with
      conflicts := s.conflicts.record (ctx t).writeKeys c
      commitLock := none
      wal := ⟨t, r, c⟩ :: s.wal } := by
  have hclear' : ∀ keys r', Clear ctx s keys r' → ¬KeysOverlap keys (ctx t).writeKeys →
      Clear ctx { s with
        conflicts := s.conflicts.record (ctx t).writeKeys c
        commitLock := none
        wal := ⟨t, r, c⟩ :: s.wal } keys r' := by
    intro keys r' hk hnew e he hlt
    rcases mem_cons.mp he with rfl | he
    · exact hnew
    · exact hk e he hlt
  refine ⟨fun u => ?_, h.active_le, ?_, covered_record hfresh h.covered, ?_⟩
  · have hu := h.txn u
    have hw := hwindow u
    have hnot := hfree u
    show TxnOk ctx _ u (s.phase u)
    cases hp : s.phase u <;> rw [hp] at hu hw hnot
    case idle | recorded | published | aborted | finished => trivial
    case begun => exact ⟨hu.1, covered_record hfresh hu.2⟩
    case active | pruned => exact covered_record hfresh hu
    case floorRead => exact ⟨covered_record hfresh hu.1, hu.2⟩
    case writesChecked => exact ⟨covered_record hfresh hu.1, hclear' _ _ hu.2 hw⟩
    case prechecked =>
      exact ⟨covered_record hfresh hu.1, hclear' _ _ hu.2.1 hw.1, hclear' _ _ hu.2.2 hw.2⟩
    case versioned r' v =>
      -- the record moves the version past the one this transaction has loaded
      refine ⟨covered_record hfresh hu.1, Nat.le_succ_of_le hu.2.1, fun hv => ?_⟩
      exact absurd hv (Nat.ne_of_gt (Nat.lt_succ_of_le hu.2.1))
    case sequencing | validated | assigned => simp [Phase.holdsLock] at hnot
  · exact forall_mem_cons.mpr ⟨hc, h.wal_le⟩
  · intro t₁ h₁ t₂ h₂ hread hcommit
    rcases mem_cons.mp h₁ with rfl | h₁ <;> rcases mem_cons.mp h₂ with rfl | h₂
    · exact absurd hcommit (Nat.lt_irrefl _)
    · exact ⟨hclear.1 t₂ h₂ hread, hclear.2 t₂ h₂ hread⟩
    · exact absurd hcommit (Nat.not_lt.mpr (hfresh t₁ h₁).le)
    · exact h.wins t₁ h₁ t₂ h₂ hread hcommit

variable [DecidableEq ι]

theorem setPhase (h : Inv ctx s) (hp : TxnOk ctx s t p) : Inv ctx (s.setPhase t p) := by
  refine ⟨fun u => ?_, h.active_le, h.wal_le, h.covered, h.wins⟩
  show TxnOk ctx s u (if u = t then p else s.phase u)
  split
  next heq => exact heq ▸ hp
  next => exact h.txn u

variable (h : Inv ctx s) (ht : (s.phase t).holdsLock = true) (hp : p.holdsLock = false)
include h ht hp

/-- Once its holder has left the sequencer, nobody holds the lock. -/
theorem setPhase_free (u : ι) : ((s.setPhase t p).phase u).holdsLock = false := by
  show (if u = t then p else s.phase u).holdsLock = false
  split
  next => exact hp
  next hne =>
    by_contra hu
    exact hne (h.holder_unique ht (by simpa using hu))

/-- Leave the sequencer: release the lock and go to a phase about which nothing is claimed. -/
theorem leave (hok : TxnOk ctx s t p) : Inv ctx ({ s with commitLock := none }.setPhase t p) :=
  (h.setPhase hok).relock (h.setPhase_free ht hp) none

end Inv

/-! ### Validation -/

theorem Covered.clear (h : Covered ctx s r) {keys : List WriteKey}
    (hfree : s.conflicts.conflicts keys r = false) : Clear ctx s keys r := fun e he hlt =>
  ConflictIndex.not_keysOverlap_of_covers hfree hlt (h e he hlt)

theorem Covered.reads_clear (h : Covered ctx s r)
    (hfree : (ctx t).readsConflict s.conflicts r = false) :
    Clear ctx s (ctx t).ssiKeys r := by
  simp only [TxnContext.readsConflict, Bool.and_eq_false_iff, Bool.not_eq_false',
    List.isEmpty_iff] at hfree
  rcases hfree with hnil | hfree
  · rintro e - - ⟨k, hk, -⟩
    rw [hnil] at hk
    exact not_mem_nil hk
  · exact h.clear hfree

/-- The re-check that was needed and passed, or was not needed. -/
theorem txnClear_of_recheck {r v : Nat} (hc : Covered ctx s r)
    (hsame : s.conflicts.version = v → TxnClear ctx s t r)
    (hpass : ¬(s.conflicts.version ≠ v ∧ (s.conflicts.conflicts (ctx t).writeKeys r = true ∨
      (ctx t).readsConflict s.conflicts r = true))) : TxnClear ctx s t r := by
  by_cases hv : s.conflicts.version = v
  · exact hsame hv
  · simp only [not_and, not_or, Bool.not_eq_true] at hpass
    obtain ⟨hw, hr⟩ := hpass hv
    exact ⟨hc.clear hw, hc.reads_clear hr⟩

/-! ### Every step -/

variable [DecidableEq ι]

theorem next_inv (h : Inv ctx s) (hok : Undisturbed ctx s (.next t))
    (hs : s.next ctx t = some s') : Inv ctx s' := by
  have ht := h.txn t
  unfold next at hs
  unfold Undisturbed at hok
  cases hp : s.phase t <;> simp only [hp] at hs ht hok
  case idle =>
    obtain rfl := some.inj hs
    exact h.setPhase ⟨le_rfl, h.covered⟩
  case begun r =>
    obtain rfl := some.inj hs
    exact (h.register ht.1).setPhase ht.2
  case active r =>
    obtain rfl := some.inj hs
    exact h.setPhase ⟨ht, h.floor_le⟩
  case floorRead r f =>
    cases f with
    | none =>
      obtain rfl := some.inj hs
      exact h.setPhase ht.1
    | some f =>
      obtain rfl := some.inj hs
      have hpruned := h.prune (ht.2 f rfl) hok
      refine hpruned.setPhase ((hpruned.txn t).covered ?_)
      show r ∈ (s.phase t).validating
      rw [hp]
      rfl
  case pruned r =>
    split at hs <;> obtain rfl := some.inj hs
    · exact h.setPhase trivial
    next hfree => exact h.setPhase ⟨ht, ht.clear (by simpa using hfree)⟩
  case writesChecked r =>
    split at hs <;> obtain rfl := some.inj hs
    · exact h.setPhase trivial
    next hfree => exact h.setPhase ⟨ht.1, ht.2, ht.1.reads_clear (by simpa using hfree)⟩
  case prechecked r =>
    obtain rfl := some.inj hs
    exact h.setPhase ⟨ht.1, le_rfl, fun _ => ht.2⟩
  case versioned r v =>
    split at hs
    · exact absurd hs (by simp)
    next hfree =>
      obtain rfl := some.inj hs
      have hfree : ∀ u, (s.phase u).holdsLock = false := fun u => by
        by_contra hheld
        simp [(h.txn u).holder (by simpa using hheld)] at hfree
      exact (h.relock hfree (some t)).setPhase ⟨rfl, ht.1, ht.2.2⟩
  case sequencing r v =>
    split at hs <;> obtain rfl := some.inj hs
    · exact h.leave (by rw [hp]; rfl) rfl trivial
    next hpass => exact h.setPhase ⟨ht.1, txnClear_of_recheck ht.2.1 ht.2.2 hpass⟩
  case validated r =>
    obtain rfl := some.inj hs
    have hlone : ∀ u r' c, s.phase u ≠ .assigned r' c := by
      intro u r' c hu
      -- the lock is held by `t`, which is not in that phase
      have heq := h.holder_unique (t := t) (u := u) (by rw [hp]; rfl) (by rw [hu]; rfl)
      rw [heq, hp] at hu
      exact Phase.noConfusion hu
    exact (h.assign hlone).setPhase
      ⟨ht.1, ht.2, rfl, fun e he => Nat.lt_succ_of_le (h.wal_le e he)⟩
  case assigned r c =>
    obtain rfl := some.inj hs
    obtain ⟨-, hclear, rfl, hfresh⟩ := ht
    have hleft : Inv ctx (s.setPhase t (.recorded r s.assigned)) := h.setPhase trivial
    refine hleft.record (h.setPhase_free (by rw [hp]; rfl) rfl) hclear hfresh le_rfl ?_
    intro u
    show WindowClear ctx u _ (if u = t then _ else s.phase u)
    split
    · trivial
    · exact hok u
  case recorded r c =>
    obtain rfl := some.inj hs
    exact (h.resolve c).setPhase trivial
  case published r =>
    obtain rfl := some.inj hs
    exact (h.deregister r).setPhase trivial
  case aborted r =>
    obtain rfl := some.inj hs
    exact (h.deregister r).setPhase trivial
  case finished => exact absurd hs (by simp)

theorem rollback_inv (h : Inv ctx s) (hs : s.rollback t = some s') :
    Inv ctx s' := by
  unfold rollback at hs
  cases hp : s.phase t <;> simp only [hp] at hs
  case active | floorRead | pruned | writesChecked | prechecked | versioned =>
    obtain rfl := some.inj hs
    exact h.setPhase trivial
  case sequencing | validated =>
    obtain rfl := some.inj hs
    exact h.leave (by rw [hp]; rfl) rfl trivial
  case assigned r c =>
    obtain rfl := some.inj hs
    have hleft : Inv ctx ({ s with commitLock := none }.setPhase t (.aborted r)) :=
      h.leave (by rw [hp]; rfl) rfl trivial
    exact hleft.resolve c
  all_goals exact absurd hs (by simp)

theorem step_inv {l : Label ι} (h : Inv ctx s) (hok : Undisturbed ctx s l)
    (hs : s.step ctx l = some s') : Inv ctx s' := by
  cases l with
  | next t => exact next_inv h hok hs
  | rollback t => exact rollback_inv h hs
  | advanceVisible =>
    simp only [step, ite_none_right_eq_some, some.injEq] at hs
    obtain ⟨-, rfl⟩ := hs
    exact h.advanceVisible

/-- First committer wins in every run that respects the two windows. -/
theorem no_overlapping_commits_of_undisturbed (ctx : ι → TxnContext) (s : CommitState ι)
    (h : Reachable (step ctx) (Undisturbed ctx) init s) : FirstCommitterWins ctx s :=
  (h.invariant (init_inv ctx) fun _ _ _ => step_inv).wins

/-- Two transactions that delete the same row. -/
def deleteSameRow : Fin 2 → TxnContext := fun _ =>
  { isolation := .repeatableRead, readSet := [], predicateSet := [], writeKeys := [.row 0 1] }

/-- `n` steps of one transaction. -/
def steps (n : Nat) (t : ι) : List (Label ι) := List.replicate n (.next t)

/-- The second transaction begins once the first one is visible: both commit. -/
theorem undisturbed_one_after_the_other :
    ∃ s, Reachable (step deleteSameRow) (Undisturbed deleteSameRow) init s ∧
      s.wal.map (·.commitEpoch) = [2, 1] ∧ FirstCommitterWins deleteSameRow s := by
  obtain ⟨s, hs, hwal⟩ := exists_reachable_of_execute (step deleteSameRow)
    (Undisturbed deleteSameRow) init (fun s => s.wal.map (·.commitEpoch) = [2, 1])
    (steps 13 0 ++ [.advanceVisible] ++ steps 13 1) (by decide)
  exact ⟨s, hs, hwal, no_overlapping_commits_of_undisturbed deleteSameRow s hs⟩

/-- Transaction 0 has validated its delete when transaction 1 begins and commits the same
delete; transaction 0 then loads the version that already counts it, so the sequencer does not
check again. Both commit, having read epoch 0. -/
theorem version_loaded_after_check_loses_update :
    ∃ s, Reachable (step deleteSameRow) anyStep init s ∧ ¬FirstCommitterWins deleteSameRow s :=
  exists_reachable_of_execute _ _ _ _ (steps 6 0 ++ steps 11 1 ++ steps 5 0) (by decide)

end CommitState

end MongrelDB.Txn
