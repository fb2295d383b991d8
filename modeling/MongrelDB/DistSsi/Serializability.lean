import Mathlib.Data.List.Basic
import MongrelDB.DistSsi.Certifier
import MongrelDB.Lib.Transition

/-!
# Certified transactions and their serial order

Any number of transactions read, write, ask for certification and commit, in any
interleaving. A read sees the writes of the transactions that have committed by then.
-/

namespace MongrelDB.DistSsi

open Lib List

inductive AccessKind where
  | read
  | write
  deriving DecidableEq, Repr

/-- An access, with the number of commits that were visible to it. -/
structure Access where
  txn : TransactionId
  kind : AccessKind
  tablet : TabletId
  key : KeyBytes
  seen : Nat
  deriving DecidableEq, Repr

/-- The certifier, and the history it does not see. -/
structure System where
  certifier : DistSsiCertifier
  accesses : List Access
  certified : List TransactionId
  commits : List TransactionId

inductive Action where
  | read (txn : TransactionId) (tablet : TabletId) (key : KeyBytes)
  | write (txn : TransactionId) (tablet : TabletId) (key : KeyBytes)
  | track (txn : TransactionId) (access : DistAccessSet)
  | certify (txn : TransactionId)
  | commit (txn : TransactionId)
  | abort (txn : TransactionId)

namespace DistAccessSet

/-- The access set has the access. -/
def Covers (s : DistAccessSet) (a : Access) : Prop :=
  match a.kind with
  | .read => s.reads.Has a.tablet a.key
  | .write => s.writes.Has a.tablet a.key

instance (s : DistAccessSet) (a : Access) : Decidable (s.Covers a) :=
  match h : a.kind with
  | .read => decidable_of_iff (s.reads.Has a.tablet a.key) (by rw [Covers, h])
  | .write => decidable_of_iff (s.writes.Has a.tablet a.key) (by rw [Covers, h])

end DistAccessSet

namespace System

def init (window : Nat) : System :=
  { certifier := .new window, accesses := [], certified := [], commits := [] }

def access (s : System) (txn : TransactionId) (kind : AccessKind) (tablet : TabletId)
    (key : KeyBytes) : Access :=
  { txn := txn, kind := kind, tablet := tablet, key := key, seen := s.commits.length }

/-- An attempt that failed leaves nothing behind. -/
def forget (s : System) (txn : TransactionId) : List Access :=
  s.accesses.filter (·.txn ≠ txn)

/-- A transaction id is not used again after its certification, and `track` is given all that
the transaction has done. -/
def step (s : System) : Action → Option System
  | .read txn tablet key =>
    if txn ∈ s.certified then none
    else some { s with
      certifier := s.certifier.observeRead txn tablet key
      accesses := s.accesses ++ [s.access txn .read tablet key] }
  | .write txn tablet key =>
    if txn ∈ s.certified then none
    else some { s with
      certifier := s.certifier.observeWrite txn tablet key
      accesses := s.accesses ++ [s.access txn .write tablet key] }
  | .track txn access =>
    if txn ∈ s.certified ∨ ∃ a ∈ s.accesses, a.txn = txn ∧ ¬ access.Covers a then none
    else some { s with certifier := s.certifier.track txn access }
  | .certify txn =>
    if txn ∈ s.certified then none
    else
      match s.certifier.certify txn with
      | (certifier, .ok) =>
        some { s with certifier := certifier, certified := s.certified ++ [txn] }
      | (certifier, .serializationFailure) =>
        some { s with certifier := certifier, accesses := s.forget txn }
  | .commit txn =>
    if txn ∈ s.certified ∧ ¬ txn ∈ s.commits then
      some { s with commits := s.commits ++ [txn] }
    else none
  | .abort txn =>
    if txn ∈ s.certified then none
    else some { s with certifier := s.certifier.abort txn, accesses := s.forget txn }

/-- The transaction has made the access. -/
def Did (s : System) (txn : TransactionId) (kind : AccessKind) (tablet : TabletId)
    (key : KeyBytes) (seen : Nat) : Prop :=
  { txn := txn, kind := kind, tablet := tablet, key := key, seen := seen } ∈ s.accesses

/-- Which of two certified transactions has to come first. -/
inductive Depends (s : System) : TransactionId → TransactionId → Prop where
  /-- the reader saw the writer -/
  | saw {writer reader : TransactionId} {tablet : TabletId} {key : KeyBytes} {n m : Nat} :
      writer ∈ s.certified → reader ∈ s.certified → writer ≠ reader →
      s.Did writer .write tablet key n → s.Did reader .read tablet key m →
      writer ∈ s.commits.take m → Depends s writer reader
  /-- the reader did not see the writer -/
  | missed {writer reader : TransactionId} {tablet : TabletId} {key : KeyBytes} {n m : Nat} :
      writer ∈ s.certified → reader ∈ s.certified → writer ≠ reader →
      s.Did writer .write tablet key n → s.Did reader .read tablet key m →
      ¬ writer ∈ s.commits.take m → Depends s reader writer
  /-- one write was visible before the other -/
  | installed {first second : TransactionId} {tablet : TabletId} {key : KeyBytes} {n m : Nat} :
      first ∈ s.certified → second ∈ s.certified → first ≠ second →
      s.Did first .write tablet key n → s.Did second .write tablet key m →
      first ∈ s.commits → s.commits.idxOf first < s.commits.idxOf second →
      Depends s first second

/-- The certified transactions have a serial order that all dependencies follow. -/
def Serializable (s : System) : Prop :=
  ∃ order : List TransactionId, (∀ txn, txn ∈ order ↔ txn ∈ s.certified) ∧
    ∀ a b, s.Depends a b → order.idxOf a < order.idxOf b

/-- When a transaction is certified, one that was certified before and has left the window was
committed at its every access. Asked also of transactions that do not conflict. -/
def WindowCovers (s : System) : Action → Prop
  | .certify txn => ∀ other ∈ s.certified, ¬ other ∈ s.certifier.committed.map Prod.fst →
      ∀ a ∈ s.accesses, a.txn = txn → other ∈ s.commits.take a.seen
  | _ => True

instance (s : System) (a : Action) : Decidable (s.WindowCovers a) :=
  match a with
  | .certify txn => inferInstanceAs (Decidable (∀ other ∈ s.certified,
      ¬ other ∈ s.certifier.committed.map Prod.fst →
        ∀ a ∈ s.accesses, a.txn = txn → other ∈ s.commits.take a.seen))
  | .read _ _ _ | .write _ _ _ | .track _ _ | .commit _ | .abort _ => isTrue trivial

end System

/-! ## The invariant -/

/-- Two accesses of which the first is a write of the key of the second. -/
structure Access.Overwrites (w a : Access) : Prop where
  kind : w.kind = .write
  tablet : w.tablet = a.tablet
  key : w.key = a.key

structure System.Inv (s : System) : Prop where
  commits_sub : ∀ t ∈ s.commits, t ∈ s.certified
  /-- the certifier knows what the running ones have done -/
  inflight : ∀ a ∈ s.accesses, ¬ a.txn ∈ s.certified →
    ∃ set, s.certifier.inflight[a.txn]? = some set ∧ set.Covers a
  /-- and what those of the window have done -/
  windowed : ∀ e ∈ s.certifier.committed, e.1 ∈ s.certified ∧
    ∀ a ∈ s.accesses, a.txn = e.1 → e.2.Covers a
  seen_le : ∀ a ∈ s.accesses, a.seen ≤ s.commits.length
  seen_before : ∀ a ∈ s.accesses, a.txn ∈ s.certified → ∀ t ∈ s.commits.take a.seen,
    s.certified.idxOf t < s.certified.idxOf a.txn
  /-- one certified before is visible to an access it overwrites -/
  ordered : ∀ w ∈ s.accesses, ∀ a ∈ s.accesses, w.Overwrites a → w.txn ∈ s.certified →
    a.txn ∈ s.certified → s.certified.idxOf w.txn < s.certified.idxOf a.txn →
    w.txn ∈ s.commits.take a.seen

namespace DistAccessSet

section

variable {s : DistAccessSet} {a : Access} (h : s.Covers a) (tablet : TabletId) (key : KeyBytes)
include h

theorem covers_read : (s.read tablet key).Covers a := by
  unfold Covers at h ⊢
  split at h
  · exact KeySets.has_record.mpr (.inl h)
  · exact h

theorem covers_write : (s.write tablet key).Covers a := by
  unfold Covers at h ⊢
  split at h
  · exact h
  · exact KeySets.has_record.mpr (.inl h)

end

/-- Two access sets that do not conflict have no access and write in common. -/
theorem not_overwrites {mine other : DistAccessSet}
    (h : ¬ DistSsiCertifier.conflicts mine other = true) {w a : Access}
    (hw : other.Covers w) (ha : mine.Covers a) (ho : w.Overwrites a) : False := by
  have hwrite : other.writes.Has a.tablet a.key := by
    rw [Covers, ho.kind, ho.tablet, ho.key] at hw
    exact hw
  refine h (DistSsiCertifier.conflicts_iff.mpr ⟨a.tablet, a.key, hwrite, ?_⟩)
  unfold Covers at ha
  split at ha
  · exact .inr ha
  · exact .inl ha

end DistAccessSet

namespace System.Inv

variable {s : System} {txn : TransactionId}

theorem init (window : Nat) : (System.init window).Inv := by
  constructor <;> simp [System.init, DistSsiCertifier.new]

theorem add (h : s.Inv) (htxn : ¬ txn ∈ s.certified) {kind : AccessKind}
    {tablet : TabletId} {key : KeyBytes} {set : DistAccessSet}
    (hold : ∀ old, s.certifier.inflight[txn]? = some old → ∀ a, old.Covers a → set.Covers a)
    (hnew : set.Covers (s.access txn kind tablet key)) :
    ({ s with
      certifier := { s.certifier with inflight := s.certifier.inflight.insert txn set }
      accesses := s.accesses ++ [s.access txn kind tablet key] } : System).Inv := by
  have hsplit : ∀ {a : Access}, a ∈ s.accesses ++ [s.access txn kind tablet key] →
      a ∈ s.accesses ∨ a = s.access txn kind tablet key := by simp
  constructor
  · exact h.commits_sub
  · intro a ha hrun
    dsimp only
    rw [Std.TreeMap.getElem?_insert]
    rcases hsplit ha with ha | rfl
    · obtain ⟨old, hget, hcov⟩ := h.inflight a ha hrun
      by_cases heq : txn = a.txn
      · subst heq
        exact ⟨set, by simp, hold old hget a hcov⟩
      · exact ⟨old, by rw [if_neg (by simpa using heq), hget], hcov⟩
    · exact ⟨set, by simp [System.access], hnew⟩
  · intro e he
    refine ⟨(h.windowed e he).1, fun a ha htxn' => ?_⟩
    rcases hsplit ha with ha | rfl
    · exact (h.windowed e he).2 a ha htxn'
    · exact absurd ((show txn = e.1 from htxn') ▸ (h.windowed e he).1) htxn
  · intro a ha
    rcases hsplit ha with ha | rfl
    · exact h.seen_le a ha
    · exact le_rfl
  · intro a ha hcert
    rcases hsplit ha with ha | rfl
    · exact h.seen_before a ha hcert
    · exact absurd hcert htxn
  · intro w hw a ha ho hwc hac
    rcases hsplit hw with hw | rfl
    · rcases hsplit ha with ha | rfl
      · exact h.ordered w hw a ha ho hwc hac
      · exact absurd hac htxn
    · exact absurd hwc htxn

theorem forget (h : s.Inv) (txn : TransactionId) :
    ({ s with
      certifier := { s.certifier with inflight := s.certifier.inflight.erase txn }
      accesses := s.forget txn } : System).Inv := by
  have hsub : ∀ {a : Access}, a ∈ s.forget txn → a ∈ s.accesses ∧ a.txn ≠ txn := by
    simp [System.forget]
  constructor
  · exact h.commits_sub
  · intro a ha hrun
    obtain ⟨ha, hne⟩ := hsub ha
    obtain ⟨set, hget, hcov⟩ := h.inflight a ha hrun
    refine ⟨set, ?_, hcov⟩
    dsimp only
    rw [Std.TreeMap.getElem?_erase, if_neg (by simpa using hne.symm), hget]
  · exact fun e he => ⟨(h.windowed e he).1, fun a ha => (h.windowed e he).2 a (hsub ha).1⟩
  · exact fun a ha => h.seen_le a (hsub ha).1
  · exact fun a ha => h.seen_before a (hsub ha).1
  · exact fun w hw a ha => h.ordered w (hsub hw).1 a (hsub ha).1

theorem track (h : s.Inv) {access : DistAccessSet}
    (hcov : ∀ a ∈ s.accesses, a.txn = txn → access.Covers a) :
    ({ s with certifier := s.certifier.track txn access } : System).Inv := by
  refine ⟨h.commits_sub, fun a ha hrun => ?_, h.windowed, h.seen_le, h.seen_before, h.ordered⟩
  show ∃ set, (s.certifier.inflight.insert txn access)[a.txn]? = some set ∧ set.Covers a
  rw [Std.TreeMap.getElem?_insert]
  by_cases heq : txn = a.txn
  · exact ⟨access, by simp [heq], hcov a ha heq.symm⟩
  · rw [if_neg (by simpa using heq)]
    exact h.inflight a ha hrun

theorem commit (h : s.Inv) (hcert : txn ∈ s.certified) :
    ({ s with commits := s.commits ++ [txn] } : System).Inv := by
  have htake : ∀ a ∈ s.accesses, (s.commits ++ [txn]).take a.seen = s.commits.take a.seen :=
    fun a ha => take_append_of_le_length (h.seen_le a ha)
  refine ⟨?_, h.inflight, h.windowed, fun a ha => ?_, fun a ha => ?_, fun w hw a ha => ?_⟩
  · exact forall_mem_append.mpr ⟨h.commits_sub, forall_mem_singleton.mpr hcert⟩
  · have := h.seen_le a ha
    simp only [length_append, length_singleton]
    omega
  · dsimp only
    rw [htake a ha]
    exact h.seen_before a ha
  · dsimp only
    rw [htake a ha]
    exact h.ordered w hw a ha

/-- A transaction is certified: it goes to the end of the order. -/
theorem certify (h : s.Inv) (htxn : ¬ txn ∈ s.certified)
    (hcovers : s.WindowCovers (.certify txn)) {certifier : DistSsiCertifier}
    (hcertify : s.certifier.certify txn = (certifier, .ok)) :
    ({ s with certifier := certifier, certified := s.certified ++ [txn] } : System).Inv := by
  have hold : ∀ {t}, t ∈ s.certified →
      (s.certified ++ [txn]).idxOf t = s.certified.idxOf t := idxOf_append_of_mem
  have hlast : (s.certified ++ [txn]).idxOf txn = s.certified.length := by
    rw [idxOf_append_of_notMem htxn, idxOf_cons_self, Nat.add_zero]
  have hlt : ∀ {t}, t ∈ s.certified → s.certified.idxOf t < s.certified.length :=
    idxOf_lt_length_of_mem
  have hsplit : ∀ {t}, t ∈ s.certified ++ [txn] → t ∈ s.certified ∨ t = txn := by simp
  -- what the certifier has looked at, and what it keeps
  obtain ⟨hinflight, hwindow, hclear⟩ :
      (∀ t, t ≠ txn → certifier.inflight[t]? = s.certifier.inflight[t]?) ∧
      (∀ e ∈ certifier.committed, e ∈ s.certifier.committed ∨
        (e.1 = txn ∧ s.certifier.inflight[txn]? = some e.2)) ∧
      ∀ mine, s.certifier.inflight[txn]? = some mine → ∀ e ∈ s.certifier.committed,
        ¬ DistSsiCertifier.conflicts mine e.2 = true := by
    rcases s.certifier.certify_cases txn with
      ⟨hnone, heq⟩ | ⟨mine, hmine, heq | ⟨hclear, heq⟩⟩
    · rw [heq] at hcertify
      cases hcertify
      exact ⟨fun _ _ => rfl, fun _ he => .inl he,
        fun mine hmine => by rw [hnone] at hmine; cases hmine⟩
    · rw [heq] at hcertify
      cases hcertify
    · rw [heq] at hcertify
      cases hcertify
      refine ⟨fun t ht => ?_, fun e he => ?_, fun mine' hmine' => ?_⟩
      · rw [Std.TreeMap.getElem?_erase, if_neg (by simpa using ht.symm)]
      · rcases mem_append.mp (mem_of_mem_drop he) with he | he
        · exact .inl he
        · obtain rfl := mem_singleton.mp he
          exact .inr ⟨rfl, hmine⟩
      · rw [hmine] at hmine'
        cases hmine'
        exact hclear
  constructor
  · exact fun t ht => mem_append_left _ (h.commits_sub t ht)
  · intro a ha hrun
    have hrun' : ¬ a.txn ∈ s.certified := fun hc => hrun (mem_append_left _ hc)
    have hne : a.txn ≠ txn := fun heq => hrun (by simp [heq])
    rw [hinflight _ hne]
    exact h.inflight a ha hrun'
  · intro e he
    rcases hwindow e he with he | ⟨heq, hmine⟩
    · exact ⟨mem_append_left _ (h.windowed e he).1, (h.windowed e he).2⟩
    · refine ⟨by simp [heq], fun a ha hatxn => ?_⟩
      rw [heq] at hatxn
      obtain ⟨set, hget, hcov⟩ := h.inflight a ha (hatxn ▸ htxn)
      rw [hatxn, hmine] at hget
      cases hget
      exact hcov
  · exact h.seen_le
  · intro a ha hcert t ht
    have htc := h.commits_sub t (mem_of_mem_take ht)
    dsimp only
    rw [hold htc]
    rcases hsplit hcert with hcert | heq
    · rw [hold hcert]
      exact h.seen_before a ha hcert t ht
    · rw [heq, hlast]
      exact hlt htc
  · intro w hw a ha ho hwc hac hidx
    dsimp only at hidx
    rcases hsplit hac with hac | hatxn
    · rw [hold hac] at hidx
      rcases hsplit hwc with hwc | hwtxn
      · rw [hold hwc] at hidx
        exact h.ordered w hw a ha ho hwc hac hidx
      · rw [hwtxn, hlast] at hidx
        exact absurd (hlt hac) (by omega)
    · rw [hatxn, hlast] at hidx
      rcases hsplit hwc with hwc | hwtxn
      swap
      · rw [hwtxn, hlast] at hidx
        exact absurd hidx (Nat.lt_irrefl _)
      by_cases hin : w.txn ∈ s.certifier.committed.map Prod.fst
      · -- one of the window: it would have been refused
        obtain ⟨e, he, hetxn⟩ := mem_map.mp hin
        obtain ⟨mine, hmine, hcov⟩ := h.inflight a ha (hatxn ▸ htxn)
        rw [hatxn] at hmine
        exact (DistAccessSet.not_overwrites (hclear mine hmine e he)
          ((h.windowed e he).2 w hw hetxn.symm) hcov ho).elim
      · exact hcovers w.txn hwc hin a ha hatxn

theorem step (h : s.Inv) {s' : System} {action : Action} (hok : s.WindowCovers action)
    (hstep : s.step action = some s') : s'.Inv := by
  cases action with
  | read txn tablet key =>
    simp only [System.step] at hstep
    split at hstep
    · cases hstep
    next htxn =>
      cases hstep
      refine h.add htxn (fun old hget a hcov => ?_) ?_
      · rw [hget]
        exact DistAccessSet.covers_read hcov tablet key
      · exact KeySets.has_record.mpr (.inr ⟨rfl, rfl⟩)
  | write txn tablet key =>
    simp only [System.step] at hstep
    split at hstep
    · cases hstep
    next htxn =>
      cases hstep
      refine h.add htxn (fun old hget a hcov => ?_) ?_
      · rw [hget]
        exact DistAccessSet.covers_write hcov tablet key
      · exact KeySets.has_record.mpr (.inr ⟨rfl, rfl⟩)
  | track txn access =>
    simp only [System.step] at hstep
    split at hstep
    · cases hstep
    next hcond =>
      cases hstep
      push Not at hcond
      exact h.track hcond.2
  | certify txn =>
    simp only [System.step] at hstep
    split at hstep
    · cases hstep
    next htxn =>
      split at hstep
      next certifier hcertify =>
        cases hstep
        exact h.certify htxn hok hcertify
      next certifier hcertify =>
        cases hstep
        rcases s.certifier.certify_cases txn with
          ⟨-, heq⟩ | ⟨mine, -, heq | ⟨-, heq⟩⟩
        · rw [heq] at hcertify
          cases hcertify
        · rw [heq] at hcertify
          cases hcertify
          exact h.forget txn
        · rw [heq] at hcertify
          cases hcertify
  | commit txn =>
    simp only [System.step] at hstep
    split at hstep
    next hcond =>
      cases hstep
      exact h.commit hcond.1
    · cases hstep
  | abort txn =>
    simp only [System.step] at hstep
    split at hstep
    · cases hstep
    · cases hstep
      exact h.forget txn

theorem depends (h : s.Inv) {a b : TransactionId} (hdep : s.Depends a b) :
    s.certified.idxOf a < s.certified.idxOf b := by
  -- two different certified transactions have different places
  have hother : ∀ {x y}, x ∈ s.certified → x ≠ y →
      ¬ s.certified.idxOf y < s.certified.idxOf x → s.certified.idxOf x < s.certified.idxOf y := by
    intro x y hx hne hnot
    have : s.certified.idxOf x ≠ s.certified.idxOf y := fun heq => hne ((idxOf_inj hx).mp heq)
    omega
  cases hdep with
  | saw hw hr hne hwrite hread hseen => exact h.seen_before _ hread hr _ hseen
  | missed hw hr hne hwrite hread hseen =>
    refine hother hr hne.symm fun hlt => hseen ?_
    exact h.ordered _ hwrite _ hread ⟨rfl, rfl, rfl⟩ hw hr hlt
  | installed h₁ h₂ hne hfirst hsecond hcommit hidx =>
    refine hother h₁ hne fun hlt => ?_
    have hseen := h.ordered _ hsecond _ hfirst ⟨rfl, rfl, rfl⟩ h₂ h₁ hlt
    -- the first was committed before the second, so it saw its own commit
    have hmem := mem_of_mem_take hseen
    rw [mem_take_iff_idxOf_lt hmem] at hseen
    have hself := h.seen_before _ hfirst h₁ a
      ((mem_take_iff_idxOf_lt hcommit).mpr (Nat.lt_trans hidx hseen))
    exact absurd hself (Nat.lt_irrefl _)

end System.Inv

/-- For every window: in every run in which the window still covers each transaction that is
certified, the certified transactions have a serial order. -/
theorem serializable_of_window_covers (window : Nat) {s : System}
    (h : Reachable System.step System.WindowCovers (.init window) s) : s.Serializable := by
  have hinv : s.Inv := h.invariant (.init window) fun _ _ _ hs hok hstep => hs.step hok hstep
  exact ⟨s.certified, fun _ => Iff.rfl, fun _ _ hdep => hinv.depends hdep⟩

/-- A reader and the writer of what it has read, both in the window. -/
theorem write_after_read_serializable :
    ∃ s, Reachable System.step System.WindowCovers (.init 1) s ∧
      (s.certified = [1, 2] ∧ s.commits = [2]) ∧ s.Serializable := by
  obtain ⟨s, hs, hp⟩ := exists_reachable_of_execute System.step System.WindowCovers (.init 1)
    (fun s => s.certified = [1, 2] ∧ s.commits = [2])
    [.read 1 5 [7], .certify 1, .read 2 5 [8], .write 2 5 [7], .certify 2, .commit 2]
    (by decide)
  exact ⟨s, hs, hp, serializable_of_window_covers 1 hs⟩

/-- With a window of one: transaction 1 reads `y`; transaction 2 reads `x`, writes `y`, is
certified and commits; a third takes its place in the window; transaction 1 writes `x` and is
certified. Each of the two has read what the other has overwritten. -/
theorem evicted_writer_closes_cycle :
    ∃ s, Reachable System.step anyStep (.init 1) s ∧ ¬ s.Serializable := by
  obtain ⟨s, hs, hcert, hcommits, hy, hx, hx', hy'⟩ := exists_reachable_of_execute System.step
    anyStep (.init 1)
    (fun s => s.certified = [2, 3, 1] ∧ s.commits = [2] ∧
      ⟨1, .read, 0, [1], 0⟩ ∈ s.accesses ∧ ⟨2, .read, 0, [0], 0⟩ ∈ s.accesses ∧
      ⟨1, .write, 0, [0], 1⟩ ∈ s.accesses ∧ ⟨2, .write, 0, [1], 0⟩ ∈ s.accesses)
    [.read 1 0 [1], .read 2 0 [0], .write 2 0 [1], .certify 2, .commit 2, .write 3 0 [9],
      .certify 3, .write 1 0 [0], .certify 1] (by decide)
  refine ⟨s, hs, fun ⟨order, _, hdep⟩ => ?_⟩
  have h₁ := hdep 1 2 (.missed (by simp [hcert]) (by simp [hcert]) (by decide) hy' hy (by simp))
  have h₂ := hdep 2 1 (.missed (by simp [hcert]) (by simp [hcert]) (by decide) hx' hx (by simp))
  omega

end MongrelDB.DistSsi
