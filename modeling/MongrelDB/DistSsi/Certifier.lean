import MongrelDB.Lib.Bytes

/-!
# The distributed serializability certifier

A coordinator feeds the access sets of its transactions, per tablet, to a certifier
before it decides.
-/

namespace MongrelDB.DistSsi

open Lib

abbrev TransactionId := Nat
abbrev TabletId := Nat
abbrev KeyBytes := Bytes

/-- The keys touched on one tablet. -/
structure TabletKeySet where
  keys : List KeyBytes := []
  deriving DecidableEq, Repr

namespace TabletKeySet

def insert (s : TabletKeySet) (key : KeyBytes) : TabletKeySet :=
  if s.keys.any (· == key) then s else { keys := s.keys ++ [key] }

def intersects (s other : TabletKeySet) : Bool :=
  s.keys.any fun k => other.keys.any fun o => o == k

theorem mem_insert {s : TabletKeySet} {key k : KeyBytes} :
    k ∈ (s.insert key).keys ↔ k ∈ s.keys ∨ k = key := by
  unfold insert
  split
  next h =>
    obtain ⟨k', hk', heq⟩ := List.any_eq_true.mp h
    obtain rfl : k' = key := by simpa using heq
    exact ⟨.inl, fun h => h.elim id fun heq => heq ▸ hk'⟩
  next => simp

theorem intersects_iff {s other : TabletKeySet} :
    s.intersects other = true ↔ ∃ k, k ∈ s.keys ∧ k ∈ other.keys := by
  simp [intersects]

end TabletKeySet

/-- Key sets per tablet. -/
abbrev KeySets := Std.TreeMap TabletId TabletKeySet

namespace KeySets

/-- `entry(tablet).or_default().insert(key)` -/
def record (m : KeySets) (tablet : TabletId) (key : KeyBytes) : KeySets :=
  m.insert tablet ((m[tablet]?.getD {}).insert key)

/-- Some tablet has a key in both. -/
def intersects (m other : KeySets) : Bool :=
  m.toList.any fun (tablet, set) =>
    match other[tablet]? with
    | some otherSet => set.intersects otherSet
    | none => false

/-- The key is recorded. -/
def Has (m : KeySets) (tablet : TabletId) (key : KeyBytes) : Prop :=
  ∃ set, m[tablet]? = some set ∧ key ∈ set.keys

instance (m : KeySets) (tablet : TabletId) (key : KeyBytes) : Decidable (m.Has tablet key) :=
  decidable_of_iff (m[tablet]?.any (key ∈ ·.keys) = true) (by
    cases h : m[tablet]? <;> simp [Has, h])

theorem has_record {m : KeySets} {tablet tablet' : TabletId} {key key' : KeyBytes} :
    Has (m.record tablet key) tablet' key' ↔
      Has m tablet' key' ∨ (tablet' = tablet ∧ key' = key) := by
  unfold Has record
  rw [Std.TreeMap.getElem?_insert]
  by_cases h : tablet = tablet'
  · subst h
    simp only [Std.compare_self, if_true, Option.some.injEq, exists_eq_left',
      TabletKeySet.mem_insert, true_and]
    cases m[tablet]? <;> simp
  · have hne : ¬ compare tablet tablet' = .eq := by simpa using h
    rw [if_neg hne]
    simp [Ne.symm h]

theorem intersects_iff {m other : KeySets} :
    m.intersects other = true ↔ ∃ tablet key, m.Has tablet key ∧ other.Has tablet key := by
  constructor
  · intro h
    obtain ⟨⟨tablet, set⟩, hmem, hset⟩ := List.any_eq_true.mp h
    rw [Std.TreeMap.mem_toList_iff_getElem?_eq_some] at hmem
    cases ho : other[tablet]? with
    | none => simp [ho] at hset
    | some otherSet =>
      obtain ⟨key, h₁, h₂⟩ := TabletKeySet.intersects_iff.mp (by simpa [ho] using hset)
      exact ⟨tablet, key, ⟨set, hmem, h₁⟩, otherSet, ho, h₂⟩
  · rintro ⟨tablet, key, ⟨set, hset, h₁⟩, otherSet, ho, h₂⟩
    refine List.any_eq_true.mpr ⟨(tablet, set), ?_, ?_⟩
    · rwa [Std.TreeMap.mem_toList_iff_getElem?_eq_some]
    · simp only [ho]
      exact TabletKeySet.intersects_iff.mpr ⟨key, h₁, h₂⟩

end KeySets

/-- What one transaction has touched, over all tablets. -/
structure DistAccessSet where
  reads : KeySets := ∅
  writes : KeySets := ∅

namespace DistAccessSet

def read (s : DistAccessSet) (tablet : TabletId) (key : KeyBytes) : DistAccessSet :=
  { s with reads := s.reads.record tablet key }

def write (s : DistAccessSet) (tablet : TabletId) (key : KeyBytes) : DistAccessSet :=
  { s with writes := s.writes.record tablet key }

def writesIntersectReads (s other : DistAccessSet) : Bool := s.writes.intersects other.reads

def writesIntersectWrites (s other : DistAccessSet) : Bool := s.writes.intersects other.writes

end DistAccessSet

inductive DistCertOutcome where
  | ok
  | serializationFailure
  deriving DecidableEq, Repr

structure DistSsiCertifier where
  inflight : Std.TreeMap TransactionId DistAccessSet := ∅
  /-- oldest first -/
  committed : List (TransactionId × DistAccessSet) := []
  window : Nat

namespace DistSsiCertifier

def new (window : Nat) : DistSsiCertifier := { window := max window 1 }

section

variable (c : DistSsiCertifier) (txn : TransactionId)

def track (access : DistAccessSet) :
    DistSsiCertifier :=
  { c with inflight := c.inflight.insert txn access }

def observeRead (tablet : TabletId)
    (key : KeyBytes) : DistSsiCertifier :=
  { c with inflight := c.inflight.insert txn ((c.inflight[txn]?.getD {}).read tablet key) }

def observeWrite (tablet : TabletId)
    (key : KeyBytes) : DistSsiCertifier :=
  { c with inflight := c.inflight.insert txn ((c.inflight[txn]?.getD {}).write tablet key) }

end

/-- The loop over the window. The second and the fourth test are inside or behind the first
two and never decide. -/
def conflicts (mine other : DistAccessSet) : Bool :=
  if mine.writesIntersectWrites other then true
  else if other.writesIntersectReads mine then
    if mine.writesIntersectReads other then true else true
  else if mine.writesIntersectReads other && other.writesIntersectReads mine then true
  else false

def certify (c : DistSsiCertifier) (txn : TransactionId) : DistSsiCertifier × DistCertOutcome :=
  match c.inflight[txn]? with
  | none => (c, .ok)
  | some mine =>
    let c := { c with inflight := c.inflight.erase txn }
    if c.committed.any fun entry => conflicts mine entry.2 then (c, .serializationFailure)
    else
      let committed := c.committed ++ [(txn, mine)]
      ({ c with committed := committed.drop (committed.length - c.window) }, .ok)

def abort (c : DistSsiCertifier) (txn : TransactionId) : DistSsiCertifier :=
  { c with inflight := c.inflight.erase txn }

theorem conflicts_iff {mine other : DistAccessSet} :
    conflicts mine other = true ↔ ∃ tablet key, other.writes.Has tablet key ∧
      (mine.writes.Has tablet key ∨ mine.reads.Has tablet key) := by
  have hor : conflicts mine other =
      (mine.writesIntersectWrites other || other.writesIntersectReads mine) := by
    unfold conflicts
    cases mine.writesIntersectWrites other <;> cases other.writesIntersectReads mine <;> simp
  rw [hor, Bool.or_eq_true, DistAccessSet.writesIntersectWrites,
    DistAccessSet.writesIntersectReads, KeySets.intersects_iff, KeySets.intersects_iff]
  simp only [or_and_right, exists_or, and_comm]

/-- Nothing to certify; refused; or no conflict with the window, which the transaction then
joins. -/
theorem certify_cases (c : DistSsiCertifier) (txn : TransactionId) :
    (c.inflight[txn]? = none ∧ c.certify txn = (c, .ok)) ∨
    ∃ mine, c.inflight[txn]? = some mine ∧
      (c.certify txn = ({ c with inflight := c.inflight.erase txn }, .serializationFailure) ∨
      ((∀ e ∈ c.committed, ¬ conflicts mine e.2 = true) ∧
        c.certify txn =
          ({ c with
            inflight := c.inflight.erase txn
            committed := (c.committed ++ [(txn, mine)]).drop
              ((c.committed ++ [(txn, mine)]).length - c.window) }, .ok))) := by
  cases hmine : c.inflight[txn]? with
  | none => exact .inl ⟨rfl, by rw [certify, hmine]⟩
  | some mine =>
    refine .inr ⟨mine, rfl, ?_⟩
    by_cases hconf : (c.committed.any fun entry => conflicts mine entry.2) = true
    · exact .inl (by rw [certify, hmine]; exact if_pos hconf)
    · exact .inr ⟨fun e he hc => hconf (List.any_eq_true.mpr ⟨e, he, hc⟩),
        by rw [certify, hmine]; exact if_neg hconf⟩

/-- For every state of the certifier: the window decides, and nothing else. -/
theorem certify_ok_iff (c : DistSsiCertifier) (txn : TransactionId) :
    (c.certify txn).2 = .ok ↔ ∀ mine, c.inflight[txn]? = some mine →
      ∀ e ∈ c.committed, ¬ conflicts mine e.2 = true := by
  unfold certify
  cases c.inflight[txn]? with
  | none => simp
  | some mine =>
    simp only [Option.some.injEq, forall_eq']
    split
    next hconf =>
      obtain ⟨e, he, hc⟩ := List.any_eq_true.mp hconf
      exact iff_of_false nofun fun h => h e he hc
    next hconf => exact iff_of_true rfl fun e he hc => hconf (List.any_eq_true.mpr ⟨e, he, hc⟩)

end DistSsiCertifier

end MongrelDB.DistSsi
