import Mathlib.Data.List.Sort
import MongrelDB.Epoch.Snapshot

/-!
# The run-lookup directory

A directory from row ids to the sorted runs that hold versions of the row.
-/

namespace MongrelDB.Storage

open Epoch List

structure RunLocator where
  runId : Nat
  minEpoch : Nat
  maxEpoch : Nat
  minHlc : Option HlcTimestamp
  maxHlc : Option HlcTimestamp
  /-- some version in the run has no timestamp -/
  containsUnstampedVersions : Bool
  deriving DecidableEq, Repr

inductive RunLocatorMetadataError where
  | minEpochAfterMaxEpoch
  | partialHlcEnvelope
  | minHlcAfterMaxHlc
  | emptyVersionEnvelope
  deriving DecidableEq, Repr

/-- The order in which the directory keeps the postings of a row. -/
def locatorIsNewer (newer older : RunLocator) : Bool :=
  if older.maxEpoch < newer.maxEpoch then true
  else if newer.maxEpoch < older.maxEpoch then false
  else
    match newer.maxHlc, older.maxHlc with
    | some a, some b => decide (b < a)
    | some _, none => true
    | none, _ => false

namespace RunLocator

variable {stamps : List Stamp}

section

variable (l : RunLocator)

def validateMetadata : Except RunLocatorMetadataError Unit :=
  if l.maxEpoch < l.minEpoch then .error .minEpochAfterMaxEpoch
  else
    match l.minHlc, l.maxHlc with
    | some lo, some hi => if hi < lo then .error .minHlcAfterMaxHlc else .ok ()
    | none, none => if l.containsUnstampedVersions then .ok () else .error .emptyVersionEnvelope
    | _, _ => .error .partialHlcEnvelope

def mayHaveVisibleStampedVersion (snap : Snapshot) : Bool :=
  match l.minHlc with
  | none => false
  | some minHlc =>
    if snap.usesHlcAuthority then decide (minHlc ≤ snap.commitTs)
    else decide (l.minEpoch ≤ snap.epoch)

def mayHaveVisibleUnstampedVersion (snap : Snapshot) : Bool :=
  l.containsUnstampedVersions && decide (l.minEpoch ≤ snap.epoch)

/-- Contradictory metadata never proves anything impossible. -/
def isImpossibleFor (snap : Snapshot) : Bool :=
  match l.validateMetadata with
  | .error _ => false
  | .ok _ => !l.mayHaveVisibleStampedVersion snap && !l.mayHaveVisibleUnstampedVersion snap

def stampedVersionMayBeat (best : Stamp) (snap : Snapshot) : Bool :=
  match l.minHlc, l.maxHlc with
  | some minHlc, some maxHlc =>
    match best.commitTs with
    | some bestHlc =>
      if snap.usesHlcAuthority then decide (bestHlc < min maxHlc snap.commitTs)
      else decide (l.minEpoch ≤ snap.epoch) && decide (bestHlc < maxHlc)
    | none =>
      if snap.usesHlcAuthority then
        decide (minHlc ≤ snap.commitTs) && decide (best.epoch < l.maxEpoch)
      else decide (best.epoch < min l.maxEpoch snap.epoch)
  | _, _ => false

def unstampedVersionMayBeat (best : Stamp) (snap : Snapshot) : Bool :=
  l.containsUnstampedVersions && decide (best.epoch < min l.maxEpoch snap.epoch)

def canContainVersionNewerThan (best : Stamp) (snap : Snapshot) : Bool :=
  if (l.minHlc.isNone || l.maxHlc.isNone) && !l.containsUnstampedVersions then true
  else l.stampedVersionMayBeat best snap || l.unstampedVersionMayBeat best snap

end

/-! ## Building the envelope -/

/-- The entry for the first version met. -/
def first (runId : Nat) (s : Stamp) : RunLocator :=
  { runId, minEpoch := s.epoch, maxEpoch := s.epoch, minHlc := s.commitTs, maxHlc := s.commitTs
    containsUnstampedVersions := s.commitTs.isNone }

/-- Take one more version into the envelope. -/
def widen (l : RunLocator) (s : Stamp) : RunLocator :=
  { l with
    minEpoch := if s.epoch < l.minEpoch then s.epoch else l.minEpoch
    maxEpoch := if l.maxEpoch < s.epoch then s.epoch else l.maxEpoch
    minHlc :=
      match s.commitTs, l.minHlc with
      | some ts, some prev => if ts < prev then some ts else some prev
      | some ts, none => some ts
      | none, old => old
    maxHlc :=
      match s.commitTs, l.maxHlc with
      | some ts, some prev => if prev < ts then some ts else some prev
      | some ts, none => some ts
      | none, old => old
    containsUnstampedVersions := l.containsUnstampedVersions || s.commitTs.isNone }

/-- The posting of a row whose versions in the run have the stamps `stamps`. -/
def ofStamps (runId : Nat) : List Stamp → Option RunLocator
  | [] => none
  | s :: stamps => some (stamps.foldl widen (first runId s))

/-! ## What the envelope says -/

/-- The stamp `s` lies in the envelope. -/
structure Covers (l : RunLocator) (s : Stamp) : Prop where
  minEpoch_le : l.minEpoch ≤ s.epoch
  le_maxEpoch : s.epoch ≤ l.maxEpoch
  minHlc_le : ∀ ts, s.commitTs = some ts → ∃ lo, l.minHlc = some lo ∧ lo ≤ ts
  le_maxHlc : ∀ ts, s.commitTs = some ts → ∃ hi, l.maxHlc = some hi ∧ ts ≤ hi
  unstamped : s.commitTs = none → l.containsUnstampedVersions = true

theorem covers_first (runId : Nat) (s : Stamp) : (first runId s).Covers s where
  minEpoch_le := le_rfl
  le_maxEpoch := le_rfl
  minHlc_le ts h := ⟨ts, h, le_refl ts⟩
  le_maxHlc ts h := ⟨ts, h, le_refl ts⟩
  unstamped h := by simp [first, h]

theorem covers_widen_self (l : RunLocator) (s : Stamp) : (l.widen s).Covers s where
  minEpoch_le := by
    simp only [widen]
    split <;> omega
  le_maxEpoch := by
    simp only [widen]
    split <;> omega
  minHlc_le ts h := by
    cases hl : l.minHlc with
    | none => exact ⟨ts, by simp [widen, h, hl], le_refl ts⟩
    | some prev =>
      by_cases hlt : ts < prev
      · exact ⟨ts, by simp [widen, h, hl, hlt], le_refl ts⟩
      · exact ⟨prev, by simp [widen, h, hl, hlt], not_lt.mp hlt⟩
  le_maxHlc ts h := by
    cases hl : l.maxHlc with
    | none => exact ⟨ts, by simp [widen, h, hl], le_refl ts⟩
    | some prev =>
      by_cases hlt : prev < ts
      · exact ⟨ts, by simp [widen, h, hl, hlt], le_refl ts⟩
      · exact ⟨prev, by simp [widen, h, hl, hlt], not_lt.mp hlt⟩
  unstamped h := by simp [widen, h]

theorem Covers.widen {l : RunLocator} {s : Stamp} (h : l.Covers s) (t : Stamp) :
    (l.widen t).Covers s where
  minEpoch_le := by
    have := h.minEpoch_le
    simp only [RunLocator.widen]
    split <;> omega
  le_maxEpoch := by
    have := h.le_maxEpoch
    simp only [RunLocator.widen]
    split <;> omega
  minHlc_le ts hts := by
    obtain ⟨lo, hlo, hle⟩ := h.minHlc_le ts hts
    cases ht : t.commitTs with
    | none => exact ⟨lo, by simp [RunLocator.widen, ht, hlo], hle⟩
    | some u =>
      by_cases hlt : u < lo
      · exact ⟨u, by simp [RunLocator.widen, ht, hlo, hlt], hlt.le.trans hle⟩
      · exact ⟨lo, by simp [RunLocator.widen, ht, hlo, hlt], hle⟩
  le_maxHlc ts hts := by
    obtain ⟨hi, hhi, hle⟩ := h.le_maxHlc ts hts
    cases ht : t.commitTs with
    | none => exact ⟨hi, by simp [RunLocator.widen, ht, hhi], hle⟩
    | some u =>
      by_cases hlt : hi < u
      · exact ⟨u, by simp [RunLocator.widen, ht, hhi, hlt], hle.trans hlt.le⟩
      · exact ⟨hi, by simp [RunLocator.widen, ht, hhi, hlt], hle⟩
  unstamped hn := by simp [RunLocator.widen, h.unstamped hn]

theorem Covers.foldl_widen {l : RunLocator} {s : Stamp} (h : l.Covers s) (stamps : List Stamp) :
    (stamps.foldl RunLocator.widen l).Covers s := by
  induction stamps generalizing l with
  | nil => exact h
  | cons t stamps ih => exact ih (h.widen t)

theorem covers_foldl_widen (l : RunLocator) {s : Stamp} (h : s ∈ stamps) :
    (stamps.foldl widen l).Covers s := by
  induction stamps generalizing l with
  | nil => exact absurd h not_mem_nil
  | cons t stamps ih =>
    rcases mem_cons.mp h with rfl | h
    · exact (covers_widen_self l s).foldl_widen stamps
    · exact ih _ h

theorem covers_of_ofStamps {runId : Nat} {l : RunLocator}
    (h : ofStamps runId stamps = some l) {s : Stamp} (hs : s ∈ stamps) : l.Covers s := by
  cases stamps with
  | nil => exact absurd hs not_mem_nil
  | cons t stamps =>
    rw [ofStamps, Option.some.injEq] at h
    subst h
    rcases mem_cons.mp hs with rfl | hs
    · exact (covers_first runId s).foldl_widen stamps
    · exact covers_foldl_widen _ hs

theorem runId_foldl_widen (l : RunLocator) (stamps : List Stamp) :
    (stamps.foldl widen l).runId = l.runId := by
  induction stamps generalizing l with
  | nil => rfl
  | cons t stamps ih => exact ih (l.widen t)

theorem runId_of_ofStamps {runId : Nat} {l : RunLocator}
    (h : ofStamps runId stamps = some l) : l.runId = runId := by
  cases stamps with
  | nil => cases h
  | cons t stamps =>
    rw [ofStamps, Option.some.injEq] at h
    rw [← h, runId_foldl_widen]
    rfl

/-! ## Passing over a run is sound -/

section

variable {l : RunLocator} {s best : Stamp} {snap : Snapshot}

theorem observes_of_impossible (hc : l.Covers s) (h : l.isImpossibleFor snap = true) :
    snap.observesVersion s = false := by
  unfold isImpossibleFor at h
  split at h
  · exact absurd h Bool.false_ne_true
  · simp only [Bool.and_eq_true, Bool.not_eq_true'] at h
    obtain ⟨hstamped, hunstamped⟩ := h
    have hmin := hc.minEpoch_le
    rcases s with ⟨e, _ | ts⟩
    · have hun := hc.unstamped rfl
      simp only [mayHaveVisibleUnstampedVersion, hun, Bool.true_and, decide_eq_false_iff_not]
        at hunstamped
      rw [Snapshot.observesVersion_of_epoch (Or.inr rfl), decide_eq_false_iff_not]
      exact fun hle => hunstamped (Nat.le_trans hmin hle)
    · obtain ⟨lo, hlo, hle⟩ := hc.minHlc_le ts rfl
      simp only [mayHaveVisibleStampedVersion, hlo] at hstamped
      by_cases hhlc : snap.usesHlcAuthority = true
      · simp only [hhlc, if_true, decide_eq_false_iff_not] at hstamped
        simp only [Snapshot.observesVersion, hhlc, decide_eq_false_iff_not]
        exact fun hts => hstamped (hle.trans hts)
      · rw [Bool.not_eq_true] at hhlc
        simp only [hhlc, Bool.false_eq_true, if_false, decide_eq_false_iff_not] at hstamped
        rw [Snapshot.observesVersion_of_epoch (Or.inl hhlc), decide_eq_false_iff_not]
        exact fun hts => hstamped (Nat.le_trans hmin hts)

theorem stampedVersionMayBeat_of_newer {e : Nat} {ts : HlcTimestamp} (hc : l.Covers ⟨e, some ts⟩)
    (hobs : snap.observesVersion ⟨e, some ts⟩ = true)
    (hnew : versionIsNewer ⟨e, some ts⟩ best = true) :
    l.stampedVersionMayBeat best snap = true := by
  obtain ⟨lo, hlo, hlole⟩ := hc.minHlc_le ts rfl
  obtain ⟨hi, hhi, hhige⟩ := hc.le_maxHlc ts rfl
  have hmin : l.minEpoch ≤ e := hc.minEpoch_le
  have hmax : e ≤ l.maxEpoch := hc.le_maxEpoch
  simp only [stampedVersionMayBeat, hlo, hhi]
  by_cases hhlc : snap.usesHlcAuthority = true
  · simp only [Snapshot.observesVersion, hhlc, decide_eq_true_eq] at hobs
    rcases best with ⟨be, _ | bts⟩
    · simp only [versionIsNewer, decide_eq_true_eq] at hnew
      simp only [hhlc, if_true, Bool.and_eq_true, decide_eq_true_eq]
      exact ⟨hlole.trans hobs, by omega⟩
    · simp only [versionIsNewer, decide_eq_true_eq] at hnew
      simp only [hhlc, if_true, decide_eq_true_eq]
      exact lt_min (hnew.trans_le hhige) (hnew.trans_le hobs)
  · rw [Bool.not_eq_true] at hhlc
    rw [Snapshot.observesVersion_of_epoch (Or.inl hhlc), decide_eq_true_eq] at hobs
    have hobs : e ≤ snap.epoch := hobs
    rcases best with ⟨be, _ | bts⟩
    · simp only [versionIsNewer, decide_eq_true_eq] at hnew
      simp only [hhlc, Bool.false_eq_true, if_false, decide_eq_true_eq]
      omega
    · simp only [versionIsNewer, decide_eq_true_eq] at hnew
      simp only [hhlc, Bool.false_eq_true, if_false, Bool.and_eq_true, decide_eq_true_eq]
      exact ⟨by omega, hnew.trans_le hhige⟩

theorem unstampedVersionMayBeat_of_newer {e : Nat} (hc : l.Covers ⟨e, none⟩)
    (hobs : snap.observesVersion ⟨e, none⟩ = true) (hnew : versionIsNewer ⟨e, none⟩ best = true) :
    l.unstampedVersionMayBeat best snap = true := by
  have hmax : e ≤ l.maxEpoch := hc.le_maxEpoch
  rw [Snapshot.observesVersion_of_epoch (Or.inr rfl), decide_eq_true_eq] at hobs
  have hobs : e ≤ snap.epoch := hobs
  have hlt : best.epoch < e := by simpa [versionIsNewer] using hnew
  simp only [unstampedVersionMayBeat, hc.unstamped rfl, Bool.true_and, decide_eq_true_eq]
  omega

/-- The early stop is sound for every mix of stamps and for both kinds of snapshot. -/
theorem not_newer_of_cannot_contain (hc : l.Covers s) (hobs : snap.observesVersion s = true)
    (h : l.canContainVersionNewerThan best snap = false) : versionIsNewer s best = false := by
  by_contra hnew
  rw [Bool.not_eq_false] at hnew
  unfold canContainVersionNewerThan at h
  split at h
  · exact absurd h (by simp)
  · rw [Bool.or_eq_false_iff] at h
    rcases s with ⟨e, _ | ts⟩
    · rw [unstampedVersionMayBeat_of_newer hc hobs hnew] at h
      exact absurd h.2 (by simp)
    · rw [stampedVersionMayBeat_of_newer hc hobs hnew] at h
      exact absurd h.1 (by simp)

end

/-- A run whose posting was built from `stamps` hides nothing when it is passed over: ruled out, it
has no version the snapshot observes; left closed, it has none that beats the best one so far. -/
theorem passing_over_hides_nothing {runId : Nat} {stamps : List Stamp} {l : RunLocator}
    (h : ofStamps runId stamps = some l) (snap : Snapshot) (best : Stamp) :
    (l.isImpossibleFor snap = true → ∀ s ∈ stamps, snap.observesVersion s = false) ∧
      (l.canContainVersionNewerThan best snap = false → ∀ s ∈ stamps,
        snap.observesVersion s = true → versionIsNewer s best = false) := by
  constructor
  · intro himpossible s hs
    exact observes_of_impossible (covers_of_ofStamps h hs) himpossible
  · intro hcannot s hs hobs
    exact not_newer_of_cannot_contain (covers_of_ofStamps h hs) hobs hcannot

def mixedStamps : List Stamp := [⟨4, some ⟨9, 0, 0⟩⟩, ⟨5, none⟩]

/-- A stamped and an unstamped version: ruled out below both, left closed once epoch `7` is held. -/
theorem mixed_run_passed_over :
    (∀ s ∈ mixedStamps, (Snapshot.atEpoch 3).observesVersion s = false) ∧
      ∀ s ∈ mixedStamps, (Snapshot.atEpoch 6).observesVersion s = true →
        versionIsNewer s ⟨7, none⟩ = false := by
  have h : ofStamps 1 mixedStamps = some ⟨1, 4, 5, some ⟨9, 0, 0⟩, some ⟨9, 0, 0⟩, true⟩ := rfl
  exact ⟨(passing_over_hides_nothing h (Snapshot.atEpoch 3) ⟨7, none⟩).1 (by decide),
    (passing_over_hides_nothing h (Snapshot.atEpoch 6) ⟨7, none⟩).2 (by decide)⟩

end RunLocator

/-! ## The directory -/

/-- The postings of every row, newest first. A row without postings has an empty list. -/
structure RunLookupDirectory where
  postings : Nat → List RunLocator

inductive DirectoryLookupDecision where
  | completeMiss
  | candidates (locators : List RunLocator)
  | unavailableOrStale

namespace RunLookupDirectory

def lookup (d : RunLookupDirectory) (rowId : Nat) : DirectoryLookupDecision :=
  match d.postings rowId with
  | [] => .completeMiss
  | locators => .candidates locators

/-- `insert`: before the first posting that is older. -/
def insertLocator (l : RunLocator) (locators : List RunLocator) : List RunLocator :=
  locators.takeWhile (fun existing => !locatorIsNewer l existing) ++
    l :: locators.dropWhile fun existing => !locatorIsNewer l existing

theorem insertLocator_perm (l : RunLocator) (locators : List RunLocator) :
    (insertLocator l locators).Perm (l :: locators) := by
  unfold insertLocator
  refine perm_middle.trans (Perm.cons l ?_)
  rw [takeWhile_append_dropWhile]

end RunLookupDirectory

/-- The order of optional timestamps: an absent one is least. -/
def hlcLt : Option HlcTimestamp → Option HlcTimestamp → Bool
  | none, some _ => true
  | some a, some b => decide (a < b)
  | _, none => false

/-- In what order a point read tries postings: the newest possible version first, by timestamp and
then epoch for a timestamp-pinned snapshot, by epoch and then timestamp otherwise. -/
def triedBefore (snap : Snapshot) (a b : RunLocator) : Bool :=
  if snap.usesHlcAuthority then
    hlcLt b.maxHlc a.maxHlc || (decide (b.maxHlc = a.maxHlc) && decide (b.maxEpoch ≤ a.maxEpoch))
  else
    decide (b.maxEpoch < a.maxEpoch) ||
      (decide (b.maxEpoch = a.maxEpoch) && !hlcLt a.maxHlc b.maxHlc)

def sortLocators (snap : Snapshot) (locators : List RunLocator) : List RunLocator :=
  locators.insertionSort fun a b => triedBefore snap a b = true

theorem sortLocators_perm (snap : Snapshot) (locators : List RunLocator) :
    (sortLocators snap locators).Perm locators := perm_insertionSort _ _

end MongrelDB.Storage
