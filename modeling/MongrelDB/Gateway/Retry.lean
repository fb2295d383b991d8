import Mathlib.Algebra.Group.Nat.Defs
import Mathlib.Algebra.Ring.Int.Defs
import Mathlib.Data.List.Basic
import Mathlib.Order.Lattice
import Mathlib.Tactic.Common

/-!
# Retries at the gateway

`RetryPolicy::decide` answers each failed attempt of an operation: retry it, refresh
metadata and retry it, or surface the error.
-/

namespace MongrelDB.Gateway

open List

/-! ## Durations -/

/-- `Duration::MAX` in nanoseconds. -/
def maxNanos : Nat := (2 ^ 64 - 1) * 1000000000 + 999999999

structure Duration where
  nanos : Nat
  le_max : nanos ≤ maxNanos
  deriving DecidableEq

namespace Duration

instance : LE Duration := ⟨fun a b => a.nanos ≤ b.nanos⟩
instance : LT Duration := ⟨fun a b => a.nanos < b.nanos⟩
instance (a b : Duration) : Decidable (a ≤ b) := inferInstanceAs (Decidable (a.nanos ≤ b.nanos))
instance (a b : Duration) : Decidable (a < b) := inferInstanceAs (Decidable (a.nanos < b.nanos))

def zero : Duration := ⟨0, Nat.zero_le _⟩

/-- Time ends at `Duration::MAX`. -/
def saturatingAdd (a b : Duration) : Duration :=
  ⟨min (a.nanos + b.nanos) maxNanos, Nat.min_le_right _ _⟩

/-- `Duration::from_micros` -/
def fromMicros (micros : UInt64) : Duration :=
  ⟨micros.toNat * 1000, by have := micros.toNat_lt; unfold maxNanos; omega⟩

/-- `micros_of` -/
def micros (d : Duration) : Nat := min (d.nanos / 1000) (2 ^ 64 - 1)

end Duration

/-! ## Errors -/

inductive ErrorCategory where
  | notLeader
  | leaderUnknown
  | staleMetadata
  | replicaUnavailable
  | quorumUnavailable
  | transactionConflict
  | transactionAborted
  | serializationFailure
  | deadlock
  | deadlineExceeded
  | cancelled
  | commitOutcomeUnknown
  | commitTooLate
  | tabletMoved
  | tabletSplitting
  | schemaVersionMismatch
  | clusterVersionMismatch
  | resourceExhausted
  | unauthenticated
  | permissionDenied
  deriving DecidableEq, Repr

inductive RetryClass where
  | never
  | afterMetadataRefresh
  | afterBackoff
  | retryTransaction
  | idempotencyKeyRequired
  deriving DecidableEq, Repr

namespace ErrorCategory

def retryClass : ErrorCategory → RetryClass
  | notLeader => .afterMetadataRefresh
  | leaderUnknown => .afterMetadataRefresh
  | staleMetadata => .afterMetadataRefresh
  | tabletMoved => .afterMetadataRefresh
  | tabletSplitting => .afterMetadataRefresh
  | schemaVersionMismatch => .afterMetadataRefresh
  | replicaUnavailable => .afterBackoff
  | quorumUnavailable => .afterBackoff
  | resourceExhausted => .afterBackoff
  | transactionConflict => .retryTransaction
  | transactionAborted => .retryTransaction
  | serializationFailure => .retryTransaction
  | deadlock => .retryTransaction
  | commitTooLate => .retryTransaction
  | deadlineExceeded => .never
  | cancelled => .never
  | clusterVersionMismatch => .never
  | unauthenticated => .never
  | permissionDenied => .never
  | commitOutcomeUnknown => .idempotencyKeyRequired

/-- A schema or cluster version disagrees. -/
def versionMismatch : ErrorCategory → Bool
  | schemaVersionMismatch => true
  | clusterVersionMismatch => true
  | _ => false

end ErrorCategory

/-! ## Routing cache -/

abbrev NodeId := Nat

inductive GroupKey where
  | raftGroup (id : Nat)
  | tablet (id : Nat)
  deriving DecidableEq, Repr

structure Endpoint where
  nodeId : NodeId
  address : String
  deriving DecidableEq, Repr

structure LeaderHint where
  term : Nat
  leader : NodeId
  deriving DecidableEq, Repr

structure RoutingEntry where
  leaderHint : Option LeaderHint
  term : Nat
  metadataVersion : Nat
  endpoints : List Endpoint
  deriving DecidableEq, Repr

abbrev RoutingCache := GroupKey → Option RoutingEntry

/-- Only a hint of a newer term is recorded, and only for a group the cache knows. -/
def RoutingCache.applyLeaderHint (cache : RoutingCache) (key : GroupKey) (hint : LeaderHint) :
    RoutingCache :=
  match cache key with
  | some entry =>
    if entry.term < hint.term then
      Function.update cache key (some { entry with term := hint.term, leaderHint := some hint })
    else cache
  | none => cache

/-! ## Operations and decisions -/

structure OperationDescriptor where
  idempotent : Bool
  idempotencyKey : Option String
  readOnly : Bool
  deadline : Duration
  maxAttempts : Nat

structure Failure where
  category : ErrorCategory
  leaderHint : Option LeaderHint
  notProposed : Bool
  deriving DecidableEq, Repr

structure RetryState where
  attempts : Nat := 0
  metadataRefreshes : Nat := 0
  versionMismatchRefreshed : Bool := false
  deriving DecidableEq, Repr

inductive RetryTarget where
  | leader (node : NodeId)
  | anyEndpoint
  | cachedRoute
  deriving DecidableEq, Repr

inductive RetryAction where
  | retry (target : RetryTarget) (delay : Duration) (attempt : Nat)
      (idempotencyKey : Option String)
  | refreshMetadata (attempt : Nat) (idempotencyKey : Option String)
  | surface (category : ErrorCategory)
  deriving DecidableEq

namespace RetryAction

/-- The operation is sent again. -/
def granted : RetryAction → Bool
  | surface _ => false
  | _ => true

def isRefresh : RetryAction → Bool
  | refreshMetadata _ _ => true
  | _ => false

/-- How long to wait before. -/
def delay : RetryAction → Duration
  | retry _ delay _ _ => delay
  | _ => .zero

end RetryAction

structure RetryPolicy where
  initialBackoff : Duration
  maxBackoff : Duration
  jitterSeed : UInt64

def splitmix64 (value : UInt64) : UInt64 :=
  let value := value + 0x9E3779B97F4A7C15
  let value := (value ^^^ (value >>> 30)) * 0xBF58476D1CE4E5B9
  let value := (value ^^^ (value >>> 27)) * 0x94D049BB133111EB
  value ^^^ (value >>> 31)

namespace RetryPolicy

def backoffDelay (policy : RetryPolicy) (retryIndex : Nat) : Duration :=
  let initial := max policy.initialBackoff.micros 1
  let maximum := max policy.maxBackoff.micros initial
  let doublings := min retryIndex 31
  let base := min (min (initial * 2 ^ doublings) (2 ^ 64 - 1)) maximum
  let half := base / 2
  let jitter := (splitmix64 (policy.jitterSeed ^^^ UInt64.ofNat retryIndex)).toNat % (half + 1)
  .fromMicros (UInt64.ofNat (half + jitter))

section

variable (op : OperationDescriptor) (state : RetryState)

def grantRetry (target : RetryTarget)
    (delay : Duration) : RetryAction × RetryState :=
  (.retry target delay (state.attempts + 1) op.idempotencyKey,
    { state with attempts := state.attempts + 1 })

def grantRefresh : RetryAction × RetryState :=
  (.refreshMetadata (state.attempts + 1) op.idempotencyKey,
    { state with
      attempts := state.attempts + 1
      metadataRefreshes := state.metadataRefreshes + 1 })

def versionMismatchRefresh (category : ErrorCategory) : RetryAction × RetryState :=
  if state.versionMismatchRefreshed then (.surface category, state)
  else grantRefresh op { state with versionMismatchRefreshed := true }

end

/-- The hint of the failure, if it is the one the cache now holds. -/
def usableHint (failure : Failure) (cached : Option RoutingEntry) : Option LeaderHint :=
  failure.leaderHint.filter fun hint =>
    cached.any fun entry => !entry.endpoints.isEmpty && entry.leaderHint == some hint

/-- The write guard. -/
def replayable (op : OperationDescriptor) (failure : Failure) : Bool :=
  if op.readOnly then op.idempotent else op.idempotencyKey.isSome || failure.notProposed

/-- The classes the write guard applies to. -/
def classRetries : RetryClass → Bool
  | .idempotencyKeyRequired => true
  | .afterMetadataRefresh => true
  | .afterBackoff => true
  | _ => false

/-- The answer by class, once deadline, budget and guard have passed. `cached` is the group's
entry after the failure's hint has been recorded. -/
def decideClass (policy : RetryPolicy) (op : OperationDescriptor) (state : RetryState)
    (failure : Failure) (cached : Option RoutingEntry) (now : Duration) :
    RetryAction × RetryState :=
  match failure.category.retryClass with
  | .never =>
    match failure.category with
    | .clusterVersionMismatch => versionMismatchRefresh op state failure.category
    | _ => (.surface failure.category, state)
  | .idempotencyKeyRequired => grantRetry op state .cachedRoute .zero
  | .afterMetadataRefresh =>
    match failure.category with
    | .notLeader =>
      match usableHint failure cached with
      | some hint => grantRetry op state (.leader hint.leader) .zero
      | none => grantRefresh op state
    | .schemaVersionMismatch => versionMismatchRefresh op state failure.category
    | _ => grantRefresh op state
  | .afterBackoff =>
    let delay := policy.backoffDelay state.attempts
    -- a backoff that would end past the deadline never starts
    if op.deadline < now.saturatingAdd delay then (.surface .deadlineExceeded, state)
    else
      let target :=
        if op.readOnly ∧ failure.category = .replicaUnavailable then .anyEndpoint
        else .cachedRoute
      grantRetry op state target delay
  | .retryTransaction => (.surface failure.category, state)

/-- The cache the decision leaves. -/
def cacheAfter (key : GroupKey) (failure : Failure) (cache : RoutingCache) : RoutingCache :=
  match failure.leaderHint with
  | some hint => RoutingCache.applyLeaderHint cache key hint
  | none => cache

/-- Deadline, budget and guard, in this order, then the class. -/
def answer (policy : RetryPolicy) (op : OperationDescriptor) (state : RetryState)
    (failure : Failure) (cached : Option RoutingEntry) (now : Duration) :
    RetryAction × RetryState :=
  if op.deadline ≤ now then (.surface .deadlineExceeded, state)
  else if op.maxAttempts ≤ state.attempts + 1 then (.surface failure.category, state)
  else if classRetries failure.category.retryClass ∧ replayable op failure = false then
    (.surface failure.category, state)
  else policy.decideClass op state failure cached now

/-- The hint is recorded first, whatever the answer. -/
def decide (policy : RetryPolicy) (key : GroupKey) (op : OperationDescriptor)
    (state : RetryState) (failure : Failure) (cache : RoutingCache) (now : Duration) :
    (RetryAction × RetryState) × RoutingCache :=
  let cache := cacheAfter key failure cache
  (policy.answer op state failure (cache key) now, cache)

end RetryPolicy

/-! ## What one decision can do -/

/-- A write without a key that was not reported as not proposed. -/
def Unprotected (op : OperationDescriptor) (failure : Failure) : Prop :=
  op.readOnly = false ∧ op.idempotencyKey = none ∧ failure.notProposed = false

theorem Unprotected.not_replayable {op : OperationDescriptor} {failure : Failure}
    (h : Unprotected op failure) : RetryPolicy.replayable op failure = false := by
  obtain ⟨hwrite, hkey, hproposed⟩ := h
  simp [RetryPolicy.replayable, hwrite, hkey, hproposed]

/-- What a granted retry has passed, and how the state counts it. -/
structure Grant (op : OperationDescriptor) (before after : RetryState) (failure : Failure)
    (now : Duration) (action : RetryAction) : Prop where
  inTime : now < op.deadline
  ends : now.saturatingAdd action.delay ≤ op.deadline
  budget : before.attempts + 1 < op.maxAttempts
  attempts : after.attempts = before.attempts + 1
  guarded : Unprotected op failure → failure.category = .clusterVersionMismatch
  mismatch : failure.category.versionMismatch = true →
    before.versionMismatchRefreshed = false ∧ after.versionMismatchRefreshed = true
  otherwise : failure.category.versionMismatch = false →
    after.versionMismatchRefreshed = before.versionMismatchRefreshed

namespace RetryPolicy

variable {policy : RetryPolicy} {key : GroupKey} {op : OperationDescriptor}
  {state state' : RetryState} {failure : Failure} {cache cache' : RoutingCache}
  {cached : Option RoutingEntry} {now : Duration} {action : RetryAction}

theorem ends_of_no_delay (hnow : now < op.deadline) :
    now.saturatingAdd .zero ≤ op.deadline := by
  show min (now.nanos + 0) maxNanos ≤ op.deadline.nanos
  have hlt : now.nanos < op.deadline.nanos := hnow
  omega

section

variable (hnow : now < op.deadline) (hbudget : state.attempts + 1 < op.maxAttempts)
  (hguard : Unprotected op failure → failure.category = .clusterVersionMismatch)
include hnow hbudget hguard

theorem grant_of_retry (hother : failure.category.versionMismatch = false)
    (hends : now.saturatingAdd action.delay ≤ op.deadline)
    (hattempts : state'.attempts = state.attempts + 1)
    (hsame : state'.versionMismatchRefreshed = state.versionMismatchRefreshed) :
    Grant op state state' failure now action := by
  refine ⟨hnow, hends, hbudget, hattempts, hguard, fun htrue => ?_, fun _ => hsame⟩
  rw [hother] at htrue
  cases htrue

theorem versionMismatchRefresh_cases (hmismatch : failure.category.versionMismatch = true)
    (h : versionMismatchRefresh op state failure.category = (action, state')) :
    Grant op state state' failure now action ∨ action.granted = false ∧ state' = state := by
  unfold versionMismatchRefresh at h
  split at h
  · cases h
    exact .inr ⟨rfl, rfl⟩
  · next hunspent =>
    cases h
    refine .inl ⟨hnow, ends_of_no_delay hnow, hbudget, rfl, hguard, fun _ => ⟨?_, rfl⟩,
      fun hfalse => ?_⟩
    · simpa using hunspent
    · rw [hmismatch] at hfalse
      cases hfalse

end

theorem decideClass_cases (hnow : now < op.deadline)
    (hbudget : state.attempts + 1 < op.maxAttempts)
    (hguard : Unprotected op failure → classRetries failure.category.retryClass = false)
    (h : policy.decideClass op state failure cached now = (action, state')) :
    Grant op state state' failure now action ∨ action.granted = false ∧ state' = state := by
  have hends := ends_of_no_delay hnow
  unfold decideClass at h
  -- the guard leaves an unprotected write only the classes that do not retry
  have hexcluded : classRetries failure.category.retryClass = true →
      Unprotected op failure → failure.category = .clusterVersionMismatch := by
    intro hretries hunprotected
    rw [hguard hunprotected] at hretries
    cases hretries
  cases hcat : failure.category with
  | clusterVersionMismatch =>
    simp only [hcat, ErrorCategory.retryClass] at h
    rw [← hcat] at h
    exact versionMismatchRefresh_cases hnow hbudget (fun _ => hcat) (by rw [hcat]; rfl) h
  | schemaVersionMismatch =>
    have hguard' := hexcluded (by rw [hcat]; rfl)
    simp only [hcat, ErrorCategory.retryClass] at h
    rw [← hcat] at h
    exact versionMismatchRefresh_cases hnow hbudget hguard' (by rw [hcat]; rfl) h
  | notLeader =>
    have hguard' := hexcluded (by rw [hcat]; rfl)
    simp only [hcat, ErrorCategory.retryClass] at h
    split at h
    all_goals
      cases h
      exact .inl (grant_of_retry hnow hbudget hguard' (by rw [hcat]; rfl) hends rfl rfl)
  | leaderUnknown | staleMetadata | tabletMoved | tabletSplitting | commitOutcomeUnknown =>
    have hguard' := hexcluded (by rw [hcat]; rfl)
    simp only [hcat, ErrorCategory.retryClass] at h
    cases h
    exact .inl (grant_of_retry hnow hbudget hguard' (by rw [hcat]; rfl) hends rfl rfl)
  | replicaUnavailable | quorumUnavailable | resourceExhausted =>
    have hguard' := hexcluded (by rw [hcat]; rfl)
    simp only [hcat, ErrorCategory.retryClass] at h
    split at h
    · cases h
      exact .inr ⟨rfl, rfl⟩
    · next hdelay =>
      cases h
      refine .inl (grant_of_retry hnow hbudget hguard' (by rw [hcat]; rfl) ?_ rfl rfl)
      exact Nat.le_of_not_lt hdelay
  | transactionConflict | transactionAborted | serializationFailure | deadlock | commitTooLate
  | deadlineExceeded | cancelled | unauthenticated | permissionDenied =>
    simp only [hcat, ErrorCategory.retryClass] at h
    cases h
    exact .inr ⟨rfl, rfl⟩

/-- An answer grants a retry that has passed every check, or surfaces and leaves the state. -/
theorem answer_cases (h : policy.answer op state failure cached now = (action, state')) :
    Grant op state state' failure now action ∨ action.granted = false ∧ state' = state := by
  unfold answer at h
  split at h
  · cases h
    exact .inr ⟨rfl, rfl⟩
  next hdeadline =>
  split at h
  · cases h
    exact .inr ⟨rfl, rfl⟩
  next hbudget =>
  split at h
  · cases h
    exact .inr ⟨rfl, rfl⟩
  next hguard =>
  refine decideClass_cases (Nat.lt_of_not_le hdeadline) (Nat.lt_of_not_le hbudget) ?_ h
  intro hunprotected
  by_contra hretries
  exact hguard ⟨by simpa using hretries, hunprotected.not_replayable⟩

/-- The branch the guard does not reach. -/
theorem answer_clusterVersionMismatch (hcat : failure.category = .clusterVersionMismatch)
    (hnow : now < op.deadline) (hbudget : state.attempts + 1 < op.maxAttempts)
    (hunspent : state.versionMismatchRefreshed = false) :
    (policy.answer op state failure cached now).1.granted = true := by
  have hearly : ¬ op.deadline ≤ now := Nat.not_le_of_lt hnow
  unfold answer
  rw [if_neg hearly, if_neg (Nat.not_le_of_lt hbudget), hcat]
  simp only [ErrorCategory.retryClass, classRetries, Bool.false_eq_true, false_and, if_false]
  simp only [decideClass, hcat, ErrorCategory.retryClass, versionMismatchRefresh, hunspent,
    Bool.false_eq_true, if_false]
  rfl

end RetryPolicy

/-! ## Sequences of failures -/

/-- One failed attempt as the gateway sees it. -/
structure Offer where
  failure : Failure
  cache : RoutingCache
  now : Duration

structure Decision where
  before : RetryState
  offer : Offer
  action : RetryAction

/-- The decisions over a sequence of failures of one operation. -/
def decisions (policy : RetryPolicy) (key : GroupKey) (op : OperationDescriptor) :
    RetryState → List Offer → List Decision
  | _, [] => []
  | state, offer :: offers =>
    let answer := (policy.decide key op state offer.failure offer.cache offer.now).1
    ⟨state, offer, answer.1⟩ :: decisions policy key op answer.2 offers

namespace Decision

def granted (d : Decision) : Bool := d.action.granted

/-- A refresh granted for a version mismatch. -/
def refreshesMismatch (d : Decision) : Bool :=
  d.action.isRefresh && d.offer.failure.category.versionMismatch

end Decision

/-- What the decisions for one operation keep to. -/
structure Disciplined (op : OperationDescriptor) (ds : List Decision) : Prop where
  guarded : ∀ d ∈ ds, Unprotected op d.offer.failure → d.granted = false
  budget : (ds.filter Decision.granted).length ≤ op.maxAttempts - 1
  inTime : ∀ d ∈ ds, d.granted = true →
    d.offer.now < op.deadline ∧ d.offer.now.saturatingAdd d.action.delay ≤ op.deadline
  refreshOnce : (ds.filter Decision.refreshesMismatch).length ≤ 1

/-- The decision is about an unprotected write that met a `ClusterVersionMismatch` in time,
within budget and before the one refresh was spent. -/
def Decision.Unguarded (op : OperationDescriptor) (d : Decision) : Prop :=
  Unprotected op d.offer.failure ∧ d.offer.failure.category = .clusterVersionMismatch ∧
    d.offer.now < op.deadline ∧ d.before.attempts + 1 < op.maxAttempts ∧
    d.before.versionMismatchRefreshed = false

section Sequences

variable {policy : RetryPolicy} {key : GroupKey} {op : OperationDescriptor}

section

variable {offers : List Offer} {state : RetryState} {d : Decision}

theorem exists_answer_of_mem (h : d ∈ decisions policy key op state offers) :
    ∃ cached state', policy.answer op d.before d.offer.failure cached d.offer.now =
      (d.action, state') := by
  induction offers generalizing state with
  | nil => cases h
  | cons offer offers ih =>
    rcases mem_cons.mp h with rfl | h
    · refine ⟨RetryPolicy.cacheAfter key offer.failure offer.cache key,
        (policy.decide key op state offer.failure offer.cache offer.now).1.2, ?_⟩
      rfl
    · exact ih h

theorem decisions_inTime (hd : d ∈ decisions policy key op state offers)
    (hgranted : d.granted = true) :
    d.offer.now < op.deadline ∧ d.offer.now.saturatingAdd d.action.delay ≤ op.deadline := by
  obtain ⟨cached, state', hanswer⟩ := exists_answer_of_mem hd
  rcases RetryPolicy.answer_cases hanswer with hgrant | ⟨hsurface, -⟩
  · exact ⟨hgrant.inTime, hgrant.ends⟩
  · rw [Decision.granted, hsurface] at hgranted
    cases hgranted

theorem unguarded_iff_granted (hd : d ∈ decisions policy key op state offers)
    (hunprotected : Unprotected op d.offer.failure) :
    d.granted = true ↔ d.Unguarded op := by
  obtain ⟨cached, state', hanswer⟩ := exists_answer_of_mem hd
  constructor
  · intro hgranted
    rcases RetryPolicy.answer_cases hanswer with hgrant | ⟨hsurface, -⟩
    · have hcat := hgrant.guarded hunprotected
      exact ⟨hunprotected, hcat, hgrant.inTime, hgrant.budget,
        (hgrant.mismatch (by rw [hcat]; rfl)).1⟩
    · rw [Decision.granted, hsurface] at hgranted
      cases hgranted
  · rintro ⟨-, hcat, hnow, hbudget, hunspent⟩
    have hgranted := @RetryPolicy.answer_clusterVersionMismatch policy op d.before
      d.offer.failure cached d.offer.now hcat hnow hbudget hunspent
    rw [hanswer] at hgranted
    exact hgranted

end

theorem length_filter_cons_le (f : Decision → Bool) (d : Decision) (ds : List Decision) :
    ((d :: ds).filter f).length ≤ (ds.filter f).length + 1 := by
  rw [filter_cons]
  split <;> simp

theorem granted_le_budget : ∀ (offers : List Offer) (state : RetryState),
    ((decisions policy key op state offers).filter Decision.granted).length ≤
      op.maxAttempts - 1 - state.attempts
  | [], state => Nat.zero_le _
  | offer :: offers, state => by
    cases hanswer : (policy.decide key op state offer.failure offer.cache offer.now).1 with
    | mk action state' =>
      have ih := granted_le_budget offers state'
      simp only [decisions, hanswer]
      rcases RetryPolicy.answer_cases hanswer with hgrant | ⟨hsurface, rfl⟩
      · have hbudget := hgrant.budget
        have hattempts := hgrant.attempts
        refine (length_filter_cons_le _ _ _).trans ?_
        omega
      · rw [filter_cons_of_neg (by simp [Decision.granted, hsurface])]
        exact ih

/-- Once the refresh for a version mismatch is spent, none is granted any more. -/
theorem refreshes_le : ∀ (offers : List Offer) (state : RetryState),
    ((decisions policy key op state offers).filter Decision.refreshesMismatch).length ≤
      if state.versionMismatchRefreshed then 0 else 1
  | [], state => Nat.zero_le _
  | offer :: offers, state => by
    cases hanswer : (policy.decide key op state offer.failure offer.cache offer.now).1 with
    | mk action state' =>
      have ih := refreshes_le offers state'
      simp only [decisions, hanswer]
      rcases RetryPolicy.answer_cases hanswer with hgrant | ⟨hsurface, rfl⟩
      · cases hmismatch : offer.failure.category.versionMismatch with
        | true =>
          obtain ⟨hunspent, hspent⟩ := hgrant.mismatch hmismatch
          rw [hspent, if_pos rfl] at ih
          rw [hunspent, if_neg (by simp)]
          refine (length_filter_cons_le _ _ _).trans ?_
          omega
        | false =>
          rw [hgrant.otherwise hmismatch] at ih
          rw [filter_cons_of_neg (by simp [Decision.refreshesMismatch, hmismatch])]
          exact ih
      · have hno : action.isRefresh = false := by
          cases action with
          | surface category => rfl
          | retry target delay attempt k => rfl
          | refreshMetadata attempt k => cases hsurface
        rw [filter_cons_of_neg (by simp [Decision.refreshesMismatch, hno])]
        exact ih

end Sequences

/-- Over every sequence of failures, caches and clock readings the decisions are disciplined,
exactly if no unprotected write meets a `ClusterVersionMismatch` while a retry is open. -/
theorem disciplined_iff (policy : RetryPolicy) (key : GroupKey) (op : OperationDescriptor)
    (offers : List Offer) :
    Disciplined op (decisions policy key op {} offers) ↔
      ∀ d ∈ decisions policy key op {} offers, ¬ d.Unguarded op := by
  constructor
  · intro h d hd hunguarded
    have hgranted := (unguarded_iff_granted hd hunguarded.1).mpr hunguarded
    rw [h.guarded d hd hunguarded.1] at hgranted
    cases hgranted
  · intro h
    refine ⟨fun d hd hunprotected => ?_, granted_le_budget offers {},
      fun d hd => decisions_inTime hd,
      refreshes_le offers {}⟩
    have hnot := mt (unguarded_iff_granted hd hunprotected).mp (h d hd)
    simpa using hnot

/-- A write without a key, with three attempts and ten seconds. -/
def bareWrite : OperationDescriptor where
  idempotent := false
  idempotencyKey := none
  readOnly := false
  deadline := .fromMicros 10000000
  maxAttempts := 3

def defaultPolicy : RetryPolicy where
  initialBackoff := .fromMicros 10000
  maxBackoff := .fromMicros 1000000
  jitterSeed := 0x6D6F6E6772656C00

/-- The write's first attempt fails with a `ClusterVersionMismatch`, its fate unknown. -/
def mismatchOffer : Offer := ⟨⟨.clusterVersionMismatch, none, false⟩, fun _ => none, .zero⟩

/-- It is refreshed and sent again. -/
theorem bare_write_replayed :
    Unprotected bareWrite mismatchOffer.failure ∧
    (decisions defaultPolicy (.raftGroup 1) bareWrite {} [mismatchOffer]).map (·.action) =
      [.refreshMetadata 1 none] ∧
    ¬ Disciplined bareWrite (decisions defaultPolicy (.raftGroup 1) bareWrite {}
      [mismatchOffer]) := by
  have hunprotected : Unprotected bareWrite mismatchOffer.failure := ⟨rfl, rfl, rfl⟩
  refine ⟨hunprotected, by decide, fun h => ?_⟩
  have hsurface := h.guarded _ mem_cons_self hunprotected
  revert hsurface
  decide

end MongrelDB.Gateway
