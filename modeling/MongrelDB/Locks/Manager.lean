import Mathlib.Data.List.AList
import MongrelDB.Lib.CycleSearch
import MongrelDB.Lib.Winner

/-!
# The lock manager

Transactions take locks on typed keys, shared or exclusive. Per key there are the
granted holds and a first-in-first-out queue of waiters.
-/

namespace MongrelDB.Locks

open Lib

/-! ## Requests -/

inductive LockMode where
  | shared
  | exclusive
  deriving DecidableEq

/-- Whether two modes can be held on the same key at the same time. -/
def LockMode.compatible : LockMode → LockMode → Bool
  | shared, shared => true
  | _, _ => false

inductive Bound where
  | included (bytes : List UInt8)
  | excluded (bytes : List UInt8)
  | unbounded
  deriving DecidableEq

inductive LockKey where
  | row (tableId rowId : Nat)
  | key (tableId : Nat) (bytes : List UInt8)
  | range (tableId : Nat) (low high : Bound)
  | barrier (name : String)
  deriving DecidableEq

inductive CancellationReason where
  | none
  | clientRequest
  | deadline
  | clientDisconnected
  | sessionClosed
  | serverShutdown
  deriving DecidableEq

/-- `ExecutionControl`: clones share their cancellation state, here under one id. -/
structure Control where
  id : Nat
  deadline : Option Nat

/-- What one critical section reads of the clock and of the cancellation states. -/
structure Env where
  now : Nat
  reason : Nat → CancellationReason

structure LockRequest where
  txnId : Nat
  mode : LockMode
  deadline : Option Nat
  control : Control
  priority : Option Nat

inductive LockError where
  | deadlock (victim : Nat) (cycle : List Nat)
  | deadlineExceeded
  | cancelled
  | invalidRequest (txnId : Nat) (key : LockKey)

/-- The reason a control gives: an expired one cancels itself, unless it is cancelled already. -/
def Control.reasonIn (c : Control) (env : Env) : CancellationReason :=
  if env.reason c.id = .none ∧ c.deadline.any (fun d => decide (d ≤ env.now)) = true then .deadline
  else env.reason c.id

def Control.checkpoint (c : Control) (env : Env) : Except LockError Unit :=
  match c.reasonIn env with
  | .none => .ok ()
  | .deadline => .error .deadlineExceeded
  | _ => .error .cancelled

def Control.isCancelled (c : Control) (env : Env) : Bool := decide (c.reasonIn env ≠ .none)

def checkRequestLive (env : Env) (control : Control) (deadline : Option Nat) :
    Except LockError Unit := do
  control.checkpoint env
  if deadline.any fun d => decide (d ≤ env.now) then throw .deadlineExceeded

/-! ## State -/

structure Holder where
  txnId : Nat
  mode : LockMode
  deriving DecidableEq

structure Waiter where
  txnId : Nat
  deadline : Option Nat
  control : Control
  mode : LockMode

structure LockState where
  holders : List Holder := []
  queue : List Waiter := []

/-- Why a waiter left its queue without a grant. The cycle is kept as the list whose members the
source joins to a text. -/
inductive Fate where
  | deadlock (victim : Nat) (cycle : List Nat)
  | deadlineExceeded
  | cancelled

def Fate.intoError : Fate → LockError
  | deadlock victim cycle => .deadlock victim cycle
  | deadlineExceeded => .deadlineExceeded
  | cancelled => .cancelled

/-- A thread that sleeps in `acquire`. -/
structure Blocked where
  key : LockKey
  control : Control
  deadline : Option Nat

/-- What happens to a request in the queue of a key. -/
inductive QueueEvent where
  | queued (key : LockKey) (txnId : Nat)
  | granted (key : LockKey) (txnId : Nat)
  | removed (key : LockKey) (txnId : Nat)
  deriving DecidableEq

structure LockManager where
  locks : AList fun _ : LockKey => LockState
  txnKeys : Nat → Option (List LockKey)
  queuedWaiters : Nat
  fates : Nat → Option Fate
  priorities : Nat → Option Nat
  /-- the threads that sleep in `acquire`, by transaction -/
  waiting : Nat → Option Blocked
  recorded : List Nat
  log : List QueueEvent

def LockManager.new : LockManager where
  locks := ∅
  txnKeys := fun _ => none
  queuedWaiters := 0
  fates := fun _ => none
  priorities := fun _ => none
  waiting := fun _ => none
  recorded := []
  log := []

namespace LockManager

section

variable (s : LockManager) (key : LockKey)

/-- The state of a key; a key without an entry has neither holders nor waiters. -/
def stateAt : LockState := (s.locks.lookup key).getD {}

def setState (st : LockState) : LockManager :=
  { s with locks := s.locks.insert key st }

def transactionTouchesKey (txnId : Nat) : Bool :=
  (s.stateAt key).holders.any (fun h => decide (h.txnId = txnId)) ||
    (s.stateAt key).queue.any fun w => decide (w.txnId = txnId)

def trackTransactionKey (txnId : Nat) : LockManager :=
  let keys := ((s.txnKeys txnId).getD []).insert key
  { s with txnKeys := Function.update s.txnKeys txnId (some keys) }

def untrackTransactionKeyIfUnused (txnId : Nat) : LockManager :=
  if s.transactionTouchesKey key txnId then s
  else
    match s.txnKeys txnId with
    | none => s
    | some keys =>
      let keys := keys.filter fun k => decide (k ≠ key)
      { s with
        txnKeys := Function.update s.txnKeys txnId (if keys.isEmpty then none else some keys) }

def pruneIfIdle : LockManager :=
  if (s.stateAt key).holders.isEmpty && (s.stateAt key).queue.isEmpty then
    { s with locks := s.locks.erase key }
  else s

/-- Take the entry of a transaction out of the queue of a key. -/
def dequeue (txnId : Nat) : LockManager :=
  let st := s.stateAt key
  let queue := st.queue.eraseP fun w => decide (w.txnId = txnId)
  { s.setState key { st with queue := queue } with
    queuedWaiters := s.queuedWaiters - 1
    log := s.log ++ [.removed key txnId] }

def removeWaiter (txnId : Nat) : LockManager :=
  if (s.stateAt key).queue.any fun w => decide (w.txnId = txnId) then
    (s.dequeue key txnId).untrackTransactionKeyIfUnused key txnId
  else s

end

def recordFate (s : LockManager) (txnId : Nat) (fate : Fate) : LockManager :=
  { s with fates := Function.update s.fates txnId (some fate), recorded := s.recorded.insert txnId }

/-! ## Grants -/

def isDead (env : Env) (w : Waiter) : Bool :=
  w.control.isCancelled env || w.deadline.any fun d => decide (d ≤ env.now)

/-- What a purged waiter is told; if its control is not cancelled the lock-wait deadline fired. -/
def purgedFate (env : Env) (w : Waiter) : Fate :=
  match w.control.checkpoint env with
  | .error .deadlineExceeded => .deadlineExceeded
  | .error _ => .cancelled
  | .ok () => .deadlineExceeded

/-- Purge one waiter; a fate that is recorded already stays. -/
def purgeWaiter (env : Env) (key : LockKey) (s : LockManager) (txnId : Nat) : LockManager :=
  match (s.stateAt key).queue.find? fun w => decide (w.txnId = txnId) with
  | none => s
  | some w =>
    (s.dequeue key txnId).recordFate txnId ((s.fates txnId).getD (purgedFate env w))

/-- The waiter's own hold never blocks it. -/
def grantable (holders : List Holder) (w : Waiter) : Bool :=
  holders.all fun h => decide (h.txnId = w.txnId) || w.mode.compatible h.mode

/-- An existing hold is upgraded. -/
def grant (holders : List Holder) (w : Waiter) : List Holder :=
  if holders.any fun h => decide (h.txnId = w.txnId) then
    holders.map fun h => if h.txnId = w.txnId then { h with mode := .exclusive } else h
  else holders ++ [⟨w.txnId, w.mode⟩]

/-- Grant from the front as long as the front can be granted. Answers the holders, the waiters that
are left and the granted transactions. -/
def grantLoop : List Holder → List Waiter → List Holder × List Waiter × List Nat
  | holders, [] => (holders, [], [])
  | holders, w :: queue =>
    if grantable holders w then
      let (holders, queue, granted) := grantLoop (grant holders w) queue
      (holders, queue, w.txnId :: granted)
    else (holders, w :: queue, [])

def grantFront (s : LockManager) (key : LockKey) : LockManager :=
  let (holders, queue, granted) := grantLoop (s.stateAt key).holders (s.stateAt key).queue
  { s.setState key ⟨holders, queue⟩ with
    queuedWaiters := s.queuedWaiters - granted.length
    log := s.log ++ granted.map (.granted key) }

/-- Purge the dead waiters of a key and grant from the front of its queue. -/
def processKey (s : LockManager) (env : Env) (key : LockKey) : LockManager :=
  if key ∈ s.locks then
    let dead := ((s.stateAt key).queue.filter (isDead env)).map Waiter.txnId
    let s := dead.foldl (purgeWaiter env key) s
    let s := s.grantFront key
    dead.foldl (fun s txnId => s.untrackTransactionKeyIfUnused key txnId) s
  else s

/-! ## Deadlocks -/

/-- Whom the waiters of a transaction in one queue wait for. -/
def edgesIn (st : LockState) (txnId : Nat) : List Nat :=
  st.queue.zipIdx.flatMap fun (w, index) =>
    if w.txnId = txnId then
      (st.holders.filter fun h => decide (h.txnId ≠ txnId) && !w.mode.compatible h.mode).map
        Holder.txnId ++
      ((st.queue.take index).filter fun v =>
        decide (v.txnId ≠ txnId) && !w.mode.compatible v.mode).map
        Waiter.txnId
    else []

section

variable (s : LockManager)

def waitForEdges (txnId : Nat) : List Nat :=
  ((s.locks.entries.flatMap fun e => edgesIn e.2 txnId).insertionSort fun a b => a ≤ b).dedup

/-- The transactions with a queued request, ascending. -/
def waitForNodes : List Nat :=
  ((s.locks.entries.flatMap fun e => e.2.queue.map Waiter.txnId).insertionSort
    fun a b => a ≤ b).dedup

/-- Everything the search can come across. -/
def searchNodes : List Nat :=
  (s.waitForNodes ++ s.waitForNodes.flatMap s.waitForEdges).dedup

def findWaitCycle : Option (List Nat) :=
  findCycle s.waitForEdges (searchFuel s.waitForEdges s.searchNodes) s.waitForNodes []

/-- Lowest priority first, then the youngest, which has the largest id. -/
def chooseVictim (cycle : List Nat) : Option Nat :=
  let priority := fun t => (s.priorities t).getD 0
  winner (fun a b => decide (priority a < priority b) ||
    (decide (priority a = priority b) && decide (b < a))) cycle

def victimKey (victim : Nat) : Option LockKey :=
  (s.locks.entries.find? fun e => e.2.queue.any fun w => decide (w.txnId = victim)).map Sigma.fst

end

/-- One victim per turn; every turn shrinks the number of waiters. -/
def detectLoop : Nat → LockManager → LockManager
  | 0, s => s
  | n + 1, s =>
    if s.queuedWaiters = 0 then s
    else
      match s.findWaitCycle with
      | none => s
      | some cycle =>
        match s.chooseVictim cycle with
        | none => s
        | some victim =>
          match s.victimKey victim with
          | none => s
          | some key =>
            detectLoop n (((s.dequeue key victim).untrackTransactionKeyIfUnused key victim).recordFate
              victim (.deadlock victim cycle))

section

variable (s : LockManager)

def detectDeadlocks : LockManager := detectLoop s.queuedWaiters s

/-! ## Operations -/

/-- The thread leaves `wait_for_grant`. -/
def stopWaiting (txnId : Nat) : LockManager :=
  { s with
    waiting := Function.update s.waiting txnId none
    recorded := s.recorded.filter fun t => decide (t ≠ txnId) }

/-- One turn of the loop in `wait_for_grant`. Without a result the thread goes to sleep. -/
def waitTurn (env : Env) (txnId : Nat) (b : Blocked) :
    LockManager × Option (Except LockError Unit) :=
  match s.fates txnId with
  | some fate =>
    ({ s with fates := Function.update s.fates txnId none }.stopWaiting txnId,
      some (.error fate.intoError))
  | none =>
    if (s.stateAt b.key).queue.any fun w => decide (w.txnId = txnId) then
      match checkRequestLive env b.control b.deadline with
      | .error e => ((s.removeWaiter b.key txnId).stopWaiting txnId, some (.error e))
      | .ok () => (s, none)
    else if (s.stateAt b.key).holders.any fun h => decide (h.txnId = txnId) then
      (s.stopWaiting txnId, some (.ok ()))
    else (s.stopWaiting txnId, some (.error .cancelled))

/-- The rest of `acquire` behind the wait: a departed waiter may unblock the queue behind it. -/
def afterWait (env : Env) (key : LockKey) (txnId : Nat) :
    Except LockError Unit → LockManager
  | .ok () => s.pruneIfIdle key
  | .error _ =>
    let s := (s.processKey env key).detectDeadlocks
    (s.untrackTransactionKeyIfUnused key txnId).pruneIfIdle key

/-- A turn of the wait loop, up to the return of `acquire` or the next sleep. -/
def wake (env : Env) (txnId : Nat) (b : Blocked) :
    LockManager × Option (Except LockError Unit) :=
  match s.waitTurn env txnId b with
  | (s, none) => (s, none)
  | (s, some result) => (s.afterWait env b.key txnId result, some result)

end

section

variable (s : LockManager) (key : LockKey) (request : LockRequest)

def enqueue : LockManager :=
  let st := s.stateAt key
  let w : Waiter := ⟨request.txnId, request.deadline, request.control, request.mode⟩
  { s.setState key { st with queue := st.queue ++ [w] } with
    queuedWaiters := s.queuedWaiters + 1
    waiting := Function.update s.waiting request.txnId
      (some ⟨key, request.control, request.deadline⟩)
    log := s.log ++ [.queued key request.txnId] }

/-- Queue the request and wait. -/
def acquireQueued (env : Env) :
    LockManager × Option (Except LockError Unit) :=
  if (s.stateAt key).queue.any fun w => decide (w.txnId = request.txnId) then
    (s, some (.error (.invalidRequest request.txnId key)))
  else
    (s.enqueue key request).detectDeadlocks.wake env request.txnId
      ⟨key, request.control, request.deadline⟩

/-- `acquire` behind the first check of the request. -/
def acquireLive (env : Env) :
    LockManager × Option (Except LockError Unit) :=
  let st := s.stateAt key
  match st.holders.find? fun h => decide (h.txnId = request.txnId) with
  | some h =>
    if h.mode = .exclusive ∨ request.mode = .shared then (s, some (.ok ()))
    else if st.holders.length = 1 ∧ st.queue.isEmpty then
      (s.setState key { st with holders := st.holders.map fun h =>
        if h.txnId = request.txnId then { h with mode := .exclusive } else h }, some (.ok ()))
    else s.acquireQueued key request env
  | none =>
    if !st.queue.isEmpty || st.holders.any fun h => !request.mode.compatible h.mode then
      s.acquireQueued key request env
    else
      (s.setState key { st with holders := st.holders ++ [⟨request.txnId, request.mode⟩] },
        some (.ok ()))

/-- Up to the return or the first sleep; `entry` is what the first check reads. -/
def acquire (entry env : Env) :
    LockManager × Option (Except LockError Unit) :=
  match checkRequestLive entry request.control request.deadline with
  | .error e => (s, some (.error e))
  | .ok () =>
    let priorities := match request.priority with
      | some p => Function.update s.priorities request.txnId (some p)
      | none => s.priorities
    ({ s with priorities := priorities }.trackTransactionKey key request.txnId).acquireLive key
      request env

end

def release (s : LockManager) (txnId : Nat) (key : LockKey) (env : Env) : LockManager :=
  let st := s.stateAt key
  if st.holders.any fun h => decide (h.txnId = txnId) then
    let s := s.setState key
      { st with holders := st.holders.filter fun h => decide (h.txnId ≠ txnId) }
    let s := (s.processKey env key).detectDeadlocks
    (s.untrackTransactionKeyIfUnused key txnId).pruneIfIdle key
  else s

/-- Take all holds and waits of a transaction off a key. -/
def dropTransaction (txnId : Nat) (s : LockManager) (key : LockKey) : LockManager :=
  if key ∈ s.locks then
    let st := s.stateAt key
    let queue := st.queue.filter fun w => decide (w.txnId ≠ txnId)
    { s.setState key ⟨st.holders.filter fun h => decide (h.txnId ≠ txnId), queue⟩ with
      queuedWaiters := s.queuedWaiters - (st.queue.length - queue.length)
      log := s.log ++ List.replicate (st.queue.length - queue.length) (.removed key txnId) }
  else s

/-- The keys of the transaction are visited in the order `keys`. -/
def releaseAll (s : LockManager) (txnId : Nat) (keys : List LockKey) (env : Env) : LockManager :=
  let s₁ := { s with
    fates := Function.update s.fates txnId none
    priorities := Function.update s.priorities txnId none
    txnKeys := Function.update s.txnKeys txnId none }
  if (s.txnKeys txnId).isNone then s₁
  else
    let s₂ := keys.foldl (dropTransaction txnId) s₁
    let s₃ := keys.foldl (fun s key => s.processKey env key) s₂
    keys.foldl pruneIfIdle s₃.detectDeadlocks

/-! ## Runs -/

inductive Label where
  | acquire (key : LockKey) (request : LockRequest) (entry env : Env)
  | wake (txnId : Nat) (env : Env)
  | release (txnId : Nat) (key : LockKey) (env : Env)
  | releaseAll (txnId : Nat) (keys : List LockKey) (env : Env)

/-- A transaction has at most one `acquire` in flight. A hash set is walked in any order. -/
def step (s : LockManager) : Label → Option LockManager
  | .acquire key request entry env =>
    if (s.waiting request.txnId).isSome then none else some (s.acquire key request entry env).1
  | .wake txnId env => (s.waiting txnId).map fun b => (s.wake env txnId b).1
  | .release txnId key env => some (s.release txnId key env)
  | .releaseAll txnId keys env =>
    if keys.Perm ((s.txnKeys txnId).getD []) then some (s.releaseAll txnId keys env) else none

end LockManager

end MongrelDB.Locks
