import Mathlib.Data.List.Dedup
import MongrelDB.Locks.Manager

/-!
# What the operations of the lock manager do to one key

The invariants of the manager are about the holders and the queue of a key
(`stateAt`), whatever the table of locks looks like.
-/

namespace MongrelDB.Locks

open Lib List

namespace LockManager

variable {s : LockManager} {key k : LockKey} {st : LockState} {txnId t : Nat}

/-! ## The table of locks -/

theorem stateAt_setState (s : LockManager) (key : LockKey) (st : LockState) (k : LockKey) :
    (s.setState key st).stateAt k = if k = key then st else s.stateAt k := by
  by_cases h : k = key
  · subst h
    rw [if_pos rfl, stateAt, setState, AList.lookup_insert]
    rfl
  · rw [if_neg h, stateAt, setState, AList.lookup_insert_ne h]
    rfl

theorem stateAt_of_notMem (h : key ∉ s.locks) : s.stateAt key = {} := by
  rw [stateAt, AList.lookup_eq_none.mpr h]
  rfl

theorem stateAt_of_mem_entries {e : Sigma fun _ : LockKey => LockState} (h : e ∈ s.locks.entries) :
    s.stateAt e.1 = e.2 := by
  have hlookup : s.locks.lookup e.1 = some e.2 := AList.mem_lookup_iff.mpr h
  rw [stateAt, hlookup]
  rfl

theorem mem_entries_of_queue (h : (s.stateAt key).queue ≠ []) :
    ⟨key, s.stateAt key⟩ ∈ s.locks.entries := by
  cases hl : s.locks.lookup key with
  | none => exact absurd (by rw [stateAt, hl]; rfl) h
  | some st =>
    rw [stateAt, hl]
    exact AList.mem_lookup_iff.mp hl

theorem exists_entry_iff {p : LockState → Prop} (hp : ∀ st, p st → st.queue ≠ []) :
    (∃ e ∈ s.locks.entries, p e.2) ↔ ∃ key, p (s.stateAt key) := by
  constructor
  · intro ⟨e, he, h⟩
    exact ⟨e.1, by rw [stateAt_of_mem_entries he]; exact h⟩
  · intro ⟨key, h⟩
    exact ⟨⟨key, s.stateAt key⟩, mem_entries_of_queue (hp _ h), h⟩

/-- The number of entries over all queues. -/
def waiters (s : LockManager) : Nat := (s.locks.entries.map fun e => e.2.queue.length).sum

theorem sum_kerase (f : LockState → Nat) (key : LockKey)
    (l : List (Sigma fun _ : LockKey => LockState)) :
    (l.map fun e => f e.2).sum =
      ((l.dlookup key).map f).getD 0 + ((l.kerase key).map fun e => f e.2).sum := by
  induction l with
  | nil => rfl
  | cons e l ih =>
    obtain ⟨k, st⟩ := e
    by_cases h : key = k
    · subst h
      have herase : List.kerase key (⟨key, st⟩ :: l) = l := kerase_cons_eq rfl
      rw [dlookup_cons_eq, herase]
      rfl
    · rw [dlookup_cons_ne _ _ h, kerase_cons_ne h, map_cons, map_cons,
        sum_cons, sum_cons, ih]
      omega

section

variable (s : LockManager)

theorem length_queue_stateAt (key : LockKey) :
    (s.stateAt key).queue.length =
      ((s.locks.entries.dlookup key).map fun st => st.queue.length).getD 0 := by
  show ((s.locks.entries.dlookup key).getD {}).queue.length = _
  cases s.locks.entries.dlookup key with
  | none => rfl
  | some st => rfl

theorem waiters_setState (key : LockKey) (st : LockState) :
    (s.setState key st).waiters + (s.stateAt key).queue.length = s.waiters + st.queue.length := by
  have hsum := sum_kerase (fun st => st.queue.length) key s.locks.entries
  rw [← length_queue_stateAt] at hsum
  rw [waiters, waiters, setState, AList.entries_insert, hsum, map_cons, sum_cons]
  dsimp only
  omega

theorem length_queue_le_waiters (key : LockKey) :
    (s.stateAt key).queue.length ≤ s.waiters := by
  have hsum := sum_kerase (fun st => st.queue.length) key s.locks.entries
  rw [← length_queue_stateAt] at hsum
  rw [waiters, hsum]
  omega

theorem stateAt_pruneIfIdle (key k : LockKey) :
    (s.pruneIfIdle key).stateAt k = s.stateAt k := by
  unfold pruneIfIdle
  split
  next h =>
    rw [Bool.and_eq_true, List.isEmpty_iff, List.isEmpty_iff] at h
    by_cases hk : k = key
    · subst hk
      have hidle : s.stateAt k = {} := by
        cases hst : s.stateAt k with
        | mk holders queue =>
          rw [hst] at h
          obtain ⟨rfl, rfl⟩ : holders = [] ∧ queue = [] := h
          rfl
      rw [hidle, stateAt, AList.lookup_erase]
      rfl
    · rw [stateAt, AList.lookup_erase_ne hk]
      rfl
  next => rfl

theorem waiters_pruneIfIdle (key : LockKey) :
    (s.pruneIfIdle key).waiters = s.waiters := by
  unfold pruneIfIdle
  split
  next h =>
    rw [Bool.and_eq_true, List.isEmpty_iff, List.isEmpty_iff] at h
    have hsum := sum_kerase (fun st => st.queue.length) key s.locks.entries
    rw [← length_queue_stateAt, h.2] at hsum
    rw [waiters, waiters, hsum]
    exact (Nat.zero_add _).symm
  next => rfl

/-! ## The wait-for relation -/

/-- A transaction with a queued request waits for every other transaction that holds the key, or has
a request before it in the queue, in a mode that is not compatible. -/
def WaitsFor (a b : Nat) : Prop :=
  ∃ key i w, (s.stateAt key).queue[i]? = some w ∧ w.txnId = a ∧ b ≠ a ∧
    ((∃ h ∈ (s.stateAt key).holders, h.txnId = b ∧ w.mode.compatible h.mode = false) ∨
      ∃ v ∈ (s.stateAt key).queue.take i, v.txnId = b ∧ w.mode.compatible v.mode = false)

def Queued (t : Nat) : Prop := ∃ key, ∃ w ∈ (s.stateAt key).queue, w.txnId = t

def Holds (t : Nat) : Prop := ∃ key, ∃ h ∈ (s.stateAt key).holders, h.txnId = t

end

variable {a b : Nat}

theorem mem_edgesIn :
    b ∈ edgesIn st a ↔ ∃ i w, st.queue[i]? = some w ∧ w.txnId = a ∧ b ≠ a ∧
      ((∃ h ∈ st.holders, h.txnId = b ∧ w.mode.compatible h.mode = false) ∨
        ∃ v ∈ st.queue.take i, v.txnId = b ∧ w.mode.compatible v.mode = false) := by
  have hblock : ∀ {β : Type} (l : List β) (id : β → Nat) (mode : β → LockMode) (w : Waiter),
      b ∈ (l.filter fun x => decide (id x ≠ a) && !w.mode.compatible (mode x)).map id ↔
        b ≠ a ∧ ∃ x ∈ l, id x = b ∧ w.mode.compatible (mode x) = false := by
    intro β l id mode w
    simp only [mem_map, mem_filter, Bool.and_eq_true, decide_eq_true_eq,
      Bool.not_eq_true']
    constructor
    · rintro ⟨x, ⟨hx, hne, hmode⟩, rfl⟩
      exact ⟨hne, x, hx, rfl, hmode⟩
    · rintro ⟨hne, x, hx, rfl, hmode⟩
      exact ⟨x, ⟨hx, hne, hmode⟩, rfl⟩
  rw [edgesIn, mem_flatMap]
  constructor
  · rintro ⟨⟨w, i⟩, hmem, h⟩
    dsimp only at h
    split at h
    next hw =>
      rw [mem_append, hblock _ Holder.txnId Holder.mode, hblock _ Waiter.txnId Waiter.mode] at h
      refine ⟨i, w, mem_zipIdx_iff_getElem?.mp hmem, hw, ?_⟩
      rcases h with ⟨hne, h⟩ | ⟨hne, h⟩
      · exact ⟨hne, Or.inl h⟩
      · exact ⟨hne, Or.inr h⟩
    next => exact absurd h not_mem_nil
  · rintro ⟨i, w, hget, rfl, hne, h⟩
    refine ⟨(w, i), mem_zipIdx_iff_getElem?.mpr hget, ?_⟩
    dsimp only
    rw [if_pos rfl, mem_append, hblock _ Holder.txnId Holder.mode,
      hblock _ Waiter.txnId Waiter.mode]
    exact h.imp (⟨hne, ·⟩) (⟨hne, ·⟩)

theorem queue_ne_nil_of_mem_edgesIn (h : b ∈ edgesIn st a) : st.queue ≠ [] := by
  obtain ⟨i, w, hget, -⟩ := mem_edgesIn.mp h
  intro hnil
  rw [hnil] at hget
  exact absurd hget (by simp)

theorem mem_waitForEdges : b ∈ s.waitForEdges a ↔ s.WaitsFor a b := by
  rw [waitForEdges, mem_dedup, mem_insertionSort, mem_flatMap,
    exists_entry_iff fun _ => queue_ne_nil_of_mem_edgesIn]
  exact exists_congr fun key => mem_edgesIn

theorem mem_waitForNodes : t ∈ s.waitForNodes ↔ s.Queued t := by
  rw [waitForNodes, mem_dedup, mem_insertionSort, mem_flatMap,
    exists_entry_iff (p := fun st => t ∈ st.queue.map Waiter.txnId) fun st hst hnil => by
      rw [hnil] at hst
      exact absurd hst not_mem_nil]
  exact exists_congr fun key => mem_map

theorem WaitsFor.queued (h : s.WaitsFor a b) : s.Queued a := by
  obtain ⟨key, i, w, hget, hw, -⟩ := h
  exact ⟨key, w, mem_of_getElem? hget, hw⟩

theorem not_transGen_of_findWaitCycle (h : s.findWaitCycle = none) (t : Nat) :
    ¬ Relation.TransGen s.WaitsFor t t := by
  have hedges : s.WaitsFor = fun a b => b ∈ s.waitForEdges a := by
    funext a b
    exact propext mem_waitForEdges.symm
  have hnodes : ∀ v, v ∈ s.searchNodes ↔
      v ∈ s.waitForNodes ∨ ∃ w ∈ s.waitForNodes, v ∈ s.waitForEdges w := by
    intro v
    rw [searchNodes, mem_dedup, mem_append, mem_flatMap]
  rw [hedges]
  refine not_transGen_of_findCycle (nodup_dedup _) (fun v _ w hw => ?_)
    (fun v hv => (hnodes v).mpr (Or.inl hv)) (fun v hv => ?_) h t
  · -- whoever has an edge is queued
    exact (hnodes w).mpr (Or.inr ⟨v, mem_waitForNodes.mpr (mem_waitForEdges.mp hw).queued, hw⟩)
  · refine eq_nil_iff_forall_not_mem.mpr fun w hw => hv ?_
    exact mem_waitForNodes.mpr (mem_waitForEdges.mp hw).queued

theorem queued_of_findWaitCycle {cycle : List Nat} (h : s.findWaitCycle = some cycle)
    (ht : t ∈ cycle) : s.Queued t := by
  obtain ⟨w, hw⟩ := (isCycle_of_findCycle h).exists_succ ht
  exact (mem_waitForEdges.mp hw).queued

theorem exists_victim {cycle : List Nat} (h : s.findWaitCycle = some cycle) :
    ∃ victim key, s.chooseVictim cycle = some victim ∧ s.victimKey victim = some key ∧
      ∃ w ∈ (s.stateAt key).queue, w.txnId = victim := by
  obtain ⟨victim, hvictim⟩ : ∃ victim, s.chooseVictim cycle = some victim := by
    obtain ⟨-, first, hfirst, -⟩ := isCycle_of_findCycle h
    refine Option.ne_none_iff_exists'.mp fun hnone => ?_
    rw [chooseVictim, winner_eq_none_iff] at hnone
    rw [hnone] at hfirst
    exact absurd hfirst (by simp)
  have hqueued := queued_of_findWaitCycle h (winner_mem hvictim)
  cases hkey : s.locks.entries.find? fun e => e.2.queue.any fun w => decide (w.txnId = victim) with
  | none =>
    obtain ⟨key, w, hw, hid⟩ := hqueued
    have hmem := mem_entries_of_queue (ne_nil_of_mem hw)
    have := find?_eq_none.mp hkey _ hmem
    exact absurd (any_eq_true.mpr ⟨w, hw, decide_eq_true hid⟩) this
  | some e =>
    refine ⟨victim, e.1, hvictim, by rw [victimKey, hkey]; rfl, ?_⟩
    rw [stateAt_of_mem_entries (mem_of_find?_eq_some hkey)]
    have hany : e.2.queue.any (fun w => decide (w.txnId = victim)) = true := by
      simpa using find?_some hkey
    obtain ⟨w, hw, hid⟩ := any_eq_true.mp hany
    exact ⟨w, hw, of_decide_eq_true hid⟩

end LockManager

/-! ## A queue that grants its front -/

def QueueEvent.key : QueueEvent → LockKey
  | queued key _ | granted key _ | removed key _ => key

/-- The transactions that wait, in the order they came. Only the first can be granted; any one can
be taken out. -/
def fifo (queue : List Nat) : QueueEvent → Option (List Nat)
  | .queued _ t => some (queue ++ [t])
  | .granted _ t => if queue.head? = some t then some queue.tail else none
  | .removed _ t => if t ∈ queue then some (queue.erase t) else none

/-- Replay what happened at a key. -/
def replay (key : LockKey) (log : List QueueEvent) (queue : List Nat) : Option (List Nat) :=
  (log.filter fun e => decide (e.key = key)).foldlM fifo queue

theorem replay_append (key : LockKey) (l₁ l₂ : List QueueEvent) (queue : List Nat) :
    replay key (l₁ ++ l₂) queue = (replay key l₁ queue).bind (replay key l₂) := by
  rw [replay, filter_append, foldlM_append]
  rfl

theorem replay_of_ne {key : LockKey} {log : List QueueEvent} (h : ∀ e ∈ log, e.key ≠ key)
    (queue : List Nat) : replay key log queue = some queue := by
  rw [replay, filter_eq_nil_iff.mpr fun e he => by simpa using h e he]
  rfl

theorem replay_cons {key : LockKey} {e : QueueEvent} (he : e.key = key) (log : List QueueEvent)
    (queue : List Nat) : replay key (e :: log) queue = (fifo queue e).bind (replay key log) := by
  rw [replay, filter_cons_of_pos (by simpa using he), foldlM_cons]
  rfl

theorem replay_grantLoop (key : LockKey) (holders : List Holder) (queue : List Waiter) :
    replay key ((LockManager.grantLoop holders queue).2.2.map (.granted key))
        (queue.map Waiter.txnId) =
      some ((LockManager.grantLoop holders queue).2.1.map Waiter.txnId) := by
  induction queue generalizing holders with
  | nil => rfl
  | cons w queue ih =>
    rw [LockManager.grantLoop]
    split
    next =>
      dsimp only
      rw [map_cons, replay_cons (show (QueueEvent.granted key w.txnId).key = key from rfl), fifo,
        map_cons, head?_cons, if_pos rfl]
      exact ih _
    next => rfl

theorem map_eraseP_txnId (queue : List Waiter) (t : Nat) :
    (queue.eraseP fun w => decide (w.txnId = t)).map Waiter.txnId =
      (queue.map Waiter.txnId).erase t := by
  rw [erase_eq_eraseP, eraseP_map]
  congr 2
  funext w
  exact decide_eq_decide.mpr eq_comm

end MongrelDB.Locks
