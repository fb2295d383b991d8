import MongrelDB.Locks.Views

/-!
# The invariant of the lock manager

Three things hold whenever the mutex is free: the books are right (`Sound`), a front
waiter that could be granted has a thread that will see to it (`Attended`), and the
wait-for relation has no cycle.
-/

namespace MongrelDB.Locks

open Lib List

/-! ## One key -/

theorem LockMode.compatible_comm (a b : LockMode) : a.compatible b = b.compatible a := by
  cases a <;> cases b <;> rfl

/-- What holds of the holders and the queue of one key. -/
structure KeySound (waiting : Nat → Option Blocked) (key : LockKey) (st : LockState) : Prop where
  holders : (st.holders.map Holder.txnId).Nodup
  compatible : ∀ a ∈ st.holders, ∀ b ∈ st.holders, a.txnId ≠ b.txnId →
    a.mode.compatible b.mode = true
  queue : (st.queue.map Waiter.txnId).Nodup
  blocked : ∀ w ∈ st.queue, ∃ b, waiting w.txnId = some b ∧ b.key = key
  unheld : ∀ w ∈ st.queue, w.mode = .shared → ∀ h ∈ st.holders, h.txnId ≠ w.txnId

variable {holders : List Holder} {queue : List Waiter}

theorem map_txnId_upgrade (holders : List Holder) (t : Nat) :
    (holders.map fun x => if x.txnId = t then { x with mode := .exclusive } else x).map
      Holder.txnId = holders.map Holder.txnId := by
  rw [map_map]
  refine map_congr_left fun x _ => ?_
  show (if x.txnId = t then _ else x).txnId = x.txnId
  split <;> rfl

namespace KeySound

variable {waiting : Nat → Option Blocked} {key : LockKey} {st : LockState}

theorem empty (waiting : Nat → Option Blocked) (key : LockKey) : KeySound waiting key {} :=
  ⟨.nil, fun _ h => absurd h not_mem_nil, .nil, fun _ h => absurd h not_mem_nil,
    fun _ h => absurd h not_mem_nil⟩

theorem sublist (h : KeySound waiting key st)
    (hh : holders.Sublist st.holders) (hq : queue.Sublist st.queue) :
    KeySound waiting key ⟨holders, queue⟩ :=
  ⟨h.holders.sublist (hh.map _),
    fun a ha b hb => h.compatible a (hh.subset ha) b (hh.subset hb), h.queue.sublist (hq.map _),
    fun w hw => h.blocked w (hq.subset hw),
    fun w hw hmode x hx => h.unheld w (hq.subset hw) hmode x (hh.subset hx)⟩

theorem join (h : KeySound waiting key st) (new : Holder)
    (hnew : ∀ x ∈ st.holders, x.txnId ≠ new.txnId)
    (hcompat : ∀ x ∈ st.holders, new.mode.compatible x.mode = true) :
    ((st.holders ++ [new]).map Holder.txnId).Nodup ∧
      ∀ a ∈ st.holders ++ [new], ∀ b ∈ st.holders ++ [new], a.txnId ≠ b.txnId →
        a.mode.compatible b.mode = true := by
  simp only [forall_mem_append, forall_mem_singleton]
  refine ⟨?_, fun a ha => ⟨h.compatible a ha, fun _ => ?_⟩, fun b hb _ => hcompat b hb,
    fun hne => absurd rfl hne⟩
  · rw [map_append, nodup_append]
    refine ⟨h.holders, nodup_singleton _, fun a ha b hb heq => ?_⟩
    obtain ⟨x, hx, rfl⟩ := mem_map.mp ha
    exact hnew x hx (heq.trans (by simpa using hb))
  · rw [LockMode.compatible_comm]
    exact hcompat a ha

/-- A grant keeps the holders compatible: an upgrade is granted only to a sole holder. -/
theorem grant {w : Waiter}
    (h : KeySound waiting key ⟨holders, w :: queue⟩)
    (hw : LockManager.grantable holders w = true) :
    KeySound waiting key ⟨LockManager.grant holders w, queue⟩ := by
  obtain ⟨hfresh, hqueue⟩ := nodup_cons.mp h.queue
  rw [LockManager.grantable, all_eq_true] at hw
  have hothers : ∀ v ∈ queue, v.txnId ≠ w.txnId := fun v hv heq =>
    hfresh (heq ▸ mem_map_of_mem hv)
  have hblocked : ∀ v ∈ queue, ∃ b, waiting v.txnId = some b ∧ b.key = key :=
    fun v hv => h.blocked v (mem_cons_of_mem _ hv)
  rw [LockManager.grant]
  split
  next hown =>
    obtain ⟨own, hmem, hid⟩ := any_eq_true.mp hown
    have hid := of_decide_eq_true hid
    have hmode : w.mode = .exclusive := by
      cases hm : w.mode with
      | shared => exact absurd hid (h.unheld w mem_cons_self hm own hmem)
      | exclusive => rfl
    have hsole : ∀ x ∈ holders, x.txnId = w.txnId := by
      intro x hx
      have := hw x hx
      rw [hmode, Bool.or_eq_true] at this
      exact this.elim of_decide_eq_true
        fun hcompat => absurd hcompat (by simp [LockMode.compatible])
    have hmem : ∀ x ∈ holders.map (fun x =>
        if x.txnId = w.txnId then { x with mode := LockMode.exclusive } else x),
        x.txnId = w.txnId := by
      intro x hx
      obtain ⟨y, hy, rfl⟩ := mem_map.mp hx
      rw [if_pos (hsole y hy)]
      exact hsole y hy
    exact
      { holders := by rw [map_txnId_upgrade]; exact h.holders
        compatible := fun a ha b hb hne => absurd ((hmem a ha).trans (hmem b hb).symm) hne
        queue := hqueue
        blocked := hblocked
        unheld := fun v hv _ x hx heq => hothers v hv (heq.symm.trans (hmem x hx)) }
  next hown =>
    have hnew : ∀ x ∈ holders, x.txnId ≠ w.txnId := fun x hx heq =>
      hown (any_eq_true.mpr ⟨x, hx, decide_eq_true heq⟩)
    have hcompat : ∀ x ∈ holders, w.mode.compatible x.mode = true := by
      intro x hx
      have := hw x hx
      rw [decide_eq_false (hnew x hx), Bool.false_or] at this
      exact this
    obtain ⟨hnodup, hcompatible⟩ := h.join ⟨w.txnId, w.mode⟩ hnew hcompat
    refine ⟨hnodup, hcompatible, hqueue, hblocked, fun v hv hmode => ?_⟩
    exact forall_mem_append.mpr ⟨h.unheld v (mem_cons_of_mem _ hv) hmode,
      forall_mem_singleton.mpr fun heq => hothers v hv heq.symm⟩

theorem grantLoop (h : KeySound waiting key ⟨holders, queue⟩) :
    KeySound waiting key ⟨(LockManager.grantLoop holders queue).1,
      (LockManager.grantLoop holders queue).2.1⟩ := by
  induction queue generalizing holders with
  | nil => exact h
  | cons w queue ih =>
    rw [LockManager.grantLoop]
    split
    next hw => exact ih (h.grant hw)
    next => exact h

end KeySound

namespace LockManager

abbrev HeldBy (holders : List Holder) (t : Nat) : Prop := ∃ x ∈ holders, x.txnId = t

theorem heldBy_grant {w : Waiter} {t : Nat} :
    HeldBy (grant holders w) t ↔ HeldBy holders t ∨ w.txnId = t := by
  unfold grant
  split
  next hown =>
    simp only [HeldBy, ← mem_map, map_txnId_upgrade]
    refine (or_iff_left_of_imp ?_).symm
    rintro rfl
    simpa using hown
  next => simp [HeldBy, or_and_right, exists_or]

theorem heldBy_of_grantLoop {t : Nat} (h : HeldBy (grantLoop holders queue).1 t) :
    HeldBy holders t ∨ ∃ w ∈ queue, w.txnId = t := by
  induction queue generalizing holders with
  | nil => exact .inl h
  | cons w queue ih =>
    rw [grantLoop] at h
    split at h
    next =>
      rcases ih h with hheld | ⟨v, hv, hid⟩
      · exact (heldBy_grant.mp hheld).imp_right fun hid => ⟨w, mem_cons_self, hid⟩
      · exact .inr ⟨v, mem_cons_of_mem _ hv, hid⟩
    next => exact .inl h

theorem heldBy_grantLoop {t : Nat} (h : HeldBy holders t) :
    HeldBy (grantLoop holders queue).1 t := by
  induction queue generalizing holders with
  | nil => exact h
  | cons w queue ih =>
    rw [grantLoop]
    split
    next => exact ih (heldBy_grant.mpr (.inl h))
    next => exact h

theorem grantLoop_suffix (holders : List Holder) (queue : List Waiter) :
    (grantLoop holders queue).2.1 <:+ queue := by
  induction queue generalizing holders with
  | nil => exact suffix_rfl
  | cons w queue ih =>
    rw [grantLoop]
    split
    next => exact (ih _).trans (suffix_cons _ _)
    next => exact suffix_rfl

theorem length_grantLoop (holders : List Holder) (queue : List Waiter) :
    (grantLoop holders queue).2.2.length + (grantLoop holders queue).2.1.length = queue.length := by
  induction queue generalizing holders with
  | nil => rfl
  | cons w queue ih =>
    rw [grantLoop]
    split
    next =>
      have hlen := ih (grant holders w)
      show (w.txnId :: (grantLoop (grant holders w) queue).2.2).length +
        (grantLoop (grant holders w) queue).2.1.length = (w :: queue).length
      rw [length_cons, length_cons]
      omega
    next => exact Nat.zero_add _

theorem grantable_grantLoop {queue rest : List Waiter} {w : Waiter}
    (h : (grantLoop holders queue).2.1 = w :: rest) :
    grantable (grantLoop holders queue).1 w = false := by
  induction queue generalizing holders with
  | nil => exact absurd h (by simp [grantLoop])
  | cons v queue ih =>
    rw [grantLoop] at h ⊢
    split at h
    next hv =>
      rw [if_pos hv]
      exact ih h
    next hv =>
      rw [if_neg hv]
      obtain ⟨rfl, rfl⟩ := List.cons.inj h
      exact Bool.eq_false_iff.mpr hv

/-! ## The whole manager -/

/-- The transaction holds the key or waits for it. -/
def Touches (st : LockState) (t : Nat) : Prop :=
  (∃ h ∈ st.holders, h.txnId = t) ∨ ∃ w ∈ st.queue, w.txnId = t

structure Sound (s : LockManager) : Prop where
  keys : ∀ k, KeySound s.waiting k (s.stateAt k)
  counted : s.queuedWaiters = s.waiters
  fate : ∀ t, s.fates t ≠ none → t ∈ s.recorded
  recorded : ∀ t ∈ s.recorded, ∃ b, s.waiting t = some b ∧
    (∀ w ∈ (s.stateAt b.key).queue, w.txnId ≠ t) ∧
    (s.fates t = none → ∀ h ∈ (s.stateAt b.key).holders, h.txnId ≠ t)
  tracked : ∀ k t, Touches (s.stateAt k) t → k ∈ (s.txnKeys t).getD []
  ordered : ∀ k, replay k s.log [] = some ((s.stateAt k).queue.map Waiter.txnId)

/-- If the front waiter of a key could be granted, the key is still to be processed, by this section
(it is among `dirty`) or by a thread that sleeps on it and has a fate to pick up. -/
def Attended (s : LockManager) (dirty : List LockKey) : Prop :=
  ∀ k ∉ dirty, ∀ w rest, (s.stateAt k).queue = w :: rest →
    grantable (s.stateAt k).holders w = true →
    ∃ t ∈ s.recorded, ∃ b, s.waiting t = some b ∧ b.key = k

variable {s s' : LockManager} {key k : LockKey} {st : LockState} {t txnId : Nat}
  {dirty : List LockKey}

/-- The transaction is not asleep and the key is among its keys: it may come to touch it. -/
def Comes (s : LockManager) (key : LockKey) (t : Nat) : Prop :=
  s.waiting t = none ∧ key ∈ (s.txnKeys t).getD []

abbrev keysOf (s : LockManager) (t : Nat) : List LockKey := (s.txnKeys t).getD []

/-- What the passes behind a request or a release do to a transaction: it loses no hold, and it gets
a fate only if it has a key. -/
structure Thins (s s' : LockManager) : Prop where
  waiting : s'.waiting = s.waiting
  priorities : s'.priorities = s.priorities
  tracked : ∀ {k t}, k ∈ s'.keysOf t → k ∈ s.keysOf t
  held : ∀ {k t}, HeldBy (s.stateAt k).holders t → HeldBy (s'.stateAt k).holders t
  fates : ∀ {t}, s'.fates t ≠ none → s.fates t ≠ none ∨ ∃ k, k ∈ s.keysOf t

namespace Thins

theorem refl (s : LockManager) : Thins s s := ⟨rfl, rfl, id, id, .inl⟩

theorem trans {s₁ : LockManager} (h : Thins s s₁) (h' : Thins s₁ s') : Thins s s' where
  waiting := h'.waiting.trans h.waiting
  priorities := h'.priorities.trans h.priorities
  tracked hk := h.tracked (h'.tracked hk)
  held hheld := h'.held (h.held hheld)
  fates hfate := (h'.fates hfate).elim h.fates fun ⟨k, hk⟩ => .inr ⟨k, h.tracked hk⟩

theorem recordFate (h : Thins s s') (hkey : key ∈ s.keysOf txnId) (fate : Fate) :
    Thins s (s'.recordFate txnId fate) := by
  refine ⟨h.waiting, h.priorities, h.tracked, h.held, fun {t} hfate => ?_⟩
  by_cases ht : t = txnId
  · exact .inr ⟨key, ht ▸ hkey⟩
  · refine h.fates ?_
    rwa [← Function.update_of_ne ht (some fate) s'.fates]

end Thins

/-- Holds and waits of one key change; who has one had one before or comes now. -/
theorem Sound.setState (h : s.Sound) {n : Nat} {events : List QueueEvent}
    {waiting : Nat → Option Blocked} (hwaiting : ∀ {t b}, s.waiting t = some b → waiting t = some b)
    (hst : KeySound waiting key st)
    (hn : n + (s.stateAt key).queue.length = s.queuedWaiters + st.queue.length)
    (hevents : ∀ e ∈ events, e.key = key)
    (hreplay : replay key events ((s.stateAt key).queue.map Waiter.txnId) =
      some (st.queue.map Waiter.txnId))
    (hqueue : ∀ w ∈ st.queue, (∃ v ∈ (s.stateAt key).queue, v.txnId = w.txnId) ∨
      s.Comes key w.txnId)
    (hholders : ∀ x ∈ st.holders, Touches (s.stateAt key) x.txnId ∨ s.Comes key x.txnId) :
    Sound { s.setState key st with
      queuedWaiters := n, waiting := waiting, log := s.log ++ events } := by
  have hat : ∀ k, LockManager.stateAt { s.setState key st with
      queuedWaiters := n, waiting := waiting, log := s.log ++ events } k =
        if k = key then st else s.stateAt k := stateAt_setState s key st
  refine
    { keys := fun k => ?_
      counted := ?_
      fate := h.fate
      recorded := fun t ht => ?_
      tracked := fun k t htouch => ?_
      ordered := fun k => ?_ }
  · rw [hat]
    split
    next hk => exact hk ▸ hst
    next =>
      refine { h.keys k with blocked := fun w hw => ?_ }
      obtain ⟨b, hb, hkey⟩ := (h.keys k).blocked w hw
      exact ⟨b, hwaiting hb, hkey⟩
  · have hw := waiters_setState s key st
    have hc := h.counted
    show n = (s.setState key st).waiters
    omega
  · obtain ⟨b, hb, hqueued, hheld⟩ := h.recorded t ht
    have hasleep : ¬ s.Comes key t := fun hc => nomatch hc.1.symm.trans hb
    refine ⟨b, hwaiting hb, ?_, fun hfate => ?_⟩
    · rw [hat]
      split
      next hk =>
        intro w hw heq
        rcases hqueue w hw with ⟨v, hv, hid⟩ | hcomes
        · exact hqueued v (hk.symm ▸ hv) (hid.trans heq)
        · exact hasleep (heq ▸ hcomes)
      next => exact hqueued
    · rw [hat]
      split
      next hk =>
        intro x hx heq
        rcases hholders x hx with (⟨y, hy, hid⟩ | ⟨v, hv, hid⟩) | hcomes
        · exact hheld hfate y (hk.symm ▸ hy) (hid.trans heq)
        · exact hqueued v (hk.symm ▸ hv) (hid.trans heq)
        · exact hasleep (heq ▸ hcomes)
      next => exact hheld hfate
  · rw [hat] at htouch
    split at htouch
    next hk =>
      subst hk
      rcases htouch with ⟨x, hx, rfl⟩ | ⟨w, hw, rfl⟩
      · exact (hholders x hx).elim (h.tracked k _) And.right
      · exact (hqueue w hw).elim (fun hv => h.tracked k _ (.inr hv)) And.right
    next => exact h.tracked k t htouch
  · rw [replay_append, h.ordered, hat]
    show replay k events _ = _
    split
    next hk => exact hk ▸ hreplay
    next hk => exact replay_of_ne (fun e he heq => hk (heq.symm.trans (hevents e he))) _

theorem Sound.setHolders (h : s.Sound)
    (hst : KeySound s.waiting key ⟨holders, (s.stateAt key).queue⟩)
    (hholders : ∀ x ∈ holders, Touches (s.stateAt key) x.txnId ∨ s.Comes key x.txnId) :
    (s.setState key ⟨holders, (s.stateAt key).queue⟩).Sound := by
  have hset := h.setState id hst rfl (show ∀ e ∈ [], QueueEvent.key e = key from nofun) rfl
    (fun w hw => .inl ⟨w, hw, rfl⟩) hholders
  rw [append_nil] at hset
  exact hset

theorem Attended.setState (h : s.Attended dirty) (st : LockState) (n : Nat)
    (log : List QueueEvent) :
    Attended { s.setState key st with queuedWaiters := n, log := log } (key :: dirty) := by
  intro k hk w rest
  have hne : k ≠ key := fun heq => hk (heq ▸ mem_cons_self)
  have hat : LockManager.stateAt { s.setState key st with queuedWaiters := n, log := log } k =
      s.stateAt k := by
    show (s.setState key st).stateAt k = s.stateAt k
    rw [stateAt_setState, if_neg hne]
  rw [hat]
  exact h k (fun hmem => hk (mem_cons_of_mem _ hmem)) w rest

/-! ## The parts of a section -/

section Untrack

variable (s : LockManager) (key : LockKey) (txnId : Nat)

theorem untrack_eq :
    ∃ keys, s.untrackTransactionKeyIfUnused key txnId = { s with txnKeys := keys } := by
  unfold untrackTransactionKeyIfUnused
  split
  next => exact ⟨s.txnKeys, rfl⟩
  next => split <;> exact ⟨_, rfl⟩

theorem stateAt_untrack (k : LockKey) :
    (s.untrackTransactionKeyIfUnused key txnId).stateAt k = s.stateAt k := by
  obtain ⟨_, h⟩ := untrack_eq s key txnId
  rw [h]
  rfl

end Untrack

theorem touchesKey_eq_true :
    s.transactionTouchesKey key t = true ↔ Touches (s.stateAt key) t := by
  rw [transactionTouchesKey, Bool.or_eq_true, any_eq_true, any_eq_true, Touches]
  simp only [decide_eq_true_eq]

/-- A key is untracked only when it is neither held nor awaited. -/
theorem mem_untrack : k ∈ (s.untrackTransactionKeyIfUnused key txnId).keysOf t ↔
    k ∈ s.keysOf t ∧ (k = key → t = txnId → Touches (s.stateAt key) txnId) := by
  unfold untrackTransactionKeyIfUnused
  split
  next hused => exact (and_iff_left fun _ _ => touchesKey_eq_true.mp hused).symm
  next hunused =>
    have hnot := mt touchesKey_eq_true.mpr hunused
    split
    next hnone =>
      refine (and_iff_left_of_imp fun hk _ ht => ?_).symm
      simp [keysOf, ht, hnone] at hk
    next keys hkeys =>
      by_cases ht : t = txnId
      · subst ht
        have hget : (if (keys.filter fun k => decide (k ≠ key)).isEmpty then none
            else some (keys.filter fun k => decide (k ≠ key))).getD [] =
              keys.filter fun k => decide (k ≠ key) := by
          split
          next hempty => exact (List.isEmpty_iff.mp hempty).symm
          next => rfl
        simp only [keysOf, Function.update_self, hget, hkeys]
        simp [hnot]
      · simp [keysOf, ht]

theorem thins_untrack (s : LockManager) (key : LockKey) (txnId : Nat) :
    Thins s (s.untrackTransactionKeyIfUnused key txnId) := by
  have hmem : ∀ {k t}, k ∈ (s.untrackTransactionKeyIfUnused key txnId).keysOf t → k ∈ s.keysOf t :=
    fun hk => (mem_untrack.mp hk).1
  obtain ⟨keys, h⟩ := untrack_eq s key txnId
  rw [h] at hmem ⊢
  exact ⟨rfl, rfl, hmem, id, .inl⟩

theorem Sound.untrack (h : s.Sound) (key : LockKey) (txnId : Nat) :
    (s.untrackTransactionKeyIfUnused key txnId).Sound := by
  have htracked : ∀ k t, Touches (s.stateAt k) t →
      k ∈ (s.untrackTransactionKeyIfUnused key txnId).keysOf t := fun k t htouch =>
    mem_untrack.mpr ⟨h.tracked k t htouch, fun hk ht => hk ▸ ht ▸ htouch⟩
  obtain ⟨keys, heq⟩ := untrack_eq s key txnId
  rw [heq] at htracked ⊢
  exact ⟨h.keys, h.counted, h.fate, h.recorded, htracked, h.ordered⟩

theorem Attended.untrack (h : s.Attended dirty) (key : LockKey) (txnId : Nat) :
    (s.untrackTransactionKeyIfUnused key txnId).Attended dirty := by
  obtain ⟨_, heq⟩ := untrack_eq s key txnId
  rw [heq]
  exact h

theorem prune_eq (s : LockManager) (key : LockKey) :
    ∃ locks, s.pruneIfIdle key = { s with locks := locks } := by
  unfold pruneIfIdle
  split <;> exact ⟨_, rfl⟩

theorem Sound.prune (h : s.Sound) (key : LockKey) : (s.pruneIfIdle key).Sound := by
  have hat := stateAt_pruneIfIdle s key
  have hw := waiters_pruneIfIdle s key
  obtain ⟨locks, hlocks⟩ := prune_eq s key
  rw [hlocks] at hat hw ⊢
  refine ⟨fun k => ?_, ?_, h.fate, fun t ht => ?_, fun k t => ?_, fun k => ?_⟩
  · rw [hat]
    exact h.keys k
  · rw [hw]
    exact h.counted
  · obtain ⟨b, hb, hrest⟩ := h.recorded t ht
    refine ⟨b, hb, ?_⟩
    rw [hat]
    exact hrest
  · rw [hat]
    exact h.tracked k t
  · rw [hat]
    exact h.ordered k

theorem Attended.prune (h : s.Attended dirty) (key : LockKey) :
    (s.pruneIfIdle key).Attended dirty := by
  have hat := stateAt_pruneIfIdle s key
  obtain ⟨locks, hlocks⟩ := prune_eq s key
  rw [hlocks] at hat ⊢
  intro k
  rw [hat]
  exact h k

theorem thins_prune (s : LockManager) (key : LockKey) : Thins s (s.pruneIfIdle key) := by
  have hat := stateAt_pruneIfIdle s key
  obtain ⟨locks, hlocks⟩ := prune_eq s key
  rw [hlocks] at hat ⊢
  exact ⟨rfl, rfl, id, fun h => by rwa [hat], .inl⟩

theorem stateAt_dequeue (s : LockManager) (key : LockKey) (txnId : Nat) (k : LockKey) :
    (s.dequeue key txnId).stateAt k =
      if k = key then { s.stateAt key with
        queue := (s.stateAt key).queue.eraseP fun w => decide (w.txnId = txnId) }
      else s.stateAt k := stateAt_setState s key _ k

theorem thins_dequeue (s : LockManager) (key : LockKey) (txnId : Nat) :
    Thins s (s.dequeue key txnId) := by
  refine ⟨rfl, rfl, id, fun hheld => ?_, .inl⟩
  rw [stateAt_dequeue]
  split
  next hk => exact hk ▸ hheld
  next => exact hheld

theorem Sound.dequeue (h : s.Sound) (hmem : ∃ w ∈ (s.stateAt key).queue, w.txnId = txnId) :
    (s.dequeue key txnId).Sound := by
  obtain ⟨w, hw, hid⟩ := hmem
  have hlen := length_eraseP_of_mem (p := fun w => decide (w.txnId = txnId)) hw
    (decide_eq_true hid)
  have hpos := length_pos_of_mem hw
  have hcount := h.counted
  have hle := length_queue_le_waiters s key
  refine h.setState id ((h.keys key).sublist (Sublist.refl _) (eraseP_sublist ..)) ?_ ?_ ?_ ?_ ?_
  · dsimp only
    omega
  · intro e he
    obtain rfl := mem_singleton.mp he
    rfl
  · rw [replay_cons (show (QueueEvent.removed key txnId).key = key from rfl), fifo,
      if_pos (hid ▸ mem_map_of_mem hw), ← map_eraseP_txnId]
    rfl
  · exact fun v hv => .inl ⟨v, mem_of_mem_eraseP hv, rfl⟩
  · exact fun x hx => .inl (.inl ⟨x, hx, rfl⟩)

/-- Behind the erased entry there is no second one. -/
theorem not_queued_dequeue (h : s.Sound) : ∀ w ∈ ((s.dequeue key txnId).stateAt key).queue,
    w.txnId ≠ txnId := by
  rw [stateAt_dequeue, if_pos rfl]
  intro w hw heq
  have hmem : txnId ∈ ((s.stateAt key).queue.map Waiter.txnId).erase txnId := by
    rw [← map_eraseP_txnId]
    exact mem_map.mpr ⟨w, hw, heq⟩
  exact absurd hmem (h.keys key).queue.not_mem_erase

theorem unqueue_spec (h : s.Sound) (hmem : ∃ w ∈ (s.stateAt key).queue, w.txnId = txnId)
    (ha : s.Attended dirty) :
    let s₁ := (s.dequeue key txnId).untrackTransactionKeyIfUnused key txnId
    s₁.Sound ∧ s₁.Attended (key :: dirty) ∧ Thins s s₁ ∧ s₁.fates = s.fates ∧
      s₁.queuedWaiters = s.queuedWaiters - 1 ∧
      ∀ w ∈ (s₁.stateAt key).queue, w.txnId ≠ txnId := by
  refine ⟨(h.dequeue hmem).untrack key txnId, Attended.untrack (ha.setState _ _ _) key txnId,
    (thins_dequeue s key txnId).trans (thins_untrack _ key txnId), ?_⟩
  obtain ⟨_, heq⟩ := untrack_eq (s.dequeue key txnId) key txnId
  rw [heq]
  exact ⟨rfl, rfl, not_queued_dequeue h⟩

theorem Sound.recordFate (h : s.Sound) {b : Blocked} (hb : s.waiting txnId = some b)
    (hqueued : ∀ w ∈ (s.stateAt b.key).queue, w.txnId ≠ txnId) (fate : Fate) :
    (s.recordFate txnId fate).Sound := by
  refine ⟨h.keys, h.counted, fun t ht => ?_, fun t ht => ?_, h.tracked, h.ordered⟩
  · by_cases heq : t = txnId
    · subst heq
      exact mem_insert_self
    · have hold : s.fates t ≠ none := by
        simpa [LockManager.recordFate, Function.update_of_ne heq] using ht
      exact List.mem_insert_of_mem (h.fate t hold)
  · by_cases heq : t = txnId
    · subst heq
      refine ⟨b, hb, hqueued, fun hnone => absurd hnone ?_⟩
      simp [LockManager.recordFate]
    · rcases mem_insert_iff.mp ht with ht | ht
      · exact absurd ht heq
      · obtain ⟨b', hb', hrest, hheld⟩ := h.recorded t ht
        refine ⟨b', hb', hrest, fun hnone => hheld ?_⟩
        simpa [LockManager.recordFate, Function.update_of_ne heq] using hnone

theorem Attended.recordFate (h : s.Attended (key :: dirty)) {b : Blocked}
    (hb : s.waiting txnId = some b) (hkey : b.key = key) (fate : Fate) :
    (s.recordFate txnId fate).Attended dirty := by
  intro k hk w rest hqueue hgrant
  by_cases heq : k = key
  · exact ⟨txnId, mem_insert_self, b, hb, hkey.trans heq.symm⟩
  · obtain ⟨t, ht, hrest⟩ := h k (by simp [heq, hk]) w rest hqueue hgrant
    exact ⟨t, List.mem_insert_of_mem ht, hrest⟩

/-! ## Processing a key -/

/-- Purging one waiter: its thread sleeps on the key and will find the fate. -/
theorem purgeWaiter_spec (h : s.Sound) (ha : s.Attended (key :: dirty)) (env : Env) (txnId : Nat) :
    (purgeWaiter env key s txnId).Sound ∧ (purgeWaiter env key s txnId).Attended (key :: dirty) ∧
      Thins s (purgeWaiter env key s txnId) := by
  unfold purgeWaiter
  split
  next => exact ⟨h, ha, .refl s⟩
  next w hfind =>
    have hw := mem_of_find?_eq_some hfind
    have hid : w.txnId = txnId := by simpa using find?_some hfind
    obtain ⟨b, hb, hkey⟩ := (h.keys key).blocked w hw
    rw [hid] at hb
    have hs := h.dequeue ⟨w, hw, hid⟩
    have hqueued : ∀ w ∈ ((s.dequeue key txnId).stateAt b.key).queue, w.txnId ≠ txnId := by
      rw [hkey]
      exact not_queued_dequeue h
    have hstill : (s.dequeue key txnId).Attended (key :: key :: dirty) := ha.setState _ _ _
    exact ⟨hs.recordFate hb hqueued _, hstill.recordFate hb hkey _,
      (thins_dequeue s key txnId).recordFate (h.tracked key txnId (.inr ⟨w, hw, hid⟩)) _⟩

theorem foldl_spec {f : LockManager → Nat → LockManager}
    (hf : ∀ {s : LockManager}, s.Sound → s.Attended dirty → ∀ t,
      (f s t).Sound ∧ (f s t).Attended dirty ∧ Thins s (f s t)) (dead : List Nat) :
    ∀ {s : LockManager}, s.Sound → s.Attended dirty →
      (dead.foldl f s).Sound ∧ (dead.foldl f s).Attended dirty ∧ Thins s (dead.foldl f s) := by
  induction dead with
  | nil => exact fun h ha => ⟨h, ha, .refl _⟩
  | cons t dead ih =>
    intro s h ha
    obtain ⟨h₁, ha₁, ht₁⟩ := hf h ha t
    obtain ⟨h₂, ha₂, ht₂⟩ := ih h₁ ha₁
    exact ⟨h₂, ha₂, ht₁.trans ht₂⟩

theorem Sound.grantFront (h : s.Sound) (key : LockKey) : (s.grantFront key).Sound := by
  have hlen := length_grantLoop (s.stateAt key).holders (s.stateAt key).queue
  have hsuffix := grantLoop_suffix (s.stateAt key).holders (s.stateAt key).queue
  have hle := length_queue_le_waiters s key
  have hcount := h.counted
  refine h.setState id (h.keys key).grantLoop ?_ ?_ (replay_grantLoop key _ _) ?_ ?_
  · show s.queuedWaiters - (grantLoop (s.stateAt key).holders (s.stateAt key).queue).2.2.length +
      (s.stateAt key).queue.length = s.queuedWaiters +
        (grantLoop (s.stateAt key).holders (s.stateAt key).queue).2.1.length
    omega
  · intro e he
    obtain ⟨t, -, rfl⟩ := mem_map.mp he
    rfl
  · exact fun w hw => .inl ⟨w, hsuffix.subset hw, rfl⟩
  · exact fun x hx => .inl (heldBy_of_grantLoop ⟨x, hx, rfl⟩)

theorem stateAt_grantFront (s : LockManager) (key k : LockKey) :
    (s.grantFront key).stateAt k = if k = key then
      ⟨(grantLoop (s.stateAt key).holders (s.stateAt key).queue).1,
        (grantLoop (s.stateAt key).holders (s.stateAt key).queue).2.1⟩ else s.stateAt k :=
  stateAt_setState s key _ k

theorem thins_grantFront (s : LockManager) (key : LockKey) : Thins s (s.grantFront key) := by
  refine ⟨rfl, rfl, id, fun hheld => ?_, .inl⟩
  rw [stateAt_grantFront]
  split
  next hk => exact heldBy_grantLoop (hk ▸ hheld)
  next => exact hheld

theorem Attended.grantFront (h : s.Attended (key :: dirty)) :
    (s.grantFront key).Attended dirty := by
  intro k hk w rest hqueue hgrant
  rw [stateAt_grantFront] at hqueue hgrant
  split at hqueue
  next hkey =>
    rw [if_pos hkey, grantable_grantLoop hqueue] at hgrant
    exact absurd hgrant Bool.false_ne_true
  next hkey =>
    rw [if_neg hkey] at hgrant
    exact h k (by simp [hkey, hk]) w rest hqueue hgrant

theorem processKey_spec (h : s.Sound) (ha : s.Attended (key :: dirty)) (env : Env) :
    (s.processKey env key).Sound ∧ (s.processKey env key).Attended dirty ∧
      Thins s (s.processKey env key) := by
  unfold processKey
  split
  next =>
    dsimp only
    obtain ⟨h₁, ha₁, ht₁⟩ := foldl_spec (fun h ha t => purgeWaiter_spec h ha env t)
      (((s.stateAt key).queue.filter (isDead env)).map Waiter.txnId) h ha
    obtain ⟨h₂, ha₂, ht₂⟩ := foldl_spec
      (fun h ha t => ⟨h.untrack key t, ha.untrack key t, thins_untrack _ key t⟩)
      (((s.stateAt key).queue.filter (isDead env)).map Waiter.txnId)
      (h₁.grantFront key) ha₁.grantFront
    exact ⟨h₂, ha₂, ht₁.trans ((thins_grantFront _ key).trans ht₂)⟩
  next habsent =>
    refine ⟨h, fun k hk w rest hqueue hgrant => ?_, .refl s⟩
    by_cases heq : k = key
    · rw [heq, stateAt_of_notMem habsent] at hqueue
      exact absurd hqueue (by simp)
    · exact ha k (by simp [heq, hk]) w rest hqueue hgrant

/-! ## Deadlock detection -/

theorem not_queued_of_waiters (h : s.waiters = 0) (t : Nat) : ¬ s.Queued t := by
  rintro ⟨key, w, hw, -⟩
  have hle := length_queue_le_waiters s key
  have hpos := length_pos_of_mem hw
  omega

theorem acyclic_of_waiters (h : s.waiters = 0) (t : Nat) : ¬ Relation.TransGen s.WaitsFor t t := by
  intro hcycle
  obtain ⟨u, hedge, -⟩ := Relation.TransGen.head'_iff.mp hcycle
  exact not_queued_of_waiters h t hedge.queued

/-- Every turn takes one waiter out of its queue and records its fate. -/
theorem detectLoop_spec (n : Nat) : ∀ {s : LockManager}, s.Sound → s.Attended dirty →
    s.queuedWaiters ≤ n →
    (detectLoop n s).Sound ∧ (detectLoop n s).Attended dirty ∧
      Thins s (detectLoop n s) ∧
      ∀ t, ¬ Relation.TransGen (detectLoop n s).WaitsFor t t := by
  induction n with
  | zero =>
    intro s h ha hn
    exact ⟨h, ha, .refl s, acyclic_of_waiters (h.counted ▸ Nat.le_zero.mp hn)⟩
  | succ n ih =>
    intro s h ha hn
    rw [detectLoop]
    split
    next hzero => exact ⟨h, ha, .refl s, acyclic_of_waiters (h.counted ▸ hzero)⟩
    next hpos =>
      cases hcycle : s.findWaitCycle with
      | none => exact ⟨h, ha, .refl s, not_transGen_of_findWaitCycle hcycle⟩
      | some cycle =>
        obtain ⟨victim, key, hvictim, hkey, w, hw, hid⟩ := exists_victim hcycle
        simp only [hvictim, hkey]
        obtain ⟨b, hb, hbkey⟩ := (h.keys key).blocked w hw
        rw [hid] at hb
        obtain ⟨h₁, ha₁, ht₁, -, hcount, hqueued⟩ := unqueue_spec h ⟨w, hw, hid⟩ ha
        have hb₁ := (congrFun ht₁.waiting victim).trans hb
        obtain ⟨h₂, ha₂, ht₂, hacyclic⟩ := ih
          (h₁.recordFate hb₁ (by rwa [hbkey]) (.deadlock victim cycle))
          (ha₁.recordFate hb₁ hbkey (.deadlock victim cycle)) (hcount.trans_le (by omega))
        have htracked := h.tracked key victim (.inr ⟨w, hw, hid⟩)
        exact ⟨h₂, ha₂, (ht₁.recordFate htracked _).trans ht₂, hacyclic⟩

theorem detectDeadlocks_spec (h : s.Sound) (ha : s.Attended dirty) :
    s.detectDeadlocks.Sound ∧ s.detectDeadlocks.Attended dirty ∧
      Thins s s.detectDeadlocks ∧
      ∀ t, ¬ Relation.TransGen s.detectDeadlocks.WaitsFor t t :=
  detectLoop_spec s.queuedWaiters h ha le_rfl

end LockManager

end MongrelDB.Locks
