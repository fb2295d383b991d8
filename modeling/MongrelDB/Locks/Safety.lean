import Mathlib.Data.Fintype.Card
import Mathlib.Data.Set.Finite.Basic
import MongrelDB.Lib.Transition
import MongrelDB.Locks.Invariant

/-!
# The lock manager is safe and leaves nobody waiting for nothing

Every critical section keeps the invariant (`settled_step`), so it holds in every
state in which the mutex is free, whatever the threads do: requests, releases by
anybody at any time, cancellations and deadlines.
-/

namespace MongrelDB.Locks

open Lib List
open Option hiding all_eq_true any_eq_true filter_map mem_map all_eq_false mem_map_of_mem

namespace LockManager

variable {s s' : LockManager} {key k : LockKey} {t txnId : Nat} {dirty : List LockKey} {b : Blocked}
  {request : LockRequest}

/-- What holds whenever the mutex is free. -/
structure Quiet (s : LockManager) : Prop where
  sound : s.Sound
  attended : s.Attended []
  acyclic : ∀ t, ¬ Relation.TransGen s.WaitsFor t t

/-- A thread of the transaction sleeps on the key. -/
def Asleep (s : LockManager) (key : LockKey) (t : Nat) : Prop :=
  ∃ b, s.waiting t = some b ∧ b.key = key

/-- A tracked key is held or slept on; inside a section some may be left over. -/
def Exact (s : LockManager) (late : Set (LockKey × Nat)) : Prop :=
  ∀ k t, k ∈ s.keysOf t → HeldBy (s.stateAt k).holders t ∨ s.Asleep k t ∨ (k, t) ∈ late

/-- The tables of tracked keys are right as well. -/
structure Settled (s : LockManager) : Prop extends Quiet s where
  exact : s.Exact ∅

theorem Exact.mono {late : Set (LockKey × Nat)} (h : s.Exact ∅) : s.Exact late :=
  fun k t hk => (h k t hk).imp_right (.imp_right False.elim)

theorem Exact.thin {late : Set (LockKey × Nat)} (h : s.Exact late) (hthin : Thins s s') :
    s'.Exact late := by
  intro k t hk
  rw [Asleep, hthin.waiting]
  exact (h k t (hthin.tracked hk)).imp_left hthin.held

theorem Exact.settle (h : s.Exact {(key, txnId)})
    (hkey : key ∈ s.keysOf txnId → Touches (s.stateAt key) txnId) (hs : s.Sound) :
    s.Exact ∅ := by
  intro k t hk
  rcases h k t hk with hheld | hasleep | hlate
  · exact .inl hheld
  · exact .inr (.inl hasleep)
  · cases Set.mem_singleton_iff.mp hlate
    rcases hkey hk with hheld | ⟨w, hw, rfl⟩
    · exact .inl hheld
    · exact .inr (.inl ((hs.keys key).blocked w hw))

/-- A thread that goes away may leave its key behind. -/
theorem Exact.leave (h : s.Exact ∅) (hb : s.waiting txnId = some b) :
    (s.stopWaiting txnId).Exact {(b.key, txnId)} := by
  intro k t hk
  rcases h k t hk with hheld | ⟨b', hb', rfl⟩ | hlate
  · exact .inl hheld
  · by_cases ht : t = txnId
    · subst ht
      obtain rfl := some.inj (hb.symm.trans hb')
      exact .inr (.inr rfl)
    · exact .inr (.inl ⟨b', (Function.update_of_ne ht _ _).trans hb', rfl⟩)
  · exact hlate.elim

theorem acyclic_mono (h : ∀ t, ¬ Relation.TransGen s.WaitsFor t t)
    (hsub : ∀ a b, s'.WaitsFor a b → s.WaitsFor a b) (t : Nat) :
    ¬ Relation.TransGen s'.WaitsFor t t :=
  fun hcycle => h t (Relation.TransGen.mono hsub _ _ hcycle)

theorem WaitsFor.congr (hst : ∀ k, s'.stateAt k = s.stateAt k) {a b : Nat} (h : s'.WaitsFor a b) :
    s.WaitsFor a b := by
  obtain ⟨key, h⟩ := h
  rw [hst] at h
  exact ⟨key, h⟩

theorem Attended.mono {dirty' : List LockKey} (h : s.Attended dirty)
    (hsub : ∀ k ∈ dirty, k ∈ dirty') : s.Attended dirty' :=
  fun k hk => h k fun hmem => hk (hsub k hmem)

theorem Quiet.untrack (h : s.Quiet) (key : LockKey) (txnId : Nat) :
    (s.untrackTransactionKeyIfUnused key txnId).Quiet :=
  ⟨h.sound.untrack key txnId, h.attended.untrack key txnId,
    acyclic_mono h.acyclic fun _ _ => WaitsFor.congr (stateAt_untrack s key txnId)⟩

theorem Settled.prune (h : s.Settled) (key : LockKey) : (s.pruneIfIdle key).Settled :=
  ⟨⟨h.sound.prune key, h.attended.prune key,
    acyclic_mono h.acyclic fun _ _ => WaitsFor.congr (stateAt_pruneIfIdle s key)⟩,
    h.exact.thin (thins_prune s key)⟩

/-! ## Leaving the wait loop -/

/-- The entry of the thread is in no queue, so nothing depends on the thread any more. -/
theorem Sound.leave (h : s.Sound) (hb : s.waiting txnId = some b)
    (hqueued : ∀ w ∈ (s.stateAt b.key).queue, w.txnId ≠ txnId) :
    Sound (stopWaiting { s with fates := Function.update s.fates txnId none } txnId) := by
  have hnowhere : ∀ k, ∀ w ∈ (s.stateAt k).queue, w.txnId ≠ txnId := by
    intro k w hw heq
    obtain ⟨b', hb', hkey⟩ := (h.keys k).blocked w hw
    rw [heq, hb] at hb'
    obtain rfl := some.inj hb'
    exact hqueued w (hkey.symm ▸ hw) heq
  refine ⟨fun k => ?_, h.counted, fun t ht => ?_, fun t ht => ?_, h.tracked, h.ordered⟩
  · refine ⟨(h.keys k).holders, (h.keys k).compatible, (h.keys k).queue, fun w hw => ?_,
      (h.keys k).unheld⟩
    obtain ⟨b', hb', hkey⟩ := (h.keys k).blocked w hw
    exact ⟨b', by rw [← hb']; exact Function.update_of_ne (hnowhere k w hw) _ _, hkey⟩
  · have hne : t ≠ txnId := by
      rintro rfl
      exact ht (Function.update_self ..)
    have hold : s.fates t ≠ none := by
      rw [← Function.update_of_ne hne none s.fates]
      exact ht
    exact mem_filter.mpr ⟨h.fate t hold, decide_eq_true hne⟩
  · obtain ⟨ht, hne⟩ := mem_filter.mp ht
    have hne := of_decide_eq_true hne
    obtain ⟨b', hb', hrest, hheld⟩ := h.recorded t ht
    refine ⟨b', by rw [← hb']; exact Function.update_of_ne hne _ _, hrest, fun hnone => hheld ?_⟩
    rw [← Function.update_of_ne hne none s.fates]
    exact hnone

theorem Sound.stopWaiting (h : s.Sound) (hb : s.waiting txnId = some b)
    (hfate : s.fates txnId = none) (hqueued : ∀ w ∈ (s.stateAt b.key).queue, w.txnId ≠ txnId) :
    (s.stopWaiting txnId).Sound := by
  have hsame : { s with fates := Function.update s.fates txnId none } = s := by
    rw [← hfate, Function.update_eq_self]
  have hleave := h.leave hb hqueued
  rw [hsame] at hleave
  exact hleave

theorem Attended.stopWaiting (h : s.Attended dirty) (hb : s.waiting txnId = some b)
    (hdirty : txnId ∈ s.recorded → b.key ∈ dirty) : (s.stopWaiting txnId).Attended dirty := by
  intro k hk w rest hqueue hgrant
  obtain ⟨t, ht, b', hb', hkey⟩ := h k hk w rest hqueue hgrant
  have hne : t ≠ txnId := by
    rintro rfl
    obtain rfl := some.inj (hb.symm.trans hb')
    exact hk (hkey ▸ hdirty ht)
  refine ⟨t, mem_filter.mpr ⟨ht, decide_eq_true hne⟩, b', ?_, hkey⟩
  rw [← hb']
  exact Function.update_of_ne hne _ _

/-- The rest of a failed `acquire` settles the key. -/
theorem settled_afterError (h : s.Sound) (ha : s.Attended [key])
    (hx : s.Exact {(key, txnId)}) (env : Env) (e : LockError) :
    (s.afterWait env key txnId (.error e)).Settled := by
  obtain ⟨h₁, ha₁, ht₁⟩ := processKey_spec h ha env
  obtain ⟨h₂, ha₂, ht₂, hacyclic⟩ := detectDeadlocks_spec h₁ ha₁
  have h₃ := Quiet.untrack ⟨h₂, ha₂, hacyclic⟩ key txnId
  refine Settled.prune ⟨h₃, Exact.settle
    (((hx.thin ht₁).thin ht₂).thin (thins_untrack _ key txnId)) (fun hk => ?_) h₃.sound⟩ key
  rw [stateAt_untrack]
  exact (mem_untrack.mp hk).2 rfl rfl

theorem settled_wake (h : s.Settled) (hb : s.waiting txnId = some b) (env : Env) :
    (s.wake env txnId b).1.Settled := by
  have hdirty : s.Attended [b.key] := h.attended.mono fun _ hk => absurd hk not_mem_nil
  unfold wake
  fun_cases waitTurn s env txnId b with
  | case1 fate hfate =>
    -- the recorded fate
    obtain ⟨b', hb', hqueued, -⟩ :=
      h.sound.recorded txnId (h.sound.fate txnId (by rw [hfate]; simp))
    obtain rfl := some.inj (hb.symm.trans hb')
    exact settled_afterError (h.sound.leave hb hqueued)
      (hdirty.stopWaiting hb fun _ => mem_cons_self) (h.exact.leave hb) env fate.intoError
  | case2 hfate hqueued e =>
    -- cancelled or too late: the thread takes its own entry out
    rw [removeWaiter, if_pos hqueued]
    obtain ⟨hs, ha, hthin, hfates, -, hgone⟩ :=
      unqueue_spec h.sound (by simpa using hqueued) h.attended
    generalize untrackTransactionKeyIfUnused .. = left at *
    have hb' := (congrFun hthin.waiting txnId).trans hb
    have hfate' := (congrFun hfates txnId).trans hfate
    exact settled_afterError (hs.stopWaiting hb' hfate' hgone)
      (ha.stopWaiting hb' fun _ => mem_cons_self) ((h.exact.thin hthin).leave hb') env e
  | case3 => exact h
  | case4 hfate hqueued hheld =>
    -- granted: a transaction that holds the key has lost no fate
    have hheld : HeldBy (s.stateAt b.key).holders txnId := by simpa using hheld
    have hnot : txnId ∉ s.recorded := by
      intro hmem
      obtain ⟨b', hb', -, hlost⟩ := h.sound.recorded txnId hmem
      obtain rfl := some.inj (hb.symm.trans hb')
      obtain ⟨x, hx, hid⟩ := hheld
      exact hlost hfate x hx hid
    have hsound := h.sound.stopWaiting hb hfate (by simpa using hqueued)
    exact Settled.prune ⟨⟨hsound, h.attended.stopWaiting hb fun hmem => absurd hmem hnot,
      h.acyclic⟩,
      (h.exact.leave hb).settle (fun _ => .inl hheld) hsound⟩ b.key
  | case5 hfate hqueued =>
    -- the entry vanished in a `releaseAll`
    exact settled_afterError (h.sound.stopWaiting hb hfate (by simpa using hqueued))
      (hdirty.stopWaiting hb fun _ => mem_cons_self) (h.exact.leave hb) env .cancelled

/-! ## Requests -/

theorem mem_track : k ∈ (s.trackTransactionKey key txnId).keysOf t ↔
    k ∈ s.keysOf t ∨ k = key ∧ t = txnId := by
  by_cases ht : t = txnId
  · subst ht
    simp [trackTransactionKey, keysOf, or_comm]
  · simp [trackTransactionKey, keysOf, ht]

theorem Settled.track (h : s.Settled) (key : LockKey) (txnId : Nat)
    (priorities : Nat → Option Nat) :
    Quiet (trackTransactionKey { s with priorities := priorities } key txnId) ∧
      Exact (trackTransactionKey { s with priorities := priorities } key txnId)
        {(key, txnId)} := by
  refine ⟨⟨⟨h.sound.keys, h.sound.counted, h.sound.fate, h.sound.recorded, fun k t htouch => ?_,
    h.sound.ordered⟩, h.attended, h.acyclic⟩, fun k t hk => ?_⟩
  · exact mem_track.mpr (.inl (h.sound.tracked k t htouch))
  · rcases mem_track.mp hk with hk | ⟨rfl, rfl⟩
    · exact h.exact.mono k t hk
    · exact .inr (.inr rfl)

/-- The queue of the key is empty and the hold that is added or changed is compatible. -/
theorem Quiet.setHolders (h : s.Quiet) (hx : s.Exact {(key, txnId)}) {holders : List Holder}
    (hqueue : (s.stateAt key).queue = [])
    (hnodup : (holders.map Holder.txnId).Nodup)
    (hcompat : ∀ a ∈ holders, ∀ b ∈ holders, a.txnId ≠ b.txnId → a.mode.compatible b.mode = true)
    (hfree : s.waiting txnId = none) (htracked : key ∈ (s.txnKeys txnId).getD [])
    (hold : ∀ t, HeldBy holders t ↔ t = txnId ∨ HeldBy (s.stateAt key).holders t) :
    (s.setState key { s.stateAt key with holders := holders }).Settled := by
  have hat := stateAt_setState s key { s.stateAt key with holders := holders }
  have hsound : (s.setState key { s.stateAt key with holders := holders }).Sound := by
    refine h.sound.setHolders ⟨hnodup, hcompat, ?_, ?_, ?_⟩ fun x hx => ?_
    iterate 3 simp [hqueue]
    rcases (hold x.txnId).mp ⟨x, hx, rfl⟩ with hid | hheld
    · exact .inr ⟨hid ▸ hfree, hid ▸ htracked⟩
    · exact .inl (.inl hheld)
  have hthin : Thins s (s.setState key { s.stateAt key with holders := holders }) := by
    refine ⟨rfl, rfl, id, fun {k t} hheld => ?_, .inl⟩
    rw [hat]
    split
    next hk => exact (hold t).mpr (.inr (hk ▸ hheld))
    next => exact hheld
  refine ⟨⟨hsound, ?_, ?_⟩, (hx.thin hthin).settle (fun _ => .inl ?_) hsound⟩
  · intro k hk w rest hq hgrant
    rw [hat] at hq hgrant
    split at hq
    next => exact absurd (hqueue.symm.trans hq) (by simp)
    next hne =>
      rw [if_neg hne] at hgrant
      exact h.attended k hk w rest hq hgrant
  · refine acyclic_mono h.acyclic fun a b hwait => ?_
    obtain ⟨k, i, w, hget, hrest⟩ := hwait
    rw [hat] at hget hrest
    split at hget
    next =>
      rw [hqueue] at hget
      exact absurd hget (by simp)
    next hne =>
      rw [if_neg hne] at hrest
      exact ⟨k, i, w, hget, hrest⟩
  · rw [hat, if_pos rfl]
    exact (hold txnId).mpr (.inl rfl)

section

variable (h : s.Quiet) (hx : s.Exact {(key, request.txnId)})
  (hfree : s.waiting request.txnId = none)
  (htracked : key ∈ (s.txnKeys request.txnId).getD [])
  (hmode : request.mode = .shared → ∀ x ∈ (s.stateAt key).holders, x.txnId ≠ request.txnId)
  (hblocked : (s.stateAt key).queue = [] → ∃ x ∈ (s.stateAt key).holders, x.txnId ≠ request.txnId ∧
    request.mode.compatible x.mode = false)
include h hx hfree htracked hmode hblocked

/-- A request that cannot be granted joins the queue. -/
theorem enqueue_spec :
    (s.enqueue key request).Sound ∧ (s.enqueue key request).Attended [] ∧
      (s.enqueue key request).Exact ∅ := by
  have hat : ∀ k, (s.enqueue key request).stateAt k = if k = key then
      { s.stateAt key with queue := (s.stateAt key).queue ++
        [⟨request.txnId, request.deadline, request.control, request.mode⟩] } else s.stateAt k :=
    stateAt_setState s key _
  have hnot : ∀ k, ∀ w ∈ (s.stateAt k).queue, w.txnId ≠ request.txnId := by
    intro k w hw heq
    obtain ⟨b, hb, -⟩ := (h.sound.keys k).blocked w hw
    rw [heq, hfree] at hb
    exact absurd hb (by simp)
  have hwaiting : ∀ t, t ≠ request.txnId →
      (s.enqueue key request).waiting t = s.waiting t := fun t ht => Function.update_of_ne ht _ _
  have hnew : (s.enqueue key request).waiting request.txnId =
      some ⟨key, request.control, request.deadline⟩ := Function.update_self ..
  have hkept : ∀ {t b}, s.waiting t = some b → (s.enqueue key request).waiting t = some b := by
    intro t b hb
    refine (hwaiting t ?_).trans hb
    rintro rfl
    cases hfree.symm.trans hb
  have hk := h.sound.keys key
  refine ⟨h.sound.setState ?_ ⟨hk.holders, hk.compatible, ?_, fun w hw => ?_,
    fun w hw hshared => ?_⟩ ?_ ?_ ?_ ?_ fun x hx => .inl (.inl ⟨x, hx, rfl⟩), ?_, fun k t hk => ?_⟩
  · exact hkept
  · rw [map_append, nodup_append]
    refine ⟨hk.queue, nodup_singleton _, fun a ha b hb heq => ?_⟩
    obtain ⟨w, hw, rfl⟩ := mem_map.mp ha
    exact hnot key w hw (heq.trans (by simpa using hb))
  · rcases mem_append.mp hw with hw | hw
    · rw [Function.update_of_ne (hnot key w hw)]
      exact hk.blocked w hw
    · obtain rfl := mem_singleton.mp hw
      exact ⟨_, hnew, rfl⟩
  · rcases mem_append.mp hw with hw | hw
    · exact hk.unheld w hw hshared
    · obtain rfl := mem_singleton.mp hw
      exact hmode hshared
  · simp only [length_append, length_singleton]
    omega
  · intro e he
    obtain rfl := mem_singleton.mp he
    rfl
  · rw [replay_cons (show (QueueEvent.queued key request.txnId).key = key from rfl), map_append]
    rfl
  · intro w hw
    rcases mem_append.mp hw with hw | hw
    · exact .inl ⟨w, hw, rfl⟩
    · obtain rfl := mem_singleton.mp hw
      exact .inr ⟨hfree, htracked⟩
  · intro k hk w rest hqueue hgrant
    rw [hat] at hqueue hgrant
    have hold : ∀ w rest, (s.stateAt k).queue = w :: rest →
        grantable (s.stateAt k).holders w = true →
        ∃ t ∈ (s.enqueue key request).recorded, ∃ b,
          (s.enqueue key request).waiting t = some b ∧ b.key = k := by
      intro w rest hqueue hgrant
      obtain ⟨t, ht, b, hb, hkey⟩ := h.attended k hk w rest hqueue hgrant
      exact ⟨t, ht, b, hkept hb, hkey⟩
    split at hqueue
    next heq =>
      subst heq
      rw [if_pos rfl] at hgrant
      cases hq : (s.stateAt k).queue with
      | nil =>
        -- the new request is at the front, and blocked
        obtain ⟨x, hx, hne, hconflict⟩ := hblocked hq
        rw [hq, nil_append] at hqueue
        obtain ⟨rfl, -⟩ := List.cons.inj hqueue
        have := all_eq_true.mp hgrant x hx
        rw [decide_eq_false hne, Bool.false_or, hconflict] at this
        exact absurd this Bool.false_ne_true
      | cons v queue =>
        rw [hq, cons_append] at hqueue
        obtain ⟨rfl, -⟩ := List.cons.inj hqueue
        exact hold v queue hq hgrant
    next hne =>
      rw [if_neg hne] at hgrant
      exact hold w rest hqueue hgrant
  · rcases hx k t hk with hheld | ⟨b, hb, hkey⟩ | hlate
    · left
      rw [hat]
      split
      next heq => exact heq ▸ hheld
      next => exact hheld
    · exact .inr (.inl ⟨b, hkept hb, hkey⟩)
    · cases Set.mem_singleton_iff.mp hlate
      exact .inr (.inl ⟨_, hnew, rfl⟩)

theorem settled_acquireQueued (env : Env) :
    (s.acquireQueued key request env).1.Settled := by
  unfold acquireQueued
  split
  next hany => exact ⟨h, hx.settle (fun _ => .inr (by simpa using hany)) h.sound⟩
  next =>
    obtain ⟨h₁, ha₁, hx₁⟩ := enqueue_spec h hx hfree htracked hmode hblocked
    obtain ⟨h₂, ha₂, ht₂, hacyclic⟩ := detectDeadlocks_spec h₁ ha₁
    refine settled_wake ⟨⟨h₂, ha₂, hacyclic⟩, hx₁.thin ht₂⟩ ?_ env
    rw [ht₂.waiting]
    exact Function.update_self ..

end

theorem settled_acquireLive (h : s.Quiet) (hx : s.Exact {(key, request.txnId)})
    (hfree : s.waiting request.txnId = none)
    (htracked : key ∈ (s.txnKeys request.txnId).getD []) (env : Env) :
    (s.acquireLive key request env).1.Settled := by
  have hsound := h.sound.keys key
  unfold acquireLive
  dsimp only
  split
  next own hfind =>
    have hown := mem_of_find?_eq_some hfind
    have hid : own.txnId = request.txnId := by simpa using find?_some hfind
    split
    next => exact ⟨h, hx.settle (fun _ => .inl ⟨own, hown, hid⟩) h.sound⟩
    next hmodes =>
      rw [not_or] at hmodes
      obtain ⟨hheld, hwanted⟩ := hmodes
      have hexclusive : request.mode = .exclusive := by
        cases hm : request.mode with
        | shared => exact absurd hm hwanted
        | exclusive => rfl
      split
      next hsole =>
        -- the sole holder is upgraded in place
        obtain ⟨hone, hempty⟩ := hsole
        obtain ⟨x, hone⟩ := length_eq_one_iff.mp hone
        obtain rfl : own = x := by simpa [hone] using hown
        refine h.setHolders hx (List.isEmpty_iff.mp hempty) ?_ ?_ hfree htracked ?_
        · simp [hone]
        · intro a ha b hb hne
          rw [hone] at ha hb
          rw [map_singleton, mem_singleton] at ha hb
          exact absurd (congrArg Holder.txnId (ha.trans hb.symm)) hne
        · intro t
          simp [HeldBy, hone, hid, eq_comm]
      next hshared =>
        refine settled_acquireQueued h hx hfree htracked (fun hm => absurd hm hwanted) ?_ env
        intro hempty
        -- another holder is in the way of the upgrade
        have hmany : (s.stateAt key).holders.length ≠ 1 := fun hone =>
          hshared ⟨hone, List.isEmpty_iff.mpr hempty⟩
        obtain ⟨x, hx, hne⟩ : ∃ x ∈ (s.stateAt key).holders, x.txnId ≠ request.txnId := by
          by_contra hall
          push Not at hall
          have hnodup := hsound.holders
          rw [map_eq_replicate_iff.mpr hall, nodup_replicate] at hnodup
          have hpos := length_pos_of_mem hown
          omega
        exact ⟨x, hx, hne, by rw [hexclusive]; rfl⟩
  next hfind =>
    have hnone : ∀ x ∈ (s.stateAt key).holders, x.txnId ≠ request.txnId := fun x hx heq =>
      find?_eq_none.mp hfind x hx (decide_eq_true heq)
    split
    next hbusy =>
      refine settled_acquireQueued h hx hfree htracked (fun _ => hnone) ?_ env
      intro hempty
      rw [hempty, isEmpty_nil, Bool.not_true, Bool.false_or, any_eq_true] at hbusy
      obtain ⟨x, hx, hconflict⟩ := hbusy
      exact ⟨x, hx, hnone x hx, by simpa using hconflict⟩
    next hidle =>
      rw [Bool.or_eq_true, not_or, Bool.not_eq_true', Bool.not_eq_false, List.isEmpty_iff,
        any_eq_true] at hidle
      obtain ⟨hempty, hcompat⟩ := hidle
      push Not at hcompat
      obtain ⟨hnodup, hcompatible⟩ :=
        hsound.join ⟨request.txnId, request.mode⟩ hnone fun x hx => by simpa using hcompat x hx
      refine h.setHolders hx hempty hnodup hcompatible hfree htracked fun t => ?_
      simp [HeldBy, or_and_right, exists_or, or_comm, eq_comm]

theorem settled_acquire (h : s.Settled) (hfree : s.waiting request.txnId = none)
    (key : LockKey) (entry env : Env) : (s.acquire key request entry env).1.Settled := by
  unfold acquire
  split
  next => exact h
  next =>
    dsimp only
    obtain ⟨hquiet, hx⟩ := h.track key request.txnId _
    exact settled_acquireLive hquiet hx hfree (mem_track.mpr (.inr ⟨rfl, rfl⟩)) env

/-! ## Releases -/

theorem heldBy_filter {holders : List Holder} (h : HeldBy holders t) (ht : t ≠ txnId) :
    HeldBy (holders.filter fun x => decide (x.txnId ≠ txnId)) t := by
  obtain ⟨x, hx, rfl⟩ := h
  exact ⟨x, mem_filter.mpr ⟨hx, decide_eq_true ht⟩, rfl⟩

theorem settled_release (h : s.Settled) (txnId : Nat) (key : LockKey) (env : Env) :
    (s.release txnId key env).Settled := by
  unfold release
  dsimp only
  split
  next =>
    refine settled_afterError
      (h.sound.setHolders ((h.sound.keys key).sublist filter_sublist (Sublist.refl _))
        fun x hx => .inl (.inl ⟨x, (mem_filter.mp hx).1, rfl⟩))
      (h.attended.setState _ s.queuedWaiters s.log) (fun k t hk => ?_) env .cancelled
    by_cases heq : (k, t) = (key, txnId)
    · exact .inr (.inr heq)
    · refine (h.exact.mono k t hk).imp_left fun hheld => ?_
      rw [stateAt_setState]
      split
      next hk => exact heldBy_filter (hk ▸ hheld) fun ht => heq (by rw [hk, ht])
      next => exact hheld
  next => exact h

theorem Sound.drop (h : s.Sound) (txnId : Nat) (key : LockKey) :
    (dropTransaction txnId s key).Sound := by
  unfold dropTransaction
  split
  next =>
    have hkey := h.keys key
    have hle := length_queue_le_waiters s key
    have hcount := h.counted
    have hids : ((s.stateAt key).queue.filter fun w => decide (w.txnId ≠ txnId)).map Waiter.txnId =
        ((s.stateAt key).queue.map Waiter.txnId).erase txnId := by
      rw [hkey.queue.erase_eq_filter, filter_map]
      refine congrArg _ (filter_congr fun w _ => ?_)
      by_cases heq : w.txnId = txnId <;> simp [heq]
    have hlen := congrArg List.length hids
    rw [length_map, length_erase, length_map] at hlen
    refine h.setState id (hkey.sublist filter_sublist filter_sublist) ?_ ?_ ?_ ?_ ?_
    · have hshort := length_filter_le (fun w : Waiter => decide (w.txnId ≠ txnId))
        (s.stateAt key).queue
      dsimp only
      omega
    · intro e he
      obtain rfl := eq_of_mem_replicate he
      rfl
    · -- the transaction is queued at most once
      dsimp only
      rw [hids, hlen]
      by_cases hmem : txnId ∈ (s.stateAt key).queue.map Waiter.txnId
      · have hpos : 0 < (s.stateAt key).queue.length := by
          rw [← length_map (f := Waiter.txnId)]
          exact length_pos_of_mem hmem
        have hone : (s.stateAt key).queue.length - ((s.stateAt key).queue.length - 1) = 1 := by
          omega
        rw [if_pos hmem, hone, replicate_one,
          replay_cons (show (QueueEvent.removed key txnId).key = key from rfl), fifo, if_pos hmem]
        rfl
      · rw [if_neg hmem, Nat.sub_self, replicate_zero, erase_of_not_mem hmem]
        rfl
    · exact fun w hw => .inl ⟨w, (mem_filter.mp hw).1, rfl⟩
    · exact fun x hx => .inl (.inl ⟨x, (mem_filter.mp hx).1, rfl⟩)
  next => exact h

theorem Attended.drop (h : s.Attended dirty) (txnId : Nat) (key : LockKey) :
    (dropTransaction txnId s key).Attended (key :: dirty) := by
  unfold dropTransaction
  split
  next => exact h.setState _ _ _
  next => exact h.mono fun _ => mem_cons_of_mem _

theorem stateAt_drop (s : LockManager) (txnId : Nat) (key k : LockKey) :
    (dropTransaction txnId s key).stateAt k = if k = key then
      ⟨(s.stateAt key).holders.filter fun x => decide (x.txnId ≠ txnId),
        (s.stateAt key).queue.filter fun w => decide (w.txnId ≠ txnId)⟩ else s.stateAt k := by
  unfold dropTransaction
  split
  next => exact stateAt_setState s key _ k
  next habsent =>
    split
    next hk =>
      rw [hk, stateAt_of_notMem habsent]
      rfl
    next => rfl

theorem not_touches_drop (s : LockManager) (txnId : Nat) (key k : LockKey)
    (h : k = key ∨ ¬ Touches (s.stateAt k) txnId) :
    ¬ Touches ((dropTransaction txnId s key).stateAt k) txnId := by
  rw [stateAt_drop]
  split
  next =>
    rintro (⟨x, hx, hid⟩ | ⟨w, hw, hid⟩)
    · exact of_decide_eq_true (mem_filter.mp hx).2 hid
    · exact of_decide_eq_true (mem_filter.mp hw).2 hid
  next hk => exact h.resolve_left hk

theorem Exact.drop (h : s.Exact {p | p.2 = txnId}) (key : LockKey) :
    (dropTransaction txnId s key).Exact {p | p.2 = txnId} := by
  have hat := stateAt_drop s txnId key
  have hsame : ∃ locks n log, dropTransaction txnId s key =
      { s with locks := locks, queuedWaiters := n, log := log } := by
    unfold dropTransaction
    split <;> exact ⟨_, _, _, rfl⟩
  obtain ⟨locks, n, log, heq⟩ := hsame
  rw [heq] at hat ⊢
  intro k t hk
  by_cases ht : t = txnId
  · exact .inr (.inr ht)
  · refine (h k t hk).imp_left fun hheld => ?_
    rw [hat]
    split
    next hk => exact heldBy_filter (hk ▸ hheld) ht
    next => exact hheld

theorem dropAll_spec (txnId : Nat) (keys : List LockKey) : ∀ {s : LockManager}
    {dirty : List LockKey},
    s.Sound → s.Attended dirty →
      (keys.foldl (dropTransaction txnId) s).Sound ∧
      (keys.foldl (dropTransaction txnId) s).Attended (keys ++ dirty) ∧
      (∀ k, k ∈ keys ∨ ¬ Touches (s.stateAt k) txnId →
        ¬ Touches ((keys.foldl (dropTransaction txnId) s).stateAt k) txnId) ∧
      (s.Exact {p | p.2 = txnId} →
        (keys.foldl (dropTransaction txnId) s).Exact {p | p.2 = txnId}) := by
  induction keys with
  | nil => exact fun h ha => ⟨h, ha, fun k hk => hk.resolve_left not_mem_nil, id⟩
  | cons key keys ih =>
    intro s dirty h ha
    obtain ⟨h₁, ha₁, ht₁, hx₁⟩ := ih (h.drop txnId key) (ha.drop txnId key)
    refine ⟨h₁, ha₁.mono fun k hk => ?_, fun k hk => ht₁ k ?_, fun hx => hx₁ (hx.drop key)⟩
    · simp only [mem_append, mem_cons] at hk ⊢
      tauto
    · rcases hk with hk | hk
      · rcases mem_cons.mp hk with rfl | hk
        · exact Or.inr (not_touches_drop s txnId k k (Or.inl rfl))
        · exact Or.inl hk
      · exact Or.inr (not_touches_drop s txnId key k (Or.inr hk))

/-- What `releaseAll` takes out of the tables by transaction. -/
def forget (s : LockManager) (txnId : Nat) : LockManager :=
  { s with
    fates := Function.update s.fates txnId none
    priorities := Function.update s.priorities txnId none
    txnKeys := Function.update s.txnKeys txnId none }

theorem mem_forget : k ∈ (s.forget txnId).keysOf t ↔ t ≠ txnId ∧ k ∈ s.keysOf t := by
  by_cases ht : t = txnId <;> simp [forget, keysOf, ht]

theorem Exact.forget (h : s.Exact {p | p.2 = txnId}) : (s.forget txnId).Exact ∅ := by
  intro k t hk
  obtain ⟨hne, hk⟩ := mem_forget.mp hk
  exact (h k t hk).imp_right (.imp_right hne)

theorem Sound.forget (h : s.Sound) (hnone : ∀ k, ¬ Touches (s.stateAt k) txnId) :
    (s.forget txnId).Sound := by
  refine ⟨h.keys, h.counted, fun t ht => ?_, fun t ht => ?_, fun k t htouch => ?_, h.ordered⟩
  · refine h.fate t fun hnil => ht ?_
    by_cases heq : t = txnId
    · rw [heq]
      exact Function.update_self ..
    · rw [← hnil]
      exact Function.update_of_ne heq _ _
  · obtain ⟨b, hb, hqueued, hheld⟩ := h.recorded t ht
    refine ⟨b, hb, hqueued, fun hfate => ?_⟩
    by_cases heq : t = txnId
    · subst heq
      exact fun x hx hid => hnone b.key (Or.inl ⟨x, hx, hid⟩)
    · refine hheld ?_
      rw [← Function.update_of_ne heq none s.fates]
      exact hfate
  · refine mem_forget.mpr ⟨?_, h.tracked k t htouch⟩
    rintro rfl
    exact hnone k htouch

/-- Clearing keys does not look at what `releaseAll` forgets first. -/
theorem dropAll_forget (txnId : Nat) (keys : List LockKey) : ∀ s : LockManager,
    keys.foldl (dropTransaction txnId) (s.forget txnId) =
      (keys.foldl (dropTransaction txnId) s).forget txnId := by
  induction keys with
  | nil => exact fun s => rfl
  | cons key keys ih =>
    intro s
    have hdrop : dropTransaction txnId (s.forget txnId) key =
        (dropTransaction txnId s key).forget txnId := by
      unfold dropTransaction
      rw [apply_ite (LockManager.forget · txnId)]
      rfl
    rw [foldl_cons, foldl_cons, hdrop, ih]

theorem processAll_spec (env : Env) (keys : List LockKey) : ∀ {s : LockManager},
    s.Sound → s.Attended (keys ++ dirty) →
      (keys.foldl (fun s key => s.processKey env key) s).Sound ∧
      (keys.foldl (fun s key => s.processKey env key) s).Attended dirty ∧
      Thins s (keys.foldl (fun s key => s.processKey env key) s) := by
  induction keys with
  | nil => exact fun h ha => ⟨h, ha, .refl _⟩
  | cons key keys ih =>
    intro s h ha
    obtain ⟨h₁, ha₁, ht₁⟩ := processKey_spec h ha env
    obtain ⟨h₂, ha₂, ht₂⟩ := ih h₁ ha₁
    exact ⟨h₂, ha₂, ht₁.trans ht₂⟩

theorem pruneAll_spec (keys : List LockKey) : ∀ {s : LockManager}, s.Settled →
    (keys.foldl pruneIfIdle s).Settled ∧ Thins s (keys.foldl pruneIfIdle s) := by
  induction keys with
  | nil => exact fun h => ⟨h, .refl _⟩
  | cons key keys ih =>
    intro s h
    obtain ⟨h₁, ht₁⟩ := ih (h.prune key)
    exact ⟨h₁, (thins_prune s key).trans ht₁⟩

/-- The tables by transaction have nothing of the transaction. -/
def Forgotten (s : LockManager) (t : Nat) : Prop :=
  (∀ k, k ∉ s.keysOf t) ∧ s.fates t = none ∧ s.priorities t = none

theorem forgotten_forget (s : LockManager) (t : Nat) : (s.forget t).Forgotten t := by
  simp [Forgotten, forget, keysOf]

theorem Forgotten.thin (h : s.Forgotten t) (hthin : Thins s s') : s'.Forgotten t := by
  obtain ⟨hkeys, hfate, hpriority⟩ := h
  refine ⟨fun k hk => hkeys k (hthin.tracked hk), ?_, ?_⟩
  · by_contra hnew
    rcases hthin.fates hnew with hold | ⟨k, hk⟩
    · exact hold hfate
    · exact hkeys k hk
  · rw [hthin.priorities]
    exact hpriority

theorem settled_releaseAll (h : s.Settled) (txnId : Nat) {keys : List LockKey}
    (hkeys : keys.Perm ((s.txnKeys txnId).getD [])) (env : Env) :
    (s.releaseAll txnId keys env).Settled ∧ (s.releaseAll txnId keys env).Forgotten txnId := by
  have hcover : ∀ k, k ∈ keys ∨ ¬ Touches (s.stateAt k) txnId := by
    intro k
    by_cases htouch : Touches (s.stateAt k) txnId
    · exact Or.inl (hkeys.mem_iff.mpr (h.sound.tracked k txnId htouch))
    · exact Or.inr htouch
  unfold releaseAll
  dsimp only
  split
  next hnone =>
    have hnil : (s.txnKeys txnId).getD [] = [] := by
      rw [isNone_iff_eq_none.mp hnone]
      rfl
    rw [hnil] at hkeys
    refine ⟨⟨⟨h.sound.forget fun k => (hcover k).resolve_left ?_, h.attended, h.acyclic⟩,
      h.exact.mono.forget⟩, forgotten_forget s txnId⟩
    rw [hkeys.eq_nil]
    exact not_mem_nil
  next =>
    obtain ⟨h₁, ha₁, htouch, hx₁⟩ := dropAll_spec txnId keys h.sound h.attended
    have hsame := dropAll_forget txnId keys s
    unfold forget at hsame
    rw [hsame]
    obtain ⟨h₃, ha₃, ht₃⟩ := processAll_spec env keys (h₁.forget fun k => htouch k (hcover k)) ha₁
    obtain ⟨h₄, ha₄, ht₄, hacyclic⟩ := detectDeadlocks_spec h₃ ha₃
    obtain ⟨h₅, ht₅⟩ := pruneAll_spec keys
      ⟨⟨h₄, ha₄, hacyclic⟩, ((hx₁ h.exact.mono).forget.thin ht₃).thin ht₄⟩
    exact ⟨h₅, (forgotten_forget _ txnId).thin (ht₃.trans (ht₄.trans ht₅))⟩

/-! ## Runs -/

theorem settled_new : LockManager.new.Settled := by
  have hat : ∀ k, LockManager.new.stateAt k = {} :=
    fun k => stateAt_of_notMem (AList.notMem_empty k)
  refine ⟨⟨⟨fun k => ?_, rfl, fun _ ht => absurd rfl ht, fun _ ht => absurd ht not_mem_nil,
    fun k t htouch => ?_, fun k => ?_⟩, fun k _ w rest hqueue => ?_, fun t hcycle => ?_⟩,
    fun k t hk => absurd hk not_mem_nil⟩
  · rw [hat]
    exact .empty _ k
  · rw [hat] at htouch
    rcases htouch with ⟨_, hx, -⟩ | ⟨_, hw, -⟩
    · exact absurd hx not_mem_nil
    · exact absurd hw not_mem_nil
  · rw [hat]
    rfl
  · rw [hat] at hqueue
    exact absurd hqueue (by simp)
  · exact acyclic_of_waiters rfl t hcycle

theorem settled_step {l : Label} (h : s.Settled) (hstep : s.step l = some s') : s'.Settled := by
  cases l with
  | acquire key request entry env =>
    rw [step] at hstep
    split at hstep
    next => exact absurd hstep (by simp)
    next hfree =>
      obtain rfl := some.inj hstep
      exact settled_acquire h (by simpa using hfree) key entry env
  | wake txnId env =>
    obtain ⟨b, hb, rfl⟩ := map_eq_some_iff.mp hstep
    exact settled_wake h hb env
  | release txnId key env =>
    obtain rfl := some.inj hstep
    exact settled_release h txnId key env
  | releaseAll txnId keys env =>
    rw [step] at hstep
    split at hstep
    next hkeys =>
      obtain rfl := some.inj hstep
      exact (settled_releaseAll h txnId hkeys env).1
    next => exact absurd hstep (by simp)

theorem settled_of_reachable (h : Reachable step anyStep LockManager.new s) : s.Settled :=
  h.invariant settled_new fun _ _ _ hs _ hstep => settled_step hs hstep

/-- Holders of a key from different transactions are compatible, and the wait-for relation has no
cycle. -/
theorem compatible_and_acyclic (s : LockManager) (h : Reachable step anyStep LockManager.new s) :
    (∀ key, ∀ a ∈ (s.stateAt key).holders, ∀ b ∈ (s.stateAt key).holders, a.txnId ≠ b.txnId →
      a.mode.compatible b.mode = true) ∧
    ∀ t, ¬ Relation.TransGen s.WaitsFor t t :=
  ⟨fun key => ((settled_of_reachable h).sound.keys key).compatible,
    (settled_of_reachable h).acyclic⟩

/-- Transactions 1 and 2 hold a row each and ask for the other's; the detector turns 2 away. -/
def crossedRequests : List Label :=
  let env : Env := ⟨0, fun _ => .none⟩
  let request (t : Nat) : LockRequest := ⟨t, .exclusive, none, ⟨t, none⟩, none⟩
  [.acquire (.row 1 1) (request 1) env env, .acquire (.row 1 2) (request 2) env env,
    .acquire (.row 1 2) (request 1) env env, .acquire (.row 1 1) (request 2) env env]

theorem crossed_requests_acyclic :
    ∃ s, Reachable step anyStep LockManager.new s ∧ s.queuedWaiters = 1 ∧
      ((∀ key, ∀ a ∈ (s.stateAt key).holders, ∀ b ∈ (s.stateAt key).holders, a.txnId ≠ b.txnId →
        a.mode.compatible b.mode = true) ∧
      ∀ t, ¬ Relation.TransGen s.WaitsFor t t) := by
  obtain ⟨s, hs, hqueued⟩ := exists_reachable_of_execute step anyStep LockManager.new
    (fun s => s.queuedWaiters = 1) crossedRequests (by decide)
  exact ⟨s, hs, hqueued, compatible_and_acyclic s hs⟩

/-! ## The books -/

/-- The counter is the number of queued requests; a transaction that is not in a call has on record
the keys that it holds or waits for; and a `releaseAll` leaves nothing of the transaction. -/
theorem books_are_exact (s : LockManager) (h : Reachable step anyStep LockManager.new s) :
    s.queuedWaiters = s.waiters ∧
    (∀ t, s.waiting t = none → ∀ k, k ∈ s.keysOf t ↔ Touches (s.stateAt k) t) ∧
    ∀ t keys env s', s.step (.releaseAll t keys env) = some s' →
      (∀ k, ¬ Touches (s'.stateAt k) t) ∧ s'.Forgotten t := by
  have hs := settled_of_reachable h
  refine ⟨hs.sound.counted, fun t ht k => ⟨fun hk => ?_, hs.sound.tracked k t⟩,
    fun t keys env s' hstep => ?_⟩
  · rcases hs.exact k t hk with hheld | ⟨b, hb, -⟩ | hlate
    · exact .inl hheld
    · cases ht.symm.trans hb
    · exact hlate.elim
  · rw [step] at hstep
    split at hstep
    next hkeys =>
      obtain rfl := some.inj hstep
      obtain ⟨hs', hforgotten⟩ := settled_releaseAll hs t hkeys env
      exact ⟨fun k htouch => hforgotten.1 k (hs'.sound.tracked k t htouch), hforgotten⟩
    next => exact absurd hstep (by simp)

theorem crossed_requests_books :
    ∃ s, Reachable step anyStep LockManager.new s ∧ s.waiting 2 = none ∧
      s.keysOf 2 = [.row 1 2] ∧
      (s.queuedWaiters = s.waiters ∧
      (∀ t, s.waiting t = none → ∀ k, k ∈ s.keysOf t ↔ Touches (s.stateAt k) t) ∧
      ∀ t keys env s', s.step (.releaseAll t keys env) = some s' →
        (∀ k, ¬ Touches (s'.stateAt k) t) ∧ s'.Forgotten t) := by
  obtain ⟨s, hs, hbooks⟩ := exists_reachable_of_execute step anyStep LockManager.new
    (fun s => (s.waiting 2).isNone ∧ s.keysOf 2 = [.row 1 2]) crossedRequests (by decide)
  exact ⟨s, hs, isNone_iff_eq_none.mp hbooks.1, hbooks.2, books_are_exact s hs⟩

/-! ## Nobody waits for nothing -/

theorem split_of_getElem? {queue : List Waiter} {i : Nat} {w : Waiter} (h : queue[i]? = some w) :
    queue = queue.take i ++ w :: queue.drop (i + 1) := by
  obtain ⟨hi, hw⟩ := List.getElem?_eq_some_iff.mp h
  rw [← hw, ← drop_eq_getElem_cons hi, take_append_drop]

theorem exists_blocker {holders : List Holder} {w : Waiter} (h : grantable holders w = false) :
    ∃ x ∈ holders, x.txnId ≠ w.txnId ∧ w.mode.compatible x.mode = false := by
  obtain ⟨x, hx, hblock⟩ := all_eq_false.mp h
  rw [Bool.or_eq_true, not_or] at hblock
  exact ⟨x, hx, fun heq => hblock.1 (decide_eq_true heq), Bool.eq_false_iff.mpr hblock.2⟩

theorem exists_waitsFor (h : s.Sound)
    (hfront : ∀ key w rest, (s.stateAt key).queue = w :: rest →
      grantable (s.stateAt key).holders w = false)
    (ht : s.Queued t) : ∃ u, s.WaitsFor t u := by
  obtain ⟨key, w, hw, rfl⟩ := ht
  obtain ⟨i, hget⟩ := mem_iff_getElem?.mp hw
  have hsplit := split_of_getElem? hget
  have hnodup := (h.keys key).queue
  rw [hsplit, map_append, map_cons, nodup_append] at hnodup
  by_cases hahead : ∃ v ∈ (s.stateAt key).queue.take i, w.mode.compatible v.mode = false
  · obtain ⟨v, hv, hconflict⟩ := hahead
    refine ⟨v.txnId, key, i, w, hget, rfl, ?_, Or.inr ⟨v, hv, rfl, hconflict⟩⟩
    exact hnodup.2.2 _ (mem_map_of_mem hv) _ mem_cons_self
  · -- nobody ahead is in the way: what blocks the front blocks this waiter too
    push Not at hahead
    cases htake : (s.stateAt key).queue.take i with
    | nil =>
      rw [htake, nil_append] at hsplit
      obtain ⟨x, hx, hne, hconflict⟩ := exists_blocker (hfront key w _ hsplit)
      exact ⟨x.txnId, key, i, w, hget, rfl, hne, Or.inl ⟨x, hx, rfl, hconflict⟩⟩
    | cons front ahead =>
      rw [htake, cons_append] at hsplit
      obtain ⟨x, hx, -, hconflict⟩ := exists_blocker (hfront key front _ hsplit)
      have hmodes := hahead front (htake ▸ mem_cons_self)
      have hshared : w.mode = .shared ∧ front.mode = .shared := by
        cases hwm : w.mode <;> cases hfm : front.mode <;>
          simp [hwm, hfm, LockMode.compatible] at hmodes ⊢
      refine ⟨x.txnId, key, i, w, hget, rfl, (h.keys key).unheld w hw hshared.1 x hx,
        Or.inl ⟨x, hx, rfl, ?_⟩⟩
      rw [hshared.1, ← hshared.2]
      exact hconflict

theorem WaitsFor.target {a b : Nat} (h : s.WaitsFor a b) : s.Queued b ∨ s.Holds b := by
  obtain ⟨key, i, w, -, -, -, ⟨x, hx, hid, -⟩ | ⟨v, hv, hid, -⟩⟩ := h
  · exact Or.inr ⟨key, x, hx, hid⟩
  · exact Or.inl ⟨key, v, mem_of_mem_take hv, hid⟩

/-- Chains of waits are finite, as they have no cycle and pass only through queued transactions. -/
theorem wellFounded_waitsFor (h : ∀ t, ¬ Relation.TransGen s.WaitsFor t t) :
    WellFounded fun x y : { t // t ∈ s.waitForNodes } => Relation.TransGen s.WaitsFor y.1 x.1 := by
  have hfinite : Finite { t // t ∈ s.waitForNodes } := finite_toSet s.waitForNodes
  have htrans : IsTrans { t // t ∈ s.waitForNodes } fun x y =>
      Relation.TransGen s.WaitsFor y.1 x.1 := ⟨fun _ _ _ hxy hyz => hyz.trans hxy⟩
  have hirrefl : Std.Irrefl fun x y : { t // t ∈ s.waitForNodes } =>
      Relation.TransGen s.WaitsFor y.1 x.1 := ⟨fun x => h x.1⟩
  exact Finite.wellFounded_of_trans_of_irrefl _

theorem exists_unqueued_holder (h : s.Quiet)
    (hfront : ∀ key w rest, (s.stateAt key).queue = w :: rest →
      grantable (s.stateAt key).holders w = false)
    (ht : s.Queued t) :
    ∃ u, Relation.ReflTransGen s.WaitsFor t u ∧ s.Holds u ∧ ¬ s.Queued u := by
  suffices hall : ∀ x : { t // t ∈ s.waitForNodes },
      ∃ u, Relation.ReflTransGen s.WaitsFor x.1 u ∧ s.Holds u ∧ ¬ s.Queued u from
    hall ⟨t, mem_waitForNodes.mpr ht⟩
  intro x
  induction x using (wellFounded_waitsFor h.acyclic).induction with
  | _ x ih =>
    obtain ⟨v, hv⟩ := exists_waitsFor h.sound hfront (mem_waitForNodes.mp x.2)
    by_cases hqueued : s.Queued v
    · obtain ⟨u, hu, hrest⟩ := ih ⟨v, mem_waitForNodes.mpr hqueued⟩ (.single hv)
      exact ⟨u, hu.head hv, hrest⟩
    · exact ⟨v, .single hv, hv.target.resolve_left hqueued, hqueued⟩

/-- Once every recorded fate has been picked up: the first waiter of a key cannot be granted, from
every point of every chain of waits one gets to a transaction that holds a lock and does not wait,
and what happened at a key is what happens at a queue that grants only its front. -/
theorem waiters_are_blocked (s : LockManager) (h : Reachable step anyStep LockManager.new s)
    (hfates : s.recorded = []) :
    (∀ key w rest, (s.stateAt key).queue = w :: rest →
      grantable (s.stateAt key).holders w = false) ∧
    (∀ t u, s.Queued t → Relation.ReflTransGen s.WaitsFor t u →
      ∃ v, Relation.ReflTransGen s.WaitsFor u v ∧ s.Holds v ∧ ¬ s.Queued v) ∧
    ∀ key, replay key s.log [] = some ((s.stateAt key).queue.map Waiter.txnId) := by
  have hq := (settled_of_reachable h).toQuiet
  have hfront : ∀ key w rest, (s.stateAt key).queue = w :: rest →
      grantable (s.stateAt key).holders w = false := by
    intro key w rest hqueue
    by_contra hgrant
    obtain ⟨t, ht, -⟩ := hq.attended key not_mem_nil w rest hqueue (by simpa using hgrant)
    rw [hfates] at ht
    exact absurd ht not_mem_nil
  refine ⟨hfront, fun t u ht hchain => ?_, hq.sound.ordered⟩
  by_cases hu : s.Queued u
  · exact exists_unqueued_holder hq hfront hu
  · -- the chain has ended, at somebody who is waited for
    refine ⟨u, .refl, ?_, hu⟩
    rcases Relation.ReflTransGen.cases_tail hchain with heq | ⟨v, -, hedge⟩
    · exact absurd (heq ▸ ht) hu
    · exact hedge.target.resolve_left hu

/-- Transaction 1 is left in the queue of the row that 2 holds. -/
theorem crossed_requests_blocked :
    ∃ s, Reachable step anyStep LockManager.new s ∧ s.queuedWaiters = 1 ∧ s.recorded = [] ∧
      ((∀ key w rest, (s.stateAt key).queue = w :: rest →
        grantable (s.stateAt key).holders w = false) ∧
      (∀ t u, s.Queued t → Relation.ReflTransGen s.WaitsFor t u →
        ∃ v, Relation.ReflTransGen s.WaitsFor u v ∧ s.Holds v ∧ ¬ s.Queued v) ∧
      ∀ key, replay key s.log [] = some ((s.stateAt key).queue.map Waiter.txnId)) := by
  obtain ⟨s, hs, hqueued, hfates⟩ := exists_reachable_of_execute step anyStep LockManager.new
    (fun s => s.queuedWaiters = 1 ∧ s.recorded = []) crossedRequests (by decide)
  exact ⟨s, hs, hqueued, hfates, waiters_are_blocked s hs hfates⟩

end LockManager

end MongrelDB.Locks
