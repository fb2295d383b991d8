import Mathlib.Data.Finset.Card
import Mathlib.Order.Bounds.Basic
import MongrelDB.Lib.Transition

/-!
# EpochAuthority: the in-order reader watermark

`epoch.rs` keeps two counters, `assigned` (the commit-order ticket) and `visible` (the
reader watermark), and two sets of resolved epochs that wait for an earlier one.

Epochs are `Nat`: the source's counters are `u64` and a wrap needs 2^64
commits.
-/

namespace MongrelDB.Epoch

open Lib (Reachable anyStep execute guarded exists_reachable_of_execute)
open List Option

/-! ## The authority -/

structure EpochAuthority where
  assigned : Nat
  visible : Nat
  /-- Highest epoch backed by a published durable commit. -/
  committed : Nat
  pending : Finset Nat
  abandoned : Finset Nat

/-- The net effect of the compare-exchange loop. -/
def raiseTo (cell target : Nat) : Nat :=
  if target > cell then target else cell

theorem le_raiseTo (cell target : Nat) : cell ≤ raiseTo cell target := by
  unfold raiseTo; split <;> omega

theorem target_le_raiseTo (cell target : Nat) : target ≤ raiseTo cell target := by
  unfold raiseTo; split <;> omega

theorem raiseTo_eq_or (cell target : Nat) :
    raiseTo cell target = cell ∨ raiseTo cell target = target := by
  unfold raiseTo; split <;> simp

namespace EpochAuthority

def new (start : Nat) : EpochAuthority where
  assigned := start
  visible := start
  committed := start
  pending := ∅
  abandoned := ∅

def bumpAssigned (a : EpochAuthority) : EpochAuthority :=
  { a with assigned := a.assigned + 1 }

def publishVisible (a : EpochAuthority) (e : Nat) : EpochAuthority :=
  { a with visible := raiseTo a.visible e }

/-- The drain loop: `pending.remove(&next) || abandoned.remove(&next)` for
`next = vis + 1` until neither set holds it. Each turn removes an element, so
the number of elements is enough fuel (`drainLoop_spec`). -/
def drainLoop : Nat → Finset Nat → Finset Nat → Nat → Finset Nat × Finset Nat × Nat
  | 0, pending, abandoned, vis => (pending, abandoned, vis)
  | fuel + 1, pending, abandoned, vis =>
    if vis + 1 ∈ pending then
      drainLoop fuel (pending.erase (vis + 1)) abandoned (vis + 1)
    else if vis + 1 ∈ abandoned then
      drainLoop fuel pending (abandoned.erase (vis + 1)) (vis + 1)
    else
      (pending, abandoned, vis)

/-- The drain of both sets from the current `visible`; the second component is
the local `vis` that the call stores once it has released the lock. -/
def drain (a : EpochAuthority) : EpochAuthority × Nat :=
  let r := drainLoop (a.pending.card + a.abandoned.card) a.pending a.abandoned a.visible
  ({ a with pending := r.1, abandoned := r.2.1 }, r.2.2)

/-- `publish_in_order` up to the release of the lock. -/
def publishInOrder (a : EpochAuthority) (e : Nat) : EpochAuthority × Nat :=
  drain { a with committed := raiseTo a.committed e, pending := insert e a.pending }

/-- `abandon` up to the release of the lock. -/
def abandon (a : EpochAuthority) (e : Nat) : EpochAuthority × Nat :=
  drain { a with pending := a.pending.erase e, abandoned := insert e a.abandoned }

/-- The epochs that are resolved and not yet drained. -/
def waiting (a : EpochAuthority) : Finset Nat := a.pending ∪ a.abandoned

/-! ## What one drain does -/

/-- The drain of the waiting epochs `w` from `vis` reached `vis'`: it removed exactly the
waiting epochs of the interval, all of them waited, and the next one does not. -/
structure Drained (w : Finset Nat) (vis : Nat) (p' a' : Finset Nat) (vis' : Nat) : Prop where
  disj : Disjoint p' a'
  le : vis ≤ vis'
  covered : ∀ e, vis < e → e ≤ vis' → e ∈ w
  stop : vis' + 1 ∉ w
  rest : ∀ e, e ∈ p' ∪ a' ↔ e ∈ w ∧ ¬(vis < e ∧ e ≤ vis')

theorem Drained.refl {p a : Finset Nat} {vis : Nat} (hd : Disjoint p a)
    (hs : vis + 1 ∉ p ∪ a) : Drained (p ∪ a) vis p a vis :=
  ⟨hd, le_rfl, fun _ _ _ => by omega, hs, fun _ => by rw [and_iff_left]; omega⟩

theorem Drained.cons {w w' p' a' : Finset Nat} {vis vis' : Nat}
    (hmem : vis + 1 ∈ w) (hrest : w' = w.erase (vis + 1))
    (h : Drained w' (vis + 1) p' a' vis') : Drained w vis p' a' vis' := by
  subst hrest
  have hle := h.le
  refine ⟨h.disj, by omega, ?_, ?_, ?_⟩
  · intro e hlt hle'
    by_cases he : e = vis + 1
    · exact he ▸ hmem
    · exact Finset.mem_of_mem_erase (h.covered e (by omega) hle')
  · intro hin
    exact h.stop (Finset.mem_erase.mpr ⟨by omega, hin⟩)
  · intro e
    rw [h.rest, Finset.mem_erase]
    constructor
    · rintro ⟨⟨hne, hin⟩, hout⟩
      exact ⟨hin, by omega⟩
    · rintro ⟨hin, hout⟩
      exact ⟨⟨by omega, hin⟩, by omega⟩

theorem drainLoop_spec :
    ∀ (fuel : Nat) {p a : Finset Nat} (vis : Nat), Disjoint p a → p.card + a.card ≤ fuel →
      Drained (p ∪ a) vis (drainLoop fuel p a vis).1 (drainLoop fuel p a vis).2.1
        (drainLoop fuel p a vis).2.2
  | 0, p, a, vis, hd, hf => by
    obtain rfl : p = ∅ := Finset.card_eq_zero.mp (by omega)
    obtain rfl : a = ∅ := Finset.card_eq_zero.mp (by omega)
    exact .refl hd (by simp)
  | fuel + 1, p, a, vis, hd, hf => by
    unfold drainLoop
    split
    next hp =>
      have ha : vis + 1 ∉ a := Finset.disjoint_left.mp hd hp
      have hcard := Finset.card_erase_add_one hp
      refine .cons (Finset.mem_union_left _ hp) ?_
        (drainLoop_spec fuel _ (hd.mono_left (Finset.erase_subset _ _)) (by omega))
      rw [Finset.erase_union_distrib, Finset.erase_eq_of_notMem ha]
    next hp =>
      split
      next ha =>
        have hcard := Finset.card_erase_add_one ha
        refine .cons (Finset.mem_union_right _ ha) ?_
          (drainLoop_spec fuel _ (hd.mono_right (Finset.erase_subset _ _)) (by omega))
        rw [Finset.erase_union_distrib, Finset.erase_eq_of_notMem hp]
      next ha => exact .refl hd (by simp [hp, ha])

/-- What a resolving call does under the lock, whichever set it puts `e` in. -/
structure Resolves (a : EpochAuthority) (e : Nat) (r : EpochAuthority × Nat) : Prop where
  assigned : r.1.assigned = a.assigned
  visible : r.1.visible = a.visible
  drained : Drained (insert e a.waiting) a.visible r.1.pending r.1.abandoned r.2

variable {a : EpochAuthority} {e : Nat} (hd : Disjoint a.pending a.abandoned) (he : e ∉ a.waiting)
include hd he

theorem publishInOrder_resolves :
    Resolves a e (a.publishInOrder e) := by
  have hea : e ∉ a.abandoned := fun h => he (Finset.mem_union_right _ h)
  refine ⟨rfl, rfl, ?_⟩
  have h := drainLoop_spec _ a.visible
    (Finset.disjoint_insert_left.mpr ⟨hea, hd⟩) le_rfl
  rwa [Finset.insert_union] at h

theorem abandon_resolves :
    Resolves a e (a.abandon e) := by
  have hep : e ∉ a.pending := fun h => he (Finset.mem_union_left _ h)
  have hw : a.pending.erase e ∪ insert e a.abandoned = insert e a.waiting := by
    rw [Finset.erase_eq_of_notMem hep, Finset.union_insert, waiting]
  refine ⟨rfl, rfl, ?_⟩
  have h := drainLoop_spec _ a.visible
    (Finset.disjoint_insert_right.mpr ⟨Finset.notMem_erase e _,
      hd.mono_left (Finset.erase_subset _ _)⟩) le_rfl
  rwa [hw] at h

end EpochAuthority

/-! ## Interleaved calls -/

/-- The shared authority, the assigned epochs that no call has resolved yet, and the values
drained by the calls that have released the lock and not yet stored. -/
structure System where
  auth : EpochAuthority
  unresolved : Finset Nat
  inFlight : List Nat

inductive Label where
  | bumpAssigned
  /-- `publish_in_order(e)` under the lock -/
  | publishInOrder (e : Nat)
  /-- `abandon(e)` under the lock -/
  | abandon (e : Nat)
  /-- the `publish_visible(v)` at the end of either call -/
  | publishVisible (v : Nat)

namespace System

variable {s : System} {r : EpochAuthority × Nat} {l : Label}

def init (start : Nat) : System where
  auth := .new start
  unresolved := ∅
  inFlight := []

/-- The resolving call `call` on `e`, up to the release of the lock. An epoch is resolved
once: by publishing or by abandoning it. -/
def resolve (call : EpochAuthority → Nat → EpochAuthority × Nat) (s : System) (e : Nat) :
    Option System :=
  if e ∈ s.unresolved then
    let r := call s.auth e
    some { auth := r.1, unresolved := s.unresolved.erase e, inFlight := r.2 :: s.inFlight }
  else none

def step (s : System) : Label → Option System
  | .bumpAssigned =>
    let a := s.auth.bumpAssigned
    some { s with auth := a, unresolved := insert a.assigned s.unresolved }
  | .publishInOrder e => s.resolve EpochAuthority.publishInOrder e
  | .abandon e => s.resolve EpochAuthority.abandon e
  | .publishVisible v =>
    if v ∈ s.inFlight then
      some { s with auth := s.auth.publishVisible v, inFlight := s.inFlight.erase v }
    else none

/-- The visible value and the drained values that are still to be stored. -/
def marks (s : System) : List Nat := s.auth.visible :: s.inFlight

/-- The invariant of every interleaving. -/
structure WInv (s : System) : Prop where
  disj : Disjoint s.auth.pending s.auth.abandoned
  unresolved_le : ∀ e ∈ s.unresolved, e ≤ s.auth.assigned
  waiting_le : ∀ e ∈ s.auth.waiting, e ≤ s.auth.assigned ∧ e ∉ s.unresolved
  mark_le : ∀ v ∈ s.marks, v ≤ s.auth.assigned
  mark_lt_unresolved : ∀ v ∈ s.marks, ∀ e ∈ s.unresolved, v < e
  mark_lt_waiting : ∀ v ∈ s.marks, ∀ e ∈ s.auth.waiting, v < e
  cover : ∀ e ≤ s.auth.assigned,
    (∃ v ∈ s.marks, e ≤ v) ∨ e ∈ s.auth.waiting ∨ e ∈ s.unresolved

/-- No epoch waits right above a mark. -/
def Ready (s : System) : Prop := ∀ v ∈ s.marks, v + 1 ∉ s.auth.waiting

theorem init_winv (start : Nat) : WInv (init start) := by
  constructor <;> simp [init, marks, EpochAuthority.new, EpochAuthority.waiting]

theorem init_ready (start : Nat) : Ready (init start) := by
  simp [Ready, init, marks, EpochAuthority.new, EpochAuthority.waiting]

/-- What a step can do: assign, resolve an unresolved epoch, or store a drained value. -/
theorem step_cases {s s' : System} (hi : WInv s) (h : s.step l = some s') :
    (l = .bumpAssigned ∧ s' = { s with
      auth := s.auth.bumpAssigned,
      unresolved := insert (s.auth.assigned + 1) s.unresolved }) ∨
    (∃ e r, (l = .publishInOrder e ∨ l = .abandon e) ∧ e ∈ s.unresolved ∧
      s.auth.Resolves e r ∧
      s' = { auth := r.1, unresolved := s.unresolved.erase e, inFlight := r.2 :: s.inFlight }) ∨
    (∃ v, l = .publishVisible v ∧ v ∈ s.inFlight ∧
      s' = { s with auth := s.auth.publishVisible v, inFlight := s.inFlight.erase v }) := by
  cases l with
  | bumpAssigned =>
    simp only [step, some.injEq] at h
    exact .inl ⟨rfl, h.symm⟩
  | publishInOrder e =>
    simp only [step, resolve, ite_none_right_eq_some, some.injEq] at h
    exact .inr (.inl ⟨e, _, .inl rfl, h.1, EpochAuthority.publishInOrder_resolves hi.disj
      fun hw => (hi.waiting_le e hw).2 h.1, h.2.symm⟩)
  | abandon e =>
    simp only [step, resolve, ite_none_right_eq_some, some.injEq] at h
    exact .inr (.inl ⟨e, _, .inr rfl, h.1, EpochAuthority.abandon_resolves hi.disj
      fun hw => (hi.waiting_le e hw).2 h.1, h.2.symm⟩)
  | publishVisible v =>
    simp only [step, ite_none_right_eq_some, some.injEq] at h
    exact .inr (.inr ⟨v, rfl, h.1, h.2.symm⟩)

/-! ### Each step keeps the invariant -/

theorem WInv.bump (h : WInv s) :
    WInv { s with
      auth := s.auth.bumpAssigned,
      unresolved := insert (s.auth.assigned + 1) s.unresolved } where
  disj := h.disj
  unresolved_le := by
    intro e he
    show e ≤ s.auth.assigned + 1
    rcases Finset.mem_insert.mp he with rfl | he
    · exact le_rfl
    · exact Nat.le_succ_of_le (h.unresolved_le e he)
  waiting_le := by
    intro e he
    obtain ⟨hle, hne⟩ := h.waiting_le e he
    refine ⟨Nat.le_succ_of_le hle, fun hmem => ?_⟩
    rcases Finset.mem_insert.mp hmem with rfl | hmem
    · omega
    · exact hne hmem
  mark_le := fun v hv => Nat.le_succ_of_le (h.mark_le v hv)
  mark_lt_unresolved := by
    intro v hv e he
    rcases Finset.mem_insert.mp he with rfl | he
    · exact Nat.lt_succ_of_le (h.mark_le v hv)
    · exact h.mark_lt_unresolved v hv e he
  mark_lt_waiting := h.mark_lt_waiting
  cover := by
    intro e (he : e ≤ s.auth.assigned + 1)
    rcases Nat.lt_or_eq_of_le he with hlt | rfl
    · exact (h.cover e (by omega)).imp_right (.imp_right (Finset.mem_insert_of_mem ·))
    · exact .inr (.inr (Finset.mem_insert_self _ _))

/-- Everything up to the drained value is resolved: it is below the old `visible`, or it
waited, or it is the epoch being resolved. -/
theorem WInv.drained_lt_unresolved (h : WInv s) {e : Nat}
    (hr : s.auth.Resolves e r) {x : Nat} (hx : x ∈ s.unresolved.erase e) : r.2 < x := by
  obtain ⟨hne, hx⟩ := Finset.mem_erase.mp hx
  by_contra hle
  have hvis := h.mark_lt_unresolved _ mem_cons_self x hx
  rcases Finset.mem_insert.mp (hr.drained.covered x hvis (by omega)) with rfl | hw
  · exact hne rfl
  · exact (h.waiting_le x hw).2 hx

section

variable (h : WInv s) {e : Nat} (he : e ∈ s.unresolved) (hr : s.auth.Resolves e r)
include h he hr

theorem WInv.drained_le_assigned : r.2 ≤ s.auth.assigned := by
  rcases Nat.lt_or_eq_of_le hr.drained.le with hlt | heq
  · rcases Finset.mem_insert.mp (hr.drained.covered r.2 hlt le_rfl) with heq | hw
    · exact heq ▸ h.unresolved_le e he
    · exact (h.waiting_le _ hw).1
  · exact heq ▸ h.mark_le _ mem_cons_self

theorem WInv.resolve :
    WInv { auth := r.1, unresolved := s.unresolved.erase e, inFlight := r.2 :: s.inFlight } := by
  -- a mark of the new state is an old one or the value just drained
  have hmarks : ∀ v ∈ r.1.visible :: r.2 :: s.inFlight, v = r.2 ∨ v ∈ s.marks := by
    intro v hv
    rw [hr.visible] at hv
    simpa [marks, or_left_comm] using hv
  have hwait : ∀ x ∈ r.1.waiting, x = e ∨ x ∈ s.auth.waiting := fun x hx =>
    Finset.mem_insert.mp ((hr.drained.rest x).mp hx).1
  refine ⟨hr.drained.disj, ?_, ?_, ?_, ?_, ?_, ?_⟩
  · intro x hx
    exact hr.assigned ▸ h.unresolved_le x (Finset.mem_of_mem_erase hx)
  · intro x hx
    rw [hr.assigned]
    rcases hwait x hx with rfl | hw
    · exact ⟨h.unresolved_le x he, Finset.notMem_erase x _⟩
    · exact ⟨(h.waiting_le x hw).1, fun hu => (h.waiting_le x hw).2 (Finset.mem_of_mem_erase hu)⟩
  · intro v hv
    rw [hr.assigned]
    rcases hmarks v hv with rfl | hv
    · exact h.drained_le_assigned he hr
    · exact h.mark_le v hv
  · intro v hv x hx
    rcases hmarks v hv with rfl | hv
    · exact h.drained_lt_unresolved hr hx
    · exact h.mark_lt_unresolved v hv x (Finset.mem_of_mem_erase hx)
  · intro v hv x hx
    have hxlt : ∀ w ∈ s.marks, w < x := by
      intro w hw
      rcases hwait x hx with rfl | hxw
      · exact h.mark_lt_unresolved w hw x he
      · exact h.mark_lt_waiting w hw x hxw
    rcases hmarks v hv with rfl | hv
    · -- what still waits was not drained, so it is above the drained value
      have hout := ((hr.drained.rest x).mp hx).2
      have hvis := hxlt _ mem_cons_self
      omega
    · exact hxlt v hv
  · intro x hx
    rw [hr.assigned] at hx
    by_cases hlow : x ≤ r.2
    · exact .inl ⟨r.2, by simp [marks], hlow⟩
    · have hrest := (hr.drained.rest x).mpr
      rcases h.cover x hx with ⟨v, hv, hle⟩ | hw | hu
      · refine .inl ⟨v, ?_, hle⟩
        simp only [marks, hr.visible, mem_cons] at hv ⊢
        tauto
      · exact .inr (.inl (hrest ⟨Finset.mem_insert_of_mem hw, by omega⟩))
      · by_cases hxe : x = e
        · exact .inr (.inl (hrest ⟨hxe ▸ Finset.mem_insert_self _ _, by omega⟩))
        · exact .inr (.inr (Finset.mem_erase.mpr ⟨hxe, hu⟩))

end

/-- Storing a drained value makes no new mark and loses none that is not dominated. -/
theorem marks_publishVisible {v : Nat} (hv : v ∈ s.inFlight) :
    let s' : System :=
      { s with auth := s.auth.publishVisible v, inFlight := s.inFlight.erase v }
    (∀ w ∈ s'.marks, w ∈ s.marks) ∧ ∀ w ∈ s.marks, ∃ w' ∈ s'.marks, w ≤ w' := by
  constructor
  · intro w hw
    rcases mem_cons.mp hw with rfl | hw
    · show raiseTo s.auth.visible v ∈ s.marks
      rcases raiseTo_eq_or s.auth.visible v with heq | heq
      · rw [heq]
        exact mem_cons_self
      · rw [heq]
        exact mem_cons_of_mem _ hv
    · exact mem_cons_of_mem _ (mem_of_mem_erase hw)
  · intro w hw
    have hvis : raiseTo s.auth.visible v ∈
        marks { s with auth := s.auth.publishVisible v, inFlight := s.inFlight.erase v } :=
      mem_cons_self
    rcases mem_cons.mp hw with rfl | hw
    · exact ⟨_, hvis, le_raiseTo _ _⟩
    · by_cases hwv : w = v
      · exact ⟨_, hvis, hwv ▸ target_le_raiseTo _ _⟩
      · exact ⟨w, mem_cons_of_mem _ ((List.mem_erase_of_ne hwv).mpr hw), le_rfl⟩

theorem WInv.publishVisible (h : WInv s) {v : Nat} (hv : v ∈ s.inFlight) :
    WInv { s with auth := s.auth.publishVisible v, inFlight := s.inFlight.erase v } := by
  obtain ⟨hsub, hdom⟩ := marks_publishVisible hv
  refine ⟨h.disj, h.unresolved_le, h.waiting_le, fun w hw => h.mark_le w (hsub w hw),
    fun w hw => h.mark_lt_unresolved w (hsub w hw),
    fun w hw => h.mark_lt_waiting w (hsub w hw), ?_⟩
  intro e he
  refine (h.cover e he).imp_left ?_
  rintro ⟨w, hw, hle⟩
  obtain ⟨w', hw', hle'⟩ := hdom w hw
  exact ⟨w', hw', hle.trans hle'⟩

/-- Only a new ticket raises `assigned`; `visible` never goes back. -/
theorem step_spec {s s' : System} (h : WInv s) (hs : s.step l = some s') :
    WInv s' ∧ s.auth.visible ≤ s'.auth.visible ∧
      (l ≠ .bumpAssigned → s'.auth.assigned = s.auth.assigned) := by
  rcases step_cases h hs with ⟨rfl, rfl⟩ | ⟨e, r, -, he, hr, rfl⟩ | ⟨v, -, hv, rfl⟩
  · exact ⟨h.bump, le_rfl, fun hl => absurd rfl hl⟩
  · exact ⟨h.resolve he hr, hr.visible.ge, fun _ => hr.assigned⟩
  · exact ⟨h.publishVisible hv, le_raiseTo _ _, fun _ => rfl⟩

theorem visible_lt_of_abandon {s s' : System} {e : Nat} (h : WInv s)
    (hs : s.step (.abandon e) = some s') : s.auth.visible < e := by
  rcases step_cases h hs with ⟨hl, -⟩ | ⟨e', r, hl | hl, he, -⟩ | ⟨v, hl, -⟩ <;> cases hl
  exact h.mark_lt_unresolved _ mem_cons_self e he

/-! ### The drains that strand no epoch -/

/-- The schedule does not resolve an epoch while another call holds its predecessor as a
drained value that is not stored yet. -/
def PromptStores (s : System) : Label → Prop
  | .publishInOrder e | .abandon e => ∀ v ∈ s.inFlight, e = v + 1 → v ≤ s.auth.visible
  | .bumpAssigned | .publishVisible _ => True

instance (s : System) : (l : Label) → Decidable (PromptStores s l)
  | .publishInOrder e | .abandon e =>
    inferInstanceAs (Decidable (∀ v ∈ s.inFlight, e = v + 1 → v ≤ s.auth.visible))
  | .bumpAssigned | .publishVisible _ => isTrue trivial

theorem step_ready {s s' : System} (h : WInv s) (hr : Ready s)
    (hok : PromptStores s l) (hs : s.step l = some s') : Ready s' := by
  rcases step_cases h hs with ⟨-, rfl⟩ | ⟨e, r, hl, he, hres, rfl⟩ | ⟨v, -, hv, rfl⟩
  · exact hr
  · -- right above the old `visible`: the drain would have taken it
    have hvis : s.auth.visible + 1 ∉ r.1.waiting := by
      intro hw
      obtain ⟨hin, hout⟩ := (hres.drained.rest _).mp hw
      have hle := hres.drained.le
      exact hres.drained.stop (by rwa [show r.2 = s.auth.visible by omega])
    intro v hv hw
    rcases mem_cons.mp hv with rfl | hv
    · exact hvis (by rwa [hres.visible] at hw)
    rcases mem_cons.mp hv with rfl | hv
    · exact hres.drained.stop ((hres.drained.rest _).mp hw).1
    · rcases Finset.mem_insert.mp ((hres.drained.rest _).mp hw).1 with heq | hold
      · -- `e` is right above a value in flight; the schedule has it stored already
        have hle : v ≤ s.auth.visible := by
          rcases hl with rfl | rfl <;> exact hok v hv heq.symm
        have hlt := h.mark_lt_unresolved _ mem_cons_self e he
        exact hvis (by rwa [show s.auth.visible = v by omega])
      · exact hr v (mem_cons_of_mem _ hv) hold
  · exact fun w hw => hr w ((marks_publishVisible hv).1 w hw)

/-! ## The watermark contract -/

/-- `visible` is below the assigned counter and below every unresolved epoch, and no step
takes it back. -/
def WatermarkSafe (s : System) : Prop :=
  s.auth.visible ≤ s.auth.assigned ∧
  (∀ e ∈ s.unresolved, s.auth.visible < e) ∧
  ∀ l s', s.step l = some s' → s.auth.visible ≤ s'.auth.visible

/-- With no call in flight, `visible` is the largest assigned `v` with every epoch up to `v`
resolved. -/
def WatermarkExact (s : System) : Prop :=
  s.inFlight = [] →
    IsGreatest {v | v ≤ s.auth.assigned ∧ ∀ e ≤ v, e ∉ s.unresolved} s.auth.visible

theorem WInv.safe (h : WInv s) : WatermarkSafe s :=
  ⟨h.mark_le _ mem_cons_self, h.mark_lt_unresolved _ mem_cons_self,
    fun _ _ hs => (step_spec h hs).2.1⟩

theorem WInv.exact (h : WInv s) (hr : Ready s) : WatermarkExact s := by
  intro hrest
  have hmarks : s.marks = [s.auth.visible] := by rw [marks, hrest]
  refine ⟨⟨h.safe.1, fun e he hu => ?_⟩, ?_⟩
  · have := h.safe.2.1 e hu
    omega
  · rintro v ⟨hva, hv⟩
    by_contra hlt
    -- the epoch after `visible` is assigned, does not wait and is resolved: it is below a mark
    rcases h.cover (s.auth.visible + 1) (by omega) with ⟨w, hw, hle⟩ | hw | hu
    · rw [hmarks, mem_singleton] at hw
      omega
    · exact hr _ mem_cons_self hw
    · exact hv _ (by omega) hu

theorem reachable_winv {start : Nat} {ok : System → Label → Prop}
    (h : Reachable step ok (init start) s) : WInv s :=
  h.invariant (init_winv start) fun _ _ _ hi _ hs => (step_spec hi hs).1

/-- The watermark contract: its safety half in every interleaving, its exactness at rest in
every interleaving with prompt stores. -/
theorem watermark_exact_of_prompt_stores (start : Nat) (s : System) :
    (Reachable step anyStep (init start) s → WatermarkSafe s) ∧
    (Reachable step PromptStores (init start) s → WatermarkExact s) := by
  refine ⟨fun h => (reachable_winv h).safe, fun h => ?_⟩
  have hready : WInv s ∧ Ready s := by
    refine h.invariant (I := fun s => WInv s ∧ Ready s) ⟨init_winv start, init_ready start⟩ ?_
    intro s l s' hi hok hs
    exact ⟨(step_spec hi.1 hs).1, step_ready hi.1 hi.2 hok hs⟩
  exact hready.1.exact hready.2

/-- Epoch 2 is published before epoch 1; the second drain takes both. -/
theorem watermark_exact_out_of_order_publish :
    ∃ s, Reachable step PromptStores (init 0) s ∧ s.inFlight = [] ∧ s.auth.visible = 2 ∧
      WatermarkSafe s ∧ WatermarkExact s := by
  obtain ⟨s, hs, hrest, hvis⟩ := exists_reachable_of_execute step PromptStores (init 0)
    (fun s => s.inFlight = [] ∧ s.auth.visible = 2)
    [.bumpAssigned, .bumpAssigned, .publishInOrder 2, .publishInOrder 1, .publishVisible 0,
      .publishVisible 2] (by decide)
  exact ⟨s, hs, hrest, hvis, (watermark_exact_of_prompt_stores 0 s).1 hs.any,
    (watermark_exact_of_prompt_stores 0 s).2 hs⟩

/-- The call for epoch 1 has drained 1 and not stored it when the call for epoch 2 reads
`visible = 0`: epoch 2 stays in `pending`, and at rest `visible` is 1 although both epochs are
published. -/
theorem stale_drain_strands_epoch :
    ∃ s, Reachable step anyStep (init 0) s ∧ s.inFlight = [] ∧ s.unresolved = ∅ ∧
      s.auth.assigned = 2 ∧ s.auth.visible = 1 ∧ ¬WatermarkExact s := by
  obtain ⟨s, hs, hrest, hun, hassigned, hvis⟩ :=
    exists_reachable_of_execute step anyStep (init 0)
      (fun s => s.inFlight = [] ∧ s.unresolved = ∅ ∧ s.auth.assigned = 2 ∧
        s.auth.visible = 1)
      [.bumpAssigned, .bumpAssigned, .publishInOrder 1, .publishInOrder 2, .publishVisible 1,
        .publishVisible 0] (by decide)
  refine ⟨s, hs, hrest, hun, hassigned, hvis, fun hexact => ?_⟩
  have hle := (hexact hrest).2 (show 2 ∈ _ from ⟨hassigned.ge, by simp [hun]⟩)
  omega

end System

end MongrelDB.Epoch
