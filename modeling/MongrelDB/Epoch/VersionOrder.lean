import MongrelDB.Epoch.Snapshot
import MongrelDB.Lib.Winner

/-!
# Two tie rules over one version order

Every read path resolves the versions of a row by walking them in physical
order, and there are two rules for replacing the version held so far: of two tied
versions `firstWins` keeps the first, `lastWins` the last.
-/

namespace MongrelDB.Epoch

open Lib (winner challenge winner_concat winner_mem winner_split Consistent)
open List Option

variable {α : Type*} (stamp : α → Stamp)

/-- The rule of the loops that test `version_is_newer`. -/
def firstWins (l : List α) : Option α :=
  winner (fun a b => versionIsNewer (stamp a) (stamp b)) l

/-- The rule of the loops that test `version_supersedes`. -/
def lastWins (l : List α) : Option α :=
  winner (fun a b => versionSupersedes (stamp a) (stamp b)) l

/-- Neither version is newer. -/
def Tied (a b : Stamp) : Prop := versionIsNewer a b = false ∧ versionIsNewer b a = false
  deriving Decidable

def EpochSorted (l : List α) : Prop := l.Pairwise fun a b => (stamp a).epoch ≤ (stamp b).epoch

def AllStamped (l : List α) : Prop := ∀ a ∈ l, (stamp a).commitTs ≠ none

/-- The versions are all stamped or all unstamped. -/
def Unmixed (l : List α) : Prop := AllStamped stamp l ∨ ∀ a ∈ l, (stamp a).commitTs = none

/-- Whenever two versions tie, a version is newer than both, and unless all versions are stamped
it comes after them. -/
def TiesResolved (l : List α) : Prop :=
  ∀ l₁ a l₂ b l₃, l = l₁ ++ a :: l₂ ++ b :: l₃ → Tied (stamp a) (stamp b) →
    ∃ k ∈ l, (k ∈ l₃ ∨ AllStamped stamp l) ∧ versionIsNewer (stamp k) (stamp a) = true ∧
      versionIsNewer (stamp k) (stamp b) = true

variable {stamp}

theorem tiesResolved_of_pairwise {l : List α}
    (h : l.Pairwise fun a b => ¬ Tied (stamp a) (stamp b)) : TiesResolved stamp l := by
  intro l₁ a l₂ b l₃ hl ht
  subst hl
  exact absurd ht ((pairwise_append.mp h).2.2 a (by simp) b (by simp))

/-! ## Comparing by cases on the stamps -/

theorem versionIsNewer_some_some {e e' : Nat} {t t' : HlcTimestamp} :
    versionIsNewer ⟨e, some t⟩ ⟨e', some t'⟩ = decide (t' < t) := rfl

theorem versionIsNewer_none_left {e : Nat} {b : Stamp} :
    versionIsNewer ⟨e, none⟩ b = decide (b.epoch < e) := by
  rcases b with ⟨e', _ | t⟩ <;> rfl

theorem versionIsNewer_none_right {e : Nat} {a : Stamp} :
    versionIsNewer a ⟨e, none⟩ = decide (e < a.epoch) := by
  rcases a with ⟨e', _ | t⟩ <;> rfl

theorem Tied.symm {a b : Stamp} (h : Tied a b) : Tied b a := ⟨h.2, h.1⟩

theorem epoch_eq_of_tied_none {e : Nat} {b : Stamp} (h : Tied ⟨e, none⟩ b) : b.epoch = e := by
  obtain ⟨h₁, h₂⟩ := h
  rw [versionIsNewer_none_left, decide_eq_false_iff_not] at h₁
  rw [versionIsNewer_none_right, decide_eq_false_iff_not] at h₂
  omega

/-! ## Two walks drifting apart -/

/-- A tie among the versions of `l` that no later version of `l` resolves. -/
def Unresolved (stamp : α → Stamp) (l : List α) (a b : α) : Prop :=
  ∃ l₁ l₂ l₃, l = l₁ ++ a :: l₂ ++ b :: l₃ ∧ Tied (stamp a) (stamp b) ∧
    ∀ k ∈ l₃, ¬ (versionIsNewer (stamp k) (stamp a) = true ∧
      versionIsNewer (stamp k) (stamp b) = true)

variable {l : List α} {a b c n s : α}

theorem Unresolved.concat (h : Unresolved stamp l a b)
    (hc : ¬ (versionIsNewer (stamp c) (stamp a) = true ∧
      versionIsNewer (stamp c) (stamp b) = true)) :
    Unresolved stamp (l ++ [c]) a b := by
  obtain ⟨l₁, l₂, l₃, rfl, ht, hk⟩ := h
  refine ⟨l₁, l₂, l₃ ++ [c], by simp, ht, ?_⟩
  exact forall_mem_append.mpr ⟨hk, forall_mem_singleton.mpr hc⟩

theorem unresolved_last (ha : a ∈ l) (ht : Tied (stamp a) (stamp c)) :
    Unresolved stamp (l ++ [c]) a c := by
  obtain ⟨l₁, l₂, rfl⟩ := append_of_mem ha
  exact ⟨l₁, l₂, [], by simp, ht, by simp⟩

/-- How the two walks can hold different versions, `n` by the first rule and `s` by the second.
Either they tie, or one of them has moved on from an unresolved tie with an unstamped version. -/
inductive Drift (stamp : α → Stamp) (l : List α) (n s : α) : Prop where
  | tie : Unresolved stamp l n s → Drift stamp l n s
  | firstMoved {i : α} {e eₙ : Nat} {tₙ tₛ : HlcTimestamp} : Unresolved stamp l i s →
      stamp i = ⟨e, none⟩ → stamp s = ⟨e, some tₛ⟩ → stamp n = ⟨eₙ, some tₙ⟩ → tₙ < tₛ →
      Drift stamp l n s
  | lastMoved {j : α} {e eₛ : Nat} {tₙ tₛ : HlcTimestamp} : Unresolved stamp l n j →
      stamp j = ⟨e, none⟩ → stamp n = ⟨e, some tₙ⟩ → stamp s = ⟨eₛ, some tₛ⟩ → tₛ < tₙ →
      Drift stamp l n s

variable {x y : Stamp}

theorem stamped_of_earlier_newer (he : x.epoch ≤ y.epoch)
    (h : versionIsNewer x y = true) :
    ∃ ex ey tx ty, x = ⟨ex, some tx⟩ ∧ y = ⟨ey, some ty⟩ ∧ ty < tx := by
  rcases x with ⟨ex, _ | tx⟩
  · rw [versionIsNewer_none_left, decide_eq_true_eq] at h
    exact absurd h (not_lt.mpr he)
  · rcases y with ⟨ey, _ | ty⟩
    · rw [versionIsNewer_none_right, decide_eq_true_eq] at h
      exact absurd h (not_lt.mpr he)
    · rw [versionIsNewer_some_some, decide_eq_true_eq] at h
      exact ⟨ex, ey, tx, ty, rfl, rfl, h⟩

theorem EpochSorted.le_last (hs : EpochSorted stamp (l ++ [c])) (ha : a ∈ l) :
    (stamp a).epoch ≤ (stamp c).epoch :=
  (pairwise_append.mp hs).2.2 a ha c (by simp)

theorem Drift.kept (h : Drift stamp l n s) (hn : versionIsNewer (stamp c) (stamp n) ≠ true)
    (hc : versionIsNewer (stamp s) (stamp c) = true) : Drift stamp (l ++ [c]) n s := by
  cases h with
  | tie h => exact .tie (h.concat fun hk => hn hk.1)
  | firstMoved h hi hs' hn' hlt =>
    refine .firstMoved (h.concat fun hk => ?_) hi hs' hn' hlt
    rw [versionIsNewer_asymm hc] at hk
    exact Bool.false_ne_true hk.2
  | lastMoved h hj hn' hs' hlt => exact .lastMoved (h.concat fun hk => hn hk.1) hj hn' hs' hlt

/-- The first walk moves to `c` and the second keeps `s`, which is newer still. -/
theorem Drift.first_moves (hs : EpochSorted stamp (l ++ [c])) (hsm : s ∈ l)
    (h : n = s ∨ Drift stamp l n s) (hn : versionIsNewer (stamp c) (stamp n) = true)
    (hc : versionIsNewer (stamp s) (stamp c) = true) : Drift stamp (l ++ [c]) c s := by
  obtain ⟨es, ec, ts, tc, hst, hct, hlt⟩ := stamped_of_earlier_newer (hs.le_last hsm) hc
  have hnot : versionIsNewer (stamp c) (stamp s) ≠ true := by
    rw [versionIsNewer_asymm hc]
    exact Bool.false_ne_true
  rcases h with rfl | h
  · exact absurd hn hnot
  cases h with
  | tie h =>
    obtain ⟨-, -, -, -, htie, -⟩ := id h
    -- the tie cannot be one of timestamps, since `c` lies strictly between them
    rcases hnt : stamp n with ⟨en, _ | tn⟩
    · rw [hnt, hst] at htie
      obtain rfl := epoch_eq_of_tied_none htie
      exact .firstMoved (h.concat fun hk => hnot hk.2) hnt hst hct hlt
    · rw [hnt, hst] at htie
      rw [hnt, hct, versionIsNewer_some_some, decide_eq_true_eq] at hn
      have hge : ¬ tn < ts := of_decide_eq_false htie.2
      exact absurd (hn.trans hlt) hge
  | firstMoved h hi hs' _ _ =>
    rw [hst, Stamp.mk.injEq, some.injEq] at hs'
    obtain ⟨rfl, rfl⟩ := hs'
    exact .firstMoved (h.concat fun hk => hnot hk.2) hi hst hct hlt
  | lastMoved h hj hn' hs' hgt =>
    rw [hst, Stamp.mk.injEq, some.injEq] at hs'
    obtain ⟨rfl, rfl⟩ := hs'
    rw [hn', hct, versionIsNewer_some_some, decide_eq_true_eq] at hn
    exact absurd ((hn.trans hlt).trans hgt) (lt_irrefl _)

theorem Drift.last_moves (hs : EpochSorted stamp (l ++ [c])) (hnm : n ∈ l)
    (h : n = s ∨ Drift stamp l n s) (hn : versionIsNewer (stamp c) (stamp n) ≠ true)
    (hc : versionIsNewer (stamp s) (stamp c) ≠ true) : Drift stamp (l ++ [c]) n c := by
  by_cases hnc : versionIsNewer (stamp n) (stamp c) = true
  · obtain ⟨en, ec, tn, tc, hnt, hct, hlt⟩ := stamped_of_earlier_newer (hs.le_last hnm) hnc
    rcases h with rfl | h
    · exact absurd hnc hc
    cases h with
    | tie h =>
      obtain ⟨-, -, -, -, htie, -⟩ := id h
      rcases hst : stamp s with ⟨es, _ | ts⟩
      · rw [hnt, hst] at htie
        obtain rfl := epoch_eq_of_tied_none htie.symm
        exact .lastMoved (h.concat fun hk => hn hk.1) hst hnt hct hlt
      · rw [hnt, hst] at htie
        rw [hst, hct, versionIsNewer_some_some, ne_eq, decide_eq_true_eq, not_lt] at hc
        have hge : ¬ ts < tn := of_decide_eq_false htie.1
        exact absurd (hc.trans_lt hlt) hge
    | firstMoved h hi hs' hn' hgt =>
      rw [hnt, Stamp.mk.injEq, some.injEq] at hn'
      obtain ⟨rfl, rfl⟩ := hn'
      rw [hs', hct, versionIsNewer_some_some, ne_eq, decide_eq_true_eq] at hc
      exact absurd (hlt.trans hgt) hc
    | lastMoved h hj hn' hs' hgt =>
      rw [hnt, Stamp.mk.injEq, some.injEq] at hn'
      obtain ⟨rfl, rfl⟩ := hn'
      exact .lastMoved (h.concat fun hk => hn hk.1) hj hnt hct hlt
  · exact .tie (unresolved_last hnm ⟨Bool.eq_false_iff.mpr hnc, Bool.eq_false_iff.mpr hn⟩)

theorem Drift.unresolved (h : Drift stamp l n s) : ∃ a b, Unresolved stamp l a b := by
  cases h with
  | tie h => exact ⟨_, _, h⟩
  | firstMoved h => exact ⟨_, _, h⟩
  | lastMoved h => exact ⟨_, _, h⟩

theorem Drift.not_allStamped_of_moved (h : Drift stamp l n s) :
    Unresolved stamp l n s ∨ ¬ AllStamped stamp l := by
  cases h with
  | tie h => exact Or.inl h
  | @firstMoved i _ _ _ _ h hi =>
    obtain ⟨l₁, l₂, l₃, rfl, -, -⟩ := h
    exact Or.inr fun hall => hall i (by simp) (by rw [hi])
  | @lastMoved j _ _ _ _ h hj =>
    obtain ⟨l₁, l₂, l₃, rfl, -, -⟩ := h
    exact Or.inr fun hall => hall j (by simp) (by rw [hj])

/-- The step of the comparison: one more version is walked over. -/
theorem drift_concat (hs : EpochSorted stamp (l ++ [c])) (hnm : n ∈ l) (hsm : s ∈ l)
    (h : n = s ∨ Drift stamp l n s) :
    ∃ n' s', challenge (fun a b => versionIsNewer (stamp a) (stamp b)) (some n) c = some n' ∧
      challenge (fun a b => versionSupersedes (stamp a) (stamp b)) (some s) c = some s' ∧
      (n' = s' ∨ Drift stamp (l ++ [c]) n' s') := by
  by_cases hn : versionIsNewer (stamp c) (stamp n) = true <;>
    by_cases hc : versionIsNewer (stamp s) (stamp c) = true
  · exact ⟨c, s, by simp [challenge, hn], by simp [challenge, versionSupersedes, hc],
      Or.inr (.first_moves hs hsm h hn hc)⟩
  · exact ⟨c, c, by simp [challenge, hn], by simp [challenge, versionSupersedes, hc], Or.inl rfl⟩
  · exact ⟨n, s, by simp [challenge, hn], by simp [challenge, versionSupersedes, hc],
      h.imp_right fun h => h.kept hn hc⟩
  · exact ⟨n, c, by simp [challenge, hn], by simp [challenge, versionSupersedes, hc],
      Or.inr (.last_moves hs hnm h hn hc)⟩

/-- The run of the comparison: the walks end on one version or have drifted apart. -/
theorem firstWins_eq_or_drift (hs : EpochSorted stamp l) (hl : l ≠ []) :
    ∃ n s, firstWins stamp l = some n ∧ lastWins stamp l = some s ∧
      (n = s ∨ Drift stamp l n s) := by
  induction l using List.reverseRecOn with
  | nil => exact absurd rfl hl
  | append_singleton l c ih =>
    by_cases hnil : l = []
    · subst hnil
      exact ⟨c, c, rfl, rfl, Or.inl rfl⟩
    · obtain ⟨n, s, hn, hs', h⟩ := ih (pairwise_append.mp hs).1 hnil
      unfold firstWins lastWins at *
      rw [winner_concat, winner_concat, hn, hs']
      exact drift_concat hs (winner_mem hn) (winner_mem hs') h

/-! ## Unmixed versions are ranked -/

theorem AllStamped.newer_eq (h : AllStamped stamp l) (ha : a ∈ l) (hb : b ∈ l) :
    versionIsNewer (stamp a) (stamp b) =
      decide ((stamp b).commitTs.getD .zero < (stamp a).commitTs.getD .zero) := by
  obtain ⟨ta, hta⟩ := ne_none_iff_exists'.mp (h a ha)
  obtain ⟨tb, htb⟩ := ne_none_iff_exists'.mp (h b hb)
  simp [versionIsNewer, hta, htb]

theorem newer_eq_of_unstamped (h : ∀ a ∈ l, (stamp a).commitTs = none) (ha : a ∈ l) :
    versionIsNewer (stamp a) (stamp b) = decide ((stamp b).epoch < (stamp a).epoch) := by
  simp [versionIsNewer, h a ha]

theorem Unmixed.consistent_newer (h : Unmixed stamp l) :
    Consistent (fun a b => versionIsNewer (stamp a) (stamp b)) l := by
  rcases h with h | h
  · exact Lib.consistent_of_lt fun a ha b hb => h.newer_eq ha hb
  · exact Lib.consistent_of_lt fun a ha b hb => newer_eq_of_unstamped h ha

theorem Unmixed.consistent_supersedes (h : Unmixed stamp l) :
    Consistent (fun a b => versionSupersedes (stamp a) (stamp b)) l := by
  rcases h with h | h
  · refine Lib.consistent_of_le (f := fun a => (stamp a).commitTs.getD .zero) ?_
    intro a ha b hb
    simp only [versionSupersedes, h.newer_eq hb ha, ← decide_not, not_lt]
  · refine Lib.consistent_of_le (f := fun a => (stamp a).epoch) ?_
    intro a ha b hb
    simp only [versionSupersedes, newer_eq_of_unstamped h hb, ← decide_not, not_lt]

theorem not_newer_of_firstWins (hu : Unmixed stamp l) (h : firstWins stamp l = some n)
    (ha : a ∈ l) : versionIsNewer (stamp a) (stamp n) = false := by
  obtain ⟨l₁, l₂, rfl, h₁, h₂⟩ := winner_split hu.consistent_newer h
  rw [mem_append, mem_cons] at ha
  rcases ha with ha | rfl | ha
  · exact versionIsNewer_asymm (h₁ a ha)
  · exact versionIsNewer_irrefl _
  · exact h₂ a ha

/-- When both rules choose the same version it is newer than every other one: what comes before
loses to it by the first rule, what comes after by the second. -/
theorem newer_of_firstWins_eq_lastWins (hu : Unmixed stamp l) (hnd : l.Nodup)
    (h : firstWins stamp l = some n) (h' : lastWins stamp l = some n) (ha : a ∈ l)
    (hne : a ≠ n) : versionIsNewer (stamp n) (stamp a) = true := by
  obtain ⟨l₁, l₂, hl, hbefore, -⟩ := winner_split hu.consistent_newer h
  obtain ⟨l₁', l₂', hl', -, hafter⟩ := winner_split hu.consistent_supersedes h'
  rw [hl, mem_append, mem_cons] at ha
  rcases ha with ha | rfl | ha
  · exact hbefore a ha
  · exact absurd rfl hne
  · have hsame : l₂ = l₂' := by
      rw [hl] at hnd hl'
      obtain ⟨-, hnd₂, hdisj⟩ := nodup_append.mp hnd
      have hn₁ : n ∉ l₁ := fun hmem => hdisj n hmem n (by simp) rfl
      exact ((append_cons_inj_of_notMem hn₁ (nodup_cons.mp hnd₂).1).mp hl').2.2
    have hs := hafter a (hsame ▸ ha)
    simpa [versionSupersedes] using hs

/-! ## When the rules agree -/

/-- On epoch-sorted versions the two rules choose the same version when every tie is resolved. -/
theorem firstWins_eq_lastWins (hs : EpochSorted stamp l) (ht : TiesResolved stamp l) :
    firstWins stamp l = lastWins stamp l := by
  by_cases hl : l = []
  · subst hl
    rfl
  obtain ⟨n, s, hn, hs', h⟩ := firstWins_eq_or_drift hs hl
  rw [hn, hs']
  rcases h with rfl | h
  · rfl
  exfalso
  by_cases hall : AllStamped stamp l
  · -- the walks tie, and the first one ends on a version nothing is newer than
    rcases h.not_allStamped_of_moved with ⟨l₁, l₂, l₃, hsplit, htie, -⟩ | hnot
    · obtain ⟨k, hk, -, hkn, -⟩ := ht l₁ n l₂ s l₃ hsplit htie
      rw [not_newer_of_firstWins (Or.inl hall) hn hk] at hkn
      exact Bool.false_ne_true hkn
    · exact hnot hall
  · obtain ⟨a, b, l₁, l₂, l₃, hsplit, htie, hnone⟩ := h.unresolved
    obtain ⟨k, -, hk, hka, hkb⟩ := ht l₁ a l₂ b l₃ hsplit htie
    rcases hk with hk | hk
    · exact hnone k hk ⟨hka, hkb⟩
    · exact hall hk

/-- On versions that are all stamped or all unstamped, agreement resolves every tie: the common
choice is newer than all the rest. -/
theorem tiesResolved_of_firstWins_eq_lastWins (hs : EpochSorted stamp l) (hu : Unmixed stamp l)
    (hnd : l.Nodup) (h : firstWins stamp l = lastWins stamp l) : TiesResolved stamp l := by
  intro l₁ a l₂ b l₃ hl htie
  obtain ⟨n, hn⟩ : ∃ n, firstWins stamp l = some n := by
    rw [← ne_none_iff_exists', ne_eq, firstWins, Lib.winner_eq_none_iff, hl]
    simp
  have hbest := fun x hx hne => newer_of_firstWins_eq_lastWins (a := x) hu hnd hn (h ▸ hn) hx hne
  have hab : a ≠ b := by
    rintro rfl
    rw [hl] at hnd
    exact (nodup_append.mp hnd).2.2 a (by simp) a (by simp) rfl
  have hna : a ≠ n := by
    rintro rfl
    exact absurd (hbest b (by simp [hl]) (Ne.symm hab)) (Bool.eq_false_iff.mp htie.1)
  have hnb : b ≠ n := by
    rintro rfl
    exact absurd (hbest a (by simp [hl]) hab) (Bool.eq_false_iff.mp htie.2)
  have hgtb := hbest b (by simp [hl]) hnb
  refine ⟨n, winner_mem hn, ?_, hbest a (by simp [hl]) hna, hgtb⟩
  rcases hu with hall | hnone
  · exact Or.inr hall
  · -- unstamped versions are ranked by epoch, and the list is sorted by epoch
    rw [newer_eq_of_unstamped hnone (winner_mem hn), decide_eq_true_eq] at hgtb
    have hmem := winner_mem hn
    rw [hl, mem_append, mem_cons] at hmem
    rcases hmem with hmem | rfl | hmem
    · rw [hl] at hs
      have hle := (pairwise_append.mp hs).2.2 n hmem b (by simp)
      omega
    · exact absurd rfl hnb
    · exact Or.inl hmem

/-! ## Versions in commit order -/

/-- `b` was committed later by both clocks. -/
def Before (a b : Stamp) : Prop := a.epoch < b.epoch ∧ versionIsNewer b a = true
  deriving Decidable

/-- `b` was committed with `a` or later. -/
def NotAfter (a b : Stamp) : Prop := a = b ∨ Before a b
  deriving Decidable

theorem Before.notAfter (h : Before x y) : NotAfter x y := Or.inr h

theorem NotAfter.epoch_le (h : NotAfter x y) : x.epoch ≤ y.epoch := by
  rcases h with rfl | h
  · exact le_rfl
  · exact Nat.le_of_lt h.1

theorem NotAfter.not_newer (h : NotAfter x y) : versionIsNewer x y = false := by
  rcases h with rfl | h
  · exact versionIsNewer_irrefl _
  · exact versionIsNewer_asymm h.2

theorem NotAfter.supersedes (h : NotAfter x y) : versionSupersedes y x = true := by
  rw [versionSupersedes, h.not_newer]
  rfl

theorem lastWins_eq_getLast? (h : l.Pairwise fun a b => NotAfter (stamp a) (stamp b)) :
    lastWins stamp l = l.getLast? :=
  Lib.winner_eq_getLast? (h.imp NotAfter.supersedes)

/-- Without ties so does the first rule. -/
theorem firstWins_eq_getLast? (h : l.Pairwise fun a b => Before (stamp a) (stamp b)) :
    firstWins stamp l = l.getLast? :=
  Lib.winner_eq_getLast? (h.imp And.right)

end MongrelDB.Epoch
