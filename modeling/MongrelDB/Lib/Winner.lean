import Mathlib.Data.List.Sort
import Mathlib.Data.List.Induction
import Mathlib.Data.List.Nodup

/-!
# Choosing a winner from a list

A walk over a list keeps one candidate; a new element either replaces it or not.
-/

namespace MongrelDB.Lib

open List
open Option hiding mem_map_of_mem

variable {α β κ : Type*}

/-! ## One choice -/

/-- The candidate `a` challenges the current choice. -/
def challenge (replaces : α → α → Bool) : Option α → α → Option α
  | none, a => some a
  | some b, a => if replaces a b then some a else some b

def winner (replaces : α → α → Bool) (l : List α) : Option α :=
  l.foldl (challenge replaces) none

variable {replaces : α → α → Bool} {l : List α} {a w : α}

@[simp] theorem winner_nil : winner replaces [] = none := rfl

theorem winner_concat (replaces : α → α → Bool) (l : List α) (a : α) :
    winner replaces (l ++ [a]) = challenge replaces (winner replaces l) a := by
  unfold winner
  rw [foldl_append]
  rfl

theorem challenge_ne_none (replaces : α → α → Bool) (b : Option α) (a : α) :
    challenge replaces b a ≠ none := by
  unfold challenge
  split
  · exact some_ne_none a
  · split <;> exact some_ne_none _

theorem challenge_eq_or (replaces : α → α → Bool) (b : Option α) (a : α) :
    challenge replaces b a = some a ∨ challenge replaces b a = b := by
  unfold challenge
  split
  · exact Or.inl rfl
  · split
    · exact Or.inl rfl
    · exact Or.inr rfl

@[simp] theorem winner_eq_none_iff : winner replaces l = none ↔ l = [] := by
  constructor
  · intro h
    rcases eq_nil_or_concat' l with rfl | ⟨l, a, rfl⟩
    · rfl
    · rw [winner_concat] at h
      exact absurd h (challenge_ne_none _ _ _)
  · rintro rfl
    rfl

theorem winner_mem (h : winner replaces l = some w) : w ∈ l := by
  induction l using List.reverseRecOn with
  | nil => simp at h
  | append_singleton l a ih =>
    rw [winner_concat] at h
    rcases challenge_eq_or replaces (winner replaces l) a with he | he
    · rw [he, some.injEq] at h
      simp [h]
    · rw [he] at h
      exact mem_append_left _ (ih h)

/-- Only the comparisons among the listed elements matter. -/
theorem winner_congr {replaces' : α → α → Bool}
    (h : ∀ a ∈ l, ∀ b ∈ l, replaces a b = replaces' a b) :
    winner replaces l = winner replaces' l := by
  induction l using List.reverseRecOn with
  | nil => rfl
  | append_singleton l a ih =>
    have hl : winner replaces l = winner replaces' l :=
      ih fun x hx y hy => h x (mem_append_left _ hx) y (mem_append_left _ hy)
    rw [winner_concat, winner_concat, ← hl]
    cases hw : winner replaces l with
    | none => rfl
    | some b =>
      have hab := h a (by simp) b (mem_append_left _ (winner_mem hw))
      simp only [challenge, hab]

theorem winner_map (f : β → α) (l : List β) :
    winner replaces (l.map f) = (winner (fun a b => replaces (f a) (f b)) l).map f := by
  induction l using List.reverseRecOn with
  | nil => rfl
  | append_singleton l a ih =>
    rw [map_append, map_singleton, winner_concat, winner_concat, ih]
    cases winner (fun a b => replaces (f a) (f b)) l with
    | none => rfl
    | some b =>
      simp only [challenge, map_some]
      split <;> rfl

/-! ## Consistent rules -/

/-- On the elements of `l` the rule composes: what replaces an element also replaces whatever that
element replaces, and whatever fails to replace it. -/
structure Consistent (replaces : α → α → Bool) (l : List α) : Prop where
  trans : ∀ a ∈ l, ∀ b ∈ l, ∀ c ∈ l, replaces a b = true → replaces b c = true →
    replaces a c = true
  trans_not : ∀ a ∈ l, ∀ b ∈ l, ∀ c ∈ l, replaces a b = true → replaces c b = false →
    replaces a c = true

theorem Consistent.mono {l' : List α} (h : Consistent replaces l) (hs : ∀ a ∈ l', a ∈ l) :
    Consistent replaces l' where
  trans a ha b hb c hc := h.trans a (hs a ha) b (hs b hb) c (hs c hc)
  trans_not a ha b hb c hc := h.trans_not a (hs a ha) b (hs b hb) c (hs c hc)

/-- Under a consistent rule the winner replaces everything before it and nothing after it
replaces it. -/
theorem winner_split (hr : Consistent replaces l) (h : winner replaces l = some w) :
    ∃ l₁ l₂, l = l₁ ++ w :: l₂ ∧ (∀ x ∈ l₁, replaces w x = true) ∧
      ∀ x ∈ l₂, replaces x w = false := by
  induction l using List.reverseRecOn generalizing w with
  | nil => simp at h
  | append_singleton l a ih =>
    rw [winner_concat] at h
    cases hw : winner replaces l with
    | none =>
      rw [winner_eq_none_iff] at hw
      subst hw
      obtain rfl : a = w := by simpa [challenge] using h
      exact ⟨[], [], rfl, by simp, by simp⟩
    | some b =>
      obtain ⟨l₁, l₂, hl, hlt, hle⟩ := ih (hr.mono fun x hx => mem_append_left _ hx) hw
      have hmem : ∀ x ∈ l, x ∈ l ++ [a] := fun x hx => mem_append_left _ hx
      have ha : a ∈ l ++ [a] := by simp
      have hb := hmem b (winner_mem hw)
      simp only [hw, challenge] at h
      split at h
      next hab =>
        obtain rfl : a = w := by simpa using h
        refine ⟨l, [], by simp, ?_, by simp⟩
        intro x hx
        have hx' := hmem x hx
        rw [hl, mem_append, mem_cons] at hx
        rcases hx with hx | rfl | hx
        · exact hr.trans a ha b hb x hx' hab (hlt x hx)
        · exact hab
        · exact hr.trans_not a ha b hb x hx' hab (hle x hx)
      next hab =>
        obtain rfl : b = w := by simpa using h
        refine ⟨l₁, l₂ ++ [a], by simp [hl], hlt, ?_⟩
        intro x hx
        rw [mem_append, mem_singleton] at hx
        rcases hx with hx | rfl
        · exact hle x hx
        · exact Bool.eq_false_iff.mpr hab

/-- The winner is the only element that stands between what it replaces and what cannot
replace it. -/
theorem winner_eq_of_split {l₁ l₂ : List α} (hl : l = l₁ ++ w :: l₂)
    (h₁ : ∀ x ∈ l₁, replaces w x = true) (h₂ : ∀ x ∈ l₂, replaces x w = false) :
    winner replaces l = some w := by
  subst hl
  induction l₂ using List.reverseRecOn with
  | nil =>
    rw [winner_concat]
    cases hw : winner replaces l₁ with
    | none => rfl
    | some b => simp [challenge, h₁ b (winner_mem hw)]
  | append_singleton l₂ a ih =>
    rw [← cons_append, ← append_assoc, winner_concat,
      ih fun x hx => h₂ x (mem_append_left _ hx)]
    simp [challenge, h₂ a (by simp)]

/-- A first element that nothing after it replaces wins. -/
theorem winner_cons_of_kept (h : ∀ x ∈ l, replaces x w = false) :
    winner replaces (w :: l) = some w :=
  winner_eq_of_split (nil_append _).symm (fun _ hx => absurd hx not_mem_nil) h

/-- Where every element replaces all before it, the last one wins. -/
theorem winner_eq_getLast? (h : l.Pairwise fun a b => replaces b a = true) :
    winner replaces l = l.getLast? := by
  rcases eq_nil_or_concat' l with rfl | ⟨l, a, rfl⟩
  · rfl
  · rw [getLast?_concat]
    exact winner_eq_of_split rfl (fun x hx => (pairwise_append.mp h).2.2 x hx a (by simp))
      (by simp)

/-- An element that replaces all others, and that none replaces, wins in any order. -/
theorem winner_eq_of_best (hw : w ∈ l) (h : ∀ x ∈ l, x = w ∨ replaces w x = true)
    (hno : ∀ x ∈ l, replaces x w = false) : winner replaces l = some w := by
  obtain ⟨l₁, l₂, hl, hnot⟩ := eq_append_cons_of_mem hw
  refine winner_eq_of_split hl (fun x hx => ?_) fun x hx => hno x (by simp [hl, hx])
  rcases h x (by simp [hl, hx]) with rfl | hx'
  · exact absurd hx hnot
  · exact hx'

/-- In whatever order candidates challenge, one that replaces all others is left. -/
theorem foldl_challenge_of_best {best : Option α} (hw : w ∈ l)
    (hbest : ∀ b, best = some b → replaces w b = true)
    (h : ∀ x ∈ l, x = w ∨ replaces w x = true)
    (hasymm : ∀ a b, replaces a b = true → replaces b a = false)
    (hirrefl : replaces w w = false) : l.foldl (challenge replaces) best = some w := by
  have hno : ∀ x, x = w ∨ replaces w x = true → replaces x w = false := by
    rintro x (rfl | hx)
    · exact hirrefl
    · exact hasymm w x hx
  cases best with
  | none => exact winner_eq_of_best hw h fun x hx => hno x (h x hx)
  | some b =>
    have hall : ∀ x ∈ b :: l, x = w ∨ replaces w x = true :=
      forall_mem_cons.mpr ⟨.inr (hbest b rfl), h⟩
    exact winner_eq_of_best (mem_cons_of_mem b hw) hall fun x hx => hno x (hall x hx)

theorem consistent_of_rel {f : α → β} {r : β → β → Prop} [DecidableRel r]
    (htrans : ∀ {x y z}, r x y → r y z → r x z) (hnot : ∀ {x y z}, ¬ r x y → r x z → r y z)
    (h : ∀ a ∈ l, ∀ b ∈ l, replaces a b = decide (r (f b) (f a))) : Consistent replaces l where
  trans a ha b hb c hc hab hbc := by
    rw [h _ ha _ hb, decide_eq_true_eq] at hab
    rw [h _ hb _ hc, decide_eq_true_eq] at hbc
    rw [h _ ha _ hc, decide_eq_true_eq]
    exact htrans hbc hab
  trans_not a ha b hb c hc hab hcb := by
    rw [h _ ha _ hb, decide_eq_true_eq] at hab
    rw [h _ hc _ hb, decide_eq_false_iff_not] at hcb
    rw [h _ ha _ hc, decide_eq_true_eq]
    exact hnot hcb hab

section Rank

variable [LinearOrder β] {f : α → β}

theorem consistent_of_lt (h : ∀ a ∈ l, ∀ b ∈ l, replaces a b = decide (f b < f a)) :
    Consistent replaces l :=
  consistent_of_rel (r := (· < ·)) lt_trans (fun hxy hxz => (not_lt.mp hxy).trans_lt hxz) h

theorem consistent_of_le (h : ∀ a ∈ l, ∀ b ∈ l, replaces a b = decide (f b ≤ f a)) :
    Consistent replaces l :=
  consistent_of_rel (r := (· ≤ ·)) le_trans (fun hxy hxz => (not_le.mp hxy).le.trans hxz) h

/-- The last element of highest rank. -/
def lastMax (f : α → β) (l : List α) : Option α := winner (fun a b => decide (f b ≤ f a)) l

theorem lastMax_concat (f : α → β) (l : List α) (a : α) :
    lastMax f (l ++ [a]) = challenge (fun a b => decide (f b ≤ f a)) (lastMax f l) a :=
  winner_concat _ l a

/-- An element in front wins only by a strictly higher rank. -/
theorem lastMax_cons (f : α → β) (a : α) (l : List α) :
    lastMax f (a :: l) =
      match lastMax f l with
      | none => some a
      | some w => if f w < f a then some a else some w := by
  induction l using List.reverseRecOn with
  | nil => rfl
  | append_singleton l c ih =>
    rw [← cons_append, lastMax_concat, lastMax_concat, ih]
    -- which of the three elements has the highest rank
    cases lastMax f l with
    | none => grind [challenge]
    | some w => grind [challenge]

theorem lastMax_eq_getLast? (hs : l.Pairwise fun a b => f a ≤ f b) :
    lastMax f l = l.getLast? := by
  induction l using List.reverseRecOn with
  | nil => rfl
  | append_singleton l a ih =>
    rw [lastMax_concat, ih (pairwise_append.mp hs).1, getLast?_concat]
    cases hl : l.getLast? with
    | none => rfl
    | some b =>
      have hle := (pairwise_append.mp hs).2.2 b (mem_of_getLast? hl) a (by simp)
      simp [challenge, hle]

end Rank

/-! ## One choice per key -/

section Tally

variable [DecidableEq κ] {key : α → κ}

/-- `a` challenges the entry of its key, or takes a new one. -/
def upsert (replaces : α → α → Bool) (key : α → κ) (a : α) : List α → List α
  | [] => [a]
  | b :: m =>
    if key b = key a then (if replaces a b then a else b) :: m
    else b :: upsert replaces key a m

/-- The entries left after every element of `l` has been upserted in turn. -/
def tally (replaces : α → α → Bool) (key : α → κ) (l : List α) : List α :=
  l.foldl (fun m a => upsert replaces key a m) []

theorem tally_concat (replaces : α → α → Bool) (key : α → κ) (l : List α) (a : α) :
    tally replaces key (l ++ [a]) = upsert replaces key a (tally replaces key l) := by
  unfold tally
  rw [foldl_append]
  rfl

theorem find?_upsert (a : α) (k : κ) (m : List α) :
    (upsert replaces key a m).find? (fun b => decide (key b = k)) =
      if key a = k then
        challenge replaces (m.find? fun b => decide (key b = k)) a
      else m.find? fun b => decide (key b = k) := by
  induction m with
  | nil =>
    unfold upsert
    by_cases hk : key a = k <;> simp [challenge, hk]
  | cons b m ih =>
    unfold upsert
    by_cases hba : key b = key a
    · have hhead : key (if replaces a b then a else b) = key a := by split <;> simp [hba]
      rw [if_pos hba]
      by_cases hk : key a = k
      · rw [if_pos hk, find?_cons_of_pos (by simp [hhead, hk]),
          find?_cons_of_pos (by simp [hba, hk])]
        exact apply_ite some _ a b
      · rw [if_neg hk, find?_cons_of_neg (by simp [hhead, hk]),
          find?_cons_of_neg (by simp [hba, hk])]
    · rw [if_neg hba]
      by_cases hk : key b = k
      · have hak : key a ≠ k := fun h => hba (hk.trans h.symm)
        rw [if_neg hak, find?_cons_of_pos (by simp [hk]),
          find?_cons_of_pos (by simp [hk])]
      · rw [find?_cons_of_neg (by simp [hk]), find?_cons_of_neg (by simp [hk])]
        exact ih

/-- What the tally holds for a key is the winner among the elements with that key. -/
theorem find?_tally (k : κ) (l : List α) :
    (tally replaces key l).find? (fun b => decide (key b = k)) =
      winner replaces (l.filter fun b => decide (key b = k)) := by
  induction l using List.reverseRecOn with
  | nil => rfl
  | append_singleton l a ih =>
    rw [tally_concat, find?_upsert, ih, filter_append]
    by_cases hk : key a = k
    · rw [if_pos hk, filter_cons_of_pos (by simp [hk]), filter_nil, winner_concat]
    · rw [if_neg hk, filter_cons_of_neg (by simp [hk]), filter_nil, append_nil]

theorem mem_keys_upsert (a : α) (k : κ) (m : List α) :
    k ∈ (upsert replaces key a m).map key ↔ k = key a ∨ k ∈ m.map key := by
  induction m with
  | nil => simp [upsert]
  | cons b m ih =>
    unfold upsert
    split
    next hba =>
      have hhead : key (if replaces a b then a else b) = key a := by split <;> simp [hba]
      simp only [map_cons, mem_cons, hhead, hba]
      tauto
    next =>
      simp only [map_cons, mem_cons, ih]
      tauto

theorem nodup_keys_upsert (a : α) {m : List α} (hm : (m.map key).Nodup) :
    ((upsert replaces key a m).map key).Nodup := by
  induction m with
  | nil => simp [upsert]
  | cons b m ih =>
    rw [map_cons, nodup_cons] at hm
    unfold upsert
    split
    next hba =>
      have hhead : key (if replaces a b then a else b) = key b := by split <;> simp [hba]
      rw [map_cons, nodup_cons, hhead]
      exact hm
    next hba =>
      rw [map_cons, nodup_cons, mem_keys_upsert]
      exact ⟨fun h => h.elim hba hm.1, ih hm.2⟩

theorem nodup_keys_tally (l : List α) : ((tally replaces key l).map key).Nodup := by
  induction l using List.reverseRecOn with
  | nil => simp [tally]
  | append_singleton l a ih =>
    rw [tally_concat]
    exact nodup_keys_upsert a ih

theorem filter_key_of_nodup {m : List α} (hm : (m.map key).Nodup) (k : κ) :
    m.filter (fun b => decide (key b = k)) = (m.find? fun b => decide (key b = k)).toList := by
  induction m with
  | nil => rfl
  | cons b m ih =>
    rw [map_cons, nodup_cons] at hm
    by_cases hb : key b = k
    · rw [filter_cons_of_pos (by simp [hb]), find?_cons_of_pos (by simp [hb]),
        filter_eq_nil_iff.mpr]
      · rfl
      · intro c hc hck
        rw [decide_eq_true_eq] at hck
        exact hm.1 (hb ▸ hck ▸ mem_map_of_mem hc)
    · rw [filter_cons_of_neg (by simp [hb]), find?_cons_of_neg (by simp [hb]), ih hm.2]

theorem filter_key_tally (k : κ) :
    (tally replaces key l).filter (fun b => decide (key b = k)) =
      (winner replaces (l.filter fun b => decide (key b = k))).toList := by
  rw [filter_key_of_nodup (nodup_keys_tally l), find?_tally]

theorem mem_tally :
    a ∈ tally replaces key l ↔
      winner replaces (l.filter fun b => decide (key b = key a)) = some a := by
  rw [← mem_toList, ← filter_key_tally, mem_filter]
  exact (and_iff_left (decide_eq_true rfl)).symm

end Tally

/-! ## Stretches of equal keys -/

section Runs

variable [LinearOrder κ] {key : α → κ} {block rest : List α}

/-- The maximal stretches of consecutive elements with equal keys. -/
def runsOf (key : α → κ) : List α → List (List α)
  | [] => []
  | a :: l =>
    match runsOf key l with
    | [] => [[a]]
    | g :: gs =>
      if g.head?.map key = some (key a) then (a :: g) :: gs else [a] :: g :: gs

theorem runsOf_cons_ne_nil (a : α) (l : List α) : runsOf key (a :: l) ≠ [] := by
  unfold runsOf
  split
  · exact cons_ne_nil _ _
  · split <;> exact cons_ne_nil _ _

theorem head?_of_runsOf_eq_cons {g : List α} {gs : List (List α)} {a : α} {l : List α}
    (h : runsOf key (a :: l) = g :: gs) : g.head? = some a := by
  unfold runsOf at h
  split at h
  · rw [← (List.cons.inj h).1]
    rfl
  · split at h <;> rw [← (List.cons.inj h).1] <;> rfl

/-- A block of one key followed by another key is a stretch of its own. -/
theorem runsOf_block {k : κ} (hb : block ≠ [])
    (hk : ∀ x ∈ block, key x = k) (hrest : ∀ x ∈ rest.head?, key x ≠ k) :
    runsOf key (block ++ rest) = block :: runsOf key rest := by
  induction block with
  | nil => exact absurd rfl hb
  | cons a block ih =>
    have hak : key a = k := hk a (by simp)
    rw [cons_append]
    cases block with
    | nil =>
      cases rest with
      | nil => rfl
      | cons c rest =>
        have hck : key c ≠ k := hrest c rfl
        cases hruns : runsOf key (c :: rest) with
        | nil => exact absurd hruns (runsOf_cons_ne_nil c rest)
        | cons g gs =>
          have hhead := head?_of_runsOf_eq_cons hruns
          rw [nil_append, runsOf, hruns]
          simp [hhead, hak, hck]
    | cons b block =>
      have hbk : key b = k := hk b (by simp)
      rw [runsOf, ih (cons_ne_nil _ _) fun x hx => hk x (mem_cons_of_mem _ hx)]
      simp [hak, hbk]

abbrev byKey (key : α → κ) (a b : α) : Prop := key a ≤ key b

/-- A key-sorted list starts with the block of its smallest key, and every key after the block
is larger. -/
theorem sorted_cons_split (a : α) (l : List α) (hs : (a :: l).Pairwise (byKey key)) :
    ∃ block rest, a :: l = block ++ rest ∧ block ≠ [] ∧ rest.length ≤ l.length ∧
      (∀ x ∈ block, key x = key a) ∧ ∀ x ∈ rest, key a < key x := by
  induction l generalizing a with
  | nil => exact ⟨[a], [], rfl, by simp, by simp, by simp, by simp⟩
  | cons b l ih =>
    rw [pairwise_cons] at hs
    obtain ⟨hab, hs⟩ := hs
    rcases (hab b (by simp)).lt_or_eq with hlt | heq
    · refine ⟨[a], b :: l, rfl, by simp, le_rfl, by simp, ?_⟩
      exact forall_mem_cons.mpr
        ⟨hlt, fun x hx => hlt.trans_le ((pairwise_cons.mp hs).1 x hx)⟩
    · obtain ⟨block, rest, hl, hne, hlen, hkey, hrest⟩ := ih b hs
      refine ⟨a :: block, rest, by rw [hl]; rfl, by simp, ?_, ?_, ?_⟩
      · rw [length_cons]
        omega
      · exact forall_mem_cons.mpr ⟨rfl, fun x hx => by rw [hkey x hx, heq]⟩
      · rw [heq]
        exact hrest

theorem sorted_block_induction {motive : List α → Prop} (nil : motive [])
    (block : ∀ (k : κ) (block rest : List α), block ≠ [] → (∀ x ∈ block, key x = k) →
      (∀ x ∈ rest, k < key x) → motive rest → motive (block ++ rest)) :
    ∀ l : List α, l.Pairwise (byKey key) → motive l := by
  intro l
  induction hn : l.length using Nat.strong_induction_on generalizing l with
  | _ n ih =>
    intro hs
    cases l with
    | nil => exact nil
    | cons a l =>
      obtain ⟨b, rest, hl, hne, hlen, hkey, hrest⟩ := sorted_cons_split a l hs
      rw [hl] at hs ⊢
      refine block (key a) b rest hne hkey hrest ?_
      exact ih rest.length (by rw [← hn, length_cons]; omega) rest rfl
        (pairwise_append.mp hs).2.1

/-- The winner of every stretch, among its elements that satisfy `p`. -/
def groupWinners (replaces : α → α → Bool) (key : α → κ) (p : α → Bool) (l : List α) : List α :=
  (runsOf key l).filterMap fun g => winner replaces (g.filter p)

variable {p : α → Bool}

theorem groupWinners_block {k : κ} (hb : block ≠ [])
    (hk : ∀ x ∈ block, key x = k) (hrest : ∀ x ∈ rest, k < key x) :
    groupWinners replaces key p (block ++ rest) =
      (winner replaces (block.filter p)).toList ++ groupWinners replaces key p rest := by
  unfold groupWinners
  rw [runsOf_block hb hk fun x hx => (hrest x (mem_of_mem_head? hx)).ne', filterMap_cons]
  cases winner replaces (block.filter p) <;> rfl

theorem groupWinners_sublist (hs : l.Pairwise (byKey key)) :
    (groupWinners replaces key p l).Sublist l := by
  refine sorted_block_induction
    (motive := fun l => (groupWinners replaces key p l).Sublist l) ?_ ?_ l hs
  · exact Sublist.slnil
  · intro k block rest hb hk hrest ih
    rw [groupWinners_block hb hk hrest]
    refine Sublist.append ?_ ih
    cases hw : winner replaces (block.filter p) with
    | none => exact nil_sublist _
    | some w => exact singleton_sublist.mpr (mem_of_mem_filter (winner_mem hw))

theorem filter_key_of_forall_eq {m : List α} {k : κ} (h : ∀ x ∈ m, key x = k) (k' : κ) :
    m.filter (fun b => decide (key b = k')) = if k' = k then m else [] := by
  split
  next heq => exact filter_eq_self.mpr fun x hx => by simp [h x hx, heq]
  next hne => exact filter_eq_nil_iff.mpr fun x hx => by simp [h x hx, Ne.symm hne]

theorem filter_groupWinners (k' : κ) (hs : l.Pairwise (byKey key)) :
    (groupWinners replaces key p l).filter (fun b => decide (key b = k')) =
      (winner replaces ((l.filter p).filter fun b => decide (key b = k'))).toList := by
  refine sorted_block_induction (motive := fun l =>
    (groupWinners replaces key p l).filter (fun b => decide (key b = k')) =
      (winner replaces ((l.filter p).filter fun b => decide (key b = k'))).toList) ?_ ?_ l hs
  · rfl
  · intro k block rest hb hk hrest ih
    have hwk : ∀ x ∈ (winner replaces (block.filter p)).toList, key x = k := fun x hx =>
      hk x (mem_of_mem_filter (winner_mem (mem_toList.mp hx)))
    rw [groupWinners_block hb hk hrest, filter_append, ih, filter_append, filter_append,
      filter_key_of_forall_eq hwk,
      filter_key_of_forall_eq fun x hx => hk x (mem_of_mem_filter hx)]
    split
    next h =>
      have hnil : (rest.filter p).filter (fun b => decide (key b = k')) = [] := by
        rw [filter_eq_nil_iff]
        intro x hx
        simp [h, (hrest x (mem_of_mem_filter hx)).ne']
      rw [hnil, winner_nil, append_nil]
      exact append_nil _
    next => rw [nil_append, nil_append]

/-- On a key-sorted list the group loop keeps, for every key, the winner among the elements with
that key. -/
theorem mem_groupWinners (hs : l.Pairwise (byKey key)) :
    a ∈ groupWinners replaces key p l ↔
      winner replaces ((l.filter p).filter fun b => decide (key b = key a)) = some a := by
  rw [← mem_toList, ← filter_groupWinners (key a) hs, mem_filter]
  exact (and_iff_left (decide_eq_true rfl)).symm

end Runs

end MongrelDB.Lib
