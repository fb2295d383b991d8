import Mathlib.Data.List.Basic
import Mathlib.Data.List.Nodup
import Mathlib.Data.List.Count
import MongrelDB.Lib.Gallop

/-!
# Paging before and after a partial lookup

A query that pages over keys and looks the rows up afterwards, dropping the keys
without a row, returns in general another page than one that looks up first.
-/

namespace MongrelDB.Lib

open List Option

variable {α β : Type}

/-- Drop `offset` entries and keep at most `limit`. -/
def page (offset : Nat) : Option Nat → List α → List α
  | none, l => l.drop offset
  | some n, l => (l.drop offset).take n

/-- What follows the page. -/
def beyondPage (offset : Nat) : Option Nat → List α → List α
  | none, _ => []
  | some n, l => (l.drop offset).drop n

/-- Dropping the entries that are not `live` after paging is as good as dropping them before. -/
def PageSettled (live : α → Bool) (offset : Nat) (limit : Option Nat) (l : List α) : Prop :=
  (∀ a ∈ page offset limit l, live a = false) ∧ (l.countP live ≤ offset ∨ limit = some 0) ∨
    (∀ a ∈ l.take offset, live a = true) ∧
      ((∀ a ∈ page offset limit l, live a = true) ∨
        ∀ a ∈ beyondPage offset limit l, live a = false)
  deriving Decidable

variable {l : List α} {offset n : Nat}

theorem page_some_of_le (h : l.length ≤ n) :
    page offset (some n) l = page offset none l :=
  take_of_length_le (by rw [length_drop]; omega)

theorem beyondPage_of_le (h : l.length ≤ n) :
    beyondPage offset (some n) l = beyondPage offset none l :=
  drop_of_length_le (by rw [length_drop]; omega)

/-- On a list along which `p` never turns false again, a partition point is a filter. -/
theorem dropWhile_eq_filter {p : α → Bool}
    (h : l.Pairwise fun a b => p a = true → p b = true) :
    l.dropWhile (fun a => !p a) = l.filter p := by
  have hpart : Partitioned (fun a => !p a) l := h.imp fun hab hb => by
    simpa using mt hab (by simpa using hb)
  simpa using hpart.split.2

theorem take_append_eq_left_iff {l r : List α} {n : Nat} (h : l.length ≤ n) :
    (l ++ r).take n = l ↔ l.length = n ∨ r = [] := by
  rw [take_append, take_of_length_le h, append_right_eq_self, take_eq_nil_iff]
  constructor
  · rintro (hn | hr)
    · exact Or.inl (by omega)
    · exact Or.inr hr
  · rintro (hn | hr)
    · exact Or.inl (by omega)
    · exact Or.inr hr

section

variable (f : α → Option β)

theorem filterMap_eq_nil_iff_dead :
    l.filterMap f = [] ↔ ∀ a ∈ l, (f a).isSome = false := by
  simp only [filterMap_eq_nil_iff, isSome_eq_false_iff, isNone_iff_eq_none]

theorem length_filterMap_eq_iff_live :
    (l.filterMap f).length = l.length ↔ ∀ a ∈ l, (f a).isSome = true := by
  rw [length_filterMap_eq_countP, countP_eq_length]

theorem drop_filterMap_of_live {offset : Nat}
    (h : ∀ a ∈ l.take offset, (f a).isSome = true) :
    (l.filterMap f).drop offset = (l.drop offset).filterMap f := by
  have hlen := (length_filterMap_eq_iff_live f).mpr h
  rw [length_take] at hlen
  conv_lhs => rw [← take_append_drop offset l, filterMap_append]
  by_cases hle : offset ≤ l.length
  · exact drop_left' (by omega)
  · rw [drop_of_length_le (show l.length ≤ offset by omega), filterMap_nil,
      append_nil, drop_of_length_le (by omega)]

theorem live_of_filterMap_page (hnd : (l.filterMap f).Nodup)
    (heq : ((l.drop offset).take n).filterMap f = ((l.filterMap f).drop offset).take n)
    (hne : ((l.drop offset).take n).filterMap f ≠ []) :
    ∀ a ∈ l.take offset, (f a).isSome = true := by
  have hsplit : l.filterMap f = (l.take offset).filterMap f ++
      (((l.drop offset).take n).filterMap f ++ ((l.drop offset).drop n).filterMap f) := by
    rw [← filterMap_append, take_append_drop, ← filterMap_append,
      take_append_drop]
  obtain ⟨b, rest, hb⟩ := exists_cons_of_ne_nil hne
  have hpos : 0 < n := by
    rcases Nat.eq_zero_or_pos n with hn | hn
    · rw [hn] at hne
      exact absurd rfl hne
    · exact hn
  -- the first row of the page stands at one place only
  have hat : (l.filterMap f)[((l.take offset).filterMap f).length]? = some b := by
    rw [hsplit, hb, getElem?_append_right (Nat.le_refl _), Nat.sub_self]
    rfl
  have hat' : (l.filterMap f)[offset]? = some b := by
    rw [hb] at heq
    have := congrArg (fun rows => rows[0]?) heq
    simpa [getElem?_take, hpos] using this.symm
  have hplace := (getElem?_inj (List.getElem?_eq_some_iff.mp hat).1 hnd).mp
    (hat.trans hat'.symm)
  rw [← length_filterMap_eq_iff_live]
  have hle := length_filterMap_le f (l.take offset)
  rw [length_take] at hle ⊢
  omega

/-- The core of `filterMap_page_eq_iff`, with a limit. -/
theorem filterMap_take_drop_eq_iff (hnd : (l.filterMap f).Nodup) :
    ((l.drop offset).take n).filterMap f = ((l.filterMap f).drop offset).take n ↔
      PageSettled (fun a => (f a).isSome) offset (some n) l := by
  let window := (l.drop offset).take n
  let rest := (l.drop offset).drop n
  have hlive : (∀ a ∈ l.take offset, (f a).isSome = true) →
      (window.filterMap f = ((l.filterMap f).drop offset).take n ↔
        (∀ a ∈ window, (f a).isSome = true) ∨ ∀ a ∈ rest, (f a).isSome = false) := by
    intro hskip
    have hwin : window.length ≤ n := length_take_le _ _
    have hle := length_filterMap_le f window
    rw [drop_filterMap_of_live f hskip, ← take_append_drop n (l.drop offset),
      filterMap_append, eq_comm, take_append_eq_left_iff (Nat.le_trans hle hwin),
      filterMap_eq_nil_iff_dead, ← length_filterMap_eq_iff_live]
    show (window.filterMap f).length = n ∨ (∀ a ∈ rest, _) ↔ _
    constructor
    · rintro (hn | hrest)
      · exact Or.inl (by omega)
      · exact Or.inr hrest
    · rintro (hall | hrest)
      · rcases Nat.lt_or_ge window.length n with hlt | hge
        · -- a page that is not full is the last one
          refine Or.inr fun a ha => ?_
          have hshort : (l.drop offset).length ≤ n := by
            have : window.length = min n (l.drop offset).length := length_take
            omega
          rw [show rest = [] from drop_of_length_le hshort] at ha
          exact absurd ha not_mem_nil
        · exact Or.inl (by omega)
      · exact Or.inr hrest
  have hdead (hnil : window.filterMap f = []) :
      window.filterMap f = ((l.filterMap f).drop offset).take n ↔
        l.countP (fun a => (f a).isSome) ≤ offset ∨ some n = some 0 := by
    rw [hnil, eq_comm, take_eq_nil_iff, drop_eq_nil_iff, length_filterMap_eq_countP, some.injEq,
      or_comm]
  constructor
  · intro heq
    by_cases hnil : window.filterMap f = []
    · exact Or.inl ⟨(filterMap_eq_nil_iff_dead f).mp hnil, (hdead hnil).mp heq⟩
    · have hskip := live_of_filterMap_page f hnd heq hnil
      exact Or.inr ⟨hskip, (hlive hskip).mp heq⟩
  · rintro (⟨hnil, hempty⟩ | ⟨hskip, hpage⟩)
    · exact (hdead ((filterMap_eq_nil_iff_dead f).mpr hnil)).mpr hempty
    · exact (hlive hskip).mpr hpage

theorem filterMap_page_eq_iff {offset : Nat} {limit : Option Nat}
    (hnd : (l.filterMap f).Nodup) :
    (page offset limit l).filterMap f = page offset limit (l.filterMap f) ↔
      PageSettled (fun a => (f a).isSome) offset limit l := by
  cases limit with
  | some n => exact filterMap_take_drop_eq_iff f hnd
  | none =>
    -- no limit is a limit nothing reaches
    have hunlimited : (page offset (some l.length) l).filterMap f =
        page offset (some l.length) (l.filterMap f) ↔ _ := filterMap_take_drop_eq_iff f hnd
    rw [page_some_of_le (Nat.le_refl _), page_some_of_le (length_filterMap_le f l)] at hunlimited
    refine hunlimited.trans ?_
    have hzero : l.countP (fun a => (f a).isSome) ≤ offset ∨ some l.length = some 0 ↔
        l.countP (fun a => (f a).isSome) ≤ offset ∨ (none : Option Nat) = some 0 := by
      constructor
      · rintro (h | h)
        · exact Or.inl h
        · rw [length_eq_zero_iff.mp (some.inj h)]
          exact Or.inl (Nat.zero_le _)
      · rintro (h | h)
        · exact Or.inl h
        · cases h
    unfold PageSettled
    rw [hzero, page_some_of_le (Nat.le_refl _), beyondPage_of_le (Nat.le_refl _)]

end

end MongrelDB.Lib
