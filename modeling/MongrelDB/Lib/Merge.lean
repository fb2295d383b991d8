import MongrelDB.Lib.Winner

/-!
# Merging sorted sources

A cursor over several sorted sources keeps one head per source in a heap, takes the
least head and refills from the source it came from; of equal heads the one of the
first source comes first.
-/

namespace MongrelDB.Lib

open List

variable {α κ : Type*} [LinearOrder κ] (key : α → κ)

/-! ## The loop -/

/-- Take the least head, the first of equal ones, and advance its source. -/
def popLeast : List (List α) → Option (α × List (List α))
  | [] => none
  | [] :: rest => (popLeast rest).map fun popped => (popped.1, [] :: popped.2)
  | (x :: xs) :: rest =>
    match popLeast rest with
    | none => some (x, xs :: rest)
    | some (y, rest') =>
      if key x ≤ key y then some (x, xs :: rest) else some (y, (x :: xs) :: rest')

/-- Every round takes an entry, so the number of entries is enough fuel. -/
def mergeRounds : Nat → List (List α) → List α
  | 0, _ => []
  | fuel + 1, sources =>
    match popLeast key sources with
    | none => []
    | some (y, rest) => y :: mergeRounds fuel rest

def mergeSources (sources : List (List α)) : List α :=
     mergeRounds key sources.flatten.length sources

variable {key}

/-! ## A stable sort -/

theorem foldr_orderedInsert_cons {y : α} {l s : List α} (h : ∀ a ∈ l, ¬ key a ≤ key y) :
    l.foldr (List.orderedInsert (byKey key)) (y :: s) =
      y :: l.foldr (List.orderedInsert (byKey key)) s := by
  induction l with
  | nil => rfl
  | cons a l ih =>
    rw [foldr_cons, foldr_cons, ih fun b hb => h b (mem_cons_of_mem _ hb),
      orderedInsert_cons, if_neg (h a (by simp))]

theorem insertionSort_append (l r : List α) :
    (l ++ r).insertionSort (byKey key) =
      l.foldr (List.orderedInsert (byKey key))
        (r.insertionSort (byKey key)) := by
  induction l with
  | nil => rfl
  | cons a l ih => rw [cons_append, insertionSort_cons, ih, foldr_cons]

/-- The step of the loop: what is popped heads the sorted concatenation, and the sources left
over sort to its tail. -/
theorem popLeast_spec (sources : List (List α))
    (hs : ∀ s ∈ sources, s.Pairwise (byKey key)) :
    (popLeast key sources = none ∧ sources.flatten = []) ∨
      ∃ y rest, popLeast key sources = some (y, rest) ∧
        (∀ s ∈ rest, s.Pairwise (byKey key)) ∧
        rest.flatten.length + 1 = sources.flatten.length ∧
        sources.flatten.insertionSort (byKey key) =
          y :: rest.flatten.insertionSort (byKey key) := by
  induction sources with
  | nil => exact Or.inl ⟨rfl, rfl⟩
  | cons s rest ih =>
    have hrest := fun t ht => hs t (mem_cons_of_mem s ht)
    cases s with
    | nil =>
      rcases ih hrest with ⟨hpop, hnil⟩ | ⟨y, rest', hpop, hs', hlen, hsort⟩
      · exact Or.inl ⟨by rw [popLeast, hpop]; rfl, by simpa using hnil⟩
      · exact Or.inr ⟨y, [] :: rest', by rw [popLeast, hpop]; rfl,
          forall_mem_cons.mpr ⟨Pairwise.nil, hs'⟩, hlen, hsort⟩
    | cons x xs =>
      have hxs := pairwise_cons.mp (hs (x :: xs) (by simp))
      have hkeep : ∀ t ∈ xs :: rest, t.Pairwise (byKey key) :=
        forall_mem_cons.mpr ⟨hxs.2, hrest⟩
      -- once `x` is not above anything, it is the head of the sorted concatenation
      have htake : (∀ b ∈ rest.flatten, key x ≤ key b) →
          ((x :: xs) :: rest).flatten.insertionSort (byKey key) =
            x :: (xs :: rest).flatten.insertionSort (byKey key) := by
        intro hle
        exact insertionSort_cons_of_forall_rel _ (forall_mem_append.mpr ⟨hxs.1, hle⟩)
      rcases ih hrest with ⟨hpop, hnil⟩ | ⟨y, rest', hpop, hs', hlen, hsort⟩
      · refine Or.inr ⟨x, xs :: rest, by rw [popLeast, hpop], hkeep, by simp, htake ?_⟩
        rw [hnil]
        exact fun b hb => absurd hb not_mem_nil
      · by_cases hxy : key x ≤ key y
        · refine Or.inr ⟨x, xs :: rest, by rw [popLeast, hpop]; exact if_pos hxy, hkeep, by simp,
            htake fun b hb => ?_⟩
          have hsorted := pairwise_insertionSort (byKey key) rest.flatten
          rw [← mem_insertionSort (byKey key), hsort] at hb
          rw [hsort] at hsorted
          rcases mem_cons.mp hb with rfl | hb
          · exact hxy
          · exact hxy.trans ((pairwise_cons.mp hsorted).1 b hb)
        · refine Or.inr ⟨y, (x :: xs) :: rest', by rw [popLeast, hpop]; exact if_neg hxy,
            forall_mem_cons.mpr ⟨hs _ (by simp), hs'⟩, ?_, ?_⟩
          · simp only [flatten_cons, length_append]
            omega
          · rw [flatten_cons, insertionSort_append, hsort, flatten_cons,
              insertionSort_append]
            refine foldr_orderedInsert_cons fun a ha hay => hxy ?_
            rcases mem_cons.mp ha with rfl | ha
            · exact hay
            · exact (hxs.1 a ha).trans hay

theorem mergeRounds_eq (fuel : Nat) (sources : List (List α))
    (hs : ∀ s ∈ sources, s.Pairwise (byKey key))
    (hfuel : sources.flatten.length ≤ fuel) :
    mergeRounds key fuel sources = sources.flatten.insertionSort (byKey key) := by
  induction fuel generalizing sources with
  | zero =>
    rw [length_eq_zero_iff.mp (Nat.le_zero.mp hfuel)]
    rfl
  | succ fuel ih =>
    rcases popLeast_spec sources hs with ⟨hpop, hnil⟩ | ⟨y, rest, hpop, hs', hlen, hsort⟩
    · rw [mergeRounds, hpop, hnil]
      rfl
    · rw [mergeRounds, hpop, hsort]
      exact congrArg (y :: ·) (ih rest hs' (by omega))

variable {sources : List (List α)}

theorem mergeSources_eq_insertionSort
    (hs : ∀ s ∈ sources, s.Pairwise (byKey key)) :
    mergeSources key sources = sources.flatten.insertionSort (byKey key) :=
  mergeRounds_eq _ sources hs le_rfl

theorem insertionSort_filter_sublist (key : α → κ) (p : α → Bool) (l : List α) :
    (l.filter p).insertionSort (byKey key) <+ l.insertionSort (byKey key) := by
  induction l with
  | nil => exact Sublist.refl _
  | cons a l ih =>
    by_cases ha : p a = true
    · rw [filter_cons_of_pos ha, insertionSort_cons, insertionSort_cons]
      exact ih.orderedInsert_sublist a (pairwise_insertionSort (byKey key) l)
    · rw [filter_cons_of_neg ha, insertionSort_cons]
      exact ih.trans (sublist_orderedInsert a _)

theorem filter_insertionSort (key : α → κ) (p : α → Bool) (l : List α) :
    (l.insertionSort (byKey key)).filter p =
      (l.filter p).insertionSort (byKey key) := by
  have hall : ((l.filter p).insertionSort (byKey key)).filter p =
      (l.filter p).insertionSort (byKey key) :=
    filter_eq_self.mpr fun a ha => of_mem_filter ((mem_insertionSort (byKey key)).mp ha)
  have hsub := (insertionSort_filter_sublist key p l).filter p
  rw [hall] at hsub
  refine (hsub.eq_of_length ?_).symm
  rw [length_insertionSort]
  exact ((perm_insertionSort (byKey key) l).filter p).length_eq.symm

theorem lastMax_orderedInsert (f : α → κ) (a : α) (l : List α) :
    lastMax f (l.orderedInsert (byKey f) a) = lastMax f (a :: l) := by
  induction l with
  | nil => rfl
  | cons b l ih =>
    rw [orderedInsert_cons]
    split
    · rfl
    next hba =>
      have hba : ¬ f a ≤ f b := hba
      rw [lastMax_cons, ih, lastMax_cons, lastMax_cons f a, lastMax_cons f b]
      cases lastMax f l with
      | none => grind
      | some w => grind

theorem lastMax_filter_insertionSort (f : α → κ) (p : α → Bool) (l : List α) :
    lastMax f ((l.insertionSort (byKey f)).filter p) = lastMax f (l.filter p) := by
  rw [filter_insertionSort]
  induction l.filter p with
  | nil => rfl
  | cons a l ih => rw [insertionSort_cons, lastMax_orderedInsert, lastMax_cons, ih, lastMax_cons]

/-- What is already in order among the entries that satisfy `p` stays as it is. -/
theorem filter_insertionSort_of_pairwise {p : α → Bool} {l : List α}
    (h : (l.filter p).Pairwise (byKey key)) :
    (l.insertionSort (byKey key)).filter p = l.filter p := by
  rw [filter_insertionSort]
  exact h.insertionSort_eq

theorem pairwise_mergeSources
    (hs : ∀ s ∈ sources, s.Pairwise (byKey key)) :
    (mergeSources key sources).Pairwise (byKey key) := by
  rw [mergeSources_eq_insertionSort hs]
  exact pairwise_insertionSort (byKey key) _

/-- The entries with one key come out in the order of the sources. -/
theorem filter_key_mergeSources (k : κ)
    (hs : ∀ s ∈ sources, s.Pairwise (byKey key)) :
    (mergeSources key sources).filter (fun a => decide (key a = k)) =
      sources.flatten.filter fun a => decide (key a = k) := by
  rw [mergeSources_eq_insertionSort hs]
  refine filter_insertionSort_of_pairwise (pairwise_of_forall_mem_list ?_)
  intro a ha b hb
  have hak : key a = k := by simpa using (mem_filter.mp ha).2
  have hbk : key b = k := by simpa using (mem_filter.mp hb).2
  rw [byKey, hak, hbk]

/-! ## Inserting one element -/

theorem pairwise_lt_of_unique {l : List α} (hs : l.Pairwise (byKey key))
    (hu : ∀ k, (l.filter fun a => decide (key a = k)).length ≤ 1) :
    l.Pairwise fun a b => key a < key b := by
  have hnodup : (l.map key).Nodup := by
    refine nodup_iff_count_le_one.mpr fun k => ?_
    rw [count, countP_map, countP_eq_length_filter]
    exact hu k
  exact (hs.and (pairwise_map.mp hnodup)).imp fun h => lt_of_le_of_ne h.1 h.2

/-- Insertion at the partition point of a sorted list, after any equal key. -/
def insertAfter (key : α → κ) (x : α) (l : List α) : List α :=
  l.takeWhile (fun a => decide (key a ≤ key x)) ++
    x :: l.dropWhile fun a => decide (key a ≤ key x)

theorem insertAfter_eq_insertionSort (x : α) {l : List α}
    (hs : l.Pairwise (byKey key)) :
    insertAfter key x l = (l ++ [x]).insertionSort (byKey key) := by
  induction l with
  | nil => rfl
  | cons a l ih =>
    rw [pairwise_cons] at hs
    by_cases hax : key a ≤ key x
    · rw [cons_append, insertionSort_cons_of_forall_rel _ (fun b hb => ?_), ← ih hs.2,
        insertAfter, takeWhile_cons_of_pos (by simp [hax]),
        dropWhile_cons_of_pos (by simp [hax])]
      · rfl
      · rcases mem_append.mp hb with hb | hb
        · exact hs.1 b hb
        · rw [mem_singleton.mp hb]
          exact hax
    · -- the whole list is above `x`
      have habove : ∀ b ∈ a :: l, ¬ key b ≤ key x :=
        forall_mem_cons.mpr ⟨hax, fun b hb h => hax ((hs.1 b hb).trans h)⟩
      rw [insertionSort_append, show [x].insertionSort (byKey key) = [x] from rfl,
        foldr_orderedInsert_cons habove, insertAfter, takeWhile_cons_of_neg (by simp [hax]),
        dropWhile_cons_of_neg (by simp [hax])]
      exact congrArg (x :: ·) (pairwise_cons.mpr hs).insertionSort_eq.symm

/-! ## Groups at the front of a merged list -/

/-- Collect the entries of group `k` at the front, keeping the best of those that satisfy `p`;
stop at the first entry of another group. -/
def gather (replaces : α → α → Bool) (key : α → κ) (p : α → Bool) (k : κ) :
    Option α → List α → Option α × List α
  | best, [] => (best, [])
  | best, a :: l =>
    if key a = k then
      gather replaces key p k (if p a then challenge replaces best a else best) l
    else (best, a :: l)

variable {replaces : α → α → Bool} {p : α → Bool}

theorem gather_block {k : κ} {block rest : List α} (hk : ∀ x ∈ block, key x = k)
    (hrest : ∀ x ∈ rest, k < key x) (best : Option α) :
    gather replaces key p k best (block ++ rest) =
      ((block.filter p).foldl (challenge replaces) best, rest) := by
  induction block generalizing best with
  | nil =>
    cases rest with
    | nil => rfl
    | cons c rest => rw [nil_append, gather, if_neg (hrest c (by simp)).ne']; rfl
  | cons a block ih =>
    rw [cons_append, gather, if_pos (hk a (by simp)),
      ih fun x hx => hk x (mem_cons_of_mem _ hx)]
    by_cases ha : p a = true
    · rw [if_pos ha, filter_cons_of_pos ha, foldl_cons]
    · rw [if_neg ha, filter_cons_of_neg ha]

/-- Started on the first entry of a group, the loop ends with the winner of the group. -/
theorem gather_first {a : α} {block rest : List α} (hk : ∀ x ∈ block, key x = key a)
    (hrest : ∀ x ∈ rest, key a < key x) :
    gather replaces key p (key a) (if p a then some a else none) (block ++ rest) =
      (winner replaces ((a :: block).filter p), rest) := by
  rw [gather_block hk hrest]
  by_cases ha : p a = true
  · rw [if_pos ha, filter_cons_of_pos ha]
    rfl
  · rw [if_neg ha, filter_cons_of_neg ha]
    rfl

/-! ## Cursors -/

/-- Call a cursor until it reports the end. -/
def drain (next : List α → Option α × List α) : Nat → List α → List α
  | 0, _ => []
  | fuel + 1, l =>
    match next l with
    | (none, _) => []
    | (some a, rest) => a :: drain next fuel rest

theorem drain_of_end {next : List α → Option α × List α} {l : List α} (h : (next l).1 = none)
    (fuel : Nat) : drain next fuel l = [] := by
  cases fuel with
  | zero => rfl
  | succ fuel =>
    rw [drain]
    split
    next => rfl
    next a rest hnext =>
      rw [hnext] at h
      exact absurd h (Option.some_ne_none a)

theorem drain_congr {next : List α → Option α × List α} {l l' : List α} (h : next l = next l')
    (fuel : Nat) : drain next fuel l = drain next fuel l' := by
  cases fuel with
  | zero => rfl
  | succ fuel => rw [drain, drain, h]

section Drain

variable {next : List α → Option α × List α} {l : List α}

theorem drain_eq_groupWinners (hnil : (next []).1 = none)
    (hnext : ∀ (k : κ) (block rest : List α), block ≠ [] → (∀ x ∈ block, key x = k) →
      (∀ x ∈ rest, k < key x) →
      next (block ++ rest) =
        (winner replaces (block.filter p)).elim (next rest) fun w => (some w, rest))
    (hs : l.Pairwise (byKey key)) :
    ∀ fuel, l.length ≤ fuel → drain next fuel l = groupWinners replaces key p l := by
  refine sorted_block_induction (motive := fun l => ∀ fuel, l.length ≤ fuel →
    drain next fuel l = groupWinners replaces key p l) ?_ ?_ l hs
  · exact fun fuel _ => drain_of_end hnil fuel
  · intro k block rest hne hk hrest ih fuel hfuel
    have hstep := hnext k block rest hne hk hrest
    have hpos : 0 < block.length := length_pos_iff.mpr hne
    rw [length_append] at hfuel
    rw [groupWinners_block hne hk hrest]
    cases hw : winner replaces (block.filter p) with
    | none =>
      rw [hw] at hstep
      rw [drain_congr hstep, ih fuel (by omega)]
      rfl
    | some w =>
      rw [hw] at hstep
      obtain ⟨fuel, rfl⟩ : ∃ n, fuel = n + 1 := ⟨fuel - 1, by omega⟩
      rw [drain, hstep]
      exact congrArg (w :: ·) (ih fuel (by omega))

variable (hnext : ∀ (k : κ) (block rest : List α), block ≠ [] → (∀ x ∈ block, key x = k) →
    (∀ x ∈ rest, k < key x) → next (block ++ rest) = (winner replaces (block.filter p), rest))
  (hs : l.Pairwise (byKey key))
include hnext hs

/-- A cursor that ends at the first group without a winner delivers all winners only if every key
below an accepted entry has an accepted entry. -/
theorem drain_eq_groupWinners_of_gapless (hnil : (next []).1 = none)
    (hgap : ∀ a ∈ l, ∀ b ∈ l, key a < key b → p b = true → ∃ c ∈ l, key c = key a ∧ p c = true) :
    ∀ fuel, l.length ≤ fuel → drain next fuel l = groupWinners replaces key p l := by
  refine sorted_block_induction (motive := fun l => l.Pairwise (byKey key) →
    (∀ a ∈ l, ∀ b ∈ l, key a < key b → p b = true → ∃ c ∈ l, key c = key a ∧ p c = true) →
    ∀ fuel, l.length ≤ fuel → drain next fuel l = groupWinners replaces key p l) ?_ ?_ l hs hs hgap
  · exact fun _ _ fuel _ => drain_of_end hnil fuel
  · intro k block rest hne hk hrest ih hs hgap fuel hfuel
    have hsrest := (pairwise_append.mp hs).2.1
    have hpos : 0 < block.length := length_pos_iff.mpr hne
    rw [length_append] at hfuel
    obtain ⟨fuel, rfl⟩ : ∃ n, fuel = n + 1 := ⟨fuel - 1, by omega⟩
    rw [groupWinners_block hne hk hrest, drain, hnext k block rest hne hk hrest]
    cases hw : winner replaces (block.filter p) with
    | some w =>
      refine congrArg (w :: ·) (ih hsrest (fun a ha b hb hab hpb => ?_) fuel (by omega))
      obtain ⟨c, hc, hca, hpc⟩ := hgap a (by simp [ha]) b (by simp [hb]) hab hpb
      rcases mem_append.mp hc with hc | hc
      · have := hrest a ha
        rw [← hca, hk c hc] at this
        exact absurd this (lt_irrefl k)
      · exact ⟨c, hc, hca, hpc⟩
    | none =>
      -- no accepted entry in this group, hence none in a later one
      have hnone : rest.filter p = [] := by
        rw [filter_eq_nil_iff]
        intro b hb hpb
        obtain ⟨a, ha⟩ := exists_mem_of_ne_nil block hne
        obtain ⟨c, hc, hca, hpc⟩ := hgap a (by simp [ha]) b (by simp [hb])
          (by rw [hk a ha]; exact hrest b hb) hpb
        rcases mem_append.mp hc with hc | hc
        · rw [winner_eq_none_iff, filter_eq_nil_iff] at hw
          exact hw c hc hpc
        · have := hrest c hc
          rw [hca, hk a ha] at this
          exact lt_irrefl k this
      have hempty : groupWinners replaces key p rest = [] := by
        rw [eq_nil_iff_forall_not_mem]
        intro a ha
        have hmem := winner_mem ((mem_groupWinners hsrest).mp ha)
        rw [hnone] at hmem
        exact absurd hmem not_mem_nil
      rw [hempty]
      rfl

/-- Where each group is reported even without an accepted entry, nothing is yielded from the first
such group on. -/
theorem key_lt_of_mem_drain {a : α} (ha : a ∈ l)
    (hgap : ∀ c ∈ l, key c = key a → p c = false) :
    ∀ fuel, ∀ x ∈ drain next fuel l, key x < key a := by
  refine sorted_block_induction (motive := fun l => a ∈ l →
    (∀ c ∈ l, key c = key a → p c = false) →
    ∀ fuel, ∀ x ∈ drain next fuel l, key x < key a) ?_ ?_ l hs ha hgap
  · exact fun ha => absurd ha not_mem_nil
  · intro k block rest hne hk hrest ih ha hgap fuel x hx
    cases fuel with
    | zero => exact absurd hx not_mem_nil
    | succ fuel =>
      rw [drain, hnext k block rest hne hk hrest] at hx
      cases hw : winner replaces (block.filter p) with
      | none =>
        rw [hw] at hx
        exact absurd hx not_mem_nil
      | some w =>
        rw [hw] at hx
        have hwmem := mem_filter.mp (winner_mem hw)
        -- the group has an accepted entry, so it is not the group of `a`
        have harest : a ∈ rest := by
          rcases mem_append.mp ha with h | h
          · have := hgap w (by simp [hwmem.1]) (by rw [hk w hwmem.1, hk a h])
            rw [this] at hwmem
            exact absurd hwmem.2 Bool.false_ne_true
          · exact h
        rcases mem_cons.mp hx with rfl | hx
        · rw [hk x hwmem.1]
          exact hrest a harest
        · exact ih harest (fun c hc => hgap c (by simp [hc])) fuel x hx

end Drain

end MongrelDB.Lib
