import MongrelDB.Lib.Gallop
import MongrelDB.Tablets.Descriptor
import Mathlib.Data.List.Chain
import Mathlib.Order.UpperLower.Basic

/-!
# Ranges of byte-string keys

Byte strings in lexicographic order have a least element, the empty one, and each has
a next one, itself followed by a zero byte.
-/

namespace MongrelDB.Tablets

open Lib PartitionBounds

/-! ## The next key -/

def Key.successor (key : Key) : Key := ⟨key.bytes ++ [0]⟩

theorem lt_append_cons (bytes : Bytes) (b : UInt8) (rest : Bytes) : bytes < bytes ++ b :: rest := by
  have h := @List.append_left_lt _ _ bytes [] (b :: rest) (List.nil_lt_cons b rest)
  rwa [List.append_nil] at h

/-- Two ordered byte strings: the first is the front of the second, or they differ at a byte for
the first time. -/
theorem lt_cases {low high : Bytes} (h : low < high) :
    (∃ b rest, high = low ++ b :: rest) ∨
      ∃ front a l b r, low = front ++ a :: l ∧ high = front ++ b :: r ∧ a < b := by
  induction low generalizing high with
  | nil =>
    cases high with
    | nil => exact absurd h (List.lt_irrefl _)
    | cons b high => exact .inl ⟨b, high, rfl⟩
  | cons a low ih =>
    cases high with
    | nil => exact absurd h (List.not_lt_nil _)
    | cons b high =>
      rcases List.cons_lt_cons_iff.mp h with hlt | ⟨rfl, hlt⟩
      · exact .inr ⟨[], a, low, b, high, rfl, rfl, hlt⟩
      · rcases ih hlt with ⟨b, rest, rfl⟩ | ⟨front, c, l, d, r, rfl, rfl, hcd⟩
        · exact .inl ⟨b, rest, rfl⟩
        · exact .inr ⟨a :: front, c, l, d, r, rfl, rfl, hcd⟩

theorem append_lt_append {front l r : Bytes} {a b : UInt8} (h : a < b) :
    front ++ a :: l < front ++ b :: r :=
  List.append_left_lt (List.cons_lt_cons_iff.mpr (.inl h))

theorem Key.lt_successor (key : Key) : key < key.successor := lt_append_cons key.bytes 0 []

theorem Key.successor_le {low high : Key} (h : low < high) : low.successor ≤ high := by
  rcases lt_cases h with ⟨b, rest, heq⟩ | ⟨front, a, l, b, r, hlow, hhigh, hab⟩
  · show low.bytes ++ [0] ≤ high.bytes
    rw [heq]
    exact List.append_left_le (List.cons_le_cons_iff.mpr
      ((UInt8.lt_or_eq_of_le UInt8.zero_le).imp_right fun heq => ⟨heq, List.nil_le rest⟩))
  · show low.bytes ++ [0] ≤ high.bytes
    rw [hlow, hhigh, List.append_assoc]
    exact List.le_of_lt (append_lt_append hab)

/-! ## Which ranges hold a key -/

/-- Endpoints with no key between them although neither is past the other. -/
def Gap : Bound Key → Bound Key → Prop
  | .unbounded, .excluded high => high = ⟨[]⟩
  | .excluded low, .excluded high => high = low.successor
  | _, _ => False

theorem Gap.empty {low high : Bound Key} (h : Gap low high) {key : Key} (hlow : AboveLow key low) :
    ¬ BelowHigh key high := by
  cases low <;> cases high <;> try exact h.elim
  case unbounded.excluded high =>
    cases h
    exact List.not_lt_nil _
  case excluded.excluded low high =>
    cases h
    exact not_lt.mpr (Key.successor_le hlow)

theorem exists_between_iff {low high : Bound Key} (h : endsBefore high low = false) :
    (∃ key, AboveLow key low ∧ BelowHigh key high) ↔ ¬ Gap low high := by
  refine ⟨fun ⟨_, hlow, hhigh⟩ hgap => hgap.empty hlow hhigh, fun hgap => ?_⟩
  -- the least key, the low key, the high key or the one after the low key
  cases low with
  | unbounded =>
    cases high with
    | unbounded => exact ⟨⟨[]⟩, trivial, trivial⟩
    | included high => exact ⟨high, trivial, le_rfl⟩
    | excluded high => exact ⟨⟨[]⟩, trivial, lt_of_le_of_ne (List.nil_le _) (Ne.symm hgap)⟩
  | included low =>
    refine ⟨low, le_rfl, ?_⟩
    cases high <;> simp [endsBefore, boundKey, Bound.isIncluded, BelowHigh] at h ⊢ <;> grind
  | excluded low =>
    have hlt : ∀ key, boundKey high = some key → low < key := by
      intro key hkey
      cases high <;> cases hkey <;> simp [endsBefore, boundKey, Bound.isIncluded] at h <;> grind
    cases high with
    | unbounded => exact ⟨low.successor, low.lt_successor, trivial⟩
    | included high => exact ⟨high, hlt high rfl, le_rfl⟩
    | excluded high =>
      exact ⟨low.successor, low.lt_successor,
        lt_of_le_of_ne (Key.successor_le (hlt high rfl)) (Ne.symm hgap)⟩

theorem exists_contains_iff {bounds : PartitionBounds Key} (h : bounds.validate = .ok ()) :
    (∃ key, bounds.contains key = true) ↔ ¬ Gap bounds.low bounds.high := by
  simp only [contains_iff]
  exact exists_between_iff (validate_iff.mp h)

/-- The upper half of a split holds the split key, the lower one a key unless it is a gap. -/
theorem splitAt_holds {bounds lower upper : PartitionBounds Key} {key : Key}
    (h : bounds.splitAt key = some (lower, upper)) :
    ((∃ k, lower.contains k = true) ↔ ¬ Gap bounds.low (.excluded key)) ∧
      upper.contains key = true := by
  obtain ⟨hkey, hlower, -⟩ := splitAt_eq_some.mp h
  have hvalid := (build_eq_ok.mp hlower).2
  obtain ⟨-, rfl, rfl⟩ := splitAt_eq h
  exact ⟨exists_contains_iff hvalid, contains_iff.mpr ⟨le_rfl, (contains_iff.mp hkey).2⟩⟩

/-- `is_adjacent_to` -/
def PartitionBounds.isAdjacentTo (a b : PartitionBounds Key) : Bool :=
  meets a.high b.low || meets b.high a.low

section

variable {a b : PartitionBounds Key} (ha : a.validate = .ok ()) (hb : b.validate = .ok ())
include ha hb

theorem exists_shared_iff :
    (∃ key, a.contains key = true ∧ b.contains key = true) ↔ a.overlaps b = true ∧
      ∀ low ∈ [a.low, b.low], ∀ high ∈ [a.high, b.high], ¬ Gap low high := by
  constructor
  · rintro ⟨key, hakey, hbkey⟩
    refine ⟨overlaps_of_contains hakey hbkey, fun low hlow high hhigh hgap => ?_⟩
    rw [contains_iff] at hakey hbkey
    refine hgap.empty (show AboveLow key low from ?_) ?_ <;> grind
  · rintro ⟨hover, hgap⟩
    simp only [overlaps, Bool.and_eq_true, Bool.not_eq_true'] at hover
    -- the pair that counts: the higher of the low endpoints, the lower of the high ones
    obtain ⟨low, hlow, habove⟩ : ∃ low ∈ [a.low, b.low],
        ∀ key, AboveLow key low → AboveLow key a.low ∧ AboveLow key b.low := by
      have hupper : ∀ low : Bound Key, IsUpperSet {key | AboveLow key low} :=
        fun _ _ _ hle h => AboveLow.mono h hle
      rcases (hupper a.low).total (hupper b.low) with h | h
      · exact ⟨a.low, by simp, fun key hk => ⟨hk, h hk⟩⟩
      · exact ⟨b.low, by simp, fun key hk => ⟨h hk, hk⟩⟩
    obtain ⟨high, hhigh, hbelow⟩ : ∃ high ∈ [a.high, b.high],
        ∀ key, BelowHigh key high → BelowHigh key a.high ∧ BelowHigh key b.high := by
      have hlower : ∀ high : Bound Key, IsLowerSet {key | BelowHigh key high} :=
        fun _ _ _ hle h => BelowHigh.mono h hle
      rcases (hlower a.high).total (hlower b.high) with h | h
      · exact ⟨a.high, by simp, fun key hk => ⟨hk, h hk⟩⟩
      · exact ⟨b.high, by simp, fun key hk => ⟨h hk, hk⟩⟩
    have hends : endsBefore high low = false := by
      rw [validate_iff] at ha hb
      grind
    obtain ⟨key, hkl, hkh⟩ := (exists_between_iff hends).mpr (hgap low hlow high hhigh)
    refine ⟨key, ?_⟩
    rw [contains_iff, contains_iff]
    exact ⟨⟨(habove key hkl).1, (hbelow key hkh).1⟩, (habove key hkl).2, (hbelow key hkh).2⟩

theorem validate_of_meets (h : meets a.high b.low = true) :
    ({ low := a.low, high := b.high } : PartitionBounds Key).validate = .ok () := by
  rw [validate_iff] at ha hb ⊢
  obtain ⟨low, high⟩ := a
  obtain ⟨low', high'⟩ := b
  cases high <;> cases low' <;> simp only [meets, Bool.false_eq_true, decide_eq_true_eq] at h
  all_goals
    subst h
    cases low <;> cases high' <;> simp_all [endsBefore, boundKey, Bound.isIncluded] <;> grind

theorem unionAdjacent_isSome (h : a.isAdjacentTo b = true) :
    ∃ union, a.unionAdjacent b = some union := by
  have hbuild : ∀ {low high : Bound Key}, ({ low, high } : PartitionBounds Key).validate = .ok () →
      ∃ union, (build low high).toOption = some union :=
    fun hvalid => ⟨_, toOption_eq_some.mpr (build_eq_ok.mpr ⟨rfl, hvalid⟩)⟩
  unfold unionAdjacent
  split
  · next hmeet => exact hbuild (validate_of_meets ha hb hmeet)
  · next hnot =>
    have hmeet : b.meetsStartOf a = true := (Bool.or_eq_true _ _ ▸ h).resolve_left hnot
    rw [if_pos hmeet]
    exact hbuild (validate_of_meets hb ha hmeet)

/-- For all valid ranges: apart from gaps, they share a key exactly when they overlap; a split is
exact, and apart from a gap its halves hold a key; adjacent ranges have an exact union. -/
theorem ranges_exact :
    ((∃ key, a.contains key = true ∧ b.contains key = true) ↔ a.overlaps b = true ∧
      ∀ low ∈ [a.low, b.low], ∀ high ∈ [a.high, b.high], ¬ Gap low high) ∧
    (∀ key lower upper, a.splitAt key = some (lower, upper) →
      ((∃ k, lower.contains k = true) ↔ ¬ Gap a.low (.excluded key)) ∧
        upper.contains key = true ∧
        ∀ k, (a.contains k = true ↔ lower.contains k = true ∨ upper.contains k = true) ∧
          ¬ (lower.contains k = true ∧ upper.contains k = true)) ∧
    (a.isAdjacentTo b = true → ∃ union, a.unionAdjacent b = some union ∧
      ∀ k, (union.contains k = true ↔ a.contains k = true ∨ b.contains k = true) ∧
        ¬ (a.contains k = true ∧ b.contains k = true)) := by
  refine ⟨exists_shared_iff ha hb, fun key lower upper h => ?_, fun h => ?_⟩
  · obtain ⟨hlower, hupper⟩ := splitAt_holds h
    exact ⟨hlower, hupper, fun k => ⟨splitAt_contains h k, splitAt_disjoint h k⟩⟩
  · obtain ⟨union, hunion⟩ := unionAdjacent_isSome ha hb h
    exact ⟨union, hunion, fun k => ⟨unionAdjacent_contains ha hb hunion k,
      unionAdjacent_disjoint ha hb hunion k⟩⟩

end

/-- The keys from `[1]` to before `[9]`, cut at the key `[5]`. -/
theorem ranges_exact_halves :
    let a : PartitionBounds Key := ⟨.included ⟨[1]⟩, .excluded ⟨[9]⟩⟩
    ∃ lower upper, a.splitAt ⟨[5]⟩ = some (lower, upper) ∧
      ((∃ k, lower.contains k = true) ↔ ¬ Gap a.low (.excluded ⟨[5]⟩)) :=
  ⟨⟨.included ⟨[1]⟩, .excluded ⟨[5]⟩⟩, ⟨.included ⟨[5]⟩, .excluded ⟨[9]⟩⟩, rfl,
    ((@ranges_exact ⟨.included ⟨[1]⟩, .excluded ⟨[9]⟩⟩ .unbounded (by decide) rfl).2.1
      ⟨[5]⟩ _ ⟨.included ⟨[5]⟩, .excluded ⟨[9]⟩⟩ rfl).1⟩

/-- The range between the empty key and the next is valid, overlaps itself and is empty. The whole
key space can be split at the empty key, with nothing in the lower half. -/
theorem valid_ranges_empty :
    (∃ a : PartitionBounds Key, a.validate = .ok () ∧ a.overlaps a = true ∧
      ¬ ∃ key, a.contains key = true) ∧
    ∃ lower upper : PartitionBounds Key, unbounded.splitAt ⟨[]⟩ = some (lower, upper) ∧
      ¬ ∃ key, lower.contains key = true :=
  ⟨⟨⟨.excluded ⟨[]⟩, .excluded ⟨[0]⟩⟩, by decide, by decide,
      fun h => (exists_contains_iff (by decide)).mp h rfl⟩,
    ⟨.unbounded, .excluded ⟨[]⟩⟩, ⟨.included ⟨[]⟩, .unbounded⟩, rfl,
      fun h => (exists_contains_iff rfl).mp h rfl⟩

/-! ## Routing -/

abbrev ColumnId := Nat

/-- `Partitioning::Range` -/
structure RangePartitioning where
  columns : List ColumnId
  splits : List Key
  deriving DecidableEq, Repr

inductive InvalidPartitioning where
  /-- "range partitioning needs at least one column" -/
  | noColumn
  /-- "range splits must be strictly increasing" -/
  | splitsNotIncreasing
  deriving DecidableEq, Repr

namespace RangePartitioning

def validate (p : RangePartitioning) : Except InvalidPartitioning Unit := do
  ensure (¬ p.columns.isEmpty) .noColumn
  ensure (¬ (p.splits.zip p.splits.tail).any fun window => decide (window.2 ≤ window.1))
    .splitsNotIncreasing

/-- The number of splits up to the key. -/
def slot (p : RangePartitioning) (key : Key) : Nat :=
  partitionPoint (fun split => decide (split ≤ key)) p.splits

def route (p : RangePartitioning) (partitionKey : Key) : Except InvalidPartitioning Nat := do
  p.validate
  return p.slot partitionKey

def rangeBounds (p : RangePartitioning) (index : Nat) : Option (PartitionBounds Key) :=
  if p.splits.length < index then none
  else
    let low := match index with
      | 0 => .unbounded
      | previous + 1 => p.splits[previous]?.elim .unbounded .included
    some { low, high := p.splits[index]?.elim .unbounded .excluded }

theorem isChain_of_windows : ∀ {splits : List Key},
    ¬ ((splits.zip splits.tail).any fun window => decide (window.2 ≤ window.1)) = true →
      splits.IsChain (· < ·)
  | [], _ => .nil
  | [split], _ => .singleton split
  | a :: b :: splits, h => by
    simp only [List.tail_cons, List.zip_cons_cons, List.any_cons, Bool.or_eq_true,
      decide_eq_true_eq, not_or, not_le] at h
    exact .cons_cons h.1 (isChain_of_windows h.2)

variable {p : RangePartitioning} (h : p.validate = .ok ())
include h

theorem le_iff_lt_slot {key split : Key} {i : Nat} (hi : p.splits[i]? = some split) :
    split ≤ key ↔ i < p.slot key := by
  have hsorted : p.splits.Pairwise (· < ·) := by
    simp only [validate, bind_eq_ok, ensure_eq_ok] at h
    obtain ⟨_, -, hwindows⟩ := h
    exact List.isChain_iff_pairwise.mp (isChain_of_windows hwindows)
  have hp : Partitioned (fun split => decide (split ≤ key)) p.splits :=
    hsorted.imp fun hlt hle => decide_eq_true (hlt.le.trans (of_decide_eq_true hle))
  rw [slot, ← meets_iff hp hi, decide_eq_true_iff]

theorem rangeBounds_contains {index : Nat} {bounds : PartitionBounds Key}
    (hb : p.rangeBounds index = some bounds) (key : Key) :
    bounds.contains key = true ↔ index = p.slot key := by
  have hlen : p.slot key ≤ p.splits.length := partitionPoint_le
  unfold rangeBounds at hb
  split at hb
  · cases hb
  next hindex =>
    cases hb
    rw [contains_iff, le_antisymm_iff]
    refine and_congr ?_ ?_
    · cases index with
      | zero => exact iff_of_true trivial (Nat.zero_le _)
      | succ previous =>
        have hget := List.getElem?_eq_getElem (show previous < p.splits.length by omega)
        simp only [hget, Option.elim_some]
        exact le_iff_lt_slot h hget
    · cases hget : p.splits[index]? with
      | none =>
        have := List.getElem?_eq_none_iff.mp hget
        exact iff_of_true trivial (by omega)
      | some split =>
        rw [← not_lt, ← le_iff_lt_slot h hget, not_le]
        rfl

end RangePartitioning

section

variable (tablets : List TabletDescriptor) (tableId : TableId)

def findTabletForKey (routedKey : Key) : Option TabletDescriptor :=
  tablets.find? fun tablet => tablet.tableId == tableId && tablet.state.isRoutable &&
    tablet.partition.contains routedKey

/-- `Unbounded` first, and at equal keys an included endpoint before an excluded one. -/
def cmpLowBounds : Bound Key → Bound Key → Ordering
  | .unbounded, .unbounded => .eq
  | .unbounded, _ => .lt
  | _, .unbounded => .gt
  | .included left, .included right => compare left right
  | .excluded left, .excluded right => compare left right
  | .included left, .excluded right => (compare left right).then .lt
  | .excluded left, .included right => (compare left right).then .gt

def tabletsOverlapping (range : PartitionBounds Key) : List TabletDescriptor :=
  (tablets.filter fun tablet => tablet.tableId == tableId && tablet.state.isRoutable &&
    tablet.partition.overlaps range).mergeSort fun left right =>
      ((cmpLowBounds left.partition.low right.partition.low).then
        (compare left.tabletId right.tabletId)).isLE

end

/-- For every valid range partitioning and key: `route` answers the one partition whose bounds
contain the key. And for all tablets, ranges and keys of the range: the tablet found for the key
is among those found for the range. -/
theorem routing_agrees :
    (∀ p : RangePartitioning, p.validate = .ok () → ∀ key, ∃ index bounds,
      p.route key = .ok index ∧ p.rangeBounds index = some bounds ∧
        bounds.contains key = true ∧
        ∀ other bounds', p.rangeBounds other = some bounds' → bounds'.contains key = true →
          other = index) ∧
    ∀ tablets tableId (range : PartitionBounds Key) key tablet, range.contains key = true →
      findTabletForKey tablets tableId key = some tablet →
      tablet ∈ tabletsOverlapping tablets tableId range := by
  constructor
  · intro p hp key
    obtain ⟨bounds, hbounds⟩ : ∃ bounds, p.rangeBounds (p.slot key) = some bounds := by
      unfold RangePartitioning.rangeBounds
      exact ⟨_, if_neg (Nat.not_lt.mpr partitionPoint_le)⟩
    refine ⟨p.slot key, bounds, ?_, hbounds, (p.rangeBounds_contains hp hbounds key).mpr rfl,
      fun other bounds' ho hc => (p.rangeBounds_contains hp ho key).mp hc⟩
    simp only [RangePartitioning.route, hp]
    rfl
  · intro tablets tableId range key tablet hkey h
    have htablet := List.find?_some h
    simp only [Bool.and_eq_true] at htablet
    rw [tabletsOverlapping, List.mem_mergeSort, List.mem_filter]
    refine ⟨List.mem_of_find?_eq_some h, ?_⟩
    simp only [Bool.and_eq_true]
    exact ⟨htablet.1, overlaps_of_contains htablet.2 hkey⟩

/-- Two partitions, below the key `[5]` and from it on. -/
theorem routing_agrees_halves : ∃ index bounds,
    (⟨[0], [⟨[5]⟩]⟩ : RangePartitioning).route ⟨[7]⟩ = .ok index ∧
      (⟨[0], [⟨[5]⟩]⟩ : RangePartitioning).rangeBounds index = some bounds ∧
        bounds.contains ⟨[7]⟩ = true :=
  let ⟨index, bounds, hroute, hbounds, hkey, _⟩ := routing_agrees.1 ⟨[0], [⟨[5]⟩]⟩ rfl ⟨[7]⟩
  ⟨index, bounds, hroute, hbounds, hkey⟩

end MongrelDB.Tablets
