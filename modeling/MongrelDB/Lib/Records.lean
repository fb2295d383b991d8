import Mathlib.Data.List.Nodup
import Std.Data.TreeMap.Lemmas

/-!
# Facts about every record of a store

A store maps keys to records. Many of its invariants say something of each record
by itself; here is how such a fact fares when a record is put or removed.
-/

namespace MongrelDB.Lib

open List

universe u v

variable {κ : Type u} {ρ : Type v} [Ord κ]

/-- `p` of each record. -/
def Every (m : Std.TreeMap κ ρ) (p : ρ → Prop) : Prop := ∀ (k : κ) (r : ρ), m[k]? = some r → p r

theorem Every.mono {m : Std.TreeMap κ ρ} {p q : ρ → Prop} (h : Every m p)
    (hpq : ∀ r, p r → q r) : Every m q :=
  fun k r hr => hpq r (h k r hr)

variable [Std.TransOrd κ] {m : Std.TreeMap κ ρ} {p : ρ → Prop}

theorem Every.empty : Every (∅ : Std.TreeMap κ ρ) p := by
  intro k r h
  simp at h

theorem Every.insert (h : Every m p) {k : κ} {r : ρ} (hr : p r) : Every (m.insert k r) p := by
  intro k' r' h'
  rw [Std.TreeMap.getElem?_insert] at h'
  split at h'
  · cases h'
    exact hr
  · exact h k' r' h'

theorem mem_insert_of_mem {k k' : κ} {r : ρ} (h : k' ∈ m) : k' ∈ m.insert k r :=
  Std.TreeMap.mem_insert.mpr (.inr h)

variable [Std.LawfulEqOrd κ]

theorem mem_erase_of_ne {k k' : κ} (h : k' ∈ m) (hne : k' ≠ k) : k' ∈ m.erase k :=
  Std.TreeMap.mem_erase.mpr ⟨by simpa using Ne.symm hne, h⟩

theorem every_iff_toList : Every m p ↔ ∀ e ∈ m.toList, p e.2 := by
  constructor
  · intro h e he
    exact h e.1 e.2 (Std.TreeMap.mem_toList_iff_getElem?_eq_some.mp he)
  · intro h k r hr
    exact h (k, r) (Std.TreeMap.mem_toList_iff_getElem?_eq_some.mpr hr)

instance [DecidablePred p] : Decidable (Every m p) := decidable_of_iff _ every_iff_toList.symm

theorem find?_key_eq_some {α : Type u} {β : Type v} [DecidableEq β] {f : α → β} {l : List α}
    (hdistinct : (l.map f).Nodup) {a : α} {b : β} :
    (l.find? fun x => f x = b) = some a ↔ a ∈ l ∧ f a = b := by
  constructor
  · intro h
    exact ⟨mem_of_find?_eq_some h, of_decide_eq_true (find?_some h :)⟩
  · rintro ⟨hmem, rfl⟩
    cases hfound : l.find? fun x => f x = f a with
    | none =>
      have hnot := find?_eq_none.mp hfound a hmem
      simp at hnot
    | some a' =>
      have hkey : f a' = f a := of_decide_eq_true (find?_some hfound :)
      rw [inj_on_of_nodup_map hdistinct (mem_of_find?_eq_some hfound) hmem hkey]

end MongrelDB.Lib
