/-
What an ordered tree answers, as questions about the finite set of its
elements: the extremes, the greatest element at or below a value, the
neighbours of an element.

Every answer is the greatest or the least element of a part of the set;
`greatest_eq_some_iff` and `least_eq_some_iff` say when an element is
it, and each query has one lemma read off from them.
-/
import Mathlib

namespace CroCOS.Lib.OrderedSet

variable {α : Type _} [LinearOrder α]

/-- The greatest element, if there is one. -/
def greatest (s : Finset α) : Option α :=
  if h : s.Nonempty then some (s.max' h) else none

/-- The least element, if there is one. -/
def least (s : Finset α) : Option α :=
  if h : s.Nonempty then some (s.min' h) else none

/-- The greatest element at or below `x`. -/
def floor (s : Finset α) (x : α) : Option α := greatest (s.filter (· ≤ x))

/-- The greatest element below `x`. -/
def predecessor (s : Finset α) (x : α) : Option α :=
  greatest (s.filter (· < x))

/-- The least element above `x`. -/
def successor (s : Finset α) (x : α) : Option α :=
  least (s.filter (x < ·))

variable {s : Finset α} {x y : α}

theorem greatest_eq_some_iff :
    greatest s = some x ↔ x ∈ s ∧ ∀ y ∈ s, y ≤ x := by
  unfold greatest
  by_cases h : s.Nonempty
  · rw [dif_pos h, Option.some.injEq, Finset.max'_eq_iff]
  · rw [dif_neg h]
    constructor
    · intro hx
      cases hx
    · intro hx
      exact absurd ⟨x, hx.1⟩ h

theorem least_eq_some_iff : least s = some x ↔ x ∈ s ∧ ∀ y ∈ s, x ≤ y := by
  unfold least
  by_cases h : s.Nonempty
  · rw [dif_pos h, Option.some.injEq, Finset.min'_eq_iff]
  · rw [dif_neg h]
    constructor
    · intro hx
      cases hx
    · intro hx
      exact absurd ⟨x, hx.1⟩ h

theorem greatest_eq_none_iff : greatest s = none ↔ s = ∅ := by
  unfold greatest
  by_cases h : s.Nonempty
  · rw [dif_pos h]
    constructor
    · intro hx
      cases hx
    · intro hs
      exact absurd hs h.ne_empty
  · rw [dif_neg h]
    exact ⟨fun _ => Finset.not_nonempty_iff_eq_empty.mp h, fun _ => rfl⟩

theorem least_eq_none_iff : least s = none ↔ s = ∅ := by
  unfold least
  by_cases h : s.Nonempty
  · rw [dif_pos h]
    constructor
    · intro hx
      cases hx
    · intro hs
      exact absurd hs h.ne_empty
  · rw [dif_neg h]
    exact ⟨fun _ => Finset.not_nonempty_iff_eq_empty.mp h, fun _ => rfl⟩

theorem floor_eq_some_iff :
    floor s x = some y ↔ y ∈ s ∧ y ≤ x ∧ ∀ z ∈ s, z ≤ x → z ≤ y := by
  unfold floor
  rw [greatest_eq_some_iff]
  simp only [Finset.mem_filter, and_imp, and_assoc]

theorem predecessor_eq_some_iff :
    predecessor s x = some y ↔ y ∈ s ∧ y < x ∧ ∀ z ∈ s, z < x → z ≤ y := by
  unfold predecessor
  rw [greatest_eq_some_iff]
  simp only [Finset.mem_filter, and_imp, and_assoc]

theorem successor_eq_some_iff :
    successor s x = some y ↔ y ∈ s ∧ x < y ∧ ∀ z ∈ s, x < z → y ≤ z := by
  unfold successor
  rw [least_eq_some_iff]
  simp only [Finset.mem_filter, and_imp, and_assoc]

end CroCOS.Lib.OrderedSet
