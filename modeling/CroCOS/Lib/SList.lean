/-
Singly linked lists. Many lists share one `next` field per node; a
list is known by the pointer to its first node. `Spells next h xs`
walks the nodes `xs` from the pointer `h` to null. A write to the
`next` of a node that is not on a list leaves the list alone
(`Spells.update`); pushing and popping at the head follow.
-/
import Mathlib

namespace CroCOS.Lib

variable {ν : Type _}

/-- From the pointer `h`, following `next`, the nodes are `xs`. -/
def Spells (next : ν → Option ν) : Option ν → List ν → Prop
  | h, [] => h = none
  | h, x :: xs => h = some x ∧ Spells next (next x) xs

namespace Spells

variable {next : ν → Option ν} {h : Option ν} {x : ν} {xs : List ν}

/-- The list is empty exactly when its pointer is null. -/
theorem eq_nil_iff (hs : Spells next h xs) : xs = [] ↔ h = none := by
  cases xs with
  | nil => exact ⟨fun _ => hs, fun _ => rfl⟩
  | cons x xs =>
    constructor
    · intro he
      cases he
    · intro hn
      rw [hs.1] at hn
      cases hn

/-- A pointer to a node is the head of its list. -/
theorem cons_of_some (hs : Spells next (some x) xs) :
    ∃ ys, xs = x :: ys ∧ Spells next (next x) ys := by
  cases xs with
  | nil => cases hs
  | cons y ys =>
    obtain ⟨he, hr⟩ := hs
    cases he
    exact ⟨ys, rfl, hr⟩

/-- Lists that agree on their nodes' fields spell the same. -/
theorem congr {next' : ν → Option ν} (hs : Spells next h xs)
    (he : ∀ y ∈ xs, next' y = next y) : Spells next' h xs := by
  induction xs generalizing h with
  | nil => exact hs
  | cons x xs ih =>
    refine ⟨hs.1, ?_⟩
    rw [he x List.mem_cons_self]
    exact ih hs.2 fun y hy => he y (List.mem_cons_of_mem x hy)

/-- Writing the field of a node that is not on the list. -/
theorem update [DecidableEq ν] (hs : Spells next h xs) (hx : x ∉ xs)
    (v : Option ν) : Spells (Function.update next x v) h xs := by
  refine hs.congr fun y hy => ?_
  rw [Function.update_of_ne]
  intro he
  rw [he] at hy
  exact hx hy

/-- Linking a new node in front. -/
theorem push [DecidableEq ν] (hs : Spells next h xs) (hx : x ∉ xs) :
    Spells (Function.update next x h) (some x) (x :: xs) := by
  refine ⟨rfl, ?_⟩
  rw [Function.update_self]
  exact hs.update hx h

/-- Unlinking the first node and clearing its field. -/
theorem pop [DecidableEq ν] (hs : Spells next h (x :: xs)) (hx : x ∉ xs) :
    Spells (Function.update next x none) (next x) xs :=
  hs.2.update hx none

end Spells

end CroCOS.Lib
