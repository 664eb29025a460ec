/-
Tallies over a tower of levels. Every member of a finite set has one
ancestor on each level (`anc i k`); the tally of the set counts, for
each node of each level, the members below it.

A structure that keeps such counts changes them one node at a time, so
between two updates its counts are those of no set at all. A tally is
therefore any integer-valued function of level and node, added and
subtracted pointwise: `point` is one node, `path` the nodes of one
member's ancestors on a range of levels, and a sequence of single-node
updates along a member's path telescopes (`path_succ`, `path_cons`) to
the difference between the tallies of two sets (`tally_insert`,
`tally_erase`).
-/
import Mathlib

namespace CroCOS.Lib

variable {hi k lo : Nat}

/-- A count for every node of every level. -/
abbrev Tally (κ : Type _) := Nat → κ → Int

variable {ι κ : Type _} [DecidableEq κ]

section Defs

variable (anc : ι → Nat → κ)

/-- The members of `s` below each node. -/
def tally (s : Finset ι) : Tally κ :=
  fun k e => ((s.filter fun i => anc i k = e).card : Int)

/-- One node. -/
def point (k : Nat) (e : κ) : Tally κ :=
  fun k' e' => if k' = k ∧ e' = e then 1 else 0

/-- The ancestors of `i` on the levels from `lo` up to `hi`. -/
def path (i : ι) (lo hi : Nat) : Tally κ :=
  fun k e => if (lo ≤ k ∧ k < hi) ∧ e = anc i k then 1 else 0

end Defs

variable {anc : ι → Nat → κ} {s : Finset ι} {i : ι}

-- ==== paths

theorem path_self (lo : Nat) : path anc i lo lo = 0 := by
  funext k e
  exact if_neg fun h => by omega

/-- A path grows at its upper end by one node. -/
theorem path_succ (h : lo ≤ hi) :
    path anc i lo (hi + 1) = path anc i lo hi + point hi (anc i hi) := by
  funext k e
  simp only [path, point, Pi.add_apply]
  by_cases hk : k = hi
  · subst hk
    by_cases he : e = anc i k
    · simp [h]
    · simp [he]
  · have hiff : (lo ≤ k ∧ k < hi + 1) ↔ (lo ≤ k ∧ k < hi) := by omega
    simp only [hk, hiff, false_and, if_false, Int.add_zero]

/-- A path grows at its lower end by one node. -/
theorem path_cons (h : lo < hi) :
    path anc i lo hi = path anc i (lo + 1) hi + point lo (anc i lo) := by
  funext k e
  simp only [path, point, Pi.add_apply]
  by_cases hk : k = lo
  · subst hk
    have hno : ¬ k + 1 ≤ k := by omega
    by_cases he : e = anc i k
    · simp [h]
    · simp [he]
  · have hiff : (lo ≤ k ∧ k < hi) ↔ (lo + 1 ≤ k ∧ k < hi) := by omega
    simp only [hk, hiff, false_and, if_false, Int.add_zero]

/-- Two members with the same ancestors have the same path. -/
theorem path_congr {j : ι} (h : ∀ k, lo ≤ k → anc i k = anc j k) :
    path anc i lo hi = path anc j lo hi := by
  funext k e
  unfold path
  by_cases hk : lo ≤ k
  · rw [h k hk]
  · rw [if_neg fun h' => hk h'.1.1, if_neg fun h' => hk h'.1.1]

theorem path_apply (hlo : lo ≤ k) (hhi : k < hi) (e : κ) :
    path anc i lo hi k e = if e = anc i k then 1 else 0 := by
  simp only [path, hlo, hhi, true_and]

theorem path_apply_below (h : k < lo) (e : κ) : path anc i lo hi k e = 0 :=
  if_neg fun hp => by omega

-- ==== tallies

/-- A node has a positive tally when a member lies below it. -/
theorem tally_pos_iff {e : κ} : 0 < tally anc s k e ↔ ∃ i ∈ s, anc i k = e := by
  unfold tally
  rw [Int.natCast_pos, Finset.card_pos]
  constructor
  · rintro ⟨i, hi⟩
    exact ⟨i, Finset.mem_filter.mp hi⟩
  · rintro ⟨i, hi⟩
    exact ⟨i, Finset.mem_filter.mpr hi⟩

theorem tally_empty : tally anc (∅ : Finset ι) = 0 := by
  funext k e
  simp [tally]

/-- A new member is counted once on each level. -/
theorem tally_insert [DecidableEq ι] (h : i ∉ s) (k : Nat) (e : κ) :
    tally anc (insert i s) k e
      = tally anc s k e + if e = anc i k then 1 else 0 := by
  unfold tally
  rw [Finset.filter_insert]
  by_cases he : anc i k = e
  · rw [if_pos he, if_pos he.symm, Finset.card_insert_of_notMem]
    · exact Int.natCast_succ _
    · exact fun hmem => h (Finset.mem_filter.mp hmem).1
  · rw [if_neg he, if_neg (fun h' => he h'.symm), Int.add_zero]

/-- A removed member is uncounted once on each level. -/
theorem tally_erase [DecidableEq ι] (h : i ∈ s) (k : Nat) (e : κ) :
    tally anc (s.erase i) k e
      = tally anc s k e - if e = anc i k then 1 else 0 := by
  have hins : tally anc (insert i (s.erase i)) k e = _ :=
    tally_insert (Finset.notMem_erase i s) k e
  rw [Finset.insert_erase h] at hins
  omega

end CroCOS.Lib
