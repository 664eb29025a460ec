/-
Walks along a pointer. Every element has at most one successor, `next`,
and a successor is of a higher rank, below a bound (`Rises`); so a walk
from any element comes to an end, and the bound is fuel enough for it.
`walk` lists the elements it passes, `terminal` is the last of them.

What the proofs use is how the two unfold (`walk_some`,
`terminal_some`), induction along the pointer (`Rises.induct`), and
what a new pointer at an element without one does to every walk
(`walk_update`, `terminal_update`): the walks that ended there go on.
-/
import Mathlib

namespace CroCOS.Lib

open Function

variable {α : Type _}

/-- The elements from `v` on, `fuel` steps at most. -/
def walk (next : α → Option α) : Nat → α → List α
  | 0, v => [v]
  | fuel + 1, v =>
    match next v with
    | none => [v]
    | some w => v :: walk next fuel w

/-- Where the walk from `v` ends. -/
def terminal (next : α → Option α) : Nat → α → α
  | 0, v => v
  | fuel + 1, v =>
    match next v with
    | none => v
    | some w => terminal next fuel w

/-- The pointer leads to higher ranks, all below the bound. -/
structure Rises (next : α → Option α) (rank : α → Nat) (n : Nat) : Prop where
  rank_lt : ∀ {v w}, next v = some w → rank v < rank w
  bounded : ∀ {v w}, next v = some w → rank w < n

section Unfold

variable {next : α → Option α} {v w : α}

theorem walk_none (hv : next v = none) (fuel : Nat) :
    walk next fuel v = [v] := by
  cases fuel <;> simp [walk, hv]

theorem terminal_none (hv : next v = none) (fuel : Nat) :
    terminal next fuel v = v := by
  cases fuel <;> simp [terminal, hv]

/-- The terminal is the walk's last element. -/
theorem getLast?_walk (next : α → Option α) (fuel : Nat) (v : α) :
    (walk next fuel v).getLast? = some (terminal next fuel v) := by
  induction fuel generalizing v with
  | zero => rfl
  | succ fuel ih =>
    rw [walk, terminal]
    cases next v with
    | none => rfl
    | some w =>
      rw [List.getLast?_cons, ih w]
      rfl

theorem terminal_mem_walk (next : α → Option α) (fuel : Nat) (v : α) :
    terminal next fuel v ∈ walk next fuel v :=
  List.mem_of_getLast? (getLast?_walk next fuel v)

end Unfold

namespace Rises

variable {next : α → Option α} {rank : α → Nat} {n : Nat}
variable {v w x : α}

section

variable (h : Rises next rank n)
include h

/-- Induction along the pointer. -/
theorem induct {P : α → Prop}
    (hstep : ∀ v, (∀ w, next v = some w → P w) → P v) (v : α) : P v := by
  -- the distance to the bound falls at each step
  induction hd : n - rank v using Nat.strong_induction_on generalizing v with
  | h d ih =>
    refine hstep v fun w hw => ih (n - rank w) ?_ w rfl
    have hlt := h.rank_lt hw
    have hbound := h.bounded hw
    omega

/-- Fuel that reaches to the bound is left for one step, and reaches to
the bound from there. -/
theorem fuel_succ (hv : next v = some w) {fuel : Nat}
    (hfuel : n ≤ rank v + fuel + 1) :
    ∃ m, fuel = m + 1 ∧ n ≤ rank w + m + 1 := by
  have hlt := h.rank_lt hv
  have hbound := h.bounded hv
  exact ⟨fuel - 1, by omega, by omega⟩

/-- More fuel makes no difference. -/
theorem walk_fuel (v : α) :
    ∀ fuel fuel', n ≤ rank v + fuel + 1 → n ≤ rank v + fuel' + 1 →
      walk next fuel v = walk next fuel' v := by
  induction v using h.induct with
  | hstep v ih =>
    intro fuel fuel' hle hle'
    cases hv : next v with
    | none => rw [walk_none hv, walk_none hv]
    | some w =>
      obtain ⟨m, rfl, hm⟩ := h.fuel_succ hv hle
      obtain ⟨m', rfl, hm'⟩ := h.fuel_succ hv hle'
      simp only [walk, hv]
      rw [ih w hv m m' hm hm']

theorem walk_some (hv : next v = some w) :
    walk next n v = v :: walk next n w := by
  have hbound := h.bounded hv
  obtain ⟨m, rfl⟩ : ∃ m, n = m + 1 := ⟨n - 1, by omega⟩
  simp only [walk, hv]
  rw [h.walk_fuel w m (m + 1) (by omega) (by omega)]
  rfl

theorem terminal_some (hv : next v = some w) :
    terminal next n v = terminal next n w := by
  have hlast := getLast?_walk next n v
  rw [h.walk_some hv, List.getLast?_cons, getLast?_walk] at hlast
  exact (Option.some.inj hlast).symm

theorem next_terminal (v : α) : next (terminal next n v) = none := by
  induction v using h.induct with
  | hstep v ih =>
    cases hv : next v with
    | none => rw [terminal_none hv, hv]
    | some w =>
      rw [h.terminal_some hv]
      exact ih w hv

/-- What holds at `x`, and of a node before any that it holds of, holds
where a walk through `x` starts. -/
theorem of_mem_walk {P : α → Prop} (hx : x ∈ walk next n v) (hself : P x)
    (hback : ∀ {v w}, next v = some w → P w → P v) : P v := by
  induction v using h.induct with
  | hstep v ih =>
    cases hv : next v with
    | none =>
      rw [walk_none hv, List.mem_singleton] at hx
      exact hx ▸ hself
    | some w =>
      rw [h.walk_some hv, List.mem_cons] at hx
      rcases hx with rfl | hx
      · exact hself
      · exact hback hv (ih w hv hx)

/-- Everything on a walk comes to the same end. -/
theorem terminal_of_mem (hx : x ∈ walk next n v) :
    terminal next n x = terminal next n v :=
  h.of_mem_walk (P := (terminal next n x = terminal next n ·)) hx rfl
    fun hv he => he.trans (h.terminal_some hv).symm

theorem rank_le_of_mem (hx : x ∈ walk next n v) : rank v ≤ rank x :=
  h.of_mem_walk (P := (rank · ≤ rank x)) hx le_rfl
    fun hv hle => (h.rank_lt hv).le.trans hle

end

-- ------------------------------------------------- one pointer more

section Update

variable [DecidableEq α] {u t : α}

/-- The walk from `t` does not come to `u`, which is of a lower rank. -/
theorem terminal_ne_of_update (h : Rises next rank n)
    (h' : Rises (update next u (some t)) rank n) :
    terminal next n t ≠ u := by
  intro he
  have hut : rank u < rank t := h'.rank_lt (update_self ..)
  have hle := h.rank_le_of_mem (terminal_mem_walk next n t)
  rw [he] at hle
  omega

/-- The walks that ended at `u` go on as the one from `t`. -/
theorem walk_update (h : Rises next rank n)
    (h' : Rises (update next u (some t)) rank n)
    (hu : next u = none) (v : α) :
    walk (update next u (some t)) n v
      = if terminal next n v = u then walk next n v ++ walk next n t
        else walk next n v := by
  have ht := h.terminal_ne_of_update h'
  induction v using h'.induct with
  | hstep v ih =>
    by_cases hvu : v = u
    · subst hvu
      have hnext := update_self v (some t) next
      rw [h'.walk_some hnext, ih t hnext, if_neg ht, walk_none hu,
        terminal_none hu, if_pos rfl, List.singleton_append]
    · have hnext := update_of_ne hvu (some t) next
      cases hv : next v with
      | none =>
        rw [hv] at hnext
        rw [walk_none hnext, walk_none hv, terminal_none hv, if_neg hvu]
      | some w =>
        rw [hv] at hnext
        rw [h'.walk_some hnext, ih w hnext, h.terminal_some hv, h.walk_some hv]
        split <;> rfl

/-- The walks that ended at `u` end where the one from `t` does. -/
theorem terminal_update (h : Rises next rank n)
    (h' : Rises (update next u (some t)) rank n)
    (hu : next u = none) (v : α) :
    terminal (update next u (some t)) n v
      = if terminal next n v = u then terminal next n t
        else terminal next n v := by
  have hlast := getLast?_walk (update next u (some t)) n v
  rw [h.walk_update h' hu] at hlast
  split at hlast <;> rename_i hend
  · rw [List.getLast?_append, getLast?_walk] at hlast
    rw [if_pos hend, Option.some.inj hlast]
  · rw [getLast?_walk] at hlast
    rw [if_neg hend, Option.some.inj hlast]

end Update

end Rises

end CroCOS.Lib
