/-
Postconditions of fallible computations: `Ensures P x` says that
whatever `x` returns satisfies `P`. A fault satisfies every
postcondition, so these rules are for what a call may hand out, not for
whether it returns. One rule for each way a computation is put together:
sequencing, branching, and a loop over a list.
-/
import Mathlib

namespace CroCOS.Lib

variable {ε α β : Type _} {P Q : α → Prop} {x : Except ε α}

/-- Whatever the computation returns satisfies `P`. -/
def Ensures (P : α → Prop) (x : Except ε α) : Prop :=
  ∀ t, x = .ok t → P t

namespace Ensures

theorem ok {t : α} (h : P t) : Ensures P (.ok t : Except ε α) := by
  intro t' heq
  cases heq
  exact h

theorem error (e : ε) : Ensures P (.error e : Except ε α) := by
  intro t heq
  cases heq

theorem imp (h : Ensures P x) (himp : ∀ t, P t → Q t) : Ensures Q x :=
  fun t heq => himp t (h t heq)

theorem and (h : Ensures P x) (h' : Ensures Q x) :
    Ensures (fun t => P t ∧ Q t) x :=
  fun t heq => ⟨h t heq, h' t heq⟩

theorem bind {R : β → Prop} {f : α → Except ε β} (h : Ensures P x)
    (hf : ∀ t, P t → Ensures R (f t)) : Ensures R (x >>= f) := by
  cases x with
  | error e => exact error e
  | ok t => exact hf t (h t rfl)

theorem map {R : β → Prop} {f : α → β} (h : Ensures (fun t => R (f t)) x) :
    Ensures R (x.map f) := by
  cases x with
  | error e => exact error e
  | ok t => exact ok (h t rfl)

theorem ite {c : Prop} [Decidable c] {y : Except ε α}
    (ht : c → Ensures P x) (hf : ¬ c → Ensures P y) :
    Ensures P (if c then x else y) := by
  by_cases hc : c
  · rw [if_pos hc]
    exact ht hc
  · rw [if_neg hc]
    exact hf hc

/-- The loop rule: an invariant of the turns is one of the loop. -/
theorem foldlM {f : α → β → Except ε α} {l : List β}
    (hturn : ∀ b ∈ l, ∀ t, P t → Ensures P (f t b)) :
    ∀ {t : α}, P t → Ensures P (l.foldlM f t) := by
  induction l with
  | nil => exact fun h => ok h
  | cons b l ih =>
    intro t h
    exact (hturn b List.mem_cons_self t h).bind fun t' h' =>
      ih (fun c hc => hturn c (List.mem_cons_of_mem b hc)) h'

end Ensures

end CroCOS.Lib
