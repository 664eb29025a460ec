/-
How a modelled operation can fail to return. The kernel code has no
exceptions: an operation either returns or ends the run, through one
of its own asserts or through an access the language leaves undefined.
Every fallible function of the model returns `Except Fault`, so "never
reaches the assert" and "never dereferences null" are statements about
its value.
-/
import Mathlib

namespace CroCOS

/-- The ways a call ends without returning. -/
inductive Fault
  /-- An `assert` or `assertNotReached` of the source, by its text. -/
  | assertion (msg : String)
  /-- A read or write through a null pointer. -/
  | nullDeref
  /-- A division or remainder by zero. -/
  | divideByZero
  /-- An index past the end of an array. -/
  | outOfBounds
  /-- A loop that would go on for ever. -/
  | diverges
  /-- A point marked `__builtin_unreachable`. -/
  | unreachable
  deriving DecidableEq, Repr

variable {α β : Type _}

@[simp] theorem ok_bind (a : α) (f : α → Except Fault β) :
    (Except.ok a >>= f) = f a := rfl

@[simp] theorem error_bind (e : Fault) (f : α → Except Fault β) :
    (Except.error e >>= f) = .error e := rfl

end CroCOS
