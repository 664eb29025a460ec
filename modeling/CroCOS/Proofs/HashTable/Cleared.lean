/-
The map after `clear` and after it was moved from: its buffer is null,
its capacity zero.

`insert` makes a buffer first and `contains` tests for one. The other
calls probe at once and divide by the capacity. So a cleared map answers
as a new one once an insert has come before them: `Holds` adds the null
table to `Refines`, `Serves` is what a call has to meet on either.
-/
import CroCOS.Proofs.HashTable.Calls

namespace CroCOS.HashTable.HashMap

open Lib

variable {K V : Type _} [DecidableEq K]
variable {hasher : K → Nat} {t : HashMap K V} {m : Finmap fun _ : K => V}

/-- The calls on a finite map. -/
def opSpec [Inhabited V] (m : Finmap fun _ : K => V) :
    Op K V → (Finmap fun _ : K => V) × Answer V
  | .call c => spec m c
  | .atKey key => (m, .found (m.lookup key))
  | .clear => (∅, .done)
  | .moveFrom => (∅, .done)

/-- The table holds `m`, or is null and `m` is empty. -/
def Holds (hasher : K → Nat) (t : HashMap K V)
    (m : Finmap fun _ : K => V) : Prop :=
  Refines hasher t m ∨ t = ⟨none, 0⟩ ∧ m = ∅

/-- The probe of a call returns; `contains` needs none on a null table,
and `at` is for a key that is there. -/
def Serves (t : HashMap K V) : Op K V → Prop
  | .call (.contains key) =>
    t.entryBuffer = none ∨ MeetsLoadLimit Prod.fst t key
  | .call c => Meets t c
  | .atKey key => Held Prod.fst t.entries key
  | .clear => True
  | .moveFrom => True

theorem holds_null : Holds hasher (⟨none, 0⟩ : HashMap K V) ∅ :=
  .inr ⟨rfl, rfl⟩

omit [DecidableEq K] in
/-- A null table meets no load limit. -/
theorem not_meets_null (k : K) :
    ¬ MeetsLoadLimit Prod.fst (⟨none, 0⟩ : HashMap K V) k := by
  rintro (h | ⟨i, v, h, -⟩)
  · cases h
  · cases h

variable [Inhabited V]

/-- An insert into a null table is one into a table of eight slots. -/
theorem step_insert_null (k : K) (v : V) : step hasher ⟨none, 0⟩ (.insert k v)
      = step hasher (IndexedHashTable.create 8) (.insert k v) := by
  have hnull : resizeIfNecessary hasher Prod.fst (⟨none, 0⟩ : HashMap K V)
      = .ok (IndexedHashTable.create 8, true) := rfl
  have hnew : resizeIfNecessary hasher Prod.fst
      (IndexedHashTable.create 8 : HashMap K V)
      = .ok (IndexedHashTable.create 8, false) := by
    simp [resizeIfNecessary, newCapacityFor, IndexedHashTable.create,
      IndexedHashTable.capacity, IndexedHashTable.entries]
  simp only [step, insert, insertWith, hnull, hnew]

/-- On a null table: what can be served, and what probes. -/
theorem op_null (hasher : K → Nat) (op : Op K V) :
    (Serves ⟨none, 0⟩ op → ∃ t', opStep hasher ⟨none, 0⟩ op
        = .ok (t', (opSpec ∅ op).2) ∧ Holds hasher t' (opSpec ∅ op).1)
      ∧ (¬ Serves (⟨none, 0⟩ : HashMap K V) op →
        ∃ e, opStep hasher ⟨none, 0⟩ op = .error e) := by
  cases op with
  | call c =>
    cases c with
    | insert k v =>
      refine ⟨fun _ => ?_, fun h => absurd (.inl rfl) h⟩
      obtain ⟨t', ht', h'⟩ := step_refines (V := V) _ ∅ (.insert k v)
        (refines_create hasher 8) (.inr (.inl List.mem_cons_self))
      exact ⟨t', (step_insert_null k v).trans ht', .inl h'⟩
    | contains k =>
      exact ⟨fun _ => ⟨_, rfl, holds_null⟩, fun h => absurd (.inl rfl) h⟩
    | size =>
      exact ⟨fun _ => ⟨_, rfl, holds_null⟩, fun h => absurd trivial h⟩
    | subscript k assign | remove k | get k =>
      exact ⟨fun h => absurd h (not_meets_null k), fun _ => ⟨_, rfl⟩⟩
  | atKey k =>
    exact ⟨fun h => absurd (.inr h) (not_meets_null k), fun _ => ⟨_, rfl⟩⟩
  | clear | moveFrom =>
    exact ⟨fun _ => ⟨_, rfl, holds_null⟩, fun h => absurd trivial h⟩

theorem op_refines (t : HashMap K V) (m : Finmap fun _ : K => V)
    (op : Op K V) (h : Holds hasher t m) (hs : Serves t op) :
    ∃ t', opStep hasher t op = .ok (t', (opSpec m op).2)
      ∧ Holds hasher t' (opSpec m op).1 := by
  rcases h with h | ⟨rfl, rfl⟩
  swap
  · exact (op_null hasher op).1 hs
  obtain ⟨es, hes⟩ := Option.isSome_iff_exists.mp h.represents.buffer
  cases op with
  | call c =>
    have hm : Meets t c := by
      cases c with
      | contains k => exact hs.resolve_left (by simp [hes])
      | _ => exact hs
    obtain ⟨t', ht', h'⟩ := step_refines t m c h hm
    exact ⟨t', ht', .inl h'⟩
  | atKey k =>
    obtain ⟨v, hv⟩ := h.represents.held_iff.mp hs
    obtain ⟨i, hi, he⟩ := h.represents.probe_some hv
    obtain ⟨w, hl, rfl⟩ := Option.map_eq_some_iff.mp hv
    exact ⟨t, by simp only [opStep, atKey, hi, he, opSpec, hl], .inl h⟩
  | clear => exact ⟨_, rfl, .inr ⟨by simp [IndexedHashTable.clear, hes], rfl⟩⟩
  | moveFrom => exact ⟨_, rfl, holds_null⟩

theorem op_error (t : HashMap K V) (m : Finmap fun _ : K => V)
    (op : Op K V) (h : Holds hasher t m) (hs : ¬ Serves t op) :
    ∃ e, opStep hasher t op = .error e := by
  rcases h with h | ⟨rfl, rfl⟩
  swap
  · exact (op_null hasher op).2 hs
  cases op with
  | call c =>
    refine step_error t m c h ?_
    cases c with
    | contains k => exact fun hm => hs (.inr hm)
    | _ => exact hs
  | atKey k =>
    by_cases hempty : HasEmpty t.entries
    · obtain ⟨i, e, hi, he, hocc, -⟩ := probe_absent hasher hs hempty
      cases e with
      | occupied v => cases hocc
      | empty | tombstone =>
        exact ⟨_, by simp only [opStep, atKey, hi, he]; rfl⟩
    · obtain ⟨e, he⟩ := probe_error hasher (k := k) fun hm =>
        hm.elim hempty hs
      exact ⟨e, by simp only [opStep, atKey, he]⟩
  | clear | moveFrom => exact absurd trivial hs

/-- After any history that ends with the map cleared or moved from, calls
that can be served, there and on a new map, get the same answers. -/
theorem cleared_as_new {init_capacity new_capacity : Nat}
    {history ops : List (Op K V)} {last : Op K V}
    {answers : List (Answer V)} (hlast : last = .clear ∨ last = .moveFrom)
    (hrun : run (opStep hasher) (IndexedHashTable.create init_capacity)
      (history ++ [last]) = .ok (t, answers))
    (hops : Along (opStep hasher) Serves t ops)
    (hnew : Along (opStep hasher) Serves
      (IndexedHashTable.create new_capacity) ops) :
    ∃ t₁ t₂ rs, run (opStep hasher) t ops = .ok (t₁, rs)
      ∧ run (opStep hasher) (IndexedHashTable.create new_capacity) ops
        = .ok (t₂, rs) := by
  have hcreate : ∀ n, Holds hasher
      (IndexedHashTable.create n : HashMap K V) ∅ :=
    fun n => .inl (refines_create hasher n)
  obtain ⟨t₀, qs, ps, hqs, hps, -⟩ := run_append_inv hrun
  have halong := Along_of_run_ok op_refines op_error (hcreate _) hqs
  obtain ⟨t₀', ht₀', h₀⟩ := run_refines op_refines (hcreate _) halong
  rw [hqs] at ht₀'
  cases ht₀'
  have hnull : Holds hasher t ∅ := by
    obtain ⟨t', r, rs, hs, hr, -⟩ := run_cons_inv hps
    cases hr
    have hserves : Serves t₀ last := by
      rcases hlast with rfl | rfl
      · trivial
      · trivial
    obtain ⟨t', ht', h'⟩ := op_refines t₀ _ last h₀ hserves
    rw [hs] at ht'
    cases ht'
    rcases hlast with rfl | rfl
    · exact h'
    · exact h'
  obtain ⟨t₁, ht₁, -⟩ := run_refines op_refines hnull hops
  obtain ⟨t₂, ht₂, -⟩ := run_refines op_refines (hcreate _) hnew
  exact ⟨t₁, t₂, _, ht₁, ht₂⟩

/-- Lookups before and after an insertion and a removal. -/
def reinsert : List (Op Nat Nat) :=
  [.call (.contains 1), .call (.insert 1 7), .call (.get 1),
    .call (.remove 1), .call (.get 2)]

def reinsertAnswers : List (Answer Nat) :=
  [.flag false, .done, .found (some 7), .flag true, .found none]

theorem cleared_as_new_reinsert :
    ∃ t₁ t₂, run (opStep (V := Nat) id) (IndexedHashTable.create 16)
        [.call (.insert 1 1), .call (.insert 2 2), .clear]
        = .ok (⟨none, 0⟩, [.done, .done, .done])
      ∧ run (opStep id) ⟨none, 0⟩ reinsert = .ok (t₁, reinsertAnswers)
      ∧ run (opStep id) (IndexedHashTable.create 16) reinsert
        = .ok (t₂, reinsertAnswers) := by
  have hrun : run (opStep (V := Nat) id) (IndexedHashTable.create 16)
      ([.call (.insert 1 1), .call (.insert 2 2)] ++ [.clear])
      = .ok (⟨none, 0⟩, [.done, .done, .done]) := by decide +kernel
  obtain ⟨u₁, hu₁, -⟩ : ∃ t, run (opStep id) ⟨none, 0⟩ reinsert
      = .ok (t, reinsertAnswers) ∧ True := by decide +kernel
  obtain ⟨u₂, hu₂, -⟩ : ∃ t, run (opStep id) (IndexedHashTable.create 16)
      reinsert = .ok (t, reinsertAnswers) ∧ True := by decide +kernel
  obtain ⟨t₁, t₂, rs, h₁, h₂⟩ := cleared_as_new (.inl rfl) hrun
    (Along_of_run_ok op_refines op_error holds_null hu₁)
    (Along_of_run_ok op_refines op_error
      (.inl (refines_create id 16)) hu₂)
  rw [hu₁] at h₁
  cases h₁
  exact ⟨_, _, hrun, hu₁, h₂⟩

/-- A lookup in a cleared map divides by its capacity, one in a new map
finds nothing. -/
theorem cleared_get_divides_by_zero :
    run (opStep (V := Nat) id) (IndexedHashTable.create 16)
        [.clear, .call (.get 0)] = .error .divideByZero
      ∧ run (opStep (V := Nat) id) (IndexedHashTable.create 16)
        [.call (.get 0)] = .ok (IndexedHashTable.create 16, [.found none]) := by
  decide +kernel

end CroCOS.HashTable.HashMap
