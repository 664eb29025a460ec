/-
Runs of the interrupt manager need a sort and a policy. The sort is the
insertion sort of the source, which permutes its vector whatever the
comparator answers; the policy is a fixed wiring, of which it takes what
the topology allows.
-/
import CroCOS.InterruptManager
import CroCOS.Lib.Run

namespace CroCOS.Interrupts.Manager

open Lib

-- ==== the sort

section Sorting

variable {α : Type} {comp : α → α → Except Fault Bool}

theorem insertBack_perm {key : α} :
    ∀ {front back : List α}, insertBack comp key front = .ok back →
      back.Perm (key :: front) := by
  intro front
  induction front with
  | nil =>
    intro back h
    cases h
    exact List.Perm.refl _
  | cons x xs ih =>
    intro back h
    obtain ⟨smaller, -, h⟩ := bind_inv h
    cases smaller with
    | false =>
      cases h
      exact List.Perm.refl _
    | true =>
      obtain ⟨rest, hrest, h⟩ := bind_inv h
      cases h
      exact ((ih hrest).cons x).trans (List.Perm.swap key x xs)

theorem insertAll_perm : ∀ {xs front back : List α},
      xs.foldlM (fun front key => insertBack comp key front) front
        = .ok back → back.Perm (xs ++ front) := by
  intro xs
  induction xs with
  | nil =>
    intro front back h
    cases h
    exact List.Perm.refl _
  | cons x xs ih =>
    intro front back h
    obtain ⟨next, hnext, h⟩ := bind_inv h
    exact (ih h).trans (((insertBack_perm hnext).append_left xs).trans
      List.perm_middle)

theorem insertionSort_perm {xs ys : List α}
    (h : insertionSort comp xs = .ok ys) : ys.Perm xs := by
  unfold insertionSort at h
  split_ifs at h with hxs
  obtain ⟨back, hback, h⟩ := bind_inv h
  cases h
  have := insertAll_perm hback
  rw [List.append_nil] at this
  exact (List.reverse_perm back).trans this

/-- What `Vector::sort` runs on up to 16 elements. -/
def smallSort : VectorSort where
  sort := insertionSort
  perm := fun _ _ _ h => insertionSort_perm h

/-- A vector that has elements is put in order by a comparator of keys. -/
def VectorSort.Sorts (V : VectorSort) : Prop :=
  ∀ {α β : Type} [LinearOrder β] (key : α → β)
    (comp : α → α → Except Fault Bool) (xs : List α), xs ≠ [] →
    (∀ a ∈ xs, ∀ b ∈ xs, comp a b = .ok (decide (key a < key b))) →
    ∃ ys, V.sort comp xs = .ok ys ∧ ys.Pairwise fun a b => key a ≤ key b

variable {β : Type} [LinearOrder β] {key : α → β}

theorem insertBack_sorts {x : α} : ∀ {front : List α},
    (∀ y ∈ front, comp x y = .ok (decide (key x < key y))) →
    (front.Pairwise fun a b => key b ≤ key a) →
    ∃ back, insertBack comp x front = .ok back
      ∧ back.Pairwise fun a b => key b ≤ key a := by
  intro front
  induction front with
  | nil => exact fun _ _ => ⟨[x], rfl, List.pairwise_singleton ..⟩
  | cons y front ih =>
    intro hcomp hsorted
    obtain ⟨hy, hfront⟩ := List.pairwise_cons.mp hsorted
    obtain ⟨back, hback, hs⟩ := ih
      (fun z hz => hcomp z (List.mem_cons_of_mem y hz)) hfront
    unfold insertBack
    rw [hcomp y List.mem_cons_self]
    by_cases hlt : key x < key y
    · refine ⟨y :: back, ?_, List.pairwise_cons.mpr ⟨?_, hs⟩⟩
      · simp only [decide_eq_true hlt, hback]
        rfl
      · intro z hz
        rcases List.mem_cons.mp ((insertBack_perm hback).mem_iff.mp hz)
          with rfl | hz
        · exact hlt.le
        · exact hy z hz
    · refine ⟨x :: y :: front, ?_, List.pairwise_cons.mpr ⟨?_, hsorted⟩⟩
      · simp only [decide_eq_false hlt]
        rfl
      · intro z hz
        rcases List.mem_cons.mp hz with rfl | hz
        · exact not_lt.mp hlt
        · exact (hy z hz).trans (not_lt.mp hlt)

theorem insertAll_sorts : ∀ {xs front : List α},
    (∀ a ∈ xs ++ front, ∀ b ∈ xs ++ front,
      comp a b = .ok (decide (key a < key b))) →
    (front.Pairwise fun a b => key b ≤ key a) →
    ∃ back, xs.foldlM (fun front key => insertBack comp key front) front
        = .ok back
      ∧ back.Pairwise fun a b => key b ≤ key a := by
  intro xs
  induction xs with
  | nil => exact fun _ h => ⟨_, rfl, h⟩
  | cons x xs ih =>
    intro front hcomp hsorted
    obtain ⟨next, hnext, hs⟩ := insertBack_sorts (x := x)
      (fun y hy => hcomp x List.mem_cons_self y
        (List.mem_append_right _ hy)) hsorted
    have hmem : ∀ a ∈ xs ++ next, a ∈ x :: xs ++ front := by
      intro a ha
      have hperm : (xs ++ next).Perm (x :: xs ++ front) :=
        ((insertBack_perm hnext).append_left xs).trans List.perm_middle
      exact hperm.mem_iff.mp ha
    obtain ⟨back, hback, h⟩ := ih
      (fun a ha b hb => hcomp a (hmem a ha) b (hmem b hb)) hs
    refine ⟨back, ?_, h⟩
    rw [List.foldlM_cons, hnext]
    exact hback

theorem smallSort_sorts : smallSort.Sorts := by
  intro α β _ key comp xs hne hcomp
  obtain ⟨back, hback, hs⟩ : ∃ back,
      xs.foldlM (fun front key => insertBack comp key front) [] = .ok back
        ∧ back.Pairwise fun a b => key b ≤ key a :=
    insertAll_sorts (by simpa using hcomp) List.Pairwise.nil
  refine ⟨back.reverse, ?_, List.pairwise_reverse.mpr hs⟩
  show insertionSort comp xs = _
  unfold insertionSort
  rw [if_neg (by simpa using hne), hback]
  rfl

end Sorting

-- ==== the policy

variable {Domain : Type} [DecidableEq Domain]

/-- Of the wires, those that the topology has a connector for. -/
def wiredGraph (P : Platform Domain)
    (wires : List (Label Domain × Label Domain))
    (hwires : ∀ e ∈ wires, ∀ e' ∈ wires, e.1 = e'.1 → e = e')
    (T : Graph.Digraph Domain) : RoutingGraph P T :=
  { edges := wires.filter fun e =>
      (T.vertices.flatMap (labelsOf P)).contains e.1
        && (T.vertices.flatMap (labelsOf P)).contains e.2
        && T.edges.contains (e.1.domain, e.2.domain)
    triggerType := fun _ => .TRIGGER_UNDETERMINED
    source := fun e he => by
      simp only [List.mem_filter, Bool.and_eq_true, List.contains_iff_mem]
        at he
      exact he.2.1.1
    target := fun e he => by
      simp only [List.mem_filter, Bool.and_eq_true, List.contains_iff_mem]
        at he
      exact he.2.1.2
    follows := fun e he => by
      simp only [List.mem_filter, Bool.and_eq_true, List.contains_iff_mem]
        at he
      exact he.2.2
    functional := fun e he e' he' => hwires e (List.mem_of_mem_filter he) e'
      (List.mem_of_mem_filter he') }

def wired (P : Platform Domain) (wires : List (Label Domain × Label Domain))
    (hwires : ∀ e ∈ wires, ∀ e' ∈ wires, e.1 = e'.1 → e = e') :
    Policy P := fun T => .ok (wiredGraph P wires hwires T)

-- ==== a machine

/-- A device behind a controller of the CPU's vectors, and a second
device. -/
inductive Device
  | vectors
  | controller
  | disk
  | timer
  deriving DecidableEq, Repr

def machine : Platform Device where
  isInterruptReceiver d := d = .vectors || d = .controller
  isInterruptEmitter d := d ≠ .vectors
  isEOIDomain d := d = .controller
  isMaskableDomain d := d = .controller
  getReceiverCount d := if d = .vectors then CPU_INTERRUPT_COUNT else 2
  getEmitterCount d := if d = .controller then 2 else 1
  vectorFile := .vectors
  vectorFile_receives := rfl
  vectorFile_sink := rfl

def machinePolicy : Policy machine :=
  wired machine
    [(⟨.disk, 0⟩, ⟨.controller, 0⟩), (⟨.timer, 0⟩, ⟨.controller, 1⟩),
      (⟨.controller, 0⟩, ⟨.vectors, 32⟩), (⟨.controller, 1⟩, ⟨.vectors, 33⟩)]
    (by decide)

/-- The vectors, the controller and the disk. -/
def machineSetup : List (Call Device Nat) :=
  [.registerDomain .vectors, .registerDomain .controller,
    .registerDomain .disk, .registerConnector .controller .vectors,
    .registerConnector .disk .controller]

/-- The disk is routed, then the timer is connected. -/
def machineTimer : List (Call Device Nat) :=
  machineSetup ++ [.updateRouting, .registerDomain .timer,
    .registerConnector .timer .controller]

end CroCOS.Interrupts.Manager
