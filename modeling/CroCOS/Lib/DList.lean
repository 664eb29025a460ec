/-
Intrusive doubly linked lists. A node carries a `next` and a `prev`
pointer, a list is known by the pointer to its first node, and many
lists share one set of nodes.

# The representation

`Seg l b c xs e` walks the nodes `xs` from the current pointer `c`:
the first node's `prev` is `b`, every `next` leads to the node after
it, and the walk ends at the pointer `e`. `Listed l head xs` is a whole
list: it starts with nothing before it and ends at null, and no node is
on it twice.

# The operations

`push` puts a node at the head, `unlink` takes one out wherever it is,
each by the handful of pointer writes an intrusive list makes. Their
specifications say what list is left (`push_listed`, `unlink_listed`)
and that the nodes of other lists keep their pointers (`push_frame`,
`unlink_frame`); `Seg.frame` carries those other lists over.
-/
import Mathlib

namespace CroCOS.Lib

open Function

/-- The two pointers of every node. -/
structure Links (ν : Type _) where
  next : ν → Option ν
  prev : ν → Option ν

namespace Links

variable {ν : Type _}

-- ==== segments

/-- The walk from `c`, with `b` before it, over `xs` to `e`. -/
def Seg (l : Links ν) : Option ν → Option ν → List ν → Option ν → Prop
  | _, c, [], e => c = e
  | b, c, x :: xs, e =>
    c = some x ∧ l.prev x = b ∧ Seg l (some x) (l.next x) xs e

/-- A whole list. -/
structure Listed (l : Links ν) (head : Option ν) (xs : List ν) : Prop where
  seg : Seg l none head xs none
  nodup : xs.Nodup

/-- The last node of a walk, or what was before it. -/
def lastOr (b : Option ν) : List ν → Option ν
  | [] => b
  | x :: xs => lastOr (some x) xs

variable {l l' : Links ν} {b c e head : Option ν} {xs ys : List ν} {x : ν}

/-- A walk reads only the pointers of its nodes. -/
theorem Seg.frame (h : Seg l b c xs e)
    (hsame : ∀ y ∈ xs, l'.next y = l.next y ∧ l'.prev y = l.prev y) :
    Seg l' b c xs e := by
  induction xs generalizing b c with
  | nil => exact h
  | cons x xs ih =>
    obtain ⟨hc, hp, hrest⟩ := h
    obtain ⟨hnext, hprev⟩ := hsame x List.mem_cons_self
    refine ⟨hc, by rw [hprev, hp], ?_⟩
    rw [hnext]
    exact ih hrest fun y hy => hsame y (List.mem_cons_of_mem x hy)

/-- A walk can be cut anywhere. -/
theorem seg_append : Seg l b c (xs ++ ys) e
      ↔ ∃ m, Seg l b c xs m ∧ Seg l (lastOr b xs) m ys e := by
  induction xs generalizing b c with
  | nil =>
    constructor
    · intro h
      exact ⟨c, rfl, h⟩
    · rintro ⟨m, rfl, h⟩
      exact h
  | cons x xs ih =>
    constructor
    · rintro ⟨hc, hp, hrest⟩
      obtain ⟨m, h₁, h₂⟩ := ih.mp hrest
      exact ⟨m, ⟨hc, hp, h₁⟩, h₂⟩
    · rintro ⟨m, ⟨hc, hp, h₁⟩, h₂⟩
      exact ⟨hc, hp, ih.mpr ⟨m, h₁, h₂⟩⟩

theorem lastOr_concat (b : Option ν) (xs : List ν) (x : ν) :
    lastOr b (xs ++ [x]) = some x := by
  induction xs generalizing b with
  | nil => rfl
  | cons y ys ih => exact ih (some y)

/-- The pointer to a list is the pointer to its first node. -/
theorem Seg.head_eq (h : Seg l b c xs none) : c = xs.head? := by
  cases xs with
  | nil => exact h
  | cons x xs => exact h.1

theorem Listed.head_eq (h : Listed l head xs) : head = xs.head? :=
  h.seg.head_eq

theorem Listed.frame (h : Listed l head xs)
    (hsame : ∀ y ∈ xs, l'.next y = l.next y ∧ l'.prev y = l.prev y) :
    Listed l' head xs :=
  ⟨h.seg.frame hsame, h.nodup⟩

theorem listed_nil : Listed l none [] :=
  ⟨rfl, List.nodup_nil⟩

/-- Dropping the first node, once the second has nothing before it. -/
theorem Listed.tail (h : Listed l (some x) (x :: xs))
    (hfirst : ∀ y ∈ xs.head?, l'.prev y = none)
    (hsame : ∀ y ∈ xs, l'.next y = l.next y
      ∧ (some y ≠ xs.head? → l'.prev y = l.prev y)) :
    Listed l' (l.next x) xs := by
  obtain ⟨⟨-, -, hrest⟩, hnodup⟩ := h
  refine ⟨?_, (List.nodup_cons.mp hnodup).2⟩
  cases xs with
  | nil => exact hrest
  | cons y ys =>
    obtain ⟨hc, -, hys⟩ := hrest
    have hy : y ∉ ys := (List.nodup_cons.mp (List.nodup_cons.mp hnodup).2).1
    refine ⟨hc, hfirst y rfl, ?_⟩
    rw [(hsame y List.mem_cons_self).1]
    apply hys.frame
    intro z hz
    have hz' := hsame z (List.mem_cons_of_mem y hz)
    refine ⟨hz'.1, hz'.2 ?_⟩
    rintro heq
    cases heq
    exact hy hz

-- ==== the pointer writes

variable [DecidableEq ν]

/-- Write the `next` of the node a pointer names, if it names one. -/
def setNext (l : Links ν) (x : Option ν) (v : Option ν) : Links ν :=
  match x with
  | some x => { l with next := update l.next x v }
  | none => l

/-- Write the `prev` of the node a pointer names, if it names one. -/
def setPrev (l : Links ν) (x : Option ν) (v : Option ν) : Links ν :=
  match x with
  | some x => { l with prev := update l.prev x v }
  | none => l

/-- Put `x` at the head of the list at `head`; the answer is the new
head. -/
def push (l : Links ν) (head : Option ν) (x : ν) : Links ν × Option ν :=
  ((l.setNext (some x) head).setPrev head (some x), some x)

/-- Take `x` out of the list at `head`; the answer is the new head. -/
def unlink (l : Links ν) (head : Option ν) (x : ν) : Links ν × Option ν :=
  let l₁ := l.setPrev (l.next x) (l.prev x)
  let l₂ := l₁.setNext (l₁.prev x) (l₁.next x)
  ((l₂.setNext (some x) none).setPrev (some x) none,
    if l₁.prev x = none then l₁.next x else head)

theorem setNext_next (l : Links ν) (x v : Option ν) (y : ν) :
    (l.setNext x v).next y = if x = some y then v else l.next y := by
  cases x with
  | none => rw [if_neg (by simp)]; rfl
  | some x =>
    show update l.next x v y = _
    rw [update_apply]
    simp only [Option.some.injEq, eq_comm]

theorem setNext_prev (l : Links ν) (x v : Option ν) :
    (l.setNext x v).prev = l.prev := by
  cases x with
  | none | some x => rfl

theorem setPrev_prev (l : Links ν) (x v : Option ν) (y : ν) :
    (l.setPrev x v).prev y = if x = some y then v else l.prev y := by
  cases x with
  | none => rw [if_neg (by simp)]; rfl
  | some x =>
    show update l.prev x v y = _
    rw [update_apply]
    simp only [Option.some.injEq, eq_comm]

theorem setPrev_next (l : Links ν) (x v : Option ν) :
    (l.setPrev x v).next = l.next := by
  cases x with
  | none | some x => rfl

-- ==== push

theorem push_next (y : ν) :
    (l.push head x).1.next y = if y = x then head else l.next y := by
  unfold push
  rw [setPrev_next, setNext_next]
  simp only [Option.some.injEq, eq_comm]

theorem push_prev (y : ν) :
    (l.push head x).1.prev y = if head = some y then some x else l.prev y := by
  unfold push
  rw [setPrev_prev, setNext_prev]

/-- The nodes of other lists keep their pointers. -/
theorem push_frame {y : ν} (hx : y ≠ x) (hh : head ≠ some y) :
    (l.push head x).1.next y = l.next y
      ∧ (l.push head x).1.prev y = l.prev y := by
  rw [push_next, push_prev, if_neg hx, if_neg hh]
  exact ⟨rfl, rfl⟩

theorem push_listed (h : Listed l head xs) (hx : x ∉ xs)
    (hprev : l.prev x = none) :
    Listed (l.push head x).1 (some x) (x :: xs) := by
  refine ⟨⟨rfl, ?_, ?_⟩, List.nodup_cons.mpr ⟨hx, h.nodup⟩⟩
  · rw [push_prev, if_neg, hprev]
    intro hh
    rw [h.head_eq] at hh
    exact hx (List.mem_of_head? hh)
  · rw [push_next, if_pos rfl]
    obtain ⟨hseg, hnodup⟩ := h
    cases xs with
    | nil => exact hseg
    | cons y ys =>
      obtain ⟨rfl, -, hrest⟩ := hseg
      have hxy : y ≠ x := fun heq => hx (by
        rw [heq]; exact List.mem_cons_self)
      refine ⟨rfl, by rw [push_prev, if_pos rfl], ?_⟩
      rw [push_next, if_neg hxy]
      apply hrest.frame
      intro z hz
      apply push_frame
      · intro heq
        exact hx (by rw [← heq]; exact List.mem_cons_of_mem y hz)
      · intro heq
        cases heq
        exact (List.nodup_cons.mp hnodup).1 hz

-- ==== unlink

/-- The pointers after an unlink, node by node. -/
theorem unlink_next (y : ν) : (l.unlink head x).1.next y
      = if y = x then none
        else if l.prev x = some y then l.next x else l.next y := by
  simp only [unlink, setPrev_next, setNext_next, setPrev_prev, ite_self,
    Option.some.injEq, eq_comm]

theorem unlink_prev (y : ν) : (l.unlink head x).1.prev y
      = if y = x then none
        else if l.next x = some y then l.prev x else l.prev y := by
  simp only [unlink, setPrev_prev, setNext_prev, Option.some.injEq, eq_comm]

theorem unlink_head :
    (l.unlink head x).2 = if l.prev x = none then l.next x else head := by
  simp only [unlink, setPrev_prev, setPrev_next, ite_self]

/-- Taking a node out leaves the list without it, and the node with no
pointers. -/
theorem unlink_listed (h : Listed l head (xs ++ x :: ys)) :
    Listed (l.unlink head x).1 (l.unlink head x).2 (xs ++ ys)
      ∧ (l.unlink head x).1.prev x = none := by
  obtain ⟨hseg, hnodup⟩ := h
  obtain ⟨m, hxs, rfl, hprev, hys⟩ := seg_append.mp hseg
  have hnd := List.nodup_append.mp hnodup
  obtain ⟨hxys, hndys⟩ := List.nodup_cons.mp hnd.2.1
  have hxxs : x ∉ xs := fun hx => hnd.2.2 x hx x List.mem_cons_self rfl
  refine ⟨⟨seg_append.mpr ⟨l.next x, ?_, ?_⟩, ?_⟩, ?_⟩
  · -- the nodes before: only the last one's `next` changed
    rw [unlink_head]
    rcases List.eq_nil_or_concat xs with rfl | ⟨zs, z, rfl⟩
    · rw [if_pos (show l.prev x = none from hprev)]
      rfl
    · rw [List.concat_eq_append] at hxs hprev hxxs hnd ⊢
      rw [lastOr_concat] at hprev
      rw [if_neg (by rw [hprev]; simp)]
      obtain ⟨m, hzs, rfl, hzprev, hz⟩ := seg_append.mp hxs
      have hzzs : z ∉ zs := fun hmem =>
        (List.nodup_append.mp hnd.1).2.2 z hmem z List.mem_cons_self rfl
      have hkeep : ∀ y ∈ zs ++ [z], (l.unlink head x).1.prev y = l.prev y := by
        intro y hy
        have hyx : y ≠ x := fun heq => hxxs (by rw [← heq]; exact hy)
        rw [unlink_prev, if_neg hyx, if_neg]
        intro hny
        rw [hys.head_eq] at hny
        exact hnd.2.2 y hy y
          (List.mem_cons_of_mem x (List.mem_of_head? hny)) rfl
      refine seg_append.mpr ⟨some z, hzs.frame ?_, rfl, ?_, ?_⟩
      · intro y hy
        refine ⟨?_, hkeep y (List.mem_append_left _ hy)⟩
        have hyx : y ≠ x := fun heq =>
          hxxs (by rw [← heq]; exact List.mem_append_left _ hy)
        rw [unlink_next, if_neg hyx, if_neg]
        rw [hprev]
        rintro heq
        cases heq
        exact hzzs hy
      · rw [hkeep z (List.mem_append_right _ List.mem_cons_self), hzprev]
      · have hzx : z ≠ x := fun heq => hxxs (by
          rw [← heq]; exact List.mem_append_right _ List.mem_cons_self)
        show (l.unlink head x).1.next z = l.next x
        rw [unlink_next, if_neg hzx, if_pos hprev]
  · -- the nodes after: only the first one's `prev` changed
    cases ys with
    | nil => exact hys
    | cons y ys =>
      obtain ⟨hnext, -, hrest⟩ := hys
      have hyx : y ≠ x := fun heq => hxys (by
        rw [← heq]; exact List.mem_cons_self)
      have hafter : ∀ z ∈ y :: ys, (l.unlink head x).1.next z = l.next z := by
        intro z hz
        have hzx : z ≠ x := fun heq => hxys (by rw [← heq]; exact hz)
        rw [unlink_next, if_neg hzx, if_neg]
        intro hpz
        rcases List.eq_nil_or_concat xs with rfl | ⟨ws, w, rfl⟩
        · rw [hprev] at hpz
          cases hpz
        · rw [List.concat_eq_append] at hprev hnd
          rw [hprev, lastOr_concat, Option.some.injEq] at hpz
          exact hnd.2.2 w (List.mem_append_right _ List.mem_cons_self) z
            (List.mem_cons_of_mem x hz) hpz
      refine ⟨hnext, ?_, ?_⟩
      · rw [unlink_prev, if_neg hyx, if_pos hnext, hprev]
      · rw [hafter y List.mem_cons_self]
        apply hrest.frame
        intro z hz
        have hz' : z ∈ y :: ys := List.mem_cons_of_mem y hz
        refine ⟨hafter z hz', ?_⟩
        have hzx : z ≠ x := fun heq => hxys (by rw [← heq]; exact hz')
        rw [unlink_prev, if_neg hzx, if_neg]
        rw [hnext]
        rintro heq
        cases heq
        exact (List.nodup_cons.mp hndys).1 hz
  · refine List.nodup_append.mpr ⟨hnd.1, hndys, ?_⟩
    intro a ha b hb
    exact hnd.2.2 a ha b (List.mem_cons_of_mem x hb)
  · rw [unlink_prev, if_pos rfl]

/-- The nodes of other lists keep their pointers. -/
theorem unlink_frame (h : Listed l head (xs ++ x :: ys)) {y : ν}
    (hy : y ∉ xs ++ x :: ys) :
    (l.unlink head x).1.next y = l.next y
      ∧ (l.unlink head x).1.prev y = l.prev y := by
  obtain ⟨hseg, hnodup⟩ := h
  obtain ⟨m, hxs, rfl, hprev, hys⟩ := seg_append.mp hseg
  have hyx : y ≠ x := fun heq => hy (by rw [heq]; simp)
  rw [unlink_next, unlink_prev, if_neg hyx, if_neg hyx]
  refine ⟨if_neg ?_, if_neg ?_⟩
  · intro hpy
    rcases List.eq_nil_or_concat xs with rfl | ⟨zs, z, rfl⟩
    · rw [hprev] at hpy
      cases hpy
    · rw [List.concat_eq_append] at hprev hy
      rw [hprev, lastOr_concat] at hpy
      cases hpy
      exact hy (by simp)
  · intro hny
    rw [hys.head_eq] at hny
    exact hy (List.mem_append_right _
      (List.mem_cons_of_mem x (List.mem_of_head? hny)))

end Links

end CroCOS.Lib
