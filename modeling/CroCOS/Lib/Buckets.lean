/-
Sorting into buckets by counting. Items come with a key; each key has a
span of one buffer, as long as there are items of that key, and an item
is stored at the first free place of its key's span. When all items are
stored, the span of a key reads as the items of that key, in the order
they came in (`Filled.read`).

`Laid` says that the spans have room: no two of them overlap and none
reaches past the end. Nothing is said of keys without items.
-/
import Mathlib

namespace CroCOS.Lib

variable {K A : Type _} [DecidableEq K]
variable {buffer : List (Option A)}

-- ==== buckets

/-- The items of key `k`, in order. -/
def bucket (k : K) (items : List (K × A)) : List A :=
  (items.filter fun p => p.1 = k).map Prod.snd

@[simp] theorem bucket_nil (k : K) : bucket k ([] : List (K × A)) = [] := rfl

@[simp] theorem bucket_append (k : K) (items more : List (K × A)) :
    bucket k (items ++ more) = bucket k items ++ bucket k more := by
  simp [bucket]

theorem bucket_cons_self (k : K) (a : A) (items : List (K × A)) :
    bucket k ((k, a) :: items) = a :: bucket k items := by
  simp [bucket]

theorem bucket_cons_of_ne {k k' : K} (h : k' ≠ k) (a : A)
    (items : List (K × A)) :
    bucket k ((k', a) :: items) = bucket k items := by
  simp [bucket, h]

-- ==== spans

/-- Every bucket that is not empty has a span of its own below
`total`. -/
structure Laid (start : K → Nat) (items : List (K × A)) (total : Nat) :
    Prop where
  within : ∀ k, bucket k items ≠ [] → start k + (bucket k items).length ≤ total
  apart : ∀ k k', k ≠ k' → bucket k items ≠ [] → bucket k' items ≠ [] →
    start k + (bucket k items).length ≤ start k'
      ∨ start k' + (bucket k' items).length ≤ start k

/-- The items so far are stored, those of a key one after the other. -/
def Filled (start : K → Nat) (items : List (K × A))
    (buffer : List (Option A)) : Prop :=
  ∀ k j a, (bucket k items)[j]? = some a → buffer[start k + j]? = some (some a)

theorem filled_nil (start : K → Nat) (buffer : List (Option A)) :
    Filled start [] buffer := by
  intro k j a h
  simp at h

variable {start : K → Nat} {done rest : List (K × A)} {k : K} {a : A}

/-- The next place of a span that still has items to come is inside the
buffer. -/
theorem Laid.lt {total : Nat} (h : Laid start (done ++ (k, a) :: rest) total) :
    start k + (bucket k done).length < total := by
  have hin := h.within k (by simp [bucket_cons_self])
  simp only [bucket_append, bucket_cons_self, List.length_append,
    List.length_cons] at hin
  omega

/-- Storing the next item. -/
theorem Filled.place (h : Filled start done buffer) (rest : List (K × A))
    (hl : Laid start (done ++ (k, a) :: rest) buffer.length) :
    Filled start (done ++ [(k, a)])
      (buffer.set (start k + (bucket k done).length) (some a)) := by
  intro k' j b hb
  rw [bucket_append] at hb
  by_cases hk : k = k'
  · subst hk
    rw [bucket_cons_self, bucket_nil] at hb
    by_cases hj : j < (bucket k done).length
    · rw [List.getElem?_append_left hj] at hb
      rw [List.getElem?_set_ne (by omega)]
      exact h k j b hb
    · -- only the new item is behind those already there
      have hj' : j = (bucket k done).length := by
        have hlen := (List.getElem?_eq_some_iff.mp hb).1
        simp at hlen
        omega
      subst hj'
      simp only [List.getElem?_concat_length] at hb
      rw [List.getElem?_set_self hl.lt, hb]
  · rw [bucket_cons_of_ne hk, bucket_nil, List.append_nil] at hb
    -- the place of `k` is in the span of `k`, that of `b` in another
    have hj := (List.getElem?_eq_some_iff.mp hb).1
    have hne : bucket k' (done ++ (k, a) :: rest) ≠ [] := by
      rw [bucket_append]
      intro he
      rw [(List.append_eq_nil_iff.mp he).1] at hj
      simp at hj
    have hapart := hl.apart k k' hk (by simp [bucket_cons_self]) hne
    simp only [bucket_append, bucket_cons_self,
      List.length_append, List.length_cons] at hapart
    rw [List.getElem?_set_ne (by omega)]
    exact h k' j b hb

/-- The span of a key reads as the items of that key. -/
theorem Filled.read {ε : Type _} {items : List (K × A)}
    (h : Filled start items buffer) {load : Nat → Except ε A}
    (hload : ∀ i a, buffer[i]? = some (some a) → load i = .ok a) (k : K) :
    (List.range' (start k) (bucket k items).length).mapM load
      = .ok (bucket k items) := by
  have hspan : ∀ (l : List A) (s : Nat),
      (∀ j a, l[j]? = some a → load (s + j) = .ok a) →
      (List.range' s l.length).mapM load = .ok l := by
    intro l
    induction l with
    | nil =>
      intro s _
      rfl
    | cons a l ih =>
      intro s hs
      have ha : load s = .ok a := hs 0 a rfl
      have hl := ih (s + 1) fun j b hb => by
        have hj := hs (j + 1) b (by simpa using hb)
        rwa [show s + (j + 1) = s + 1 + j by omega] at hj
      rw [List.length_cons, List.range'_succ, List.mapM_cons, ha]
      rw [hl]
      rfl
  exact hspan _ _ fun j a ha => hload _ _ (h k j a ha)

-- ==== spans laid end to end

/-- Where the span of the `i`th of several lengths starts if they are
laid end to end. -/
def offset (size : Nat → Nat) (i : Nat) : Nat :=
  ∑ j ∈ Finset.range i, size j

theorem offset_succ (size : Nat → Nat) (i : Nat) :
    offset size (i + 1) = offset size i + size i :=
  Finset.sum_range_succ _ _

theorem offset_mono (size : Nat → Nat) {i j : Nat} (h : i ≤ j) :
    offset size i ≤ offset size j :=
  Finset.sum_le_sum_of_subset (Finset.range_mono h)

/-- A span that comes earlier ends before a later one starts. -/
theorem offset_add_le (size : Nat → Nat) {i j : Nat} (h : i < j) :
    offset size i + size i ≤ offset size j := by
  rw [← offset_succ]
  exact offset_mono size h

/-- If every item belongs to one of the first `n` keys, their numbers
add up to the number of items. -/
theorem offset_countP {B : Type _} (key : B → Nat) {n : Nat} :
    ∀ {items : List B}, (∀ b ∈ items, key b < n) →
      offset (fun i => items.countP fun b => key b = i) n
        = items.length := by
  intro items
  induction items with
  | nil => simp [offset]
  | cons b items ih =>
    intro h
    have hb := h b List.mem_cons_self
    have hrest := ih fun c hc => h c (List.mem_cons_of_mem b hc)
    simp only [offset, List.countP_cons, decide_eq_true_eq,
      Finset.sum_add_distrib, List.length_cons] at hrest ⊢
    rw [hrest, Finset.sum_ite_eq, if_pos (Finset.mem_range.mpr hb)]

end CroCOS.Lib
