/-
Bitmaps as finite sets. A bitmap is a bit vector, all its words side by
side; `bits b` is the set of its set positions. The lemmas turn the
word operations into set operations, so that a proof about a bitmap is
a proof about sets and their cardinalities. `scanFrom` is the scan for
the lowest set bit at or above a position.
-/
import Mathlib

namespace CroCOS.Lib.Bitmap

variable {n : Nat} {a b : BitVec n} {i lo : Nat}

/-- The set positions of a bitmap. -/
def bits (b : BitVec n) : Finset Nat :=
  (Finset.range n).filter fun i => b.getLsbD i = true

/-- The bitmap with only position `i` set. -/
def mask (n i : Nat) : BitVec n := BitVec.twoPow n i

/-- The lowest set position from `lo` on. -/
def scanFrom (b : BitVec n) (lo : Nat) : Option Nat :=
  (List.range n).find? fun i => decide (lo ≤ i) && b.getLsbD i

@[simp] theorem mem_bits : i ∈ bits b ↔ b.getLsbD i = true := by
  unfold bits
  rw [Finset.mem_filter, Finset.mem_range]
  constructor
  · intro h
    exact h.2
  · intro h
    exact ⟨BitVec.lt_of_getLsbD h, h⟩

@[simp] theorem bits_zero : bits (0#n) = ∅ := by
  ext i
  simp

@[simp] theorem bits_allOnes : bits (BitVec.allOnes n) = Finset.range n := by
  ext i
  simp

@[simp] theorem bits_or : bits (a ||| b) = bits a ∪ bits b := by
  ext i
  simp

@[simp] theorem bits_and : bits (a &&& b) = bits a ∩ bits b := by
  ext i
  simp

theorem bits_mask (h : i < n) : bits (mask n i) = {i} := by
  ext j
  rw [mem_bits, mask, BitVec.getLsbD_twoPow, Finset.mem_singleton]
  simp only [Bool.and_eq_true, decide_eq_true_eq]
  omega

theorem bits_clear : bits (a &&& ~~~ b) = bits a \ bits b := by
  ext i
  rw [mem_bits, Finset.mem_sdiff, mem_bits, mem_bits, BitVec.getLsbD_and,
    BitVec.getLsbD_not]
  constructor
  · intro h
    simp only [Bool.and_eq_true, Bool.not_eq_true'] at h
    exact ⟨h.1, by rw [h.2.2]; decide⟩
  · intro h
    have hi := BitVec.lt_of_getLsbD h.1
    simp only [Bool.and_eq_true, decide_eq_true_eq]
    exact ⟨h.1, hi, by simpa using h.2⟩

theorem bits_clear_mask (h : i < n) :
    bits (a &&& ~~~ mask n i) = (bits a).erase i := by
  rw [bits_clear, bits_mask h, Finset.sdiff_singleton_eq_erase]

theorem eq_zero_iff : b = 0#n ↔ bits b = ∅ := by
  constructor
  · intro h
    rw [h, bits_zero]
  · intro h
    apply BitVec.eq_of_getLsbD_eq
    intro i _
    have hi : i ∉ bits b := by
      rw [h]
      exact Finset.notMem_empty i
    simpa using hi

theorem and_eq_zero_iff : a &&& b = 0#n ↔ Disjoint (bits a) (bits b) := by
  rw [eq_zero_iff, bits_and, Finset.disjoint_iff_inter_eq_empty]

end CroCOS.Lib.Bitmap
