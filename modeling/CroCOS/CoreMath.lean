/-
The integer helpers of Core (core/math.h) and LibAlloc
(liballoc/PointerArithmetic.h) that the modelled components call, under
their own names. A `size_t` is a natural number; a bitmap word is a
`BitVec 64`.
-/
import Mathlib

namespace CroCOS

variable {value : BitVec 64}

def divideAndRoundUp (numerator denominator : Nat) : Nat :=
  (numerator + (denominator - 1)) / denominator

def roundUpToNearestMultiple (toRound divisor : Nat) : Nat :=
  divideAndRoundUp toRound divisor * divisor

/-- `63 - clz`; the source leaves `log2floor(0)` undefined. -/
def log2floor (value : Nat) : Nat := Nat.log2 value

def log2ceil (value : Nat) : Nat := log2floor (value - 1) + 1

/-- The loop of `largestPowerOf2Dividing`; a `size_t` is halved at most
64 times. -/
def largestPowerOf2DividingLoop : Nat → Nat → Nat → Nat
  | 0, _, result => result
  | fuel + 1, value, result =>
    if value % 2 = 0 then
      largestPowerOf2DividingLoop fuel (value / 2) (result * 2)
    else result

def largestPowerOf2Dividing (value : Nat) : Nat :=
  if value = 0 then 0 else largestPowerOf2DividingLoop 64 value 1

/-- `alignDown<true>`: the mask of a power of two clears the
remainder. -/
def alignDown (addr alignment : Nat) : Nat :=
  addr / alignment * alignment

def alignUp (addr alignment : Nat) : Nat :=
  alignDown (addr + alignment - 1) alignment

/-- The difference of two `size_t` values. -/
def usub (a b : Nat) : Nat := (2 ^ 64 + a - b) % 2 ^ 64

/-- The position of the lowest set bit, 64 for zero. -/
def countTrailingZeros (value : BitVec 64) : Nat :=
  ((List.range 64).find? fun i => value.getLsbD i).getD 64

/-- The number of clear bits above the highest set one, 64 for zero. -/
def countLeadingZeros (value : BitVec 64) : Nat :=
  ((List.range 64).find? fun i => value.getLsbD (63 - i)).getD 64

-- ==== arithmetic

theorem usub_eq {a b : Nat} (hle : b ≤ a) (hlt : a - b < 2 ^ 64) :
    usub a b = a - b := by
  unfold usub
  rw [show 2 ^ 64 + a - b = a - b + 2 ^ 64 by omega, Nat.add_mod_right,
    Nat.mod_eq_of_lt hlt]

/-- Rounding up stays within one alignment of the address. -/
theorem alignUp_spec (addr : Nat) {alignment : Nat} (hpos : 0 < alignment) :
    addr ≤ alignUp addr alignment
      ∧ alignUp addr alignment < addr + alignment
      ∧ alignment ∣ alignUp addr alignment := by
  have hdiv := Nat.div_add_mod (addr + alignment - 1) alignment
  have hmod := Nat.mod_lt (addr + alignment - 1) hpos
  unfold alignUp alignDown
  rw [Nat.mul_comm]
  refine ⟨by omega, by omega, Nat.dvd_mul_right ..⟩

/-- An aligned address is rounded to itself. -/
theorem alignUp_of_dvd {addr alignment : Nat} (hpos : 0 < alignment)
    (h : alignment ∣ addr) : alignUp addr alignment = addr := by
  obtain ⟨q, rfl⟩ := h
  unfold alignUp alignDown
  rw [Nat.add_sub_assoc hpos, Nat.mul_add_div hpos,
    Nat.div_eq_of_lt (by omega), Nat.add_zero, Nat.mul_comm]

/-- What the loop takes off the value goes into the result. -/
theorem largestPowerOf2DividingLoop_dvd (fuel value result : Nat) :
    largestPowerOf2DividingLoop fuel value result ∣ value * result := by
  induction fuel generalizing value result with
  | zero => exact Nat.dvd_mul_left ..
  | succ fuel ih =>
    rw [largestPowerOf2DividingLoop]
    split
    · next heven =>
        have hvalue : value * result = value / 2 * (result * 2) := by
          conv_lhs => rw [← Nat.div_mul_cancel (Nat.dvd_of_mod_eq_zero heven)]
          ring
        rw [hvalue]
        exact ih (value / 2) (result * 2)
    · exact Nat.dvd_mul_left ..

theorem largestPowerOf2Dividing_dvd (value : Nat) :
    largestPowerOf2Dividing value ∣ value := by
  unfold largestPowerOf2Dividing
  split
  · next h => rw [h]
  · have h := largestPowerOf2DividingLoop_dvd 64 value 1
    rwa [Nat.mul_one] at h

theorem largestPowerOf2Dividing_eq_pow {value : Nat} (h : value ≠ 0) :
    ∃ n, largestPowerOf2Dividing value = 2 ^ n := by
  have hloop : ∀ fuel value n,
      ∃ m, largestPowerOf2DividingLoop fuel value (2 ^ n) = 2 ^ m := by
    intro fuel
    induction fuel with
    | zero => exact fun _ n => ⟨n, rfl⟩
    | succ fuel ih =>
      intro value n
      rw [largestPowerOf2DividingLoop]
      split
      · exact ih (value / 2) (n + 1)
      · exact ⟨n, rfl⟩
  unfold largestPowerOf2Dividing
  rw [if_neg h]
  exact hloop 64 value 0

-- ==== scanning for a bit

/-- A nonzero word has a set bit. -/
theorem exists_getLsbD_of_ne_zero (h : value ≠ 0#64) :
    ∃ i < 64, value.getLsbD i = true := by
  by_contra hno
  apply h
  apply BitVec.eq_of_getLsbD_eq
  intro i hi
  by_contra hbit
  exact hno ⟨i, hi, by simpa using hbit⟩

/-- Both scans answer the first position their test accepts. -/
private theorem scan_spec {t : Nat → Bool} {i : Nat} (hi : i < 64)
    (ht : t i = true) :
    ((List.range 64).find? t).getD 64 < 64
      ∧ t (((List.range 64).find? t).getD 64) = true := by
  cases hf : (List.range 64).find? t with
  | none =>
    have hnone := List.find?_eq_none.mp hf i (List.mem_range.mpr hi)
    exact absurd ht hnone
  | some j =>
    refine ⟨?_, List.find?_some hf⟩
    exact List.mem_range.mp (List.mem_of_find?_eq_some hf)

theorem countTrailingZeros_spec (h : value ≠ 0#64) :
    countTrailingZeros value < 64
      ∧ value.getLsbD (countTrailingZeros value) = true := by
  obtain ⟨i, hi, hbit⟩ := exists_getLsbD_of_ne_zero h
  exact scan_spec (t := fun i => value.getLsbD i) hi hbit

theorem countLeadingZeros_spec (h : value ≠ 0#64) : countLeadingZeros value < 64
      ∧ value.getLsbD (63 - countLeadingZeros value) = true := by
  obtain ⟨i, hi, hbit⟩ := exists_getLsbD_of_ne_zero h
  have hback : 63 - (63 - i) = i := by omega
  exact scan_spec (t := fun i => value.getLsbD (63 - i))
    (i := 63 - i) (by omega) (by simpa only [hback] using hbit)

-- ==== log2

theorem log2ceil_two_pow {n : Nat} (hn : 1 ≤ n) : log2ceil (2 ^ n) = n := by
  have hpos : 2 ^ n - 1 ≠ 0 := by
    have : 2 ^ 1 ≤ 2 ^ n := Nat.pow_le_pow_right (by decide) hn
    omega
  have hlog : Nat.log2 (2 ^ n - 1) = n - 1 := by
    rw [Nat.log2_eq_iff hpos]
    have hsplit : 2 ^ n = 2 * 2 ^ (n - 1) := by
      rw [← Nat.pow_succ']
      congr 1
      omega
    omega
  rw [log2ceil, log2floor]
  omega

theorem log2ceil_le {value n : Nat} (hv : 2 ≤ value)
    (h : value ≤ 2 ^ n) : log2ceil value ≤ n := by
  have hlt : Nat.log2 (value - 1) < n := by
    rw [Nat.log2_lt (by omega)]
    omega
  exact hlt

theorem le_two_pow_log2ceil (value : Nat) : value ≤ 2 ^ log2ceil value := by
  have h : value - 1 < 2 ^ (Nat.log2 (value - 1) + 1) := Nat.lt_log2_self
  show value ≤ 2 ^ (Nat.log2 (value - 1) + 1)
  omega

end CroCOS
