/-
The shape of a bit pool: how many entries each level has, which entry
of the level above an entry hangs under, and where in the buffer an
entry lies.

# The levels

Entry `e` of level `k` stands for the indices `i` with
`i >>> spanLog k = e`. `spanLog 0` is 6, level 1 adds the odd width
`l1BitmapLog2Width`, every level above adds 6 (`spanLog_succ`), so an
index's ancestors are each other's parents (`parent_ancestor`) and an
entry is the child of its parent at its own bit (`child_parent`).

# The layout

Level `k` starts after the levels above it, at slot
`1 + 64 + ... + 64 ^ (levelCount - 2 - k)`: that is what shifting
`geometricSum` computes (`geometricSum_shift`), as long as no more than
`maxLevelCount + 1` levels are asked for. So two different entries are
apart (`entryOffset_apart`) and every one of them lies inside the buffer
(`entryOffset_le`): `entries_laid_out` says so of `size_t`, for every
buffer whose size is one.
-/
import CroCOS.AtomicBitPool

namespace CroCOS.AtomicBitPool

variable {b e k n : Nat}

/-- What the constructor establishes and no call changes. The layout has
room for one level more than the calls have. -/
structure Sized (p : AtomicBitPool) (levels : Nat := maxLevelCount) :
    Prop where
  levels_pos : 1 ≤ p.levelCount
  levels_le : p.levelCount ≤ levels
  levels_max : levels ≤ maxLevelCount + 1
  width_pos : 1 ≤ p.l1BitmapLog2Width
  width_le : p.l1BitmapLog2Width ≤ 6
  capacity_eq : p.capacity = 2 ^ (6 * (p.levelCount - 1) + p.l1BitmapLog2Width)
  stride : sizeofEntry ≤ p.entryStride
  buffer_eq : p.bufferSize = requiredBufferSize p.capacity p.entryStride

variable (p : AtomicBitPool)

/-- The indices below one entry of `level` number `2 ^ spanLog`. -/
def spanLog (level : Nat) : Nat :=
  p.cumulativeShift level + p.shiftForLevel level

/-- The number of entries of `level`. -/
def entryCount (level : Nat) : Nat :=
  2 ^ (6 * (p.levelCount - 1) + p.l1BitmapLog2Width - p.spanLog level)

variable {p}

-- ==== the levels

theorem spanLog_zero : p.spanLog 0 = 6 := by
  unfold spanLog cumulativeShift shiftForLevel
  simp

theorem spanLog_pos (h : Sized p n) (hk : 1 ≤ k) :
    p.spanLog k = 6 * k + p.l1BitmapLog2Width := by
  have hw := h.width_le
  unfold spanLog cumulativeShift shiftForLevel
  by_cases h1 : k = 1
  · subst h1
    simp
  · simp only [h1, if_false]
    rw [if_pos (by omega)]
    omega

theorem spanLog_succ (h : Sized p n) (k : Nat) :
    p.spanLog (k + 1) = p.spanLog k + p.shiftForLevel (k + 1) := by
  rw [spanLog_pos h (by omega)]
  rcases Nat.eq_zero_or_pos k with rfl | hk
  · rw [spanLog_zero]
    rfl
  · rw [spanLog_pos h hk, shiftForLevel, if_neg (by omega)]
    omega

theorem shiftForLevel_le (h : Sized p n) (k : Nat) : p.shiftForLevel k ≤ 6 := by
  unfold shiftForLevel
  split
  · exact h.width_le
  · exact Nat.le_refl 6

/-- A bit position of an upper bitmap is a position of its word. -/
theorem two_pow_shift_le (h : Sized p n) (k : Nat) : 2 ^ p.shiftForLevel k ≤ 64 :=
  Nat.pow_le_pow_right (by decide) (shiftForLevel_le h k)

theorem entryIndex_eq (i k : Nat) :
    p.entryIndexForLevel i k = i / 2 ^ p.spanLog k := by
  exact Nat.shiftRight_eq_div_pow ..

theorem entryIndex_zero (i : Nat) : p.entryIndexForLevel i 0 = i / 64 := by
  rw [entryIndex_eq]
  rfl

theorem bitIndex_zero (i : Nat) : p.bitIndexForLevel i 0 = i % 64 := by
  unfold bitIndexForLevel cumulativeShift shiftForLevel
  simp

/-- An index's ancestors are each other's parents. -/
theorem parent_ancestor (h : Sized p n) (i k : Nat) :
    p.parentEntryIndex (p.entryIndexForLevel i k) k
      = p.entryIndexForLevel i (k + 1) := by
  rw [parentEntryIndex, Nat.shiftRight_eq_div_pow, entryIndex_eq,
    entryIndex_eq, Nat.div_div_eq_div_mul, ← Nat.pow_add,
    spanLog_succ h]

/-- An entry hangs under its parent at its own bit. -/
theorem child_parent (e k : Nat) :
    p.childEntryIndex (p.parentEntryIndex e k) (p.bitIndexInParent e k)
      (k + 1) = e := by
  rw [childEntryIndex, parentEntryIndex,
    Nat.shiftRight_eq_div_pow, Nat.mul_comm]
  exact Nat.div_add_mod ..

theorem bitIndexInParent_lt (e k : Nat) :
    p.bitIndexInParent e k < 2 ^ p.shiftForLevel (k + 1) :=
  Nat.mod_lt _ (Nat.two_pow_pos _)

theorem parent_child (hb : b < 2 ^ p.shiftForLevel (k + 1)) :
    p.parentEntryIndex (p.childEntryIndex e b (k + 1)) k = e := by
  rw [childEntryIndex, parentEntryIndex, Nat.shiftRight_eq_div_pow,
    Nat.mul_comm, Nat.mul_add_div (Nat.two_pow_pos _),
    Nat.div_eq_of_lt hb, Nat.add_zero]

theorem bit_child (hb : b < 2 ^ p.shiftForLevel (k + 1)) :
    p.bitIndexInParent (p.childEntryIndex e b (k + 1)) k = b := by
  rw [childEntryIndex, bitIndexInParent, Nat.mul_comm,
    Nat.mul_add_mod, Nat.mod_eq_of_lt hb]

-- ==== entries per level

theorem entryCount_pos (k : Nat) : 0 < p.entryCount k :=
  Nat.two_pow_pos _

theorem entryCount_eq (h : Sized p n) (hk : 1 ≤ k) :
    p.entryCount k = 64 ^ (p.levelCount - 1 - k) := by
  rw [entryCount, spanLog_pos h hk,
    show (64 : Nat) = 2 ^ 6 from rfl, ← Nat.pow_mul]
  congr 1
  omega

theorem entryCount_top (h : Sized p n) : p.entryCount (p.levelCount - 1) = 1 := by
  have hw := h.width_le
  rcases Nat.eq_zero_or_pos (p.levelCount - 1) with h0 | hpos
  · rw [entryCount, h0, spanLog_zero]
    rw [show 6 * 0 + p.l1BitmapLog2Width - 6 = 0 by omega, Nat.pow_zero]
  · rw [entryCount_eq h hpos, Nat.sub_self, Nat.pow_zero]

/-- A level has as many entries as its parent level has bits. -/
theorem entryCount_succ (h : Sized p n) (hk : k + 1 < p.levelCount) :
    p.entryCount k
      = p.entryCount (k + 1) * 2 ^ p.shiftForLevel (k + 1) := by
  have hlog : p.spanLog (k + 1)
      ≤ 6 * (p.levelCount - 1) + p.l1BitmapLog2Width := by
    rw [spanLog_pos h (by omega)]
    omega
  rw [entryCount, entryCount, ← Nat.pow_add]
  rw [spanLog_succ h] at hlog ⊢
  congr 1
  omega

theorem parent_lt (h : Sized p n) (hk : k + 1 < p.levelCount)
    (he : e < p.entryCount k) :
    p.parentEntryIndex e k < p.entryCount (k + 1) := by
  rw [parentEntryIndex, Nat.shiftRight_eq_div_pow]
  apply Nat.div_lt_of_lt_mul
  rw [Nat.mul_comm, ← entryCount_succ h hk]
  exact he

theorem child_lt (h : Sized p n) (hk : k + 1 < p.levelCount)
    (he : e < p.entryCount (k + 1)) (hb : b < 2 ^ p.shiftForLevel (k + 1)) :
    p.childEntryIndex e b (k + 1) < p.entryCount k := by
  rw [entryCount_succ h hk]
  calc e * 2 ^ p.shiftForLevel (k + 1) + b
      < (e + 1) * 2 ^ p.shiftForLevel (k + 1) := by
        rw [Nat.succ_mul]; omega
    _ ≤ p.entryCount (k + 1) * 2 ^ p.shiftForLevel (k + 1) :=
        Nat.mul_le_mul_right _ he

/-- An index of the pool has an entry at every level. -/
theorem entryIndex_lt (h : Sized p n) {i : Nat} (hi : i < p.capacity)
    (k : Nat) : p.entryIndexForLevel i k < p.entryCount k := by
  rw [h.capacity_eq] at hi
  rw [entryIndex_eq, entryCount]
  apply Nat.div_lt_of_lt_mul
  rw [← Nat.pow_add]
  exact Nat.lt_of_lt_of_le hi (Nat.pow_le_pow_right (by decide) (by omega))

-- ==== the layout

/-- The number of entries of the `m` topmost levels. -/
def slotsAbove : Nat → Nat
  | 0 => 0
  | m + 1 => slotsAbove m + 64 ^ m

theorem slotsAbove_le {m n : Nat} (h : m ≤ n) :
    slotsAbove m ≤ slotsAbove n := by
  induction n with
  | zero => exact Nat.le_of_eq (by rw [Nat.le_zero.mp h])
  | succ n ih =>
    rcases Nat.lt_or_ge n m with hlt | hge
    · exact Nat.le_of_eq (by rw [show m = n + 1 by omega])
    · exact Nat.le_trans (ih hge) (Nat.le_add_right ..)

/-- The same sum, read from the other end. -/
theorem slotsAbove_succ (m : Nat) :
    slotsAbove (m + 1) = 1 + 64 * slotsAbove m := by
  induction m with
  | zero => rfl
  | succ m ih =>
    have hlast : slotsAbove (m + 1) = slotsAbove m + 64 ^ m := rfl
    calc slotsAbove (m + 2)
        = slotsAbove (m + 1) + 64 ^ (m + 1) := rfl
      _ = 1 + 64 * slotsAbove m + 64 ^ m * 64 := by
          rw [ih, Nat.pow_succ]
      _ = 1 + 64 * slotsAbove (m + 1) := by rw [hlast]; omega

/-- Shifting the full geometric sum leaves the sum of the top levels. -/
theorem geometricSum_shift {j : Nat} (hj : j ≤ maxLevelCount) :
    geometricSum >>> (6 * j) = slotsAbove (maxLevelCount - j) := by
  have hall : ∀ j ≤ 10,
      geometricSum >>> (6 * j) = slotsAbove (maxLevelCount - j) := by
    decide
  exact hall j hj

/-- The position of an entry, in entries from the buffer's start. -/
def slot (p : AtomicBitPool) (index level : Nat) : Nat :=
  slotsAbove (p.levelCount - 1 - level) + index

theorem entryOffset_eq (h : Sized p n) (hk : k < p.levelCount) :
    p.entryOffset e k = p.entryStride * p.slot e k := by
  have hle := Nat.le_trans h.levels_le h.levels_max
  unfold maxLevelCount at hle
  unfold entryOffset slot
  simp only
  rw [geometricSum_shift (by unfold maxLevelCount; omega),
    show maxLevelCount - (maxLevelCount + k + 1 - p.levelCount)
      = p.levelCount - 1 - k by unfold maxLevelCount; omega,
    Nat.mul_add, Nat.mul_comm e]

/-- The entries of an upper level end where the next level starts. -/
theorem slot_lt (h : Sized p n) (hk : 1 ≤ k) (hkl : k < p.levelCount)
    (he : e < p.entryCount k) :
    p.slot e k < slotsAbove (p.levelCount - k) := by
  rw [entryCount_eq h hk] at he
  rw [slot, show p.levelCount - k = p.levelCount - 1 - k + 1 by omega,
    slotsAbove]
  omega

/-- Different entries have different slots: a lower level starts after
every entry of the levels above it. -/
theorem slot_inj (h : Sized p n) {e' k' : Nat} (hk : k < p.levelCount)
    (hk' : k' < p.levelCount) (he : e < p.entryCount k)
    (he' : e' < p.entryCount k') (heq : p.slot e k = p.slot e' k') :
    e = e' ∧ k = k' := by
  have hdisj : ∀ {a b x y : Nat}, a < b → b < p.levelCount →
      x < p.entryCount b → p.slot x b < p.slot y a := by
    intro a b x y hab hb hx
    have hlt := slot_lt h (by omega) hb hx
    have hmono : slotsAbove (p.levelCount - b)
        ≤ slotsAbove (p.levelCount - 1 - a) := slotsAbove_le (by omega)
    rw [slot] at hlt ⊢
    rw [slot]
    omega
  rcases Nat.lt_trichotomy k k' with hlt | rfl | hgt
  · have := hdisj (y := e) hlt hk' he'
    omega
  · refine ⟨?_, rfl⟩
    rw [slot, slot] at heq
    omega
  · have := hdisj (y := e') hgt hk he
    omega

theorem stride_mul_le (h : Sized p n) {x y : Nat} (hxy : x < y) :
    p.entryStride * x + sizeofEntry ≤ p.entryStride * y := by
  have hs := h.stride
  calc p.entryStride * x + sizeofEntry
      ≤ p.entryStride * (x + 1) := by
        rw [Nat.mul_add]; omega
    _ ≤ p.entryStride * y := Nat.mul_le_mul_left _ hxy

/-- Different entries share no byte. -/
theorem entryOffset_apart (h : Sized p n) {e' k' : Nat}
    (hk : k < p.levelCount) (hk' : k' < p.levelCount) (he : e < p.entryCount k)
    (he' : e' < p.entryCount k') (hne : ¬ (e = e' ∧ k = k')) :
    p.entryOffset e k + sizeofEntry ≤ p.entryOffset e' k'
      ∨ p.entryOffset e' k' + sizeofEntry ≤ p.entryOffset e k := by
  rw [entryOffset_eq h hk, entryOffset_eq h hk']
  rcases Nat.lt_trichotomy (p.slot e k) (p.slot e' k') with hlt | heq | hgt
  · exact .inl (stride_mul_le h hlt)
  · exact absurd (slot_inj h hk hk' he he' heq) hne
  · exact .inr (stride_mul_le h hgt)

theorem entryOffset_inj (h : Sized p n) {e' k' : Nat} (hk : k < p.levelCount)
    (hk' : k' < p.levelCount) (he : e < p.entryCount k)
    (he' : e' < p.entryCount k')
    (heq : p.entryOffset e k = p.entryOffset e' k') : e = e' ∧ k = k' := by
  by_contra hne
  have hapart := entryOffset_apart h hk hk' he he' hne
  unfold sizeofEntry at hapart
  omega

-- ==== the buffer

theorem upperLevelsSize_eq (stride : Nat) : ∀ level levelEntries total,
      upperLevelsSize stride level levelEntries total
        = total + stride * (levelEntries * slotsAbove level) := by
  intro level
  induction level with
  | zero => intro n total; simp [upperLevelsSize, slotsAbove]
  | succ level ih =>
    intro n total
    rw [upperLevelsSize, ih, slotsAbove_succ]
    ring

/-- The level count of a capacity, by the width its last level needs. -/
theorem computeLevelCount_two_pow {m w : Nat} (hpos : 1 ≤ w)
    (hle : w ≤ 6) : computeLevelCount (2 ^ (6 * m + w)) = m + 1 := by
  unfold computeLevelCount
  rw [log2ceil_two_pow (by omega)]
  rcases Nat.eq_zero_or_pos m with rfl | hm
  · rw [if_pos]
    exact Nat.pow_le_pow_right (n := 2) (by decide)
      (show 6 * 0 + w ≤ 6 by omega)
  · rw [if_neg]
    · unfold divideAndRoundUp
      omega
    · have hlt : 2 ^ 6 < 2 ^ (6 * m + w) :=
        Nat.pow_lt_pow_right (by decide) (by omega)
      omega

/-- The number of leaf words of a capacity. -/
theorem divideAndRoundUp_two_pow (n : Nat) :
    divideAndRoundUp (2 ^ n) 64 = 2 ^ (n - 6) := by
  unfold divideAndRoundUp
  rcases Nat.lt_or_ge n 6 with hlt | hge
  · rw [Nat.sub_eq_zero_of_le (Nat.le_of_lt hlt)]
    have hp : 2 ^ n < 2 ^ 6 := Nat.pow_lt_pow_right (by decide) hlt
    have hpos : 0 < 2 ^ n := Nat.two_pow_pos _
    omega
  · have hsplit : 2 ^ n = 2 ^ (n - 6) * 64 := by
      rw [show (64 : Nat) = 2 ^ 6 from rfl, ← Nat.pow_add]
      congr 1
      omega
    omega

/-- The constructor builds a sized pool, up to the capacity that `n`
levels can index. -/
theorem sized_create {cap : Nat} (stride : Nat) (h2 : 2 ≤ cap)
    (hmax : cap ≤ 2 ^ (6 * n)) (hn : n ≤ maxLevelCount + 1) :
    Sized (create cap stride) n := by
  have hlog : log2ceil cap ≤ 6 * n := log2ceil_le h2 hmax
  have hpos : 1 ≤ log2ceil cap := Nat.le_add_left ..
  -- the rounded capacity's exponent, as full levels and a last width
  obtain ⟨m, w, hw1, hw6, hsplit⟩ :
      ∃ m w, 1 ≤ w ∧ w ≤ 6 ∧ log2ceil cap = 6 * m + w :=
    ⟨(log2ceil cap - 1) / 6, (log2ceil cap - 1) % 6 + 1, by omega,
      by omega, by omega⟩
  have hlevels : (create cap stride).levelCount = m + 1 := by
    show computeLevelCount (2 ^ log2ceil cap) = m + 1
    rw [hsplit, computeLevelCount_two_pow hw1 hw6]
  have hwidth : (create cap stride).l1BitmapLog2Width = w := by
    show computeL1BitmapLog2Width (2 ^ log2ceil cap)
      (create cap stride).levelCount = w
    rw [computeL1BitmapLog2Width, log2ceil_two_pow hpos]
    omega
  refine ⟨?_, ?_, hn, ?_, ?_, ?_, Nat.le_max_right .., ?_⟩
  · rw [hlevels]; omega
  · rw [hlevels]; omega
  · rw [hwidth]; exact hw1
  · rw [hwidth]; exact hw6
  · show 2 ^ log2ceil cap = _
    rw [hlevels, hwidth, hsplit, Nat.add_sub_cancel]
  · show requiredBufferSize cap stride
      = requiredBufferSize (2 ^ log2ceil cap) (max stride sizeofEntry)
    unfold requiredBufferSize
    rw [log2ceil_two_pow hpos, Nat.max_assoc, Nat.max_self]

/-- The buffer has room for exactly the entries of every level. -/
theorem bufferSize_eq (h : Sized p n) : p.bufferSize = p.entryStride
      * (slotsAbove (p.levelCount - 1) + p.entryCount 0) := by
  have hw := h.width_pos
  rw [h.buffer_eq, requiredBufferSize, h.capacity_eq]
  simp only [log2ceil_two_pow (n := 6 * (p.levelCount - 1)
      + p.l1BitmapLog2Width) (by omega),
    computeLevelCount_two_pow hw h.width_le, divideAndRoundUp_two_pow,
    Nat.max_eq_left h.stride, upperLevelsSize_eq, Nat.add_sub_cancel]
  rw [entryCount, spanLog_zero]
  ring

theorem entryOffset_le (h : Sized p n) (hk : k < p.levelCount)
    (he : e < p.entryCount k) :
    p.entryOffset e k + sizeofEntry ≤ p.bufferSize := by
  have hslot : p.slot e k + 1
      ≤ slotsAbove (p.levelCount - 1) + p.entryCount 0 := by
    rcases Nat.eq_zero_or_pos k with rfl | hpos
    · rw [slot, Nat.sub_zero]
      omega
    · have hlt := slot_lt h hpos hk he
      have hmono : slotsAbove (p.levelCount - k)
          ≤ slotsAbove (p.levelCount - 1) := slotsAbove_le (by omega)
      omega
  rw [entryOffset_eq h hk, bufferSize_eq h]
  exact stride_mul_le h hslot

-- ==== in size_t

theorem bit_ancestor (h : Sized p n) (i k : Nat) :
    p.bitIndexInParent (p.entryIndexForLevel i k) k
      = p.bitIndexForLevel i (k + 1) := by
  have hcum : p.cumulativeShift (k + 1) = p.spanLog k :=
    Nat.add_right_cancel (spanLog_succ h k)
  rw [bitIndexForLevel, hcum]
  rfl

/-- Some index lies below a given entry. -/
theorem exists_below (h : Sized p n) (he : e < p.entryCount k) :
    ∃ i, i < p.capacity ∧ p.entryIndexForLevel i k = e := by
  refine ⟨e * 2 ^ p.spanLog k, ?_, ?_⟩
  · unfold entryCount at he
    rw [h.capacity_eq]
    rcases Nat.le_total (p.spanLog k)
        (6 * (p.levelCount - 1) + p.l1BitmapLog2Width) with hle | hge
    · calc e * 2 ^ p.spanLog k
          < 2 ^ (6 * (p.levelCount - 1) + p.l1BitmapLog2Width - p.spanLog k)
              * 2 ^ p.spanLog k :=
            Nat.mul_lt_mul_of_pos_right he (Nat.two_pow_pos _)
        _ = _ := by rw [← Nat.pow_add, Nat.sub_add_cancel hle]
    · -- one level, with fewer bits than its word has
      rw [Nat.sub_eq_zero_of_le hge] at he
      rw [Nat.lt_one_iff.mp he, Nat.zero_mul]
      exact Nat.two_pow_pos _
  · rw [entryIndex_eq, Nat.mul_div_cancel _ (Nat.two_pow_pos _)]

/-- The entries of `p` lie apart in `size` bytes, and the index maps lead
from every index to its own leaf bit. -/
structure LaidOut (p : AtomicBitPool) (size : Nat) : Prop where
  /-- The valid indices of a level are those the absolute indices have. -/
  valid : ∀ k e, e < p.entryCount k
    ↔ ∃ i < p.capacity, p.entryIndexForLevel i k = e
  inside : ∀ k < p.levelCount, ∀ e < p.entryCount k,
    p.entryAt e k + sizeofEntry ≤ size
  apart : ∀ k < p.levelCount, ∀ e < p.entryCount k, ∀ k' < p.levelCount,
    ∀ e' < p.entryCount k', ¬ (e = e' ∧ k = k') →
      p.entryAt e k + sizeofEntry ≤ p.entryAt e' k'
        ∨ p.entryAt e' k' + sizeofEntry ≤ p.entryAt e k
  parent : ∀ i k, p.parentEntryIndex (p.entryIndexForLevel i k) k
    = p.entryIndexForLevel i (k + 1)
  bit : ∀ i k, p.bitIndexInParent (p.entryIndexForLevel i k) k
    = p.bitIndexForLevel i (k + 1)
  child : ∀ i k, p.childEntryIndex (p.entryIndexForLevel i (k + 1))
    (p.bitIndexForLevel i (k + 1)) (k + 1) = p.entryIndexForLevel i k
  leaf : ∀ i e b, b < 64 →
    (p.entryIndexForLevel i 0 = e ∧ p.bitIndexForLevel i 0 = b
      ↔ i = 64 * e + b)

theorem entries_laid_out {cap stride : Nat} (h2 : 2 ≤ cap)
    (hcap : cap ≤ 2 ^ 63) (hfit : requiredBufferSize cap stride < 2 ^ 64) :
    (create cap stride).LaidOut (requiredBufferSizeT cap stride) := by
  have h : Sized (create cap stride) (maxLevelCount + 1) :=
    sized_create stride h2 (Nat.le_trans hcap (by decide)) le_rfl
  rw [requiredBufferSizeT, Nat.mod_eq_of_lt hfit]
  -- every offset is below the size, so none of them wraps
  have hat : ∀ k < (create cap stride).levelCount,
      ∀ e < (create cap stride).entryCount k,
        (create cap stride).entryAt e k
          = (create cap stride).entryOffset e k := by
    intro k hk e he
    have hle : _ ≤ requiredBufferSize cap stride := entryOffset_le h hk he
    exact Nat.mod_eq_of_lt (by omega)
  refine ⟨fun k e => ⟨exists_below h, ?_⟩, fun k hk e he => ?_,
    fun k hk e he k' hk' e' he' hne => ?_, parent_ancestor h, bit_ancestor h,
    fun i k => ?_, fun i e b hb => ?_⟩
  · rintro ⟨i, hi, rfl⟩
    exact entryIndex_lt h hi k
  · rw [hat k hk e he]
    exact entryOffset_le h hk he
  · rw [hat k hk e he, hat k' hk' e' he']
    exact entryOffset_apart h hk hk' he he' hne
  · rw [← parent_ancestor h, ← bit_ancestor h, child_parent]
  · rw [entryIndex_zero, bitIndex_zero]
    omega

theorem entries_laid_out_two_levels :
    (create 100 64).LaidOut (requiredBufferSizeT 100 64) :=
  entries_laid_out (by decide) (by decide) (by decide +kernel)

/-- Three entries of half the address space each: the size wraps to that
of one, and the leaf entries are not inside. -/
theorem wide_stride_wraps :
    ¬ (create 128 (2 ^ 63)).LaidOut (requiredBufferSizeT 128 (2 ^ 63)) := by
  intro h
  have hleaf := h.inside 0 (by decide +kernel) 0 (by decide +kernel)
  revert hleaf
  decide +kernel

end CroCOS.AtomicBitPool
