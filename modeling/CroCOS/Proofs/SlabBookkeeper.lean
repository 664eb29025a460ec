/-
What the slot bookkeeping keeps.

The bits of a split bitmap that are in neither half are allocated or
reserved. `Tracks bk live` says that the bookkeeper has handed out the
slots `live`: they are in neither half, the counts add up to all slots,
and the hint passes over no claimable bit.
-/
import CroCOS.SlabBookkeeper

namespace CroCOS

open Lib.Bitmap

-- ==== split bitmaps

namespace SplitBitmap

variable {n : Nat} {b b' : SplitBitmap n} {w : Nat}

/-- The slots that are in one half or the other. -/
def available (b : SplitBitmap n) : Finset Nat :=
  bits b.allocBitmap ∪ bits b.freeBitmap

structure Ok (b : SplitBitmap n) : Prop where
  sides : Disjoint (bits b.allocBitmap) (bits b.freeBitmap)
  hinted : ∀ i ∈ bits b.allocBitmap, 64 * b.hint ≤ i
  unhinted : ¬ 1 < n → b.hint = 0

@[simp] theorem setHint_allocBitmap :
    (b.setHint w).allocBitmap = b.allocBitmap := by
  unfold setHint
  split
  · rfl
  · rfl

@[simp] theorem setHint_freeBitmap :
    (b.setHint w).freeBitmap = b.freeBitmap := by
  unfold setHint
  split
  · rfl
  · rfl

/-- Moving the hint to a word below which nothing is claimable. -/
theorem Ok.setHint (hsides : Disjoint (bits b.allocBitmap) (bits b.freeBitmap))
    (hzero : ¬ 1 < n → b.hint = 0)
    (hw : ∀ i ∈ bits b.allocBitmap, 64 * w ≤ i) : Ok (b.setHint w) := by
  refine ⟨?_, ?_, ?_⟩
  · rw [setHint_allocBitmap, setHint_freeBitmap]
    exact hsides
  · rw [setHint_allocBitmap]
    unfold SplitBitmap.setHint
    split
    · exact hw
    · rename_i hn
      intro i _
      omega
  · intro hn
    unfold SplitBitmap.setHint
    rw [if_neg hn]
    exact hzero hn

theorem seedAllAvailable_spec (hzero : ¬ 1 < n → b.hint = 0) :
    Ok b.seedAllAvailable
      ∧ b.seedAllAvailable.available = Finset.range (64 * n) := by
  unfold seedAllAvailable available
  refine ⟨Ok.setHint ?_ hzero fun i _ => by omega, ?_⟩
  · simp
  · simp

theorem isBitAvailable_iff {bit : Nat} :
    b.isBitAvailable bit = true ↔ bit ∈ b.available := by
  unfold isBitAvailable available
  rw [Bool.or_eq_true, Finset.mem_union, mem_bits, mem_bits]

theorem reserveBit_spec (h : Ok b) {bit : Nat} (hbit : bit < 64 * n) :
    Ok (b.reserveBit bit)
      ∧ (b.reserveBit bit).available = b.available.erase bit := by
  unfold reserveBit
  refine ⟨⟨?_, ?_, h.unhinted⟩, ?_⟩
  · rw [bits_clear_mask hbit, bits_clear_mask hbit]
    exact Finset.disjoint_of_subset_left (Finset.erase_subset ..)
      (Finset.disjoint_of_subset_right (Finset.erase_subset ..) h.sides)
  · intro i hi
    rw [bits_clear_mask hbit] at hi
    exact h.hinted i (Finset.mem_of_mem_erase hi)
  · unfold available
    rw [bits_clear_mask hbit, bits_clear_mask hbit,
      ← Finset.erase_union_distrib]

end SplitBitmap

-- ==== bookkeeper

namespace LibAlloc.SlabBookkeeper

variable {slotCount : Nat} {bk bk' : SlabBookkeeper slotCount}
variable {live : Finset Nat}

/-- The slots that can be claimed. -/
def available (bk : SlabBookkeeper slotCount) : Finset Nat :=
  bk.bitmap.available

/-- The bookkeeper has handed out the slots `live`. -/
structure Tracks (bk : SlabBookkeeper slotCount) (live : Finset Nat) :
    Prop where
  ok : bk.bitmap.Ok
  live_subset : live ⊆ Finset.range (bitCount slotCount)
  apart : Disjoint bk.available live
  allocated_eq : bk.allocatedCount = live.card
  total : bk.available.card + live.card + bk.reservedCount
    = bitCount slotCount

/-- The slots that can be handed out at all. -/
theorem Tracks.maxAlloc_eq (h : Tracks bk live) :
    bk.maxAlloc = bk.available.card + live.card := by
  have := h.total
  unfold maxAlloc
  omega

theorem Tracks.isFull_iff (h : Tracks bk live) :
    bk.isFull = true ↔ bk.available = ∅ := by
  unfold isFull
  rw [decide_eq_true_eq, h.maxAlloc_eq, h.allocated_eq, ← Finset.card_eq_zero]
  omega

/-- Before anything is handed out, a slot can be taken away for good. -/
theorem reserveSlot_spec (h : Tracks bk ∅) {slot : Nat}
    (hslot : slot < bitCount slotCount) :
    ∃ bk', bk.reserveSlot slot = .ok bk' ∧ Tracks bk' ∅
      ∧ bk'.available = bk.available.erase slot := by
  have halloc : bk.allocatedCount = 0 := h.allocated_eq
  unfold reserveSlot
  rw [if_neg (not_not.mpr halloc)]
  by_cases hmem : slot ∈ bk.available
  · rw [if_pos (SplitBitmap.isBitAvailable_iff.mpr hmem)]
    obtain ⟨hok, havail⟩ := SplitBitmap.reserveBit_spec h.ok hslot
    refine ⟨_, rfl, ⟨hok, h.live_subset, Finset.disjoint_empty_right _,
      halloc, ?_⟩, havail⟩
    have htotal := h.total
    unfold available at hmem htotal
    have hpos := Finset.card_pos.mpr ⟨slot, hmem⟩
    show (SplitBitmap.available _).card + _ + (bk.reservedCount + 1) = _
    rw [havail, Finset.card_erase_of_mem hmem]
    omega
  · rw [if_neg fun hx => hmem (SplitBitmap.isBitAvailable_iff.mp hx)]
    exact ⟨bk, rfl, h, (Finset.erase_eq_of_notMem hmem).symm⟩

/-- A bookkeeper whose slots fill its words, seeded. -/
theorem seedAllAvailable_create (hfull : kTailBits slotCount = 0) :
    ∃ bk', (create slotCount).seedAllAvailable = .ok bk' ∧ Tracks bk' ∅
      ∧ bk'.available = Finset.range (bitCount slotCount) := by
  obtain ⟨hok, havail⟩ := SplitBitmap.seedAllAvailable_spec
    (b := (create slotCount).bitmap) fun _ => rfl
  unfold seedAllAvailable
  rw [hfull]
  refine ⟨_, rfl, ⟨hok, Finset.empty_subset _, Finset.disjoint_empty_right _,
    rfl, ?_⟩, havail⟩
  show (SplitBitmap.available _).card + 0 + 0 = _
  rw [havail, Finset.card_range]
  rfl

end LibAlloc.SlabBookkeeper

end CroCOS
