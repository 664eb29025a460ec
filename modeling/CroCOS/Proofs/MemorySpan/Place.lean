/-
Where an allocation lands inside the free block found for it.

The worst-case size estimate leaves room for the returned address and
the bytes asked for (`returnAddr_spec`). It does not always leave room
for a block of the minimum size: when a large alignment slides the
header up, the block must still reach `minimumBlockSize` past it.
`OverrunsBlock` is the case where that is past the end of the free block.
Without it, `place_spec` gives the three parts an allocation cuts its
free block into; `not_overruns_of_align` and `not_overruns_of_size`
say which requests can never overrun.
-/
import CroCOS.MemorySpan

namespace CroCOS.LibAlloc.InternalAllocator

theorem minimumBlockSize_eq : minimumBlockSize = 96 := by decide

theorem guaranteedAlignAfterBlock_eq : guaranteedAlignAfterBlock = 16 := by
  decide

/-- A free block of `freeSize` bytes at `base`, and a request whose
worst-case size it covers. -/
structure Covers (base freeSize size align : Nat) : Prop where
  base_dvd : 16 ∣ base
  size_dvd : 16 ∣ freeSize
  minimum : minimumBlockSize ≤ freeSize
  below_top : base + freeSize < 2 ^ 64
  pow_two : ∃ k, align = 2 ^ k
  no_wrap : size + align + sizeofAlignedAllocatedMemoryBlockHeader < 2 ^ 64
  padded_le : computeWorstCaseAlignedSize size align ≤ freeSize

/-- The header slides up so far that a block of the minimum size would
end past the free block. -/
def OverrunsBlock (base freeSize align : Nat) : Prop :=
  base + freeSize < headerBaseAddrFor base
    (findFirstAlignedAddressAfterHeaderSpace base align) + minimumBlockSize

variable {base freeSize size align : Nat}

/-- A mask by a power of two less one is a remainder. -/
theorem and_mask (h : ∃ k, align = 2 ^ k) (x : Nat) :
    x &&& (align - 1) = x % align := by
  obtain ⟨k, rfl⟩ := h
  exact Nat.and_two_pow_sub_one_eq_mod x k

/-- A power of two divides 16 or is a multiple of 32. -/
theorem pow_two_cases (h : ∃ k, align = 2 ^ k) : align ∣ 16 ∨ 32 ∣ align := by
  obtain ⟨k, rfl⟩ := h
  rcases Nat.lt_or_ge k 5 with hk | hk
  · left
    rw [show (16 : Nat) = 2 ^ 4 from rfl]
    exact Nat.pow_dvd_pow 2 (by omega)
  · right
    exact Nat.pow_dvd_pow 2 hk

theorem computeWorstCaseAlignedSize_small (hsmall : align ∣ 16)
    (hpow : ∃ k, align = 2 ^ k) :
    computeWorstCaseAlignedSize size align = (size + 32) % 2 ^ 64 := by
  unfold computeWorstCaseAlignedSize
  rw [and_mask hpow, guaranteedAlignAfterBlock_eq, Nat.mod_eq_zero_of_dvd hsmall]
  rfl

theorem computeWorstCaseAlignedSize_large (hlarge : 32 ∣ align)
    (hpow : ∃ k, align = 2 ^ k)
    (hwrap : size + align + sizeofAlignedAllocatedMemoryBlockHeader < 2 ^ 64) :
    computeWorstCaseAlignedSize size align = size + align + 48 := by
  have hpos : 0 < align := by
    obtain ⟨k, rfl⟩ := hpow
    exact Nat.two_pow_pos k
  unfold computeWorstCaseAlignedSize
  rw [and_mask hpow, guaranteedAlignAfterBlock_eq,
    Nat.mod_eq_of_lt (show 16 < align by omega),
    Nat.mod_eq_of_lt hwrap]
  rfl

/-- The address returned: aligned, above the space of its header, with
the bytes asked for inside the free block. -/
structure Returns (base freeSize size align ret : Nat) : Prop where
  sixteen_dvd : 16 ∣ ret
  align_dvd : align ∣ ret
  header : ret = base + 32 ∨ base + 48 ≤ ret
  fits : ret + size ≤ base + freeSize
  near : ret = base + 32 ∨ ret ≤ base + align + 16

theorem returnAddr_spec (h : Covers base freeSize size align) :
    Returns base freeSize size align
      (findFirstAlignedAddressAfterHeaderSpace base align) := by
  obtain ⟨hb, hf, hmin, htop, hpow, hwrap, hpad⟩ := h
  rw [minimumBlockSize_eq] at hmin
  have hpos : 0 < align := by
    obtain ⟨k, rfl⟩ := hpow
    exact Nat.two_pow_pos k
  have hout : (base + sizeofAllocatedMemoryBlockHeader) % 2 ^ 64 = base + 32 := by
    unfold sizeofAllocatedMemoryBlockHeader
    omega
  have hmask : (base + 32) &&& (align - 1) = (base + 32) % align :=
    and_mask hpow _
  unfold findFirstAlignedAddressAfterHeaderSpace
  simp only [hout, hmask]
  rcases pow_two_cases hpow with hsmall | hlarge
  · -- the header alone already aligns the address
    rw [computeWorstCaseAlignedSize_small hsmall hpow] at hpad
    unfold sizeofAlignedAllocatedMemoryBlockHeader at hwrap
    have hdvd : align ∣ base + 32 :=
      Nat.dvd_trans hsmall (by omega)
    rw [Nat.mod_eq_zero_of_dvd hdvd, if_neg (by simp)]
    exact ⟨by omega, hdvd, Or.inl rfl, by omega, Or.inl rfl⟩
  · rw [computeWorstCaseAlignedSize_large hlarge hpow hwrap] at hpad
    have h16 : 16 ∣ align := Nat.dvd_trans (by decide) hlarge
    by_cases hdvd : align ∣ base + 32
    · rw [Nat.mod_eq_zero_of_dvd hdvd, if_neg (by simp)]
      exact ⟨by omega, hdvd, Or.inl rfl, by omega, Or.inl rfl⟩
    · rw [if_pos fun hz => hdvd (Nat.dvd_of_mod_eq_zero hz)]
      obtain ⟨hge, hlt, hret⟩ := alignUp_spec (base + 48) hpos
      have hret16 := Nat.dvd_trans h16 hret
      -- one alignment further would make the header's end aligned
      have hnear : alignUp (base + 48) align ≠ base + align + 32 := by
        intro heq
        rw [heq, Nat.add_right_comm, Nat.dvd_add_left (Nat.dvd_refl _)]
          at hret
        exact hdvd hret
      have hin : (base + 32 + alignedHeaderMetadataSize) % 2 ^ 64
          = base + 48 := by
        unfold alignedHeaderMetadataSize sizeofAlignedAllocatedMemoryBlockHeader
          sizeofAllocatedMemoryBlockHeader
        omega
      rw [hin, Nat.mod_eq_of_lt (by omega)]
      exact ⟨hret16, hret, Or.inr hge, by omega, Or.inr (by omega)⟩

/-- The header lies right below the returned address, or at the start
of the free block. -/
theorem headerBaseAddrFor_eq {ret : Nat} (hb : 16 ∣ base) (hret : 16 ∣ ret)
    (hge : base + 32 ≤ ret) (hlt : ret < 2 ^ 64) :
    headerBaseAddrFor base ret
      = if ret - 32 - base < 96 then base else ret - 32 := by
  have hdown : findFirstAlignedHeaderLocationBelowAddr ret = ret - 32 := by
    unfold findFirstAlignedHeaderLocationBelowAddr alignDown
      sizeofAllocatedMemoryBlockHeader alignofBlockHeader
    rw [usub_eq (by omega) (by omega)]
    omega
  unfold headerBaseAddrFor
  simp only [hdown, minimumBlockSize_eq]
  rw [usub_eq (by omega) (by omega)]

/-- The block an allocation takes: its header at the base or far enough
above it to leave a block below, its end at the end or far enough below
it to leave a block above. -/
structure Placed (base freeSize size align : Nat) (p : Placement) : Prop where
  header_dvd : 16 ∣ p.headerBaseAddr
  next_dvd : 16 ∣ p.nextHeaderBaseAddr
  below : p.headerBaseAddr = base ∨ base + 96 ≤ p.headerBaseAddr
  minimum : p.headerBaseAddr + 96 ≤ p.nextHeaderBaseAddr
  above : p.nextHeaderBaseAddr = base + freeSize
    ∨ p.nextHeaderBaseAddr + 96 ≤ base + freeSize
  align_dvd : align ∣ p.returnAddr
  header_fits : p.headerBaseAddr + 32 = p.returnAddr
    ∨ p.headerBaseAddr + 48 ≤ p.returnAddr
  data_fits : p.returnAddr + size ≤ p.nextHeaderBaseAddr

theorem place_spec (h : Covers base freeSize size align)
    (hover : ¬ OverrunsBlock base freeSize align) :
    Placed base freeSize size align
      (place base (base + freeSize) size align) := by
  have hret := returnAddr_spec h
  obtain ⟨hb, hf, hmin, htop, -, -, -⟩ := h
  unfold OverrunsBlock at hover
  unfold place
  simp only
  generalize findFirstAlignedAddressAfterHeaderSpace base align = ret
    at hret hover ⊢
  obtain ⟨hret16, halign, hhdr, hfits, -⟩ := hret
  have hge : base + 32 ≤ ret := by omega
  have hdef := headerBaseAddrFor_eq hb hret16 hge (by omega)
  generalize headerBaseAddrFor base ret = hdr at hdef hover ⊢
  rw [minimumBlockSize_eq] at hover ⊢
  have hhdrFacts : 16 ∣ hdr ∧ (hdr = base ∨ base + 96 ≤ hdr)
      ∧ (hdr + 32 = ret ∨ hdr + 48 ≤ ret) := by
    split at hdef
    · rw [hdef]
      exact ⟨hb, Or.inl rfl, by omega⟩
    · rw [hdef]
      exact ⟨by omega, Or.inr (by omega), Or.inl (by omega)⟩
  obtain ⟨hhdr16, hbelow, hheader⟩ := hhdrFacts
  -- the next header, before the end of the block is looked at
  have hnext : ∃ next, nextHeaderBaseAddrFor hdr ret size = next
      ∧ 16 ∣ next ∧ hdr + 96 ≤ next ∧ ret + size ≤ next
      ∧ next ≤ base + freeSize := by
    obtain ⟨hup, hlt, hdvd⟩ := alignUp_spec
      (max (ret + size) (hdr + 96)) (show 0 < 16 by decide)
    refine ⟨alignUp (max (ret + size) (hdr + 96)) 16, ?_, hdvd, ?_, ?_, ?_⟩
    · unfold nextHeaderBaseAddrFor
      rw [minimumBlockSize_eq, Nat.mod_eq_of_lt (a := ret + size) (by omega),
        Nat.mod_eq_of_lt (a := hdr + 96) (by omega)]
      unfold alignofBlockHeader
      rw [Nat.mod_eq_of_lt (by omega)]
    · omega
    · omega
    · omega
  obtain ⟨next, hnextEq, hnext16, hmin96, hdata, hend⟩ := hnext
  rw [hnextEq, usub_eq hend (by omega)]
  split
  · exact ⟨hhdr16, Nat.dvd_add hb hf, hbelow, Nat.le_trans hmin96 hend,
      Or.inl rfl, halign, hheader, Nat.le_trans hdata hend⟩
  · refine ⟨hhdr16, hnext16, hbelow, hmin96, Or.inr ?_, halign, hheader, hdata⟩
    show next + 96 ≤ base + freeSize
    omega

/-- An alignment up to 64 never slides the header up. -/
theorem not_overruns_of_align (h : Covers base freeSize size align)
    (halign : align ≤ 64) : ¬ OverrunsBlock base freeSize align := by
  have hret := returnAddr_spec h
  obtain ⟨hb, -, hmin, htop, -, -, -⟩ := h
  unfold OverrunsBlock
  obtain ⟨hret16, -, hhdr, hfits, hnear⟩ := hret
  rw [headerBaseAddrFor_eq hb hret16 (by omega) (by omega)]
  split
  · omega
  · omega

/-- Nor does a request of more than 16 bytes overrun. -/
theorem not_overruns_of_size (h : Covers base freeSize size align)
    (hsize : 16 < size) : ¬ OverrunsBlock base freeSize align := by
  rcases pow_two_cases h.pow_two with hsmall | hlarge
  · exact not_overruns_of_align h
      (Nat.le_trans (Nat.le_of_dvd (by decide) hsmall) (by decide))
  · have hpad := h.padded_le
    rw [computeWorstCaseAlignedSize_large hlarge h.pow_two h.no_wrap] at hpad
    have hret := returnAddr_spec h
    obtain ⟨hb, hf, hmin, htop, -, -, -⟩ := h
    unfold OverrunsBlock
    obtain ⟨hret16, -, hhdr, hfits, hnear⟩ := hret
    rw [minimumBlockSize_eq] at hmin ⊢
    rw [headerBaseAddrFor_eq hb hret16 (by omega) (by omega)]
    split
    · omega
    · omega

end CroCOS.LibAlloc.InternalAllocator
