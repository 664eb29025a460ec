/-
The free indexes of a span, as one set.

`withFree s free` is the span `s` with both free trees holding the
blocks `free` and `largestFreeBlockSize` the size of the largest of
them. Inserting and removing a free block then act on the set alone
(`insertFreeBlock_withFree`, `removeFreeBlock_withFree`), and rewriting
the header of a block that is not free leaves the set alone
(`setSizeAndColor_withFree`), so what a span call does to its indexes
is computed by rewriting with these three.
-/
import CroCOS.MemorySpan

namespace CroCOS.LibAlloc.InternalAllocator.MemorySpanHeader

open Lib.OrderedSet

/-- The span whose free blocks are `free`. -/
def withFree (s : MemorySpanHeader) (free : Finset Nat) : MemorySpanHeader :=
  { s with
    unallocatedBlockTree := free
    unallocatedBlocksByAddress := free
    largestFreeBlockSize := free.sup s.blockSize }

variable {s : MemorySpanHeader} {free : Finset Nat} {block value : Nat}

/-- The size of the last block by size is the largest size. -/
theorem maxFreeBlock_size : (match (s.withFree free).maxFreeBlock with
      | some b => s.blockSize b
      | none => 0) = free.sup s.blockSize := by
  show (match (greatest (free.image fun b =>
    toLex (s.blockSize b, b))).map _ with
      | some b => s.blockSize b
      | none => 0) = _
  cases hg : greatest (free.image fun b => toLex (s.blockSize b, b)) with
  | none =>
    rw [greatest_eq_none_iff, Finset.image_eq_empty] at hg
    rw [hg]
    rfl
  | some k =>
    obtain ⟨hk, hmax⟩ := greatest_eq_some_iff.mp hg
    obtain ⟨b, hb, rfl⟩ := Finset.mem_image.mp hk
    apply Nat.le_antisymm
    · exact Finset.le_sup (f := s.blockSize) hb
    · apply Finset.sup_le
      intro c hc
      have hle := hmax _ (Finset.mem_image_of_mem _ hc)
      rcases (Prod.Lex.le_iff).mp hle with hlt | heq
      · exact Nat.le_of_lt hlt
      · exact Nat.le_of_eq heq.1

theorem insertFreeBlock_withFree : (s.withFree free).insertFreeBlock block
      = s.withFree (insert block free) := by
  unfold insertFreeBlock withFree
  rw [Finset.sup_insert]
  simp only [MemorySpanHeader.mk.injEq, true_and, and_true]
  show (if s.blockSize block > free.sup s.blockSize then s.blockSize block
    else free.sup s.blockSize) = max (s.blockSize block) _
  split
  · omega
  · omega

theorem removeFreeBlock_withFree (hb : block ∈ free) :
    (s.withFree free).removeFreeBlock block
      = s.withFree (free.erase block) := by
  have hsplit : free.sup s.blockSize
      = max (s.blockSize block) ((free.erase block).sup s.blockSize) := by
    conv_lhs => rw [← Finset.insert_erase hb]
    exact Finset.sup_insert
  unfold removeFreeBlock
  simp only
  split
  · -- the largest block left: the new largest is looked up
    show ({ s.withFree (free.erase block) with
      largestFreeBlockSize :=
        match (s.withFree (free.erase block)).maxFreeBlock with
        | some b => s.blockSize b
        | none => 0 } : MemorySpanHeader) = _
    rw [maxFreeBlock_size]
    rfl
  · rename_i hne
    have hne' : free.sup s.blockSize ≠ s.blockSize block := hne
    unfold withFree
    simp only [MemorySpanHeader.mk.injEq, true_and, and_true]
    omega

theorem blockSize_setSizeAndColor (b : Nat) :
    (s.setSizeAndColor block value).blockSize b
      = if b = block then value % 2 ^ 32 / 4 * 4 else s.blockSize b := by
  show Function.update s.sizeAndColor block value b % 2 ^ 32 / 4 * 4 = _
  rw [Function.update_apply]
  split
  · rfl
  · rfl

theorem setSizeAndColor_withFree (hb : block ∉ free) :
    (s.withFree free).setSizeAndColor block value
      = (s.setSizeAndColor block value).withFree free := by
  have hsup : free.sup (s.setSizeAndColor block value).blockSize
      = free.sup s.blockSize := by
    apply Finset.sup_congr rfl
    intro c hc
    rw [blockSize_setSizeAndColor, if_neg]
    intro heq
    exact hb (heq ▸ hc)
  unfold withFree
  rw [hsup]
  rfl

theorem addFreeBlock_withFree (hb : block ∉ free) :
    (s.withFree free).addFreeBlock block value
      = (s.setSizeAndColor block value).withFree (insert block free) := by
  unfold addFreeBlock
  rw [setSizeAndColor_withFree hb, insertFreeBlock_withFree]

theorem placeHeader_withFree {size : Nat} {p : Placement}
    (hb : p.headerBaseAddr ∉ free) :
    (s.withFree free).placeHeader size p
      = (s.placeHeader size p).withFree free := by
  unfold placeHeader
  rw [setSizeAndColor_withFree hb]
  split
  · rfl
  · rfl

-- ==== looking for a block

/-- The search answers a free block of the size asked for. -/
theorem mappedCeil_mem {hint b : Nat} (h : s.mappedCeil value hint = some b) :
    b ∈ s.unallocatedBlockTree ∧ value ≤ s.blockSize b := by
  unfold mappedCeil at h
  simp only at h
  split at h
  · cases h
  · rename_i size hsize
    have hb : b ∈ (s.unallocatedBlockTree.filter fun b =>
        value ≤ s.blockSize b).filter fun b => s.blockSize b = size := by
      split at h
      · rename_i hhint
        cases h
        exact hhint.2
      · exact (least_eq_some_iff.mp h).1
    have hb' := (Finset.mem_filter.mp hb).1
    exact Finset.mem_filter.mp hb'

/-- The search finds a block if there is one. -/
theorem exists_mappedCeil {hint b : Nat} (hb : b ∈ s.unallocatedBlockTree)
    (hle : value ≤ s.blockSize b) :
    ∃ c, s.mappedCeil value hint = some c := by
  have hfit : b ∈ s.unallocatedBlockTree.filter fun b =>
      value ≤ s.blockSize b := Finset.mem_filter.mpr ⟨hb, hle⟩
  unfold mappedCeil
  simp only
  cases hl : least ((s.unallocatedBlockTree.filter fun b =>
      value ≤ s.blockSize b).image s.blockSize) with
  | none =>
    rw [least_eq_none_iff, Finset.image_eq_empty] at hl
    rw [hl] at hfit
    exact absurd hfit (Finset.notMem_empty b)
  | some size =>
    obtain ⟨c, hc, hcs⟩ := Finset.mem_image.mp (least_eq_some_iff.mp hl).1
    simp only
    split
    · exact ⟨hint, rfl⟩
    · cases hm : least ((s.unallocatedBlockTree.filter fun b =>
          value ≤ s.blockSize b).filter fun b => s.blockSize b = size) with
      | none =>
        rw [least_eq_none_iff] at hm
        exact absurd hcs (Finset.filter_eq_empty_iff.mp hm hc)
      | some m => exact ⟨m, rfl⟩

end CroCOS.LibAlloc.InternalAllocator.MemorySpanHeader
