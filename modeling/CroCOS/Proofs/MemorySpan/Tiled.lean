/-
The blocks of a span tile its buffer.

`Tiled s ts` says that the blocks `ts` tile the buffer of `s`, that the
headers in memory give their sizes, and that the trees hold them: the
allocated tree the allocated blocks, both free trees the free ones.
What holds between calls besides is `WellTiled` of Calls.lean.

A call replaces a run of blocks by another (`Tiled.replace`). An
allocation cuts a free block into its pieces (`allocate_tiled`).
-/
import CroCOS.Lib.Tiling
import CroCOS.Proofs.MemorySpan.Place
import CroCOS.Proofs.MemorySpan.Indexes

namespace CroCOS.LibAlloc.InternalAllocator.MemorySpanHeader

open Function Lib
open Lib.Tile (Tiles starts total)

variable {a align base fin n size : Nat} {p : Placement}

/-- What a block is used for. -/
inductive Use
  | free
  | allocated
  deriving DecidableEq, Repr

/-- The span has room for a block, at an aligned place. -/
structure Shape (s : MemorySpanHeader) : Prop where
  addr_dvd : 16 ∣ s.addr
  size_dvd : 16 ∣ s.spanSize
  room : sizeofMemorySpanHeader + minimumBlockSize ≤ s.spanSize
  small : s.spanSize < 2 ^ 32
  below_top : s.addr + s.spanSize < 2 ^ 64

/-- The address a client holds for an allocated block. -/
def dataOf (s : MemorySpanHeader) (block : Nat) : Nat :=
  if s.isAligned block then s.dataBegin block
  else block + sizeofAllocatedMemoryBlockHeader

/-- The data of an allocated block lies after its header, inside the
block. -/
structure DataOk (s : MemorySpanHeader) (block size : Nat) : Prop where
  header : s.isAligned block = true →
    block + sizeofAlignedAllocatedMemoryBlockHeader ≤ s.dataBegin block
  fits : s.dataOf block + s.requestedSize block ≤ block + size

structure Tiled (s : MemorySpanHeader) (ts : List (Tile Use)) : Prop where
  shape : Shape s
  tiles : Tiles s.bufferStart (s.addr + s.spanSize) ts
  fine : ∀ t ∈ ts, 16 ∣ t.addr ∧ 16 ∣ t.size ∧ 96 ≤ t.size
  size_eq : ∀ t ∈ ts, s.sizeAndColor t.addr = t.size
  allocated_eq : s.allocatedBlockTree = starts .allocated ts
  indexed : s.withFree (starts .free ts) = s
  data : ∀ t ∈ ts, t.kind = .allocated → DataOk s t.addr t.size

/-- No two neighbours are free. -/
def Separated (ts : List (Tile Use)) : Prop :=
  ts.IsChain fun t u => ¬ (t.kind = .free ∧ u.kind = .free)

variable {s s' : MemorySpanHeader} {xs ys ms ms' ts : List (Tile Use)}
variable {t : Tile Use}

theorem Shape.bufferStart_eq (h : Shape s) : s.bufferStart = s.addr + 144 := by
  obtain ⟨haddr, -, -, -, -⟩ := h
  unfold bufferStart alignofBlockHeader sizeofMemorySpanHeader
  exact alignUp_of_dvd (by decide) (by omega)

section

variable (h : Tiled s ts)
include h

theorem Tiled.pos (ht : t ∈ ts) : 0 < t.size := by
  have := (h.fine t ht).2.2
  omega

/-- A block lies inside the span. -/
theorem Tiled.inside (ht : t ∈ ts) :
    s.addr + 144 ≤ t.addr ∧ t.addr + t.size ≤ s.addr + s.spanSize := by
  rw [← h.shape.bufferStart_eq]
  exact h.tiles.bounds ht

theorem Tiled.blockSize_eq (ht : t ∈ ts) : s.blockSize t.addr = t.size := by
  have hin := h.inside ht
  have hsmall := h.shape.small
  have hdvd := (h.fine t ht).2.1
  unfold blockSize
  rw [h.size_eq t ht]
  omega

theorem Tiled.bySize_eq : s.unallocatedBlockTree = starts .free ts := by
  rw [← h.indexed]
  rfl

theorem Tiled.byAddress_eq :
    s.unallocatedBlocksByAddress = starts .free ts := by
  rw [← h.indexed]
  rfl

theorem Tiled.largest_eq :
    s.largestFreeBlockSize = (starts .free ts).sup s.blockSize := by
  rw [← h.indexed]
  rfl

theorem Tiled.mem_free (ht : t ∈ ts) (hfree : t.kind = .free) :
    t.addr ∈ s.unallocatedBlockTree := by
  rw [h.bySize_eq]
  exact Tile.mem_starts.mpr ⟨t, ht, hfree, rfl⟩

theorem Tiled.removeFreeBlock_eq {b : Nat} (hb : b ∈ s.unallocatedBlockTree) :
    s.removeFreeBlock b = s.withFree (s.unallocatedBlockTree.erase b) := by
  rw [h.bySize_eq] at hb ⊢
  conv_lhs => rw [← h.indexed]
  exact removeFreeBlock_withFree hb

end

/-- The header at `a` reads as before. -/
structure SameHeader (s s' : MemorySpanHeader) (a : Nat) : Prop where
  sizeAndColor : s'.sizeAndColor a = s.sizeAndColor a
  isAligned : s'.isAligned a = s.isAligned a
  dataBegin : s'.dataBegin a = s.dataBegin a
  requestedSize : s'.requestedSize a = s.requestedSize a

theorem DataOk.congr (h : DataOk s a n) (hsame : SameHeader s s' a) :
    DataOk s' a n := by
  obtain ⟨-, halign, hdata, hreq⟩ := hsame
  refine ⟨?_, ?_⟩
  · rw [halign, hdata]
    exact h.header
  · unfold dataOf
    rw [halign, hdata, hreq]
    exact h.fits

/-- A run of blocks is replaced by another over the same interval. -/
theorem Tiled.replace (h : Tiled s (xs ++ ms ++ ys))
    (haddr : s'.addr = s.addr) (hspan : s'.spanSize = s.spanSize)
    (hms : ∀ {a b : Nat}, Tiles a b ms → Tiles a b ms')
    (hfine : ∀ t ∈ ms', 16 ∣ t.addr ∧ 16 ∣ t.size ∧ 96 ≤ t.size)
    (hsize : ∀ t ∈ ms', s'.sizeAndColor t.addr = t.size)
    (hsame : ∀ t ∈ xs ++ ys, SameHeader s s' t.addr)
    (halloc : s'.allocatedBlockTree
      = (s.allocatedBlockTree \ starts .allocated ms) ∪ starts .allocated ms')
    (hfree : s'.withFree
      ((s.unallocatedBlockTree \ starts .free ms) ∪ starts .free ms') = s')
    (hdata : ∀ t ∈ ms', t.kind = .allocated → DataOk s' t.addr t.size) :
    Tiled s' (xs ++ ms' ++ ys) := by
  have hpos : ∀ t ∈ xs ++ ms ++ ys, 0 < t.size := fun t ht => h.pos ht
  have hstart : s'.bufferStart = s.bufferStart := by
    unfold bufferStart
    rw [haddr]
  -- a block of the new tiling is a new one, or one that was there
  have hcases : ∀ {t}, t ∈ xs ++ ms' ++ ys →
      t ∈ ms' ∨ (t ∈ xs ++ ys ∧ t ∈ xs ++ ms ++ ys) := by
    intro t ht
    simp only [List.mem_append] at ht ⊢
    tauto
  refine ⟨?_, ?_, ?_, ?_, ?_, ?_, ?_⟩
  · obtain ⟨h₁, h₂, h₃, h₄, h₅⟩ := h.shape
    rw [← haddr] at h₁ h₅
    rw [← hspan] at h₂ h₃ h₄ h₅
    exact ⟨h₁, h₂, h₃, h₄, h₅⟩
  · rw [hstart, haddr, hspan]
    exact h.tiles.replace hms
  · intro t ht
    rcases hcases ht with ht | ⟨-, ht⟩
    · exact hfine t ht
    · exact h.fine t ht
  · intro t ht
    rcases hcases ht with ht | ⟨hout, ht⟩
    · exact hsize t ht
    · rw [(hsame t hout).sizeAndColor]
      exact h.size_eq t ht
  · rw [halloc, h.allocated_eq]
    exact (Tile.starts_replace h.tiles hpos).symm
  · rw [Tile.starts_replace h.tiles hpos, ← h.bySize_eq]
    exact hfree
  · intro t ht hkind
    rcases hcases ht with ht | ⟨hout, ht⟩
    · exact hdata t ht hkind
    · exact (h.data t ht hkind).congr (hsame t hout)

-- ==== allocate

/-- The header of what is left below an allocation. -/
def below (s : MemorySpanHeader) (base : Nat) (p : Placement) :
    MemorySpanHeader :=
  if p.headerBaseAddr ≠ base then
    s.setSizeAndColor base (usub p.headerBaseAddr base)
  else s

/-- The header of what is left above an allocation. -/
def above (s : MemorySpanHeader) (fin : Nat) (p : Placement) :
    MemorySpanHeader :=
  if p.nextHeaderBaseAddr ≠ fin then
    s.setSizeAndColor p.nextHeaderBaseAddr (usub fin p.nextHeaderBaseAddr)
  else s

/-- The span after the headers of an allocation were written. -/
def carved (s : MemorySpanHeader) (base fin size : Nat) (p : Placement) :
    MemorySpanHeader :=
  ((s.placeHeader size p).below base p).above fin p

/-- The blocks an allocation cuts a free block into. -/
def pieces (base fin : Nat) (p : Placement) : List (Tile Use) :=
  (if p.headerBaseAddr ≠ base then
    [⟨base, p.headerBaseAddr - base, .free⟩] else [])
    ++ ⟨p.headerBaseAddr, p.nextHeaderBaseAddr - p.headerBaseAddr, .allocated⟩
    :: (if p.nextHeaderBaseAddr ≠ fin then
      [⟨p.nextHeaderBaseAddr, fin - p.nextHeaderBaseAddr, .free⟩] else [])

theorem starts_free_pieces : starts .free (pieces base fin p)
      = (if p.headerBaseAddr ≠ base then {base} else ∅)
        ∪ (if p.nextHeaderBaseAddr ≠ fin then {p.nextHeaderBaseAddr}
          else ∅) := by
  unfold pieces
  simp only [Tile.starts_append, Tile.starts_cons, reduceCtorEq, if_false]
  congr 1
  · split
    · rfl
    · rfl
  · split
    · rfl
    · rfl

theorem starts_allocated_pieces :
    starts .allocated (pieces base fin p) = {p.headerBaseAddr} := by
  unfold pieces
  split
  · split
    · rfl
    · rfl
  · split
    · rfl
    · rfl

theorem mem_pieces : t ∈ pieces base fin p ↔
      (p.headerBaseAddr ≠ base ∧ t = ⟨base, p.headerBaseAddr - base, .free⟩)
      ∨ t = ⟨p.headerBaseAddr, p.nextHeaderBaseAddr - p.headerBaseAddr,
          .allocated⟩
      ∨ (p.nextHeaderBaseAddr ≠ fin
        ∧ t = ⟨p.nextHeaderBaseAddr, fin - p.nextHeaderBaseAddr, .free⟩) := by
  unfold pieces
  rw [List.mem_append, List.mem_cons]
  apply or_congr
  · split
    · rename_i hne
      simp [hne]
    · rename_i heq
      simp [heq]
  · apply or_congr Iff.rfl
    split
    · rename_i hne
      simp [hne]
    · rename_i heq
      simp [heq]

/-- A remainder is added to the free blocks if there is one. -/
theorem addFreeBlock_if {free : Finset Nat} {block value : Nat} {c : Prop}
    [Decidable c] (hb : c → block ∉ free) :
    (if c then (s.withFree free).addFreeBlock block value
      else s.withFree free)
      = (if c then s.setSizeAndColor block value else s).withFree
          (free ∪ if c then {block} else ∅) := by
  split
  · rename_i hc
    rw [addFreeBlock_withFree (hb hc), Finset.union_comm,
      Finset.singleton_union]
  · rw [Finset.union_empty]

/-- What `carve` does to a span whose free blocks are `free`. -/
theorem carve_withFree {free : Finset Nat} (hbase : base ∉ free)
    (hhdr : p.headerBaseAddr ∉ free)
    (hnext : p.nextHeaderBaseAddr ≠ fin → p.nextHeaderBaseAddr ∉ free)
    (hne : p.nextHeaderBaseAddr ≠ base) :
    (s.withFree free).carve base fin size p
      = { (s.carved base fin size p).withFree
            (free ∪ starts .free (pieces base fin p)) with
          freeSpace := usub (s.carved base fin size p).freeSpace
            ((s.carved base fin size p).blockSize p.headerBaseAddr) } := by
  have hnext' : p.nextHeaderBaseAddr ≠ fin → p.nextHeaderBaseAddr
      ∉ free ∪ (if p.headerBaseAddr ≠ base then {base} else ∅) := by
    intro hn hmem
    rcases Finset.mem_union.mp hmem with hmem | hmem
    · exact hnext hn hmem
    · split at hmem
      · exact hne (Finset.mem_singleton.mp hmem)
      · exact Finset.notMem_empty _ hmem
  unfold carve
  simp only
  rw [placeHeader_withFree hhdr, addFreeBlock_if fun _ => hbase,
    addFreeBlock_if hnext', starts_free_pieces, Finset.union_assoc]
  rfl

/-- The pieces cover the block they are cut from. -/
theorem tiles_pieces {c : Nat} (hp : Placed base n size align p)
    (h : Tiles a c [(⟨base, n, .free⟩ : Tile Use)]) :
    Tiles a c (pieces base (base + n) p) := by
  obtain ⟨hbase, hend⟩ := h
  obtain ⟨-, -, hbelow, hmin, habove, -, -, -⟩ := hp
  have hb : base = a := hbase
  have hc : a + n = c := hend
  subst hb hc
  unfold pieces
  rw [Tile.tiles_mid]
  refine ⟨?_, ?_⟩
  · split
    · refine ⟨rfl, ?_⟩
      show base + (p.headerBaseAddr - base) = p.headerBaseAddr
      omega
    · rename_i heq
      exact (not_not.mp heq).symm
  · have hnext : p.headerBaseAddr
        + (p.nextHeaderBaseAddr - p.headerBaseAddr)
          = p.nextHeaderBaseAddr := by omega
    rw [hnext]
    split
    · refine ⟨rfl, ?_⟩
      show p.nextHeaderBaseAddr + (base + n - p.nextHeaderBaseAddr) = _
      omega
    · rename_i heq
      exact not_not.mp heq

/-- The pieces are fine blocks. -/
theorem fine_pieces (hp : Placed base n size align p)
    (hfine : 16 ∣ base ∧ 16 ∣ n ∧ 96 ≤ n) : ∀ t ∈ pieces base (base + n) p,
      16 ∣ t.addr ∧ 16 ∣ t.size ∧ 96 ≤ t.size := by
  obtain ⟨hhdr16, hnext16, hbelow, hmin, habove, -, -, -⟩ := hp
  intro t ht
  rcases mem_pieces.mp ht with ⟨hb, rfl⟩ | rfl | ⟨hf, rfl⟩
  · dsimp only
    omega
  · dsimp only
    omega
  · dsimp only
    omega

theorem carved_eq : s.carved base fin size p = { s with
        sizeAndColor := (s.carved base fin size p).sizeAndColor
        isAligned := update s.isAligned p.headerBaseAddr
          (decide (p.headerBaseAddr + 32 ≠ p.returnAddr))
        dataBegin :=
          if p.headerBaseAddr + 32 ≠ p.returnAddr then
            update s.dataBegin p.headerBaseAddr p.returnAddr
          else s.dataBegin
        allocatedBlockTree := insert p.headerBaseAddr s.allocatedBlockTree
        requestedSize :=
          update s.requestedSize p.headerBaseAddr size } := by
  unfold carved above below placeHeader sizeofAllocatedMemoryBlockHeader
  by_cases hr : p.headerBaseAddr + 32 = p.returnAddr
  · simp only [hr, ne_eq, not_true_eq_false, decide_false]
    split
    · split
      · rfl
      · rfl
    · split
      · rfl
      · rfl
  · simp only [hr, ne_eq, not_false_eq_true, decide_true]
    split
    · split
      · rfl
      · rfl
    · split
      · rfl
      · rfl

theorem carved_sizeAndColor : (s.carved base fin size p).sizeAndColor a
      = if p.nextHeaderBaseAddr ≠ fin ∧ a = p.nextHeaderBaseAddr then
          usub fin p.nextHeaderBaseAddr
        else if p.headerBaseAddr ≠ base ∧ a = base then
          usub p.headerBaseAddr base
        else if a = p.headerBaseAddr then
          usub p.nextHeaderBaseAddr p.headerBaseAddr
        else s.sizeAndColor a := by
  have hset : ∀ (u : MemorySpanHeader) (b v : Nat),
      (u.setSizeAndColor b v).sizeAndColor a
        = if a = b then v else u.sizeAndColor a := fun u b v =>
    update_apply ..
  have hplace : (s.placeHeader size p).sizeAndColor a
      = if a = p.headerBaseAddr then
          usub p.nextHeaderBaseAddr p.headerBaseAddr
        else s.sizeAndColor a := by
    rw [← hset s]
    unfold placeHeader
    split
    · rfl
    · rfl
  have hbelow : ((s.placeHeader size p).below base p).sizeAndColor a
      = if p.headerBaseAddr ≠ base ∧ a = base then
          usub p.headerBaseAddr base
        else (s.placeHeader size p).sizeAndColor a := by
    unfold below
    by_cases hb : p.headerBaseAddr = base
    · simp [hb]
    · simp [hb, hset]
  rw [← hplace, ← hbelow]
  unfold carved above
  by_cases hn : p.nextHeaderBaseAddr = fin
  · simp [hn]
  · simp [hn, hset]

/-- The headers of the pieces give their sizes. -/
theorem carved_pieces (size : Nat) (hp : Placed base n size align p)
    (htop : base + n < 2 ^ 64) (ht : t ∈ pieces base (base + n) p) :
    (s.carved base (base + n) size p).sizeAndColor t.addr = t.size := by
  obtain ⟨-, -, hbelow, hmin, habove, -, -, -⟩ := hp
  rw [carved_sizeAndColor]
  rcases mem_pieces.mp ht with ⟨hb, rfl⟩ | rfl | ⟨hn, rfl⟩
  · dsimp only
    rw [if_neg (by omega), if_pos ⟨hb, rfl⟩, usub_eq (by omega) (by omega)]
  · dsimp only
    rw [if_neg (by omega), if_neg (by omega), if_pos rfl,
      usub_eq (by omega) (by omega)]
  · rw [if_pos ⟨hn, rfl⟩, usub_eq (by omega) (by omega)]

/-- Headers outside the block are untouched. -/
theorem carved_outside (size : Nat) (hp : Placed base n size align p)
    (ha : a < base ∨ base + n ≤ a) :
    SameHeader s (s.carved base (base + n) size p) a := by
  obtain ⟨-, -, hbelow, hmin, habove, -, -, -⟩ := hp
  have hhdr : a ≠ p.headerBaseAddr := by omega
  refine ⟨?_, ?_, ?_, ?_⟩
  · rw [carved_sizeAndColor, if_neg (by omega), if_neg (by omega), if_neg hhdr]
  · rw [carved_eq]
    exact update_of_ne hhdr _ _
  · rw [carved_eq]
    split
    · exact update_of_ne hhdr _ _
    · rfl
  · rw [carved_eq]
    exact update_of_ne hhdr _ _

theorem carved_dataOf : (s.carved base fin size p).dataOf
      = update s.dataOf p.headerBaseAddr p.returnAddr := by
  funext b
  rw [carved_eq, update_apply]
  unfold dataOf sizeofAllocatedMemoryBlockHeader
  by_cases hb : b = p.headerBaseAddr
  · subst hb
    by_cases hr : p.headerBaseAddr + 32 = p.returnAddr
    · simp [hr]
    · simp [hr]
  · rw [if_neg hb]
    simp only [update_of_ne hb]
    split
    · split
      · exact update_of_ne hb _ _
      · rfl
    · rfl

/-- The allocated block keeps its data after its header. -/
theorem carved_data (fin : Nat) (hp : Placed base n size align p) :
    DataOk (s.carved base fin size p) p.headerBaseAddr
      (p.nextHeaderBaseAddr - p.headerBaseAddr) := by
  obtain ⟨-, -, -, hmin, -, -, hheader, hdata⟩ := hp
  have hdataOf : (s.carved base fin size p).dataOf p.headerBaseAddr
      = p.returnAddr := by
    rw [carved_dataOf]
    exact update_self ..
  have hreq : (s.carved base fin size p).requestedSize p.headerBaseAddr
      = size := by
    rw [carved_eq]
    exact update_self ..
  refine ⟨?_, ?_⟩
  · rw [carved_eq]
    simp only [update_self, decide_eq_true_eq]
    intro hr
    rw [if_pos hr, update_self]
    exact hheader.resolve_left hr
  · rw [hreq]
    omega

/-- The other free blocks start outside a free block. -/
theorem Tiled.other_starts (h : Tiled s (xs ++ [⟨base, n, .free⟩] ++ ys))
    (ha : a ∈ s.unallocatedBlockTree.erase base) :
    a < base ∨ base + n ≤ a := by
  obtain ⟨hne, ha⟩ := Finset.mem_erase.mp ha
  rw [h.bySize_eq] at ha
  obtain ⟨u, hu, -, hua⟩ := Tile.mem_starts.mp ha
  obtain ⟨b, c, hm, haround⟩ := h.tiles.around fun t ht =>
    h.pos (by simp [ht])
  obtain ⟨hb, hc⟩ := hm
  have hb' : base = b := hb
  have hc' : b + n = c := hc
  have hu' : u ∈ xs ++ ys := by
    simp only [List.mem_append, List.mem_singleton] at hu ⊢
    rcases hu with (hu | hu) | hu
    · exact Or.inl hu
    · rw [hu] at hua
      exact absurd hua.symm hne
    · exact Or.inr hu
  have := haround u hu'
  omega

/-- What an allocation of `size` bytes at `p` leaves. -/
structure Allocated (s s' : MemorySpanHeader) (p : Placement) (size : Nat) :
    Prop where
  addr : s'.addr = s.addr
  spanSize : s'.spanSize = s.spanSize
  fresh : p.headerBaseAddr ∉ s.allocatedBlockTree
  allocatedBlockTree : s'.allocatedBlockTree
    = insert p.headerBaseAddr s.allocatedBlockTree
  dataOf : s'.dataOf = update s.dataOf p.headerBaseAddr p.returnAddr
  requestedSize : s'.requestedSize
    = update s.requestedSize p.headerBaseAddr size

/-- An allocation cuts the free block it found into its pieces. -/
theorem allocate_tiled (h : Tiled s (xs ++ [⟨base, n, .free⟩] ++ ys))
    (hp : Placed base n size align p)
    (hs' : s' = (s.removeFreeBlock base).carve base (base + n) size p) :
    Tiled s' (xs ++ pieces base (base + n) p ++ ys)
      ∧ s'.freeSpace
        = usub s.freeSpace (p.nextHeaderBaseAddr - p.headerBaseAddr)
      ∧ s'.blockSize p.headerBaseAddr
        = p.nextHeaderBaseAddr - p.headerBaseAddr
      ∧ Allocated s s' p size := by
  have hmem : (⟨base, n, .free⟩ : Tile Use) ∈ xs ++ [⟨base, n, .free⟩] ++ ys := by
    simp
  have hin : s.addr + 144 ≤ base ∧ base + n ≤ s.addr + s.spanSize :=
    h.inside hmem
  have htop : base + n < 2 ^ 64 :=
    Nat.lt_of_le_of_lt hin.2 h.shape.below_top
  have hbelow := hp.below
  have hmin := hp.minimum
  have habove := hp.above
  have hfree : base ∈ s.unallocatedBlockTree := h.mem_free hmem rfl
  rw [h.removeFreeBlock_eq hfree,
    carve_withFree (Finset.notMem_erase _ _)] at hs'
  · have hsize : (s.carved base (base + n) size p).blockSize
        p.headerBaseAddr = p.nextHeaderBaseAddr - p.headerBaseAddr := by
      have hpiece := carved_pieces (s := s) size hp htop
        (mem_pieces.mpr (Or.inr (Or.inl rfl)))
      have hsmall := h.shape.small
      have hhdr16 := hp.header_dvd
      have hnext16 := hp.next_dvd
      unfold blockSize
      rw [hpiece]
      dsimp only
      omega
    have hspace : (s.carved base (base + n) size p).freeSpace
        = s.freeSpace := by
      rw [carved_eq]
    have hdataOk := carved_data (s := s) (base + n) hp
    have hfresh : p.headerBaseAddr ∉ s.allocatedBlockTree := by
      intro ha
      rw [h.allocated_eq] at ha
      obtain ⟨u, hu, hkind, hua⟩ := Tile.mem_starts.mp ha
      have hne : u ≠ ⟨base, n, .free⟩ := by
        intro hbase
        rw [hbase] at hkind
        cases hkind
      have hdis := h.tiles.disjoint hu hmem hne
      have hupos := h.pos hu
      dsimp only at hdis
      omega
    subst hs'
    refine ⟨?_, ?_, hsize, ?_, ?_, hfresh, ?_, carved_dataOf, ?_⟩
    · refine h.replace ?_ ?_ (tiles_pieces hp) ?_ ?_ ?_ ?_ ?_ ?_
      · show (s.carved base (base + n) size p).addr = _
        rw [carved_eq]
      · show (s.carved base (base + n) size p).spanSize = _
        rw [carved_eq]
      · exact fine_pieces hp (h.fine _ hmem)
      · intro u hu
        exact carved_pieces size hp htop hu
      · intro u hu
        obtain ⟨b, c, hm, haround⟩ := h.tiles.around fun t ht =>
          h.pos (by simp [ht])
        obtain ⟨hb, hc⟩ := hm
        have hb' : base = b := hb
        have hc' : b + n = c := hc
        have hsame := carved_outside (s := s) size hp
          (a := u.addr) (by have := haround u hu; omega)
        exact ⟨hsame.sizeAndColor, hsame.isAligned, hsame.dataBegin,
          hsame.requestedSize⟩
      · show (s.carved base (base + n) size p).allocatedBlockTree = _
        rw [carved_eq, starts_allocated_pieces, Finset.union_comm]
        simp
      · rw [show starts .free [(⟨base, n, .free⟩ : Tile Use)] = {base}
          from rfl, Finset.sdiff_singleton_eq_erase]
        rfl
      · intro u hu hkind
        rcases mem_pieces.mp hu with ⟨-, rfl⟩ | rfl | ⟨-, rfl⟩
        · cases hkind
        · exact ⟨hdataOk.header, hdataOk.fits⟩
        · cases hkind
    · show usub (s.carved base (base + n) size p).freeSpace
        ((s.carved base (base + n) size p).blockSize p.headerBaseAddr) = _
      rw [hspace, hsize]
    · show (s.carved base (base + n) size p).addr = _
      rw [carved_eq]
    · show (s.carved base (base + n) size p).spanSize = _
      rw [carved_eq]
    · show (s.carved base (base + n) size p).allocatedBlockTree = _
      rw [carved_eq]
    · show (s.carved base (base + n) size p).requestedSize = _
      rw [carved_eq]
  · intro ha
    have := h.other_starts ha
    omega
  · intro hn ha
    have := h.other_starts ha
    omega
  · omega

end CroCOS.LibAlloc.InternalAllocator.MemorySpanHeader
