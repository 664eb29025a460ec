/-
The memory spans of LibAlloc's internal allocator
(InternalAllocator.cpp): a span is carved into blocks with in-band
headers, the free ones indexed by size and by address, the allocated
ones by address.

# Reading the model against the source

- A block is named by the address of its header. `sizeAndColor` is the
  first word of a header of either kind; the tree colours kept in its
  low bits are left out, and `blockSize` is the `size()` of both header
  types, whose mask `~3u` is 32 bits wide.
- The three block trees are the sets of their nodes. An ordered query
  is answered from the set (`Lib.OrderedSet`); `mappedCeil` returns, on
  an exact match, whichever block of that size its walk meets first, so
  it takes a `hint` that names one.
- The pointers and flags that thread a span through the span trees are
  the coarse allocator's concern and are left out here.
- `place` is the address arithmetic of `allocateBlock`, `carve` the
  headers it writes.
-/
import CroCOS.Fault
import CroCOS.CoreMath
import CroCOS.Lib.Run
import CroCOS.Lib.OrderedSet

namespace CroCOS.LibAlloc.InternalAllocator

open Function

-- ==== block sizes

def sizeofUnallocatedMemoryBlockHeader : Nat := 48
def sizeofAllocatedMemoryBlockHeader : Nat := 32
def sizeofAlignedAllocatedMemoryBlockHeader : Nat := 48
def sizeofMemorySpanHeader : Nat := 144

/-- `alignof(max_align_t)`, the alignment of every header. -/
def alignofBlockHeader : Nat := 16

def minimumBlockSize : Nat :=
  2 * max (max sizeofUnallocatedMemoryBlockHeader
    sizeofAllocatedMemoryBlockHeader) sizeofAlignedAllocatedMemoryBlockHeader

def guaranteedAlignAfterBlock : Nat :=
  min (largestPowerOf2Dividing sizeofAllocatedMemoryBlockHeader)
    alignofBlockHeader

def computeWorstCaseAlignedSize (size align : Nat) : Nat :=
  if guaranteedAlignAfterBlock &&& (align - 1) ≠ 0 then
    (size + align + sizeofAlignedAllocatedMemoryBlockHeader) % 2 ^ 64
  else (size + sizeofAllocatedMemoryBlockHeader) % 2 ^ 64

def alignedHeaderMetadataSize : Nat :=
  sizeofAlignedAllocatedMemoryBlockHeader - sizeofAllocatedMemoryBlockHeader

def findFirstAlignedAddressAfterHeaderSpace (addr align : Nat) : Nat :=
  let outAddr := (addr + sizeofAllocatedMemoryBlockHeader) % 2 ^ 64
  if outAddr &&& (align - 1) ≠ 0 then
    alignUp ((outAddr + alignedHeaderMetadataSize) % 2 ^ 64) align % 2 ^ 64
  else outAddr

def findFirstAlignedHeaderLocationBelowAddr (addr : Nat) : Nat :=
  alignDown (usub addr sizeofAllocatedMemoryBlockHeader) alignofBlockHeader

/-- Where `allocateBlock` puts an allocation: its header, the address
it returns, and the end of its block. -/
structure Placement where
  headerBaseAddr : Nat
  returnAddr : Nat
  nextHeaderBaseAddr : Nat
  deriving DecidableEq, Repr

/-- The header goes right below the returned address, or to the start
of the free block if too little would be left there. -/
def headerBaseAddrFor (blockBaseAddr returnAddr : Nat) : Nat :=
  let headerBaseAddr := findFirstAlignedHeaderLocationBelowAddr returnAddr
  if usub headerBaseAddr blockBaseAddr < minimumBlockSize then blockBaseAddr
  else headerBaseAddr

/-- Where the next header would go, before the end of the free block is
looked at. -/
def nextHeaderBaseAddrFor (headerBaseAddr returnAddr size : Nat) : Nat :=
  alignUp (max ((returnAddr + size) % 2 ^ 64)
    ((headerBaseAddr + minimumBlockSize) % 2 ^ 64)) alignofBlockHeader
    % 2 ^ 64

def place (blockBaseAddr blockEndAddr size align : Nat) : Placement :=
  let returnAddr :=
    findFirstAlignedAddressAfterHeaderSpace blockBaseAddr align
  let headerBaseAddr := headerBaseAddrFor blockBaseAddr returnAddr
  let nextHeaderBaseAddr :=
    nextHeaderBaseAddrFor headerBaseAddr returnAddr size
  { headerBaseAddr := headerBaseAddr
    returnAddr := returnAddr
    nextHeaderBaseAddr :=
      if usub blockEndAddr nextHeaderBaseAddr < minimumBlockSize then
        blockEndAddr else nextHeaderBaseAddr }

-- ==== a span

structure MemorySpanHeader where
  /-- The address of the span, `this`. -/
  addr : Nat
  spanSize : Nat
  allocatedBlockTree : Finset Nat
  unallocatedBlockTree : Finset Nat
  unallocatedBlocksByAddress : Finset Nat
  freeSpace : Nat
  largestFreeBlockSize : Nat
  sizeAndColor : Nat → Nat
  isAligned : Nat → Bool
  dataBegin : Nat → Nat
  requestedSize : Nat → Nat

/-- The statistics a span call updates. -/
structure SpanStats where
  totalBytesRequested : Nat
  totalBytesInAllocatedBlocks : Nat
  deriving DecidableEq, Repr

namespace MemorySpanHeader

variable (s : MemorySpanHeader)

/-- `size()` of the header at `block`. -/
def blockSize (block : Nat) : Nat := s.sizeAndColor block % 2 ^ 32 / 4 * 4

/-- The first header after the span's own. -/
def bufferStart : Nat :=
  alignUp (s.addr + sizeofMemorySpanHeader) alignofBlockHeader

def getBufferSize : Nat := usub (s.addr + s.spanSize) s.bufferStart

def setSizeAndColor (block value : Nat) : MemorySpanHeader :=
  { s with sizeAndColor := update s.sizeAndColor block value }

-- ==== free blocks

/-- `unallocatedBlockTree.max()`: the last block by size, then
address. -/
def maxFreeBlock : Option Nat :=
  (Lib.OrderedSet.greatest
    (s.unallocatedBlockTree.image fun b => toLex (s.blockSize b, b))).map
      fun k => (ofLex k).2

/-- `unallocatedBlockTree.mappedCeil` by size: a smallest block of at
least `value` bytes. On an exact match the walk stops at the first such
block it meets, which `hint` may name; otherwise it ends on the lowest.
No such block leaves it a null result to dereference. -/
def mappedCeil (value hint : Nat) : Option Nat :=
  let fitting := s.unallocatedBlockTree.filter fun b => value ≤ s.blockSize b
  match Lib.OrderedSet.least (fitting.image s.blockSize) with
  | none => none
  | some size =>
    let smallest := fitting.filter fun b => s.blockSize b = size
    if size = value ∧ hint ∈ smallest then some hint
    else Lib.OrderedSet.least smallest

def insertFreeBlock (block : Nat) : MemorySpanHeader :=
  let freeSize := s.blockSize block
  { s with
    unallocatedBlockTree := insert block s.unallocatedBlockTree
    unallocatedBlocksByAddress := insert block s.unallocatedBlocksByAddress
    largestFreeBlockSize :=
      if freeSize > s.largestFreeBlockSize then freeSize
      else s.largestFreeBlockSize }

def removeFreeBlock (block : Nat) : MemorySpanHeader :=
  let s := { s with
    unallocatedBlocksByAddress := s.unallocatedBlocksByAddress.erase block
    unallocatedBlockTree := s.unallocatedBlockTree.erase block }
  if s.largestFreeBlockSize = s.blockSize block then
    { s with
      largestFreeBlockSize :=
        match s.maxFreeBlock with
        | some maxFreeBlock => s.blockSize maxFreeBlock
        | none => 0 }
  else s

/-- The constructor, at the address `addr`. -/
def create (addr size : Nat) : MemorySpanHeader :=
  let s : MemorySpanHeader :=
    { addr := addr
      spanSize := size
      allocatedBlockTree := ∅
      unallocatedBlockTree := ∅
      unallocatedBlocksByAddress := ∅
      freeSpace := 0
      largestFreeBlockSize := 0
      sizeAndColor := fun _ => 0
      isAligned := fun _ => false
      dataBegin := fun _ => 0
      requestedSize := fun _ => 0 }
  let s := { s with freeSpace := s.getBufferSize }
  let s := s.setSizeAndColor s.bufferStart s.freeSpace
  let s := { s with largestFreeBlockSize := s.freeSpace }
  s.insertFreeBlock s.bufferStart

-- ==== allocate

/-- The header of the allocated block. A block whose data does not
start right after the header says where it starts. -/
def placeHeader (size : Nat) (p : Placement) : MemorySpanHeader :=
  let s := s.setSizeAndColor p.headerBaseAddr
    (usub p.nextHeaderBaseAddr p.headerBaseAddr)
  let s :=
    if p.headerBaseAddr + sizeofAllocatedMemoryBlockHeader ≠ p.returnAddr then
      { s with
        dataBegin := update s.dataBegin p.headerBaseAddr p.returnAddr
        isAligned := update s.isAligned p.headerBaseAddr true }
    else
      { s with
        isAligned := update s.isAligned p.headerBaseAddr false }
  { s with
    allocatedBlockTree := insert p.headerBaseAddr s.allocatedBlockTree
    requestedSize := update s.requestedSize p.headerBaseAddr size }

/-- A new free header of `size` bytes. -/
def addFreeBlock (block size : Nat) : MemorySpanHeader :=
  (s.setSizeAndColor block size).insertFreeBlock block

/-- Write the headers of a placement inside the free block
`[blockBaseAddr, blockEndAddr)`, which is off the free trees: the
allocated block, and what is left below and above it. -/
def carve (blockBaseAddr blockEndAddr size : Nat) (p : Placement) :
    MemorySpanHeader :=
  let s := s.placeHeader size p
  let s :=
    if p.headerBaseAddr ≠ blockBaseAddr then
      s.addFreeBlock blockBaseAddr (usub p.headerBaseAddr blockBaseAddr)
    else s
  let s :=
    if p.nextHeaderBaseAddr ≠ blockEndAddr then
      s.addFreeBlock p.nextHeaderBaseAddr
        (usub blockEndAddr p.nextHeaderBaseAddr)
    else s
  { s with freeSpace := usub s.freeSpace (s.blockSize p.headerBaseAddr) }

/-- `allocateBlock`; a null answer leaves everything as it was. -/
def allocateBlock (stats : SpanStats) (size align hint : Nat) :
    Except Fault (MemorySpanHeader × SpanStats × Option Nat) :=
  let paddedSize := computeWorstCaseAlignedSize size align
  if s.largestFreeBlockSize < paddedSize then .ok (s, stats, none)
  else
    match s.mappedCeil paddedSize hint with
    | none => .error .nullDeref
    | some suitableFreeBlock =>
      let blockEndAddr :=
        (suitableFreeBlock + s.blockSize suitableFreeBlock) % 2 ^ 64
      let p := place suitableFreeBlock blockEndAddr size align
      let s := (s.removeFreeBlock suitableFreeBlock).carve
        suitableFreeBlock blockEndAddr size p
      .ok (s,
        { totalBytesRequested :=
            (stats.totalBytesRequested + paddedSize) % 2 ^ 64
          totalBytesInAllocatedBlocks :=
            (stats.totalBytesInAllocatedBlocks
              + s.blockSize p.headerBaseAddr) % 2 ^ 64 },
        some p.returnAddr)

-- ==== free

/-- The free block that ends where `block` starts. -/
def adjacentBefore (block : Nat) : Option Nat :=
  (Lib.OrderedSet.predecessor s.unallocatedBlocksByAddress block).filter
    fun before => (before + s.blockSize before) % 2 ^ 64 = block

/-- The free block that starts where `block` ends. -/
def adjacentAfter (block : Nat) : Option Nat :=
  (Lib.OrderedSet.successor s.unallocatedBlocksByAddress block).filter
    fun after => (block + s.blockSize block) % 2 ^ 64 = after

def coalesceAdjacentFreeBlocks (block : Nat) : MemorySpanHeader :=
  let before := s.adjacentBefore block
  let after := s.adjacentAfter block
  if before = none ∧ after = none then s
  else
    let s := s.removeFreeBlock block
    let s := before.elim s s.removeFreeBlock
    let s := after.elim s s.removeFreeBlock
    let s := before.elim s fun b =>
      s.setSizeAndColor b ((s.sizeAndColor b + s.blockSize block) % 2 ^ 64)
    let block := before.getD block
    let s := after.elim s fun a =>
      s.setSizeAndColor block ((s.sizeAndColor block + s.blockSize a) % 2 ^ 64)
    s.insertFreeBlock block

def getValidatedHeaderForPtr (ptr : Nat) : Option Nat :=
  match Lib.OrderedSet.floor s.allocatedBlockTree ptr with
  | none => none
  | some blockHeader =>
    if s.isAligned blockHeader then
      if s.dataBegin blockHeader ≠ ptr then none else some blockHeader
    else if blockHeader + sizeofAllocatedMemoryBlockHeader ≠ ptr then none
    else some blockHeader

def freeBlock (stats : SpanStats) (ptr : Nat) :
    MemorySpanHeader × SpanStats × Bool :=
  match s.getValidatedHeaderForPtr ptr with
  | none => (s, stats, false)
  | some blockHeader =>
    let size := s.blockSize blockHeader
    let stats :=
      { totalBytesRequested :=
          usub stats.totalBytesRequested (s.requestedSize blockHeader)
        totalBytesInAllocatedBlocks :=
          usub stats.totalBytesInAllocatedBlocks size }
    let s := { s with
      allocatedBlockTree := s.allocatedBlockTree.erase blockHeader }
    let s := s.addFreeBlock blockHeader size
    let s := s.coalesceAdjacentFreeBlocks blockHeader
    ({ s with freeSpace := (s.freeSpace + size) % 2 ^ 64 }, stats, true)

-- ==== the runs

/-- The calls on a span. -/
inductive Call
  | allocateBlock (size align hint : Nat)
  | freeBlock (ptr : Nat)
  deriving DecidableEq, Repr

inductive Answer
  | block (ptr : Option Nat)
  | freed (ok : Bool)
  deriving DecidableEq, Repr

/-- One call on a span and its statistics. -/
def step (s : MemorySpanHeader × SpanStats) :
    Call → Except Fault ((MemorySpanHeader × SpanStats) × Answer)
  | .allocateBlock size align hint =>
    match s.1.allocateBlock s.2 size align hint with
    | .error e => .error e
    | .ok (span, stats, ptr) => .ok ((span, stats), .block ptr)
  | .freeBlock ptr =>
    let (span, stats, ok) := s.1.freeBlock s.2 ptr
    .ok ((span, stats), .freed ok)

end MemorySpanHeader

end CroCOS.LibAlloc.InternalAllocator
