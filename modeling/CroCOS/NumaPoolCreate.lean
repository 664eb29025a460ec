/-
Building the pool of one NUMA domain from its memory ranges
(`computeMergedRanges`, `createNumaPool`, the constructor of `NUMAPool`
in mm/PageAllocator.cpp): ranges that share a big page are merged, and
the small pages of a big page that no range covers are reserved.

The bootstrap allocator only supplies memory, so a pool is built from
its ranges alone. The bit pool's stride is a cache line. An address is a
`uint64_t`: where a bound is rounded up or moved past a big page the sum
wraps.

`reserveRange` takes memory out of a pool before anything is allocated
from it. It drains `freeBigPages` and fills it again from the metadata.
-/
import CroCOS.NumaPool

namespace CroCOS

def maxRangesPerDomain : Nat := 64
def cacheLineSize : Nat := 64

/-- A merged range; `origs` are the sorted input ranges from
`firstOrigIdx` to `lastOrigIdx`. -/
structure TempMergedRange where
  start : Nat
  endAddr : Nat
  origs : List PhysMemoryRange
  deriving DecidableEq, Repr

def TempMergedRange.bigPageCount (mr : TempMergedRange) : Nat :=
  usub mr.endAddr mr.start / bigPageSize

def bigPageAlignUp (addr : Nat) : Nat :=
  (addr + (bigPageSize - 1)) % 2 ^ 64 / bigPageSize * bigPageSize

/-- The address after the big page at `addr`. -/
def bigPageEndOf (addr : Nat) : Nat := (addr + bigPageSize) % 2 ^ 64

/-- The loop over the sorted ranges, with the merged range so far. -/
def mergeLoop : TempMergedRange → List PhysMemoryRange → List TempMergedRange
  | cur, [] => [cur]
  | cur, r :: rest =>
    let nextBigPageStart := bigPageBase r.start
    if nextBigPageStart < cur.endAddr then
      let candidate := bigPageAlignUp r.endAddr
      mergeLoop { cur with
        endAddr := if candidate > cur.endAddr then candidate else cur.endAddr
        origs := cur.origs ++ [r] } rest
    else
      cur :: mergeLoop
        { start := nextBigPageStart
          endAddr := bigPageAlignUp r.endAddr
          origs := [r] } rest

def sortRanges (ranges : List PhysMemoryRange) : List PhysMemoryRange :=
  ranges.insertionSort fun a b => a.start ≤ b.start

def computeMergedRanges (ranges : List PhysMemoryRange) :
    Except Fault (List TempMergedRange) :=
  if ranges.length > maxRangesPerDomain then
    .error (.assertion "Too many memory ranges for NUMA domain")
  else
    match sortRanges ranges with
    | [] => .ok []
    | r :: rest =>
      .ok (mergeLoop
        { start := bigPageBase r.start
          endAddr := bigPageAlignUp r.endAddr
          origs := [r] } rest)

/-- The loop of `reserveSmallPageRange`, one small page a turn. -/
def reserveSmallPages (reserveStart : Nat) : Nat → BigPageMetadata →
    Except Fault BigPageMetadata
  | 0, m => .ok m
  | count + 1, m => do
    let m ← m.reservePage reserveStart
    reserveSmallPages (reserveStart + smallPageSize) count m

def reserveSmallPageRange (m : BigPageMetadata)
    (reserveStart reserveEnd : Nat) : Except Fault BigPageMetadata :=
  if reserveStart % smallPageSize ≠ 0 then
    .error (.assertion "reserveStart not small-page aligned")
  else if reserveEnd % smallPageSize ≠ 0 then
    .error (.assertion "reserveEnd not small-page aligned")
  else reserveSmallPages reserveStart
    (divideAndRoundUp (reserveEnd - reserveStart) smallPageSize) m

/-- The walk over the original ranges of a big page, which reserves the
gap before each of them. It answers the last covered address. -/
def reserveGaps (bigPageStart bigPageEnd : Nat) :
    List PhysMemoryRange → Nat → BigPageMetadata →
    Except Fault (Nat × BigPageMetadata)
  | [], prevEnd, m => .ok (prevEnd, m)
  | orig :: origs, prevEnd, m =>
    let origClampedStart :=
      if orig.start > bigPageStart then orig.start else bigPageStart
    let origClampedEnd :=
      if orig.endAddr < bigPageEnd then orig.endAddr else bigPageEnd
    if origClampedStart ≥ bigPageEnd then .ok (prevEnd, m)
    else if origClampedEnd ≤ bigPageStart then
      reserveGaps bigPageStart bigPageEnd origs prevEnd m
    else do
      let m ← if prevEnd < origClampedStart then
        reserveSmallPageRange m prevEnd origClampedStart else .ok m
      reserveGaps bigPageStart bigPageEnd origs
        (if origClampedEnd > prevEnd then origClampedEnd else prevEnd) m

/-- A big page with everything outside the original ranges reserved. -/
def createBigPage (origs : List PhysMemoryRange) (bigPageStart : Nat) :
    Except Fault BigPageMetadata := do
  let bigPageEnd := bigPageEndOf bigPageStart
  let m ← BigPageMetadata.create bigPageStart
  let (prevEnd, m) ← reserveGaps bigPageStart bigPageEnd origs bigPageStart m
  if prevEnd < bigPageEnd then reserveSmallPageRange m prevEnd bigPageEnd
  else return m

/-- The big pages of a merged range, in order. -/
def createBigPages (mr : TempMergedRange) :
    Except Fault (List BigPageMetadata) :=
  (List.range mr.bigPageCount).mapM fun bpIdx =>
    createBigPage mr.origs (mr.start + bpIdx * bigPageSize)

/-- The metadata and the subranges of the merged ranges, the metadata of
the first at the index `metaIdx`. -/
def createSubranges : Nat → List TempMergedRange →
    Except Fault (List BigPageMetadata × List SubrangeInfo)
  | _, [] => .ok ([], [])
  | metaIdx, mr :: rest => do
    let pages ← createBigPages mr
    let (morePages, subranges) ←
      createSubranges (metaIdx + mr.bigPageCount) rest
    return (pages ++ morePages,
      { rangeStart := mr.start
        rangeEnd := mr.endAddr
        metadataBase := metaIdx } :: subranges)

/-- The constructor: pages without reserved subpages go to
`freeBigPages`, the others to `paPages`. -/
def NUMAPool.create (metadata : List BigPageMetadata)
    (subranges : List SubrangeInfo) (domain : Nat) :
    Except Fault NUMAPool := do
  let reserved := fun i =>
    ((metadata[i]?).map BigPageMetadata.hasReservedSubpages).getD false
  let indexes := List.range metadata.length
  let paPages ← (indexes.filter reserved).foldlM
    (fun (paPages : AtomicBitPool) i => do
      let (paPages, _) ← paPages.add i
      return paPages) (AtomicBitPool.create metadata.length cacheLineSize)
  let unbuilt : BigPageMetadata :=
    { bookkeeper := LibAlloc.SlabBookkeeper.create _
      baseAddr := 0
      allocHolder := none }
  return {
    bigPageMetadataBuffer := fun i => (metadata[i]?).getD unbuilt
    freeBigPages := indexes.filter fun i => !reserved i
    paPages := paPages
    associatedDomain := domain
    subrangeInfo := subranges
    bigPageCount := metadata.length }

def createNumaPool (ranges : List PhysMemoryRange) (domain : Nat) :
    Except Fault NUMAPool := do
  let merged ← computeMergedRanges ranges
  if (merged.map TempMergedRange.bigPageCount).sum = 0 then
    throw (.assertion "createNumaPool: domain has no big pages")
  let (metadata, subranges) ← createSubranges 0 merged
  NUMAPool.create metadata subranges domain

-- ==== reserve

/-- The loop of `reserveRange`, at one big page. -/
def BigPageMetadata.reserveRange (m : BigPageMetadata)
    (range : PhysMemoryRange) : Except Fault BigPageMetadata :=
  let bigStart := m.baseAddr
  let bigEnd := bigPageEndOf bigStart
  if range.endAddr ≤ bigStart ∨ range.start ≥ bigEnd then .ok m
  else
    let alignedStart :=
      roundDownToNearestMultiple (max range.start bigStart) smallPageSize
    let alignedEnd :=
      roundUpToNearestMultiple (min range.endAddr bigEnd) smallPageSize
    reserveSmallPages alignedStart
      (divideAndRoundUp (alignedEnd - alignedStart) smallPageSize) m

namespace NUMAPool

variable (pool : NUMAPool)

/-- The page at `index` of `fixupAfterReserveRange`: a page with some of
its subpages left is in `paPages`, one with none is not. -/
def fixupPage (index : Nat) : Except Fault NUMAPool := do
  let m := pool.bigPageMetadataBuffer index
  if !m.hasReservedSubpages then return pool
  else if !m.isFull then pool.addPAPage index
  else
    let (paPages, _) ← pool.paPages.remove index
    return { pool with paPages }

def fixupAfterReserveRange : Except Fault NUMAPool := do
  let (_, pool) := pool.takeFreeBigPages pool.bigPageCount
  let indexes := List.range pool.bigPageCount
  let pool ← indexes.foldlM fixupPage pool
  return pool.writeFreeBigPages (indexes.filter fun i =>
    !(pool.bigPageMetadataBuffer i).hasReservedSubpages)

def reserveRange (range : PhysMemoryRange) : Except Fault NUMAPool := do
  let pool ← (List.range pool.bigPageCount).foldlM (fun pool i => do
    let m ← (pool.bigPageMetadataBuffer i).reserveRange range
    return pool.setPage i m) pool
  pool.fixupAfterReserveRange

end NUMAPool

end CroCOS
