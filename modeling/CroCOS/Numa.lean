/-
NUMA topology and policy (mem/NUMA.h, mm/NUMA.cpp), as far as the page
allocator reads them, and the partition of usable memory by domain.

# Reading the model against the source

- A physical address is a natural number below `2 ^ 64`; rounding one up
  to a page wraps in its last page. Sizes are those of amd64.
- A topology is kept as its memory regions by domain and the two
  queries the local pools make; a policy as its two tables.
- Domain ids are the normalised ones, from 0.
- `partitionMemoryByDomain` is step 1 of the source's function, the
  ranges by domain; its warnings are left out. `rangesPerDomain` is a
  function of the domain.
-/
import CroCOS.CoreMath

namespace CroCOS

def smallPageSize : Nat := 0x1000
def bigPageSize : Nat := 0x200000
def smallPagesPerBigPage : Nat := bigPageSize / smallPageSize

def roundDownToNearestMultiple (toRound divisor : Nat) : Nat :=
  toRound / divisor * divisor

/-- `roundUpToNearestMultiple` of an address, to small pages. -/
def roundUpToPage (addr : Nat) : Nat :=
  (addr + (smallPageSize - 1)) % 2 ^ 64 / smallPageSize * smallPageSize

/-- `phys_memory_range`: the bytes from `start` up to `endAddr`. -/
structure PhysMemoryRange where
  start : Nat
  endAddr : Nat
  deriving DecidableEq, Repr

namespace PhysMemoryRange

variable (r : PhysMemoryRange)

def isEmpty : Bool := r.endAddr ≤ r.start

def getSize : Nat := if r.isEmpty then 0 else r.endAddr - r.start

def contains (addr : Nat) : Bool :=
  !r.isEmpty && addr ≥ r.start && addr < r.endAddr

end PhysMemoryRange

namespace Numa

structure NUMATopology where
  /-- The memory regions of each proximity domain. -/
  proximityDomains : List (List PhysMemoryRange)
  /-- The domain a CPU belongs to. -/
  domainForCpu : Nat → Nat
  /-- The read latency between two domains, if it was measured. -/
  latencyBetween : Nat → Nat → Option Nat

structure NUMAPolicy where
  homeDomain : Nat → Nat
  domainOrder : Nat → List Nat

/-- The first domain with a region that contains `addr`. -/
def NUMATopology.domainForAddress (t : NUMATopology) (addr : Nat) :
    Option Nat :=
  t.proximityDomains.findIdx? fun regions =>
    regions.any fun region => region.contains addr

def NUMATopology.allMemoryRegions (t : NUMATopology) : List PhysMemoryRange :=
  t.proximityDomains.flatten

structure NUMAMemoryPartition where
  rangesPerDomain : Nat → List PhysMemoryRange
  unownedRanges : List PhysMemoryRange

def kMinPartitionRangeSize : Nat := smallPageSize

/-- The ranges of one domain, or the unowned ones. -/
def NUMAMemoryPartition.push (p : NUMAMemoryPartition) (domain : Option Nat)
    (r : PhysMemoryRange) : NUMAMemoryPartition :=
  match domain with
  | some d =>
    { p with
      rangesPerDomain := Function.update p.rangesPerDomain d
        (p.rangesPerDomain d ++ [r]) }
  | none => { p with unownedRanges := p.unownedRanges ++ [r] }

/-- The run of intervals of one domain that the walk is in. -/
structure Run where
  runDomain : Option Nat
  runStart : Nat

def flushRun (p : NUMAMemoryPartition) (run : Run) (flushEnd : Nat) :
    NUMAMemoryPartition :=
  let r : PhysMemoryRange := { start := run.runStart, endAddr := flushEnd }
  if r.getSize < kMinPartitionRangeSize then p else p.push run.runDomain r

/-- The ends of a range and the region bounds inside it. -/
def splitPoints (t : NUMATopology) (alignedStart alignedEnd : Nat) : List Nat :=
  let inside := fun x => alignedStart < x ∧ x < alignedEnd
  let bounds := t.allMemoryRegions.flatMap fun region =>
    ([roundUpToPage region.start,
      roundDownToNearestMultiple region.endAddr smallPageSize]).filter inside
  (alignedStart :: alignedEnd :: bounds).insertionSort (· ≤ ·)

/-- The walk over the intervals between consecutive split points. -/
def walkIntervals (t : NUMATopology) (alignedStart : Nat) :
    List Nat → Run → NUMAMemoryPartition → NUMAMemoryPartition × Run
  | intervalStart :: intervalEnd :: splits, run, p =>
    if intervalStart = intervalEnd then
      walkIntervals t alignedStart (intervalEnd :: splits) run p
    else
      let intervalDomain := t.domainForAddress intervalStart
      if intervalDomain ≠ run.runDomain then
        let p := if alignedStart < intervalStart then
          flushRun p run intervalStart else p
        walkIntervals t alignedStart (intervalEnd :: splits)
          { runDomain := intervalDomain, runStart := intervalStart } p
      else walkIntervals t alignedStart (intervalEnd :: splits) run p
  | _, run, p => (p, run)

def partitionRange (t : NUMATopology) (p : NUMAMemoryPartition)
    (entry : PhysMemoryRange) : NUMAMemoryPartition :=
  let alignedStart := roundUpToPage entry.start
  let alignedEnd := roundDownToNearestMultiple entry.endAddr smallPageSize
  if alignedEnd ≤ alignedStart then p
  else
    let (p, run) := walkIntervals t alignedStart
      (splitPoints t alignedStart alignedEnd)
      { runDomain := none, runStart := alignedStart } p
    flushRun p run alignedEnd

def partitionMemoryByDomain (usableRanges : List PhysMemoryRange)
    (t : NUMATopology) : NUMAMemoryPartition :=
  usableRanges.foldl (partitionRange t)
    { rangesPerDomain := fun _ => [], unownedRanges := [] }

end Numa

end CroCOS
