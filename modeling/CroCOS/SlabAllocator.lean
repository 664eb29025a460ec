/-
The slab allocator of LibAlloc (SlabAllocator.cpp): slabs of equal
slots, each with its own free chain and free bitmap, sorted by how full
they are into buckets that allocations are taken from the top of.

# Reading the model against the source

- A slab is named by its address. Its record holds the fields of `Slab`
  that concern its slots; the fields that thread it through a bucket
  (`nextInBucket`, `prevInBucket`) are the allocator's `links`, and its
  `bucketIndex` is the allocator's map of that name, one map per field.
- `slotWord` is the word at the start of each slot, where a free slot
  keeps the address of the next one. `freeList` is the bitmap, a bit per
  slot; a write past its `freeListSize` bytes is a fault, since what
  lies there is the first slot.
- `fullBucketIndex`, `freeBucketIndex` and `invalidBucketIndex` are the
  constructors of `BucketIndex` beside the six partial buckets;
  `topOccupiedBucket` is null or the place of a bucket head, a `Bucket`.
- The slab tree is the set of its keys, the slab addresses.
- `alloc` is told what the backing allocator would answer, and uses it
  if it asks.
- Addresses and sizes are `size_t`: what is computed from them is
  reduced modulo `2 ^ 64` where a slab is built and where it ends.
- The statistics are left out: nothing reads them.
-/
import CroCOS.Fault
import CroCOS.CoreMath
import CroCOS.Lib.Run
import CroCOS.Lib.DList

namespace CroCOS.LibAlloc

open Function

def slabAllocatorBucketCount : Nat := 6

-- ==== occupancy to bucket

def slabFillPercentShift : Nat := 2
def bucketPercentTableSize : Nat := 100 / 2 ^ slabFillPercentShift + 1
def bucketPercentOverlap : Nat := 20
def fullBucketReintroductionOccupancyThreshold : Nat := 90
def freeBucketReleaseThreshold : Nat := 4
def freeBucketRetainLimit : Nat := 2

def intervalNudge : Nat :=
  divideAndRoundUp (bucketPercentTableSize * bucketPercentOverlap
      + 100 * slabAllocatorBucketCount - 1)
    (100 * slabAllocatorBucketCount)

def occupancyToBucketLower (i : Nat) : Nat :=
  let correctedIndex := max i intervalNudge - intervalNudge
  min (correctedIndex * slabAllocatorBucketCount / bucketPercentTableSize)
    (slabAllocatorBucketCount - 1)

def occupancyToBucketUpper (i : Nat) : Nat :=
  let correctedIndex := min (i + intervalNudge) (bucketPercentTableSize - 1)
  min (correctedIndex * slabAllocatorBucketCount / bucketPercentTableSize)
    (slabAllocatorBucketCount - 1)

def getBucketIndexForOccupancyInAlloc (occupancyPercentage : Nat) : Nat :=
  let adjustedPercentage := occupancyPercentage / 2 ^ slabFillPercentShift
  if adjustedPercentage ≥ bucketPercentTableSize then
    slabAllocatorBucketCount - 1
  else occupancyToBucketUpper adjustedPercentage

def getBucketIndexForOccupancyInFree (occupancyPercentage : Nat) : Nat :=
  let adjustedPercentage := occupancyPercentage / 2 ^ slabFillPercentShift
  if adjustedPercentage ≥ bucketPercentTableSize then
    slabAllocatorBucketCount - 1
  else occupancyToBucketLower adjustedPercentage

-- ==== a slab

structure Slab where
  slotSize : Nat
  backingStorage : Nat
  backingSize : Nat
  initializedHorizon : Nat
  freeCount : Nat
  numSlots : Nat
  nextFree : Option Nat
  freeListSize : Nat
  freeList : Nat → Bool
  slotWord : Nat → Option Nat

/-- `sizeof(Slab)`. -/
def sizeofSlab : Nat := 128

def getAlignValForSlotSize (slotSize : Nat) : Nat :=
  max (largestPowerOf2Dividing slotSize) 64

namespace Slab

def minimumSlotSizeMsg : String := "Minimum slot size is 8 bytes"
def singleSlotMsg : String := "A slab must have more than 1 slot."
def noFreeSpaceMsg : String :=
  "Caller did not confirm slab allocator has free space"
def doubleFreeMsg : String := "Double-freeing pointer"

/-- The bytes of the free bitmap of a backing store. -/
def freeListSizeFor (slot_size backing_size : Nat) : Nat :=
  divideAndRoundUp
    (8 * backing_size % 2 ^ 64 / ((8 * slot_size + 1) % 2 ^ 64)) 8

/-- The constructor. -/
def create (slot_size backing_store backing_size : Nat) : Except Fault Slab :=
  let backingStoreEnd := (backing_store + backing_size) % 2 ^ 64
  let freeListSize := freeListSizeFor slot_size backing_size
  let backingStoreAddr := alignUp ((backing_store + freeListSize) % 2 ^ 64)
    (getAlignValForSlotSize slot_size) % 2 ^ 64
  let backing_size := usub backingStoreEnd backingStoreAddr
  if slot_size = 0 then .error .divideByZero
  else
    let slotCount := backing_size / slot_size
    if slot_size < 8 then .error (.assertion minimumSlotSizeMsg)
    else if slotCount ≤ 1 then .error (.assertion singleSlotMsg)
    else
      .ok
        { slotSize := slot_size
          backingStorage := backingStoreAddr
          backingSize := backing_size
          initializedHorizon := backingStoreAddr
          freeCount := slotCount
          numSlots := slotCount
          nextFree := some backingStoreAddr
          freeListSize := freeListSize
          freeList := fun _ => true
          slotWord := fun _ => none }

def slotIndex (s : Slab) (ptr : Nat) : Nat :=
  usub ptr s.backingStorage / s.slotSize

def markSlotFreeState (s : Slab) (ptr : Nat) (free : Bool) :
    Except Fault Slab :=
  let index := s.slotIndex ptr
  if index / 8 < s.freeListSize then
    .ok { s with freeList := update s.freeList index free }
  else .error .outOfBounds

def isSlotFree (s : Slab) (ptr : Nat) : Except Fault Bool :=
  let index := s.slotIndex ptr
  if index / 8 < s.freeListSize then .ok (s.freeList index)
  else .error .outOfBounds

/-- The slab after its next free slot was taken off the chain. -/
def takeSlot (s : Slab) (toReturn : Nat) : Slab :=
  if toReturn = s.initializedHorizon then
    let horizonAddr := (s.initializedHorizon + s.slotSize) % 2 ^ 64
    { s with
      initializedHorizon := horizonAddr
      nextFree :=
        if (horizonAddr + s.slotSize) % 2 ^ 64
          > (s.backingStorage + s.backingSize) % 2 ^ 64
        then none else some horizonAddr }
  else
    { s with
      nextFree := s.slotWord toReturn
      slotWord := update s.slotWord toReturn none }

def alloc (s : Slab) : Except Fault (Slab × Nat) :=
  match s.nextFree with
  | none => .error (.assertion noFreeSpaceMsg)
  | some toReturn =>
    let s := s.takeSlot toReturn
    match { s with freeCount := s.freeCount - 1 }.markSlotFreeState
        toReturn false with
    | .error e => .error e
    | .ok s => .ok (s, toReturn)

def free (s : Slab) (ptr : Nat) : Except Fault Slab :=
  match s.isSlotFree ptr with
  | .error e => .error e
  | .ok true => .error (.assertion doubleFreeMsg)
  | .ok false =>
    match s.markSlotFreeState ptr true with
    | .error e => .error e
    | .ok s =>
      .ok { s with
        slotWord := update s.slotWord ptr s.nextFree
        nextFree := some ptr
        freeCount := s.freeCount + 1 }

def getOccupancyPercent (s : Slab) : Nat :=
  100 - divideAndRoundUp (s.freeCount * 100) s.numSlots

def isFull (s : Slab) : Bool := s.freeCount == 0

def isEmpty (s : Slab) : Bool := s.freeCount == s.numSlots

/-- What the client of a slab does. It writes what it likes into its
slots; only the first word matters to the slab. -/
inductive Call
  | alloc
  | free (ptr : Nat)
  | write (ptr : Nat) (word : Option Nat)
  deriving DecidableEq, Repr

/-- One call on a slab and the slots its client holds. -/
def step (p : Slab × Finset Nat) :
    Call → Except Fault ((Slab × Finset Nat) × Option Nat)
  | .alloc =>
    match p.1.alloc with
    | .error e => .error e
    | .ok (s, ptr) => .ok ((s, insert ptr p.2), some ptr)
  | .free ptr =>
    match p.1.free ptr with
    | .error e => .error e
    | .ok s => .ok ((s, p.2.erase ptr), none)
  | .write ptr word =>
    .ok (({ p.1 with
      slotWord := update p.1.slotWord ptr word }, p.2), none)

end Slab

/-- The header goes first, the backing store after it. -/
def initializeSlab (memory slotSize backingSize : Nat) : Except Fault Slab :=
  Slab.create slotSize (memory + sizeofSlab)
    ((2 ^ 64 + backingSize - sizeofSlab) % 2 ^ 64)

-- ==== the allocator

/-- What `bucketIndex` says of a slab. -/
inductive BucketIndex
  | full
  | free
  | invalid
  | partly (i : Nat)
  deriving DecidableEq, Repr

/-- The place of a bucket head. -/
inductive Bucket
  | fullSlabs
  | freeSlabs
  | partiallyFull (i : Nat)
  deriving DecidableEq, Repr

structure SlabAllocator where
  slotSize : Nat
  desiredSlabSize : Nat
  fullSlabs : Option Nat
  partiallyFullBuckets : Nat → Option Nat
  freeSlabs : Option Nat
  numFreeSlabs : Nat
  numNonFullSlabs : Nat
  topOccupiedBucket : Option Bucket
  slabTree : Finset Nat
  slabs : Nat → Slab
  bucketIndex : Nat → BucketIndex
  links : Lib.Links Nat

namespace SlabAllocator

/-- The slab record of an address no slab was ever built at. -/
def noSlab : Slab := ⟨0, 0, 0, 0, 0, 0, none, 0, fun _ => false, fun _ => none⟩

def create (slot_size desired_slab_size : Nat) : SlabAllocator where
  slotSize := slot_size
  desiredSlabSize := desired_slab_size
  fullSlabs := none
  partiallyFullBuckets := fun _ => none
  freeSlabs := none
  numFreeSlabs := 0
  numNonFullSlabs := 0
  topOccupiedBucket := none
  slabTree := ∅
  slabs := fun _ => noSlab
  bucketIndex := fun _ => .invalid
  links := ⟨fun _ => none, fun _ => none⟩

variable (a : SlabAllocator)

-- ==== buckets

/-- The head stored at a place. -/
def headOf : Bucket → Option Nat
  | .fullSlabs => a.fullSlabs
  | .freeSlabs => a.freeSlabs
  | .partiallyFull i => a.partiallyFullBuckets i

def setHead (bucket : Bucket) (head : Option Nat) : SlabAllocator :=
  match bucket with
  | .fullSlabs => { a with fullSlabs := head }
  | .freeSlabs => { a with freeSlabs := head }
  | .partiallyFull i =>
    { a with
      partiallyFullBuckets :=
        update a.partiallyFullBuckets i head }

def removeSlabFromBucket (slab : Nat) (bucket : Bucket) : SlabAllocator :=
  let (links, head) := a.links.unlink (a.headOf bucket) slab
  { a with links := links }.setHead bucket head

def insertSlabAtBucketHead (slab : Nat) (bucket : Bucket) : SlabAllocator :=
  let (links, head) := a.links.push (a.headOf bucket) slab
  { a with links := links }.setHead bucket head

def setSlab (slab : Nat) (s : Slab) : SlabAllocator :=
  { a with slabs := update a.slabs slab s }

def setBucketIndex (slab : Nat) (i : BucketIndex) : SlabAllocator :=
  { a with bucketIndex := update a.bucketIndex slab i }

-- ==== release

/-- The loop of `releaseAllFromBucket` on the free bucket, one slab per
unit of fuel. -/
def releaseAllLoop : Nat → SlabAllocator → Except Fault SlabAllocator
  | 0, a => if a.freeSlabs = none then .ok a else .error .diverges
  | fuel + 1, a =>
    match a.freeSlabs with
    | none => .ok a
    | some slab =>
      releaseAllLoop fuel { a with
          slabTree := a.slabTree.erase slab
          freeSlabs := a.links.next slab
          numNonFullSlabs := a.numNonFullSlabs - 1
          numFreeSlabs := a.numFreeSlabs - 1 }

def releaseAllFreeSlabs : Except Fault SlabAllocator :=
  releaseAllLoop a.numFreeSlabs a

def topPointsToNullMsg : String :=
  "topOccupiedBucket should never point to null"

/-- The loop of `releaseFreeSlabsIfNecessary`. -/
def releaseLoop : Nat → SlabAllocator → Except Fault SlabAllocator
  | 0, _ => .error .diverges
  | fuel + 1, a =>
    if a.numFreeSlabs > freeBucketRetainLimit then
      match a.freeSlabs with
      | none => .error .nullDeref
      | some slab =>
        match a.links.next slab with
        | none => .error .nullDeref
        | some next =>
          releaseLoop fuel { a with
              freeSlabs := some next
              slabTree := a.slabTree.erase slab
              links := a.links.setPrev (some next) none
              numFreeSlabs := a.numFreeSlabs - 1
              numNonFullSlabs := a.numNonFullSlabs - 1 }
    else .ok a

def releaseFreeSlabsIfNecessary : Except Fault SlabAllocator :=
  match (if a.numFreeSlabs > freeBucketReleaseThreshold then
      releaseLoop a.numFreeSlabs a else .ok a) with
  | .error e => .error e
  | .ok a =>
    if a.freeSlabs = none ∧ a.topOccupiedBucket = some .freeSlabs then
      .error (.assertion topPointsToNullMsg)
    else .ok a

-- ==== alloc

/-- `addNewSlab`, with what the backing allocator answers. -/
def addNewSlab (requestedSize : Nat) (backingBuffer : Option Nat) :
    Except Fault SlabAllocator :=
  match backingBuffer with
  | none => .ok a
  | some newSlab =>
    match initializeSlab newSlab a.slotSize requestedSize with
    | .error e => .error e
    | .ok s =>
      .ok { a with
        slabTree := insert newSlab a.slabTree
        slabs := update a.slabs newSlab s
        bucketIndex := update a.bucketIndex newSlab .free
        links := (a.links.setNext (some newSlab) a.freeSlabs).setPrev
          (some newSlab) none
        freeSlabs := some newSlab
        numNonFullSlabs := a.numNonFullSlabs + 1
        numFreeSlabs := a.numFreeSlabs + 1
        topOccupiedBucket :=
          if a.topOccupiedBucket = none then some .freeSlabs
          else a.topOccupiedBucket }

/-- The downward search of `alloc` for the highest partial bucket with
a slab, from bucket `i - 1`. -/
def highestPartial : Nat → Option Bucket
  | 0 => none
  | i + 1 =>
    if a.partiallyFullBuckets i ≠ none then some (.partiallyFull i)
    else highestPartial i

/-- The part of `alloc` after the slab `targetSlab` gave a slot:
`targetSlab` moves to the bucket its occupancy asks for. -/
def rebucketAfterAlloc (targetSlab : Nat) (top : Bucket) : SlabAllocator :=
  let s := a.slabs targetSlab
  let newIndex := getBucketIndexForOccupancyInAlloc s.getOccupancyPercent
  if s.isFull then
    let a := a.removeSlabFromBucket targetSlab top
    let a := a.insertSlabAtBucketHead targetSlab .fullSlabs
    let a := a.setBucketIndex targetSlab .full
    let a := { a with numNonFullSlabs := a.numNonFullSlabs - 1 }
    if a.numNonFullSlabs = 0 then { a with topOccupiedBucket := none }
    else
      { a with
        topOccupiedBucket :=
          some ((a.highestPartial slabAllocatorBucketCount).getD .freeSlabs) }
  else if top = .freeSlabs ∨ a.bucketIndex targetSlab ≠ .partly newIndex then
    let a := if top = .freeSlabs then
      { a with numFreeSlabs := a.numFreeSlabs - 1 } else a
    let a := a.removeSlabFromBucket targetSlab top
    let a := a.setBucketIndex targetSlab (.partly newIndex)
    let a := a.insertSlabAtBucketHead targetSlab (.partiallyFull newIndex)
    { a with topOccupiedBucket := some (.partiallyFull newIndex) }
  else a

def alloc (backingBuffer : Option Nat) : Except Fault (SlabAllocator × Nat) :=
  match (if a.numNonFullSlabs = 0 then
      a.addNewSlab a.desiredSlabSize backingBuffer else .ok a) with
  | .error e => .error e
  | .ok a =>
    match a.topOccupiedBucket with
    | none => .error .nullDeref
    | some top =>
      match a.headOf top with
      | none => .error .nullDeref
      | some targetSlab =>
        match (a.slabs targetSlab).alloc with
        | .error e => .error e
        | .ok (s, toReturn) =>
          .ok ((a.setSlab targetSlab s).rebucketAfterAlloc targetSlab
            top, toReturn)

-- ==== free

/-- The downward search of `free`: the highest nonempty bucket among
`n` of them, from `low + n - 1` down to `low`. -/
def highestBetween (low : Nat) : Nat → Option Bucket
  | 0 => none
  | n + 1 =>
    if a.partiallyFullBuckets (low + n) ≠ none then
      some (.partiallyFull (low + n))
    else highestBetween low n

/-- A slab left the full list at the occupancy threshold. -/
def reintroduce (parentSlab : Nat) : SlabAllocator :=
  let newIndex := slabAllocatorBucketCount - 1
  let a := a.removeSlabFromBucket parentSlab .fullSlabs
  let a := { a with numNonFullSlabs := a.numNonFullSlabs + 1 }
  let a := a.insertSlabAtBucketHead parentSlab (.partiallyFull newIndex)
  let a := { a with topOccupiedBucket := some (.partiallyFull newIndex) }
  a.setBucketIndex parentSlab (.partly newIndex)

/-- A partial slab lost its last slot. -/
def retire (parentSlab oldIndex : Nat) : Except Fault SlabAllocator :=
  let a := a.removeSlabFromBucket parentSlab (.partiallyFull oldIndex)
  let a := a.insertSlabAtBucketHead parentSlab .freeSlabs
  let a := { a with numFreeSlabs := a.numFreeSlabs + 1 }
  let a := a.setBucketIndex parentSlab .free
  match a.topOccupiedBucket with
  | none => .error .nullDeref
  | some top =>
    let a := if a.headOf top = none then
      { a with topOccupiedBucket := some .freeSlabs } else a
    a.releaseFreeSlabsIfNecessary

/-- A partial slab changes buckets. -/
def demote (parentSlab oldIndex newIndex : Nat) : Except Fault SlabAllocator :=
  let a := a.removeSlabFromBucket parentSlab (.partiallyFull oldIndex)
  let a := a.setBucketIndex parentSlab (.partly newIndex)
  let a := a.insertSlabAtBucketHead parentSlab (.partiallyFull newIndex)
  match a.topOccupiedBucket with
  | none => .error .nullDeref
  | some top =>
    if a.headOf top = none then
      .ok { a with
        topOccupiedBucket :=
          (a.highestBetween newIndex (oldIndex + 1 - newIndex)).or
            a.topOccupiedBucket }
    else .ok a

def free (ptr parentSlab : Nat) : Except Fault SlabAllocator :=
  match (a.slabs parentSlab).free ptr with
  | .error e => .error e
  | .ok s =>
    let a := a.setSlab parentSlab s
    match a.bucketIndex parentSlab with
    | .full =>
      if s.getOccupancyPercent
          ≤ fullBucketReintroductionOccupancyThreshold then
        .ok (a.reintroduce parentSlab)
      else .ok a
    | .partly oldIndex =>
      let newIndex :=
        getBucketIndexForOccupancyInFree s.getOccupancyPercent
      if s.isEmpty then a.retire parentSlab oldIndex
      else if oldIndex ≠ newIndex then
        a.demote parentSlab oldIndex newIndex
      else .ok a
    -- any other index is past the end of `partiallyFullBuckets`
    | .free => .error .outOfBounds
    | .invalid => .error .outOfBounds

-- ==== the runs

/-- The calls of a slab allocator client; `alloc` carries the backing
allocator's answer, should it be asked. -/
inductive Call
  | alloc (backingBuffer : Option Nat)
  | free (ptr parentSlab : Nat)
  | releaseAllFreeSlabs
  deriving DecidableEq, Repr

/-- The slot an `alloc` hands out. -/
abbrev Answer := Option Nat

/-- One call on the allocator. -/
def step (a : SlabAllocator) : Call → Except Fault (SlabAllocator × Answer)
  | .alloc backingBuffer =>
    match a.alloc backingBuffer with
    | .error e => .error e
    | .ok (a, ptr) => .ok (a, some ptr)
  | .free ptr parentSlab =>
    match a.free ptr parentSlab with
    | .error e => .error e
    | .ok a => .ok (a, none)
  | .releaseAllFreeSlabs =>
    match a.releaseAllFreeSlabs with
    | .error e => .error e
    | .ok a => .ok (a, none)

end SlabAllocator

end CroCOS.LibAlloc
