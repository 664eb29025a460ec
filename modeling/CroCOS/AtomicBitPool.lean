/-
The hierarchical bit pool of Core (atomic/AtomicBitPool.cpp): a set of
indices kept as the leaf bitmaps of a 64-ary tree, with a member count
in every entry below the top level and a hint bitmap in every entry
above the leaves.

# Reading the model against the source

- The buffer is addressed in bytes, as in the source: `storage` maps a
  byte offset to the entry that starts there, and an access whose entry
  does not lie inside the `bufferSize` bytes the caller supplied is a
  fault.
- One call runs to completion before the next starts, so an atomic
  fetch-and-modify is a read followed by a write and every retry branch
  is kept but no interleaving is.
- Bitmaps are `BitVec 64`. Counts are integers: they are bounded by the
  capacity, far from the ends of `int64_t`. Sizes are naturals, since
  the buffer they measure is in memory; what is left of larger ones in
  `size_t` is `requiredBufferSizeT` and `entryAt`.
- `bitmap >> (64 - r)` with `r = 0` is undefined in the language; on
  this machine the count is taken modulo 64, and either reading of it
  leaves the bitmap itself as the rotation.
- `SIZE_MAX` in `decrementedAt` is `none`. The array has
  `maxLevelCount` cells whatever the pool's own `levelCount`.
- `getAny`'s loop carries fuel enough for every descent between two
  retries.
-/
import CroCOS.Fault
import CroCOS.CoreMath
import CroCOS.Lib.Run

namespace CroCOS

/-- One entry of the buffer. -/
structure AtomicBitPool.Entry where
  bitmap : BitVec 64
  count : Int
  deriving DecidableEq, Repr

/-- `sizeof(Entry)`: two eight-byte atomics. -/
def sizeofEntry : Nat := 16

structure AtomicBitPool where
  storage : Nat → AtomicBitPool.Entry
  bufferSize : Nat
  entryStride : Nat
  levelCount : Nat
  l1BitmapLog2Width : Nat
  capacity : Nat

namespace AtomicBitPool

def maxLevelCount : Nat := 10

-- ==== construction

def computeLevelCount (capacity : Nat) : Nat :=
  if capacity ≤ 64 then 1 else divideAndRoundUp (log2ceil capacity) 6

def computeL1BitmapLog2Width (capacity levelCount : Nat) : Nat :=
  log2ceil capacity - 6 * (levelCount - 1)

/-- The loop of `requiredBufferSize` over the levels above the leaves:
`level` down to 1. -/
def upperLevelsSize (entryStride : Nat) : Nat → Nat → Nat → Nat
  | 0, _, total => total
  | level + 1, levelEntries, total =>
    upperLevelsSize entryStride level (levelEntries * 64)
      (total + entryStride * levelEntries)

def requiredBufferSize (capacity entryStride : Nat) : Nat :=
  let capacity := 2 ^ log2ceil capacity
  let entryStride := max entryStride sizeofEntry
  let levelCount := computeLevelCount capacity
  upperLevelsSize entryStride (levelCount - 1) 1
    (entryStride * divideAndRoundUp capacity 64)

/-- The value returned: sums and products of `size_t` are modulo
`2 ^ 64`. -/
def requiredBufferSizeT (capacity entryStride : Nat) : Nat :=
  requiredBufferSize capacity entryStride % 2 ^ 64

/-- The constructor, over a buffer of the required size: every field
from the rounded capacity, the storage zeroed. -/
def create (cap stride : Nat) : AtomicBitPool :=
  let roundedCap := 2 ^ log2ceil cap
  let levelCount := computeLevelCount roundedCap
  { storage := fun _ => ⟨0#64, 0⟩
    bufferSize := requiredBufferSize cap stride
    entryStride := max stride sizeofEntry
    levelCount := levelCount
    l1BitmapLog2Width := computeL1BitmapLog2Width roundedCap levelCount
    capacity := roundedCap }

variable (p : AtomicBitPool)

-- ==== index arithmetic

def geometricSum : Nat := (2 ^ (6 * maxLevelCount) - 1) / 63

/-- The byte offset of entry `index` of `level`. -/
def entryOffset (index level : Nat) : Nat :=
  let shift := 6 * (maxLevelCount + level + 1 - p.levelCount)
  p.entryStride * (geometricSum >>> shift) + index * p.entryStride

/-- Where `entryAt` points, in `size_t` from the buffer's start. -/
def entryAt (index level : Nat) : Nat := p.entryOffset index level % 2 ^ 64

def shiftForLevel (level : Nat) : Nat :=
  if level = 1 then p.l1BitmapLog2Width else 6

def cumulativeShift (level : Nat) : Nat :=
  let shift := 6 * level
  if level ≥ 2 then shift - (6 - p.l1BitmapLog2Width) else shift

/-- The mask the source takes the low `shiftForLevel` bits with is a
remainder by their power of two. -/
def bitIndexForLevel (absoluteIndex level : Nat) : Nat :=
  absoluteIndex >>> p.cumulativeShift level % 2 ^ p.shiftForLevel level

def entryIndexForLevel (absoluteIndex level : Nat) : Nat :=
  absoluteIndex >>> (p.cumulativeShift level + p.shiftForLevel level)

def childEntryIndex (entryIndex bitIndex level : Nat) : Nat :=
  entryIndex * 2 ^ p.shiftForLevel level + bitIndex

def parentEntryIndex (entryIndex level : Nat) : Nat :=
  entryIndex >>> p.shiftForLevel (level + 1)

def bitIndexInParent (entryIndex level : Nat) : Nat :=
  entryIndex % 2 ^ p.shiftForLevel (level + 1)

-- ==== access

/-- The entry that starts at `offset`, if all of it is in the buffer. -/
def load (index level : Nat) : Except Fault Entry :=
  if p.entryOffset index level + sizeofEntry ≤ p.bufferSize then
    .ok (p.storage (p.entryOffset index level))
  else .error .outOfBounds

/-- The storage with one entry replaced. -/
def store (index level : Nat) (e : Entry) : AtomicBitPool :=
  { p with
    storage := Function.update p.storage (p.entryOffset index level) e }

/-- Change the bitmap of an entry, answering the old one. -/
def fetchBitmap (index level : Nat) (f : BitVec 64 → BitVec 64) :
    Except Fault (AtomicBitPool × BitVec 64) :=
  match p.load index level with
  | .error e => .error e
  | .ok entry =>
    .ok (p.store index level { entry with bitmap := f entry.bitmap },
      entry.bitmap)

/-- Add to the count of an entry, answering the old one. -/
def fetchCount (index level : Nat) (d : Int) :
    Except Fault (AtomicBitPool × Int) :=
  match p.load index level with
  | .error e => .error e
  | .ok entry =>
    .ok (p.store index level { entry with count := entry.count + d },
      entry.count)

-- ==== counts

/-- What `incrementCount` and `decrementCount` report. -/
structure CountResult where
  newCount : Int
  toggledTopLevel : Bool
  poolTransitioned : Bool
  deriving DecidableEq, Repr

def incrementCount (entryIndex level : Nat) :
    Except Fault (AtomicBitPool × CountResult) :=
  match p.fetchCount entryIndex level 1 with
  | .error e => .error e
  | .ok (p, oldCount) =>
    if oldCount = 0 ∧ level < p.levelCount - 1 then
      let bit := 1#64 <<< p.bitIndexInParent entryIndex level
      match p.fetchBitmap (p.parentEntryIndex entryIndex level)
          (level + 1) (· ^^^ bit) with
      | .error e => .error e
      | .ok (p, oldBitmap) =>
        if level = p.levelCount - 2 then
          .ok (p, ⟨oldCount + 1, true, oldBitmap == 0#64⟩)
        else .ok (p, ⟨oldCount + 1, false, false⟩)
    else .ok (p, ⟨oldCount + 1, false, false⟩)

def decrementCount (entryIndex level : Nat) :
    Except Fault (AtomicBitPool × CountResult) :=
  match p.fetchCount entryIndex level (-1) with
  | .error e => .error e
  | .ok (p, oldCount) =>
    if oldCount = 1 ∧ level < p.levelCount - 1 then
      let bit := 1#64 <<< p.bitIndexInParent entryIndex level
      match p.fetchBitmap (p.parentEntryIndex entryIndex level)
          (level + 1) (· ^^^ bit) with
      | .error e => .error e
      | .ok (p, oldBitmap) =>
        if level = p.levelCount - 2 then
          .ok (p, ⟨oldCount - 1, true, (oldBitmap ^^^ bit) == 0#64⟩)
        else .ok (p, ⟨oldCount - 1, false, false⟩)
    else .ok (p, ⟨oldCount - 1, false, false⟩)

-- ==== add

inductive AddResult
  | alreadyPresent
  | addedToNonempty
  | addedToEmpty
  deriving DecidableEq, Repr

/-- The loop of `add` over the counted levels, from `k` up. -/
def addLoop (absoluteIndex : Nat) :
    Nat → Nat → AtomicBitPool → Except Fault (AtomicBitPool × AddResult)
  | 0, _, _ => .error .unreachable
  | n + 1, k, p =>
    match p.incrementCount (p.entryIndexForLevel absoluteIndex k) k with
    | .error e => .error e
    | .ok (p, cr) =>
      if k = p.levelCount - 2 then
        if cr.toggledTopLevel && cr.poolTransitioned then
          .ok (p, .addedToEmpty)
        else .ok (p, .addedToNonempty)
      else addLoop absoluteIndex n (k + 1) p

def add (absoluteIndex : Nat) : Except Fault (AtomicBitPool × AddResult) :=
  let mask := 1#64 <<< p.bitIndexForLevel absoluteIndex 0
  match p.fetchBitmap (p.entryIndexForLevel absoluteIndex 0) 0 (· ||| mask) with
  | .error e => .error e
  | .ok (p, old) =>
    if old &&& mask ≠ 0#64 then .ok (p, .alreadyPresent)
    else if p.levelCount = 1 then
      .ok (p, if old = 0#64 then .addedToEmpty else .addedToNonempty)
    else addLoop absoluteIndex (p.levelCount - 1) 0 p

-- ==== remove

inductive RemoveResult
  | notPresent
  | removedAndMadeEmpty
  | removedAndStayedNonempty
  deriving DecidableEq, Repr

/-- The back-out loops: increment the counts of `n` levels from `j` up. -/
def restoreCounts (absoluteIndex : Nat) :
    Nat → Nat → AtomicBitPool → Except Fault AtomicBitPool
  | 0, _, p => .ok p
  | n + 1, j, p =>
    match p.incrementCount (p.entryIndexForLevel absoluteIndex j) j with
    | .error e => .error e
    | .ok (p, _) => restoreCounts absoluteIndex n (j + 1) p

/-- Phase 1 of `remove`: decrement the counts of the levels below `k`,
downward. `none` is the early return of a count that went negative,
backed out; `some` carries `madeEmpty`. -/
def removeLoop (absoluteIndex : Nat) :
    Nat → Bool → AtomicBitPool → Except Fault (AtomicBitPool × Option Bool)
  | 0, madeEmpty, p => .ok (p, some madeEmpty)
  | k + 1, madeEmpty, p =>
    match p.decrementCount (p.entryIndexForLevel absoluteIndex k) k with
    | .error e => .error e
    | .ok (p, cr) =>
      if cr.newCount < 0 then
        match restoreCounts absoluteIndex (p.levelCount - 1 - k) k p with
        | .error e => .error e
        | .ok p => .ok (p, none)
      else
        removeLoop absoluteIndex k
          (if k = p.levelCount - 2 ∧ cr.toggledTopLevel then
            cr.poolTransitioned else madeEmpty) p

def remove (absoluteIndex : Nat) :
    Except Fault (AtomicBitPool × RemoveResult) :=
  let mask := 1#64 <<< p.bitIndexForLevel absoluteIndex 0
  if p.levelCount = 1 then
    match p.fetchBitmap (p.entryIndexForLevel absoluteIndex 0) 0
        (· &&& ~~~mask) with
    | .error e => .error e
    | .ok (p, old) =>
      if old &&& mask = 0#64 then .ok (p, .notPresent)
      else if old &&& ~~~mask = 0#64 then .ok (p, .removedAndMadeEmpty)
      else .ok (p, .removedAndStayedNonempty)
  else
    match removeLoop absoluteIndex (p.levelCount - 1) false p with
    | .error e => .error e
    | .ok (p, none) => .ok (p, .notPresent)
    | .ok (p, some madeEmpty) =>
      match p.fetchBitmap (p.entryIndexForLevel absoluteIndex 0) 0
          (· &&& ~~~mask) with
      | .error e => .error e
      | .ok (p, old) =>
        if old &&& mask = 0#64 then
          match restoreCounts absoluteIndex (p.levelCount - 1) 0 p with
          | .error e => .error e
          | .ok p => .ok (p, .notPresent)
        else if madeEmpty then .ok (p, .removedAndMadeEmpty)
        else .ok (p, .removedAndStayedNonempty)

-- ==== getAny

inductive GetResult
  | success (outIndex : Nat)
  | empty
  | contended
  deriving DecidableEq, Repr

/-- The bit `getAny` tries first: a scan, from either end, of the bitmap
rotated by the thread's hash. -/
def doRotation (threadId : BitVec 64) (retryCount : Nat)
    (bitmap : BitVec 64) : Nat :=
  let hash := threadId ^^^ (BitVec.ofNat 64 retryCount * 2654435761#64)
  let r := (hash &&& 63#64).toNat
  let useLzcnt := hash &&& 64#64 ≠ 0#64
  let rotated := (bitmap <<< r) ||| (bitmap >>> ((64 - r) % 64))
  let b := if useLzcnt then (63 + 2 ^ 64 - countLeadingZeros rotated) % 2 ^ 64
    else countTrailingZeros rotated
  (b + 64 - r) % 64

/-- `decrementedAt[k]`, written inside the array or not at all. -/
def setDecrementedAt (decrementedAt : Nat → Option Nat) (k : Nat)
    (v : Option Nat) : Except Fault (Nat → Option Nat) :=
  if k < maxLevelCount then .ok (Function.update decrementedAt k v)
  else .error .outOfBounds

/-- The initialising loop: cells `n - 1` down to 0 set to `SIZE_MAX`. -/
def clearDecrementedAt : Nat → Except Fault (Nat → Option Nat)
  | 0 => .ok fun _ => none
  | n + 1 =>
    match clearDecrementedAt n with
    | .error e => .error e
    | .ok decrementedAt => setDecrementedAt decrementedAt n none

/-- `backout`: `n` levels from `k` up. -/
def backout (decrementedAt : Nat → Option Nat) :
    Nat → Nat → AtomicBitPool → Except Fault AtomicBitPool
  | 0, _, p => .ok p
  | n + 1, k, p =>
    match decrementedAt k with
    | none => backout decrementedAt n (k + 1) p
    | some entry =>
      match p.incrementCount entry k with
      | .error e => .error e
      | .ok (p, _) => backout decrementedAt n (k + 1) p

/-- A return of `getAny` through `backout`. -/
def backoutAndReturn (decrementedAt : Nat → Option Nat)
    (p : AtomicBitPool) (result : GetResult) :
    Except Fault (AtomicBitPool × GetResult) :=
  match backout decrementedAt p.levelCount 0 p with
  | .error e => .error e
  | .ok p => .ok (p, result)

/-- The loop of `getAny`. -/
def getAnyLoop (threadId : BitVec 64) (maxRetries : Nat) :
    (fuel : Nat) → (retryCount level entryIndex : Nat) →
    (decrementedAt : Nat → Option Nat) → AtomicBitPool →
    Except Fault (AtomicBitPool × GetResult)
  | 0, _, _, _, _, _ => .error .diverges
  | fuel + 1, retryCount, level, entryIndex, decrementedAt, p =>
    if maxRetries < retryCount then
      backoutAndReturn decrementedAt p .contended
    else match level with
    | 0 =>
      match p.load entryIndex 0 with
      | .error e => .error e
      | .ok entry =>
        if entry.bitmap = 0#64 ∧ p.levelCount = 1 then
          backoutAndReturn decrementedAt p .empty
        else
          let actualBit := doRotation threadId retryCount entry.bitmap
          let mask := 1#64 <<< actualBit
          match p.fetchBitmap entryIndex 0 (· &&& ~~~mask) with
          | .error e => .error e
          | .ok (p, old) =>
            if old &&& mask ≠ 0#64 then
              .ok (p, .success (entryIndex <<< 6 ||| actualBit))
            else
              getAnyLoop threadId maxRetries fuel (retryCount + 1) 0
                entryIndex decrementedAt p
    | below + 1 =>
      match p.load entryIndex (below + 1) with
      | .error e => .error e
      | .ok entry =>
        if entry.bitmap = 0#64 then
          if below + 1 = p.levelCount - 1 then
            backoutAndReturn decrementedAt p .empty
          else
            -- undo the decrement that led here, and back up
            match decrementedAt (below + 1) with
            | none =>
              getAnyLoop threadId maxRetries fuel (retryCount + 1) (below + 2)
                (p.parentEntryIndex entryIndex (below + 1))
                decrementedAt p
            | some undo =>
              match p.incrementCount undo (below + 1) with
              | .error e => .error e
              | .ok (p, _) =>
                match setDecrementedAt decrementedAt (below + 1) none with
                | .error e => .error e
                | .ok decrementedAt =>
                  getAnyLoop threadId maxRetries fuel
                    (retryCount + 1) (below + 2)
                    (p.parentEntryIndex entryIndex (below + 1))
                    decrementedAt p
        else
          let actualBit := doRotation threadId retryCount entry.bitmap
          let childEntry :=
            p.childEntryIndex entryIndex actualBit (below + 1)
          match p.decrementCount childEntry below with
          | .error e => .error e
          | .ok (p, cr) =>
            if cr.newCount < 0 then
              match p.incrementCount childEntry below with
              | .error e => .error e
              | .ok (p, _) =>
                getAnyLoop threadId maxRetries fuel
                  (retryCount + 1) (below + 1) entryIndex
                  decrementedAt p
            else
              match setDecrementedAt decrementedAt below (some childEntry) with
              | .error e => .error e
              | .ok decrementedAt =>
                getAnyLoop threadId maxRetries fuel retryCount
                  below childEntry decrementedAt p

def getAny (threadId : BitVec 64) (maxRetries : Nat) :
    Except Fault (AtomicBitPool × GetResult) :=
  match clearDecrementedAt p.levelCount with
  | .error e => .error e
  | .ok decrementedAt =>
    getAnyLoop threadId maxRetries
      ((maxRetries + 1) * (p.levelCount + 1)) 0 (p.levelCount - 1) 0
      decrementedAt p

-- ==== the runs

/-- The calls of a pool client. -/
inductive Call
  | add (absoluteIndex : Nat)
  | remove (absoluteIndex : Nat)
  | getAny (threadId : BitVec 64) (maxRetries : Nat)
  deriving DecidableEq, Repr

/-- What a pool call answers. -/
inductive Answer
  | added (r : AddResult)
  | removed (r : RemoveResult)
  | got (r : GetResult)
  deriving DecidableEq, Repr

/-- One call on the pool. -/
def step (p : AtomicBitPool) : Call → Except Fault (AtomicBitPool × Answer)
  | .add i =>
    match p.add i with
    | .error e => .error e
    | .ok (p, r) => .ok (p, .added r)
  | .remove i =>
    match p.remove i with
    | .error e => .error e
    | .ok (p, r) => .ok (p, .removed r)
  | .getAny threadId maxRetries =>
    match p.getAny threadId maxRetries with
    | .error e => .error e
    | .ok (p, r) => .ok (p, .got r)

end AtomicBitPool

end CroCOS
