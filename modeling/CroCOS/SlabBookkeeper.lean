/-
Slot bookkeeping for one allocating CPU and many freeing ones
(core/atomic/SplitBitmap.h, liballoc/Slab.h): a pair of bitmaps, the
slots the owner may claim and the slots freed since it last looked, and
the counts of allocated and reserved slots.

# Reading the model against the source

- The words of a bitmap stand side by side in one bit vector: bit
  `64 * w + b` is bit `b` of word `w`. A loop over the words that does
  the same to each is one operation on the vector; `releaseBitsBulk`
  asserts for all words before it writes any.
- One call runs to completion before the next, so an atomic exchange is
  a read and a write.
- `hint` is the first word the scan looks at; it is only kept with more
  than one word (`UseHint`).
- `allocatedCount` and `reservedCount` are `SlotCountType`s. They count
  slots, so they stay inside it; a difference taken as `size_t` wraps.
-/
import CroCOS.Fault
import CroCOS.CoreMath
import CroCOS.Lib.Bitmap

namespace CroCOS

open Lib.Bitmap (mask scanFrom)

-- ==== occupancy

inductive OccupancyState
  | empty
  | partly
  | full
  deriving DecidableEq, Repr

structure OccupancyTransition where
  before : OccupancyState
  after : OccupancyState
  deriving DecidableEq, Repr

namespace OccupancyTransition

variable (t : OccupancyTransition)

def becameFull : Bool := t.before ≠ .full && t.after = .full

def becameEmpty : Bool := t.before ≠ .empty && t.after = .empty

def becameAvailable : Bool := t.before = .full && t.after ≠ .full

end OccupancyTransition

-- ==== split bitmaps

structure SplitBitmap (wordCount : Nat) where
  allocBitmap : BitVec (64 * wordCount)
  freeBitmap : BitVec (64 * wordCount)
  hint : Nat
  deriving DecidableEq, Repr

namespace SplitBitmap

variable {wordCount : Nat} (b : SplitBitmap wordCount)

def setHint (w : Nat) : SplitBitmap wordCount :=
  if 1 < wordCount then { b with hint := w } else b

def seedAllAvailable : SplitBitmap wordCount :=
  { b with
    allocBitmap := BitVec.allOnes _
    freeBitmap := 0#_ }.setHint 0

def seedAllUsed : SplitBitmap wordCount :=
  { b with
    allocBitmap := 0#_
    freeBitmap := 0#_ }.setHint 0

/-- The scan moves the hint over the words it finds empty, and over the
word it empties. -/
def tryClaimBitNoDrain : Option Nat × SplitBitmap wordCount :=
  match scanFrom b.allocBitmap (64 * b.hint) with
  | none => (none, b.setHint (max b.hint wordCount))
  | some bit =>
    let b := { b with
      allocBitmap := b.allocBitmap &&& ~~~ mask _ bit }
    let w := bit / 64
    let emptied := (scanFrom b.allocBitmap (64 * w)).all (64 * (w + 1) ≤ ·)
    (some bit, b.setHint (if emptied then w + 1 else w))

/-- The hint goes to the first word that got bits back. -/
def drainFreeIntoAlloc : Bool × SplitBitmap wordCount :=
  match scanFrom b.freeBitmap 0 with
  | none => (false, b)
  | some bit =>
    (true, { b with
      allocBitmap := b.allocBitmap ||| b.freeBitmap
      freeBitmap := 0#_ }.setHint (bit / 64))

def claimBit : Option Nat × SplitBitmap wordCount :=
  let (bit, b) := b.tryClaimBitNoDrain
  if bit.isSome then (bit, b)
  else
    let (drained, b) := b.drainFreeIntoAlloc
    if drained then b.tryClaimBitNoDrain else (none, b)

def releaseBitsBulk (pending : BitVec (64 * wordCount)) :
    Except Fault (SplitBitmap wordCount) :=
  if b.allocBitmap &&& pending ≠ 0#_ then
    .error (.assertion "Double free: bit set in allocBitmap during release")
  else if b.freeBitmap &&& pending ≠ 0#_ then
    .error (.assertion "Double free: bit already set in freeBitmap")
  else .ok { b with freeBitmap := b.freeBitmap ||| pending }

def reserveBit (bit : Nat) : SplitBitmap wordCount :=
  { b with
    allocBitmap := b.allocBitmap &&& ~~~ mask _ bit
    freeBitmap := b.freeBitmap &&& ~~~ mask _ bit }

def flushAllocIntoFree : SplitBitmap wordCount :=
  { b with
    freeBitmap := b.freeBitmap ||| b.allocBitmap
    allocBitmap := 0#_ }.setHint 0

def isBitAvailable (bit : Nat) : Bool :=
  b.allocBitmap.getLsbD bit || b.freeBitmap.getLsbD bit

end SplitBitmap

-- ==== bookkeeper

namespace LibAlloc

structure SlabBookkeeper (slotCount : Nat) where
  bitmap : SplitBitmap ((slotCount + 63) / 64)
  allocatedCount : Nat
  reservedCount : Nat
  deriving DecidableEq, Repr

namespace SlabBookkeeper

variable {slotCount : Nat}

/-- `kWordCount * 64`, the bits of the bitmap. -/
def bitCount (slotCount : Nat) : Nat := 64 * ((slotCount + 63) / 64)

def kTailBits (slotCount : Nat) : Nat := bitCount slotCount - slotCount

def stateFromCount (count maxAlloc : Nat) : OccupancyState :=
  if count = 0 then .empty
  else if count ≥ maxAlloc then .full
  else .partly

variable (bk : SlabBookkeeper slotCount)

def maxAlloc : Nat := bitCount slotCount - bk.reservedCount

/-- The default constructor, before anything is seeded. -/
def create (slotCount : Nat) : SlabBookkeeper slotCount :=
  { bitmap := { allocBitmap := 0#_, freeBitmap := 0#_, hint := 0 }
    allocatedCount := 0
    reservedCount := 0 }

def reserveSlot (slot : Nat) : Except Fault (SlabBookkeeper slotCount) :=
  if bk.allocatedCount ≠ 0 then
    .error (.assertion
      "SlabBookkeeper::reserveSlot only valid before any alloc")
  else if bk.bitmap.isBitAvailable slot then
    .ok { bk with
      bitmap := bk.bitmap.reserveBit slot
      reservedCount := bk.reservedCount + 1 }
  else .ok bk

/-- `seedAllAvailable()`: the tail bits past `slotCount` are reserved. -/
def seedAllAvailable : Except Fault (SlabBookkeeper slotCount) :=
  let bk := { bk with
    bitmap := bk.bitmap.seedAllAvailable
    allocatedCount := 0 }
  (List.range' slotCount (kTailBits slotCount)).foldlM
    (fun bk i => bk.reserveSlot i) bk

def seedAllUsed : SlabBookkeeper slotCount :=
  { bk with
    bitmap := bk.bitmap.seedAllUsed
    allocatedCount := bk.maxAlloc }

/-- Claim up to `count` slots, in the order they are handed out. -/
def claimSlots {wordCount : Nat} :
    Nat → SplitBitmap wordCount → List Nat × SplitBitmap wordCount
  | 0, b => ([], b)
  | count + 1, b =>
    match b.claimBit with
    | (none, b) => ([], b)
    | (some bit, b) =>
      let (slots, b) := claimSlots count b
      (bit :: slots, b)

def allocSlots (count : Nat) :
    List Nat × OccupancyTransition × SlabBookkeeper slotCount :=
  let (slots, bitmap) := claimSlots count bk.bitmap
  let prev := bk.allocatedCount
  (slots,
    { before := stateFromCount prev bk.maxAlloc
      after := stateFromCount (prev + slots.length) bk.maxAlloc },
    { bk with
      bitmap := bitmap
      allocatedCount := prev + slots.length })

def freeSlotsBulk (pending : BitVec (64 * ((slotCount + 63) / 64)))
    (releasedCount : Nat) :
    Except Fault (OccupancyTransition × SlabBookkeeper slotCount) := do
  let bitmap ← bk.bitmap.releaseBitsBulk pending
  let prev := bk.allocatedCount
  let now := usub prev releasedCount
  return (
    { before := stateFromCount prev bk.maxAlloc
      after := stateFromCount now bk.maxAlloc },
    { bk with
      bitmap := bitmap
      allocatedCount := now })

def flushAllocSide : SlabBookkeeper slotCount :=
  { bk with bitmap := bk.bitmap.flushAllocIntoFree }

def isSlotFree (slot : Nat) : Bool := bk.bitmap.isBitAvailable slot

def isFull : Bool := bk.allocatedCount = bk.maxAlloc

def isEmpty : Bool :=
  bk.allocatedCount = 0 && bk.reservedCount = kTailBits slotCount

def hasReservedSlots : Bool := bk.reservedCount > 0

end SlabBookkeeper

end LibAlloc

end CroCOS
