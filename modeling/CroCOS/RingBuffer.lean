/-
The multi-producer multi-consumer ring buffer
(core/atomic/RingBuffer.h, MPMCRingBuffer): writers and readers claim
positions from two heads, access the slots, and publish what they have
done through two completion heads.

# Reading the model against the source

- A step is one atomic access: a load, a CAS, a store of a generation
  counter, or one call of a callback on its slot. `Frame` is what a call
  does next.
- The callbacks write given items and answer with what they read. A slot
  that was never written reads as `none`.
- A position is a `Nat`: the source assumes fewer than 2^64 operations
  over the buffer's life. The free space is a difference of `size_t`
  values and wraps (`usub`).
- `cap` and `ScanOnComplete` are fixed (`Config`). The completion of a
  write and of a read are one definition with the `Side` as parameter.
- `bulkRead` is `tryBulkRead`; `write`, `tryWrite` and `tryRead` are the
  bulk calls with one item.

# Left out

`clear` and the destructor, which run alone; the memory orders: steps
interleave sequentially.
-/
import CroCOS.CoreMath
import CroCOS.Fault
import CroCOS.Lib.Pool

namespace CroCOS.RingBuffer

open Function Lib

-- ==== the buffer

structure Config where
  cap : Nat
  ScanOnComplete : Bool
  cap_lt : cap < 2 ^ 64

/-- Which completion head: `writtenHead` or `readHead`. -/
inductive Side
  | write
  | read
  deriving DecidableEq, Repr

structure Shared (Item : Type) where
  buffer : Nat → Option Item
  writeHead : Nat
  writtenHead : Nat
  readingHead : Nat
  readHead : Nat
  writeGenCounters : Nat → Nat
  readGenCounters : Nat → Nat

def Shared.init {Item : Type} : Shared Item where
  buffer := fun _ => none
  writeHead := 0
  writtenHead := 0
  readingHead := 0
  readHead := 0
  writeGenCounters := fun _ => 0
  readGenCounters := fun _ => 0

variable {Item : Type}

namespace Shared

/-- The completion head. -/
def head (s : Shared Item) : Side → Nat
  | .write => s.writtenHead
  | .read => s.readHead

def setHead (s : Shared Item) : Side → Nat → Shared Item
  | .write, h => { s with writtenHead := h }
  | .read, h => { s with readHead := h }

def genCounters (s : Shared Item) : Side → Nat → Nat
  | .write => s.writeGenCounters
  | .read => s.readGenCounters

def storeGen (s : Shared Item) : Side → Nat → Nat → Shared Item
  | .write, slot, gen =>
    { s with
      writeGenCounters := update s.writeGenCounters slot gen }
  | .read, slot, gen =>
    { s with
      readGenCounters := update s.readGenCounters slot gen }

end Shared

-- ==== the calls

inductive WriteMode
  /-- Claims against `readingHead`, then waits for each slot. -/
  | bulkWrite
  /-- Claims against `readHead`. -/
  | tryBulkWrite
  /-- The same, as many as there is room for. -/
  | bulkWriteBestEffort
  deriving DecidableEq, Repr

inductive ReadMode
  | tryBulkRead
  | bulkReadBestEffort
  deriving DecidableEq, Repr

inductive Call (Item : Type)
  | write (mode : WriteMode) (items : List Item)
  | read (mode : ReadMode) (count : Nat)
  deriving DecidableEq, Repr

inductive Result
  | done (success : Bool)
  | transferred (count : Nat)
  deriving DecidableEq, Repr

/-- The positions a call has claimed, and what it will return. -/
structure Batch where
  claimed : Nat
  count : Nat
  result : Result
  deriving DecidableEq, Repr

def Batch.limit (b : Batch) : Nat := b.claimed + b.count

inductive Frame (Item : Type)
  /-- The claim of a write, about to load `writeHead`. -/
  | loadWriteHead (mode : WriteMode) (items : List Item)
  /-- About to load `readingHead` or `readHead`, and to check. -/
  | checkSpace (mode : WriteMode) (items : List Item) (claimed : Nat)
  /-- About to CAS `writeHead`, for the first `count` items. -/
  | claimWrite (mode : WriteMode) (items : List Item) (claimed count : Nat)
  /-- `waitForSlotReadable` for the `i`th position of the batch. -/
  | waitForSlotReadable (b : Batch) (i : Nat) (items : List Item)
  /-- About to call the callback on the slot of the `i`th position. -/
  | writeSlot (wait : Bool) (b : Batch) (i : Nat) (items : List Item)
  /-- The claim of a read, about to load `readingHead`. -/
  | loadReadingHead (mode : ReadMode) (count : Nat)
  | checkItems (mode : ReadMode) (count claimed : Nat)
  /-- About to CAS `readingHead`, for `actual` positions. -/
  | claimRead (mode : ReadMode) (count claimed actual : Nat)
  | readSlot (b : Batch) (i : Nat)
  /-- `advanceCompletionHead`, about to CAS. -/
  | advanceCompletionHead (side : Side) (b : Batch)
  /-- About to store the generation counter of the `i`th position. -/
  | storeGen (side : Side) (b : Batch) (i : Nat)
  /-- `advanceCompletionHeadWithScan`, about to CAS from `current`. -/
  | advanceWithScan (side : Side) (b : Batch) (current : Nat)
  /-- About to load the generation counter of `scanPos`. -/
  | scan (side : Side) (b : Batch) (desired scanPos : Nat)
  /-- About to CAS from `desired` to `scanPos`. -/
  | advanceScanned (side : Side) (b : Batch) (desired scanPos : Nat)
  deriving DecidableEq, Repr

/-- What a step shows: a slot written or read, for a position, or the
call's return. -/
inductive Event (Item : Type)
  | wrote (pos : Nat) (item : Item)
  | read (pos : Nat) (item : Option Item)
  | returned (result : Result)
  deriving DecidableEq, Repr

/-- What a step leads to: the state, what the call does next, and what
it shows. -/
abbrev Outcome (Item : Type) :=
  Shared Item × Option (Frame Item) × Option (Event Item)

variable (cfg : Config)

-- ==== the claims

/-- The head that bounds the space of a write. -/
def spaceBound (s : Shared Item) : WriteMode → Nat
  | .bulkWrite => s.readingHead
  | .tryBulkWrite => s.readHead
  | .bulkWriteBestEffort => s.readHead

/-- `available`, of a claim that found `writeHead` at `claimed`. -/
def available (claimed bound : Nat) : Nat := usub cfg.cap (usub claimed bound)

/-- The check of a claim: how many positions, or the call's return. -/
def writeCount (mode : WriteMode) (items : List Item) (available : Nat) :
    Except Result Nat :=
  match mode with
  | .bulkWriteBestEffort =>
    if min items.length available = 0 then .error (.transferred 0)
    else .ok (min items.length available)
  | _ =>
    if items.length > available then .error (.done false)
    else .ok items.length

def writeResult (count : Nat) : WriteMode → Result
  | .bulkWriteBestEffort => .transferred count
  | _ => .done true

def readCount (mode : ReadMode) (count available : Nat) : Except Result Nat :=
  match mode with
  | .bulkReadBestEffort =>
    if min count available = 0 then .error (.transferred 0)
    else .ok (min count available)
  | .tryBulkRead =>
    if count > available then .error (.done false) else .ok count

def readResult (count : Nat) : ReadMode → Result
  | .bulkReadBestEffort => .transferred count
  | .tryBulkRead => .done true

-- ==== the completion

/-- The loop over the generation counters, before position `i`. -/
def genLoop (side : Side) (b : Batch) (i : Nat) : Frame Item :=
  if i < b.count then .storeGen side b i
  else .advanceWithScan side b b.claimed

/-- All slots of the batch are done. -/
def complete (side : Side) (b : Batch) : Frame Item :=
  if cfg.ScanOnComplete then genLoop side b 0
  else .advanceCompletionHead side b

/-- The loop over the slots of a write, before position `i`. -/
def writeLoop (wait : Bool) (b : Batch) (i : Nat) : List Item → Frame Item
  | [] => complete cfg .write b
  | items => if wait then .waitForSlotReadable b i items
      else .writeSlot wait b i items

/-- The loop over the slots of a read, before position `i`. -/
def readLoop (b : Batch) (i : Nat) : Frame Item :=
  if i < b.count then .readSlot b i else complete cfg .read b

/-- The call is over. -/
def finish (s : Shared Item) (b : Batch) : Outcome Item :=
  (s, none, some (.returned b.result))

/-- The slot of a position; a remainder by `cap`. -/
def slotOf (pos : Nat) : Except Fault Nat :=
  if cfg.cap = 0 then .error .divideByZero else .ok (pos % cfg.cap)

def genOf (pos : Nat) : Nat := pos / cfg.cap + 1

-- ==== the steps

/-- One step of a call. -/
def frameStep (s : Shared Item) : Frame Item → Except Fault (Outcome Item)
  | .loadWriteHead mode items =>
    .ok (s, some (.checkSpace mode items s.writeHead), none)
  | .checkSpace mode items claimed =>
    match writeCount mode items (available cfg claimed (spaceBound s mode)) with
    | .error r => .ok (s, none, some (.returned r))
    | .ok count => .ok (s, some (.claimWrite mode items claimed count), none)
  | .claimWrite mode items claimed count =>
    if s.writeHead = claimed then
      .ok ({ s with writeHead := claimed + count },
        some (writeLoop cfg (mode = .bulkWrite)
          ⟨claimed, count, writeResult count mode⟩ 0 (items.take count)),
        none)
    else .ok (s, some (.loadWriteHead mode items), none)
  | .waitForSlotReadable b i items =>
    if b.claimed + i < cfg.cap
        ∨ b.claimed + i - cfg.cap + 1 ≤ s.readHead then
      .ok (s, some (.writeSlot true b i items), none)
    else .ok (s, some (.waitForSlotReadable b i items), none)
  | .writeSlot _ b _ [] => .ok (s, some (complete cfg .write b), none)
  | .writeSlot wait b i (item :: items) => do
    let slot ← slotOf cfg (b.claimed + i)
    return ({ s with buffer := update s.buffer slot (some item) },
      some (writeLoop cfg wait b (i + 1) items),
      some (.wrote (b.claimed + i) item))
  | .loadReadingHead mode count =>
    .ok (s, some (.checkItems mode count s.readingHead), none)
  | .checkItems mode count claimed =>
    match readCount mode count (usub s.writtenHead claimed) with
    | .error r => .ok (s, none, some (.returned r))
    | .ok actual => .ok (s, some (.claimRead mode count claimed actual), none)
  | .claimRead mode count claimed actual =>
    if s.readingHead = claimed then
      .ok ({ s with readingHead := claimed + actual },
        some (readLoop cfg ⟨claimed, actual, readResult actual mode⟩ 0),
        none)
    else .ok (s, some (.loadReadingHead mode count), none)
  | .readSlot b i => do
    let slot ← slotOf cfg (b.claimed + i)
    return (s, some (readLoop cfg b (i + 1)),
      some (.read (b.claimed + i) (s.buffer slot)))
  | .advanceCompletionHead side b =>
    if s.head side = b.claimed then
      .ok (finish (s.setHead side b.limit) b)
    else if s.head side ≥ b.limit then .ok (finish s b)
    else .ok (s, some (.advanceCompletionHead side b), none)
  | .storeGen side b i => do
    let slot ← slotOf cfg (b.claimed + i)
    return (s.storeGen side slot (genOf cfg (b.claimed + i)),
      some (genLoop side b (i + 1)), none)
  | .advanceWithScan side b current =>
    if s.head side = current then
      .ok (s.setHead side b.limit, some (.scan side b b.limit b.limit), none)
    else if s.head side ≥ b.limit then .ok (finish s b)
    else if s.head side < b.claimed then .ok (finish s b)
    else .ok (s, some (.advanceWithScan side b (s.head side)), none)
  | .scan side b desired scanPos => do
    let slot ← slotOf cfg scanPos
    if s.genCounters side slot < genOf cfg scanPos then
      if scanPos = desired then return finish s b
      else return (s, some (.advanceScanned side b desired scanPos), none)
    else return (s, some (.scan side b desired (scanPos + 1)), none)
  | .advanceScanned side b desired scanPos =>
    if s.head side = desired then
      .ok (s.setHead side scanPos, some (.scan side b scanPos scanPos), none)
    else .ok (finish s b)

def start : Call Item → Frame Item
  | .write mode items => .loadWriteHead mode items
  | .read mode count => .loadReadingHead mode count

/-- A thread that runs no call may start one; one that does takes a
step of it, whatever is chosen. -/
def next (_ : Nat) (s : Shared Item) (l : Option (Frame Item))
    (a : Option (Call Item)) : Except Fault (Outcome Item) :=
  match l with
  | some f => frameStep cfg s f
  | none => .ok (s, a.map start, none)

abbrev Machine (Item : Type) := Pool (Shared Item) (Option (Frame Item))

def Machine.init : Machine Item := ⟨Shared.init, fun _ => none⟩

/-- Nobody runs a call. -/
def Quiet (m : Machine Item) : Prop := ∀ t, m.own t = none

end CroCOS.RingBuffer
