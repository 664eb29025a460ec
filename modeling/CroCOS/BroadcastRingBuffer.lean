/-
The broadcast ring buffer (core/atomic/RingBuffer.h,
BroadcastRingBuffer): every consumer reads every item, and a slot is free
for the next lap when all of them have acknowledged it.

# Reading the model against the source

- A step is one atomic access: a load, a CAS, a store, or one call of a
  callback on its slot. `Frame` is what a call does next.
- The callbacks write given items and answer with what they read. A slot
  that was never written reads as `none`.
- Logical positions are `Nat`s, as in the buffer with one reader for each
  item: fewer than 2^64 operations over the buffer's life. The
  differences are of `size_t` values and wrap (`usub`), and generations
  are cut to 32 bits.
- An acknowledgement counter is the packed word, below `2 ^ 64`.
- `bulkWrite` is `tryBulkWrite` and `bulkRead` is `tryBulkRead`; `write`,
  `tryWrite` and `tryRead` are the bulk calls with one item.
- A `headNumber` that is not below `consumerCount` is outside of the
  array of read heads.

# Left out

`clear` and the destructor, which run alone; the memory orders: steps
interleave sequentially.
-/
import CroCOS.RingBuffer

namespace CroCOS.BroadcastRingBuffer

open Function Lib
open RingBuffer (Result Batch)

-- ==== the buffer

structure Config where
  cap : Nat
  consumerCount : Nat
  cap_lt : cap < 2 ^ 64

structure Shared (Item : Type) where
  data : Nat → Option Item
  writeHead : Nat
  writtenHead : Nat
  readHead : Nat
  readHeads : Nat → Nat
  ackCounters : Nat → Nat

def Shared.init {Item : Type} : Shared Item where
  data := fun _ => none
  writeHead := 0
  writtenHead := 0
  readHead := 0
  readHeads := fun _ => 0
  ackCounters := fun _ => 0

variable {Item : Type}

/-- A cast to `uint32_t`. -/
def toUint32 (n : Nat) : Nat := n % 2 ^ 32

def packAck (gen count : Nat) : Nat := gen * 2 ^ 32 + count

def ackGen (packed : Nat) : Nat := toUint32 (packed / 2 ^ 32)

def ackCount (packed : Nat) : Nat := toUint32 packed

-- ==== the calls

inductive Mode
  /-- All or nothing. -/
  | tryBulk
  | bestEffort
  deriving DecidableEq, Repr

inductive Call (Item : Type)
  | write (mode : Mode) (items : List Item)
  | read (mode : Mode) (headNumber count : Nat)
  deriving DecidableEq, Repr

/-- The positions that a read has found, for a consumer. -/
structure ReadBatch where
  headNumber : Nat
  myHead : Nat
  count : Nat
  result : Result
  deriving DecidableEq, Repr

def ReadBatch.limit (r : ReadBatch) : Nat := r.myHead + r.count

inductive Frame (Item : Type)
  /-- The claim of a write, about to load `writeHead`. -/
  | loadWriteHead (mode : Mode) (items : List Item)
  /-- About to load `readHead`, and to check. -/
  | checkSpace (mode : Mode) (items : List Item) (claimed : Nat)
  /-- About to CAS `writeHead`, for the first `count` items. -/
  | claimWrite (mode : Mode) (items : List Item) (claimed count : Nat)
  /-- About to call the callback on the slot of the `i`th position. -/
  | writeSlot (b : Batch) (i : Nat) (items : List Item)
  /-- `advanceCompletionHead` of `writtenHead`, about to CAS. -/
  | advanceCompletionHead (b : Batch)
  /-- About to load the consumer's read head. -/
  | loadMyHead (mode : Mode) (headNumber count : Nat)
  /-- About to load `writtenHead`, and to check. -/
  | checkItems (mode : Mode) (headNumber count myHead : Nat)
  | readSlot (r : ReadBatch) (i : Nat)
  /-- About to store the consumer's read head. -/
  | storeMyHead (r : ReadBatch)
  /-- `ackSlot` for the `i`th position, about to load the counter. -/
  | loadAck (r : ReadBatch) (i : Nat)
  /-- About to CAS the counter from `val`. -/
  | casAck (r : ReadBatch) (i val : Nat)
  /-- `tryAdvanceReadHead`, about to load `readHead`. -/
  | loadReadHead (r : ReadBatch) (i : Nat)
  /-- About to load the counter of `current`, and to check. -/
  | checkAck (r : ReadBatch) (i current : Nat)
  /-- About to CAS `readHead` from `current`. -/
  | casReadHead (r : ReadBatch) (i current : Nat)
  deriving DecidableEq, Repr

/-- What a step shows: a slot written or read, for a position, or the
call's return. -/
inductive Event (Item : Type)
  | wrote (pos : Nat) (item : Item)
  | read (headNumber pos : Nat) (item : Option Item)
  | returned (result : Result)
  deriving DecidableEq, Repr

/-- What a step leads to: the state, what the call does next, and what
it shows. -/
abbrev Outcome (Item : Type) :=
  Shared Item × Option (Frame Item) × Option (Event Item)

variable (cfg : Config)

/-- The check of a claim or a read: how many positions, or the call's
return. -/
def grant (mode : Mode) (count available : Nat) : Except Result Nat :=
  match mode with
  | .bestEffort =>
    if min count available = 0 then .error (.transferred 0)
    else .ok (min count available)
  | .tryBulk =>
    if count > available then .error (.done false) else .ok count

def resultOf (count : Nat) : Mode → Result
  | .bestEffort => .transferred count
  | .tryBulk => .done true

/-- The loop over the slots of a write, before position `i`. -/
def writeLoop (b : Batch) (i : Nat) : List Item → Frame Item
  | [] => .advanceCompletionHead b
  | items => .writeSlot b i items

/-- The loop over the slots of a read, before position `i`. -/
def readLoop (r : ReadBatch) (i : Nat) : Frame Item :=
  if i < r.count then .readSlot r i else .storeMyHead r

/-- The loop over the acknowledgements, before position `i`. -/
def ackLoop (s : Shared Item) (r : ReadBatch) (i : Nat) : Outcome Item :=
  if i < r.count then (s, some (.loadAck r i), none)
  else (s, none, some (.returned r.result))

/-- The slot of a position; a remainder by `cap`. -/
def slotOf (pos : Nat) : Except Fault Nat :=
  if cfg.cap = 0 then .error .divideByZero else .ok (pos % cfg.cap)

def expectedGen (pos : Nat) : Nat := toUint32 (pos / cfg.cap)

/-- What `ackSlot` makes of the counter `val`. -/
def acknowledged (pos val : Nat) : Nat :=
  if ackGen val = expectedGen cfg pos then
    packAck (ackGen val) (toUint32 (ackCount val + 1))
  else packAck (expectedGen cfg pos) 1

/-- The read head of a consumer. -/
def headOf (headNumber : Nat) : Except Fault Nat :=
  if headNumber < cfg.consumerCount then .ok headNumber
  else .error .outOfBounds

-- ==== the steps

/-- One step of a call. -/
def frameStep (s : Shared Item) : Frame Item → Except Fault (Outcome Item)
  | .loadWriteHead mode items =>
    .ok (s, some (.checkSpace mode items s.writeHead), none)
  | .checkSpace mode items claimed =>
    match grant mode items.length (usub cfg.cap (usub claimed s.readHead)) with
    | .error r => .ok (s, none, some (.returned r))
    | .ok count => .ok (s, some (.claimWrite mode items claimed count), none)
  | .claimWrite mode items claimed count =>
    if s.writeHead = claimed then
      .ok ({ s with writeHead := claimed + count },
        some (writeLoop ⟨claimed, count, resultOf count mode⟩ 0
          (items.take count)),
        none)
    else .ok (s, some (.loadWriteHead mode items), none)
  | .writeSlot b _ [] => .ok (s, some (.advanceCompletionHead b), none)
  | .writeSlot b i (item :: items) => do
    let slot ← slotOf cfg (b.claimed + i)
    return ({ s with data := update s.data slot (some item) },
      some (writeLoop b (i + 1) items),
      some (.wrote (b.claimed + i) item))
  | .advanceCompletionHead b =>
    if s.writtenHead = b.claimed then
      .ok ({ s with writtenHead := b.limit }, none, some (.returned b.result))
    else if s.writtenHead ≥ b.limit then
      .ok (s, none, some (.returned b.result))
    else .ok (s, some (.advanceCompletionHead b), none)
  | .loadMyHead mode headNumber count => do
    let h ← headOf cfg headNumber
    return (s, some (.checkItems mode headNumber count (s.readHeads h)), none)
  | .checkItems mode headNumber count myHead =>
    match grant mode count (usub s.writtenHead myHead) with
    | .error r => .ok (s, none, some (.returned r))
    | .ok actual =>
      .ok (s, some (readLoop
        ⟨headNumber, myHead, actual, resultOf actual mode⟩ 0), none)
  | .readSlot r i => do
    let slot ← slotOf cfg (r.myHead + i)
    return (s, some (readLoop r (i + 1)),
      some (.read r.headNumber (r.myHead + i) (s.data slot)))
  | .storeMyHead r => do
    let h ← headOf cfg r.headNumber
    return ackLoop
      { s with readHeads := update s.readHeads h r.limit } r 0
  | .loadAck r i => do
    let slot ← slotOf cfg (r.myHead + i)
    return (s, some (.casAck r i (s.ackCounters slot)), none)
  | .casAck r i val => do
    let slot ← slotOf cfg (r.myHead + i)
    if s.ackCounters slot = val then
      let newVal := acknowledged cfg (r.myHead + i) val
      let s :=
        { s with ackCounters := update s.ackCounters slot newVal }
      if ackCount newVal = toUint32 cfg.consumerCount then
        return (s, some (.loadReadHead r i), none)
      else return ackLoop s r (i + 1)
    else return (s, some (.loadAck r i), none)
  | .loadReadHead r i => .ok (s, some (.checkAck r i s.readHead), none)
  | .checkAck r i current => do
    let slot ← slotOf cfg current
    let val := s.ackCounters slot
    if ackGen val ≠ expectedGen cfg current
        ∨ ackCount val ≠ toUint32 cfg.consumerCount then
      return ackLoop s r (i + 1)
    else return (s, some (.casReadHead r i current), none)
  | .casReadHead r i current =>
    if s.readHead = current then
      .ok ({ s with readHead := current + 1 }, some (.loadReadHead r i), none)
    else .ok (s, some (.loadReadHead r i), none)

def start : Call Item → Frame Item
  | .write mode items => .loadWriteHead mode items
  | .read mode headNumber count => .loadMyHead mode headNumber count

/-- A thread that runs no call may start one; one that does takes a
step of it, whatever is chosen. -/
def next (_ : Nat) (s : Shared Item) (l : Option (Frame Item))
    (a : Option (Call Item)) : Except Fault (Outcome Item) :=
  match l with
  | some f => frameStep cfg s f
  | none => .ok (s, a.map start, none)

abbrev Machine (Item : Type) := Pool (Shared Item) (Option (Frame Item))

def Machine.init : Machine Item := ⟨Shared.init, fun _ => none⟩

end CroCOS.BroadcastRingBuffer
