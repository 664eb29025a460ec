/-
The reader-writer spinlock (Core/atomic/atomic.cpp, RWSpinlock) and the
two update loops of `Atomic` it is built on (core/atomic.h,
update_and_get and update_and_get_when).

# Reading the model against the source

- `lockstate` is a 64-bit word, changed by compare-and-swap only, but
  for the single `&=` of `release_writer`. A load and a swap are a step
  each; a loop that finds its condition false stays where it is.
- A thread has what it holds beside the frame of its call: how many read
  locks and how many write locks. It gives a read lock back with the
  swap that takes it off the word.
- `tryAcquireReader` keeps the count it loaded, not the word.

# Left out

`metadata`, which is written in debug builds only and never read by what
is modelled here, and the two queries.
-/
import CroCOS.Lib.Pool
import CroCOS.Fault

namespace CroCOS.RWSpinlock

abbrev Word := BitVec 64

def writeLockQueuedBit : Word := 1 <<< 1

def writeLockAcquiredBit : Word := 1 <<< 0

def writeLockMask : Word := writeLockAcquiredBit ||| writeLockQueuedBit

def readLockCountShift : Nat := 2

inductive Call
  | acquireReader
  | tryAcquireReader
  | acquireWriter
  | tryAcquireWriter
  | releaseReader
  | releaseWriter
  deriving DecidableEq, Repr

inductive Frame
  | idle
  -- acquire_reader
  | readerLoad
  | readerSwap (state : Word)
  -- try_acquire_reader
  | tryReaderLoad
  | tryReaderSwap (count : Word)
  -- acquire_writer, the queued bit and then the acquired one
  | queueLoad
  | queueSwap (state : Word)
  | writerLoad
  | writerSwap (state : Word)
  -- try_acquire_writer
  | tryWriterSwap
  -- release_reader
  | releaseLoad
  | releaseSwap (state : Word)
  -- release_writer
  | releaseWriter
  deriving DecidableEq, Repr

/-- A thread: where it is in its call, and the locks it holds. -/
structure Thread where
  frame : Frame
  readers : Nat
  writers : Nat
  deriving DecidableEq, Repr

def Call.enter : Call → Frame
  | .acquireReader => .readerLoad
  | .tryAcquireReader => .tryReaderLoad
  | .acquireWriter => .queueLoad
  | .tryAcquireWriter => .tryWriterSwap
  | .releaseReader => .releaseLoad
  | .releaseWriter => .releaseWriter

-- ==== the new words

def withReader (state : Word) : Word :=
  let count := state >>> readLockCountShift
  (count + 1) <<< readLockCountShift

def withoutReader (state : Word) : Word :=
  let writerState := state &&& writeLockMask
  let readCount := state >>> readLockCountShift
  ((readCount - 1) <<< readLockCountShift) ||| writerState

-- ==== the threads

/-- The end of a call, with its answer. -/
def Thread.leave (l : Thread) (answer : Bool) : Thread × Option Bool :=
  ({ l with frame := .idle }, some answer)

def Thread.goto (l : Thread) (f : Frame) : Thread × Option Bool :=
  ({ l with frame := f }, none)

/-- One step of a thread. An idle one may begin a call. -/
def threadStep (_ : Nat) (s : Word) (l : Thread) (c : Option Call) :
    Except Fault (Word × Thread × Option Bool) :=
  match l.frame with
  | .idle =>
    match c with
    | none => .ok (s, l, none)
    | some call => .ok (s, l.goto call.enter)
  | .readerLoad =>
    if s &&& writeLockMask = 0 then .ok (s, l.goto (.readerSwap s))
    else .ok (s, l, none)
  | .readerSwap state =>
    if s = state then
      .ok (withReader state, { l with readers := l.readers + 1 }.leave true)
    else .ok (s, l.goto .readerLoad)
  | .tryReaderLoad =>
    .ok (s, l.goto (.tryReaderSwap (s >>> readLockCountShift)))
  | .tryReaderSwap count =>
    if s = count <<< readLockCountShift then
      .ok ((count + 1) <<< readLockCountShift,
        { l with readers := l.readers + 1 }.leave true)
    else .ok (s, l.leave false)
  | .queueLoad =>
    if s &&& writeLockQueuedBit = 0 then .ok (s, l.goto (.queueSwap s))
    else .ok (s, l, none)
  | .queueSwap state =>
    if s = state then
      .ok (state ||| writeLockQueuedBit, l.goto .writerLoad)
    else .ok (s, l.goto .queueLoad)
  | .writerLoad =>
    if s = writeLockQueuedBit then .ok (s, l.goto (.writerSwap s))
    else .ok (s, l, none)
  | .writerSwap state =>
    if s = state then
      .ok (writeLockAcquiredBit, { l with writers := l.writers + 1 }.leave true)
    else .ok (s, l.goto .writerLoad)
  | .tryWriterSwap =>
    if s = 0 then
      .ok (1, { l with writers := l.writers + 1 }.leave true)
    else .ok (s, l.leave false)
  | .releaseLoad => .ok (s, l.goto (.releaseSwap s))
  | .releaseSwap state =>
    if s = state then
      .ok (withoutReader state, { l with readers := l.readers - 1 }.leave true)
    else .ok (s, l.goto .releaseLoad)
  | .releaseWriter =>
    .ok (s &&& ~~~writeLockAcquiredBit,
      { l with writers := l.writers - 1 }.leave true)

abbrev Machine := Lib.Pool Word Thread

def machineStep : Machine → Nat × Option Call →
    Except Fault (Machine × Option Bool) :=
  Lib.Pool.step threadStep

/-- A new lock. -/
def Machine.create : Machine :=
  { shared := 0
    own := fun _ => ⟨.idle, 0, 0⟩ }

end CroCOS.RWSpinlock
