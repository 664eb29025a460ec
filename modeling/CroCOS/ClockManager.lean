/-
The clock manager (timing/ClockManager.cpp): the event source it
chooses, and the monotonic time it keeps.

# Reading the model against the source

- An event source is what the choice reads of it. The calibration that
  follows depends on the hardware and changes no choice; the pointers of
  the registration list are the sources themselves.
- `now` is the ticks of the clock source that have passed; its counter
  shows the low bits of them that the mask keeps. A timestamp is kept as
  the tick it was read at: the code sees `read` of it.
- `monoTimens` takes one step for each access of an atomic and one for
  the read of the counter. `Choice.tick` is the hardware.
-/
import CroCOS.Lib.Pool
import CroCOS.Fault

namespace CroCOS.Timing

open Lib

-- ==== event sources

structure EventSource where
  quality : Nat
  isPerCPU : Bool
  deriving DecidableEq, Repr

/-- One turn of the loop of `initializeEventSource`. -/
def considerEventSource (best : Option EventSource) (es : EventSource) :
    Option EventSource :=
  match best with
  | none => some es
  | some best =>
    if es.quality > best.quality || (es.isPerCPU && !best.isPerCPU) then
      some es
    else some best

def registerEventSource (eventSources : List EventSource)
    (source : EventSource) : List EventSource :=
  eventSources ++ [source]

/-- What `bestEventSource` is set to. -/
def initializeEventSource (eventSources : List EventSource) :
    Except Fault EventSource :=
  match eventSources.foldl considerEventSource none with
  | none => .error (.assertion "No event source found")
  | some best => .ok best

-- ==== the clock source

/-- Ticks per nanosecond and nanoseconds per tick, scaled by `2 ^ 64`. -/
structure FrequencyData where
  freq : Nat
  period : Nat
  deriving DecidableEq, Repr

namespace FrequencyData

/-- The private constructor. -/
def create (m : Nat) : Except Fault FrequencyData :=
  if m >>> 1 = 0 then .error .divideByZero
  else .ok { freq := m, period := 2 ^ 127 / (m >>> 1) }

def fromGHz (ghz : Nat) : Except Fault FrequencyData :=
  create ((ghz <<< 64) % 2 ^ 128)

def ticksToNanos (f : FrequencyData) (ticks : Nat) : Nat :=
  (ticks * f.period % 2 ^ 128) >>> 64

end FrequencyData

structure ClockSource where
  calibrationData : FrequencyData
  /-- The width of the counter, at most a word. -/
  width : Nat
  width_le : width ≤ 64

namespace ClockSource

variable (clock : ClockSource)

def mask : Nat := 2 ^ clock.width - 1

/-- What the counter shows after `ticks`. -/
def read (ticks : Nat) : Nat := ticks &&& clock.mask

end ClockSource

-- ==== the monotonic time

structure Clock where
  now : Nat
  lastReadCSTimestamp : Nat
  monotimestamp : Nat
  deriving DecidableEq, Repr

/-- Where a call of `monoTimens` stands. -/
inductive Frame
  | load
  | read (oldTime : Nat)
  | compareExchange (oldTime newTime : Nat)
  | addFetch (newTime delta : Nat)
  deriving DecidableEq, Repr

inductive Choice
  | tick
  /-- The next step of the CPU's call, or the start of one. -/
  | step
  deriving DecidableEq, Repr

/-- One step of a CPU; a call that ends answers the sum. Noted with it
is the tick the call had read the counter at. -/
def next (clock : ClockSource) (_cpu : Nat) (s : Clock)
    (call : Option Frame) (c : Choice) :
    Except Fault (Clock × Option Frame × Option (Nat × Nat)) :=
  match c, call with
  | .tick, call => .ok ({ s with now := s.now + 1 }, call, none)
  | .step, none => .ok (s, some .load, none)
  | .step, some .load =>
    .ok (s, some (.read s.lastReadCSTimestamp), none)
  | .step, some (.read oldTime) =>
    .ok (s, some (.compareExchange oldTime s.now), none)
  | .step, some (.compareExchange oldTime newTime) =>
    if clock.read s.lastReadCSTimestamp = clock.read oldTime then
      .ok ({ s with lastReadCSTimestamp := newTime },
        some (.addFetch newTime ((2 ^ 64 + clock.read newTime
          - clock.read oldTime) % 2 ^ 64 &&& clock.mask)), none)
    else .ok (s, some .load, none)
  | .step, some (.addFetch newTime delta) =>
    let sum := (s.monotimestamp
      + clock.calibrationData.ticksToNanos delta) % 2 ^ 64
    .ok ({ s with monotimestamp := sum }, none, some (newTime, sum))

abbrev Machine := Pool Clock (Option Frame)

/-- The state `initialize` leaves, `start` ticks after power-on. -/
def boot (start : Nat) : Machine :=
  ⟨{ now := start, lastReadCSTimestamp := start, monotimestamp := 0 },
    fun _ => none⟩

end CroCOS.Timing
