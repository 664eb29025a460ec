/-
Epoch-based reclamation (core/rcu/EpochDomain.h): one grace-period
universe with its reader slots, retire bags and completion primitives.

# Threads and steps

One thread drives one slot. Its own state is a stack of `Frame`s, the
engine calls in progress with their locals; each frame names what the
call does next, and one step of a thread is one atomic access of its
top frame (`frameStep`) together with the plain owner-only updates
next to it. A deleter runs on the thread that popped the node: while
it does, the frame `drainDeleter` is on top and the thread is in
client code again, so its calls stack above the drain. `next` is the
thread's step: a call of the client (`Choice.call`, when the caller's
obligations `legal` allow it), the next step of the engine
(`Choice.step`), or the return of a deleter (`Choice.finish`).

# Words

State and bag words are packed as in the source, over unbounded
numbers: below `kMaxEpoch` the shifts lose no bit.

# Left out

`drainAllQuiescent` and its `teardownActive` flag (single-threaded
teardown), the hooks, the memory orders (steps interleave
sequentially) and the counts the calls return.
-/
import CroCOS.Lib.Pool
import CroCOS.Fault

namespace CroCOS.Core.Rcu

open Lib Function

-- ==== constants

def kBagCount : Nat := 4

def kRetireAdvanceThreshold : Nat := 64

def kMaxEpoch : Nat := 2 ^ 62 - 1

-- ==== the slot's state word

def kInactive : Nat := 0

def makeActive (epoch : Nat) : Nat := epoch <<< 1 ||| 1

def isActive (stateWord : Nat) : Bool := stateWord &&& 1 != 0

def epochOf (stateWord : Nat) : Nat := stateWord >>> 1

-- ==== the bag words

inductive BagState
  | free
  | opened
  | sealed
  | claimed
  deriving DecidableEq, Repr

def BagState.code : BagState → Nat
  | .free => 0
  | .opened => 1
  | .sealed => 2
  | .claimed => 3

def BagState.decode : Nat → BagState
  | 0 => .free
  | 1 => .opened
  | 2 => .sealed
  | _ => .claimed

def packBag (tag : Nat) (state : BagState) : Nat := tag <<< 2 ||| state.code

def bagTagOf (tagState : Nat) : Nat := tagState >>> 2

def bagStateOf (tagState : Nat) : BagState := .decode (tagState &&& 3)

/-- No longer pushed to and not yet free again. -/
def BagState.shut : BagState → Bool
  | .sealed => true
  | .claimed => true
  | _ => false

-- ==== the state

/-- A `RetireHead`, from its retire to its deleter. An address that is
retired again after its deleter ran is another node. -/
abbrev Node := Nat

/-- The slot that owns a bag, and its index there. -/
abbrev BagId := Nat × Nat

/-- The domain and its slots, one field of `ReaderSlot` at a time. -/
structure EpochDomain where
  slotCount : Nat
  drainBatchBound : Nat
  globalEpoch : Nat
  state : Nat → Nat
  nesting : Nat → Nat
  openBagIndex : Nat → Nat
  retireCount : Nat → Nat
  inDrain : Nat → Bool
  bagHead : BagId → Option Node
  bagTagState : BagId → Nat
  next : Node → Option Node

/-- A frame of a thread's stack, by its position from the bottom. -/
structure Agent where
  thread : Nat
  depth : Nat
  deriving DecidableEq, Repr

/-- An epoch load and the sections that were active at it: slot and
how many sections the slot had entered. -/
structure Observation where
  epoch : Nat
  sections : List (Nat × Nat)
  deriving DecidableEq, Repr

/-- Where a node is between its retire and the return of its deleter. -/
inductive Place
  /-- Not retired. -/
  | fresh
  /-- Retired, not yet pushed. -/
  | pushing (agent : Agent)
  | queued (bag : BagId)
  /-- Popped from `bag`; its deleter has not returned. -/
  | running (bag : BagId) (agent : Agent)
  | returned
  deriving DecidableEq, Repr

/-- What happened so far, as far as the theorems speak about it. No step
of the engine depends on it. -/
structure History where
  /-- Sections each slot has entered. -/
  entries : Nat → Nat
  /-- Every epoch load of a retire or a synchronize. -/
  observed : List Observation
  /-- The epoch load of the node's retire. -/
  seen : Node → Observation
  /-- The slot the node was retired on. -/
  slotOf : Node → Nat
  retired : List Node
  place : Node → Place
  /-- The nodes of each bag, head first. -/
  bag : BagId → List Node
  /-- Who won the claim of each bag. -/
  holder : BagId → Option Agent
  /-- The bag a rotation has opened ahead of sealing the old one. -/
  rotating : Nat → Option Nat
  /-- The nodes the slot's barrier answers for, taken at its entry. -/
  scope : Nat → List Node
  /-- How often the node's deleter was started. -/
  starts : Node → Nat

structure Shared extends EpochDomain, History

/-- The domain as constructed over zeroed slots. -/
def Shared.init (slotCount drainBatchBound : Nat) : Shared where
  slotCount := slotCount
  drainBatchBound := drainBatchBound
  globalEpoch := 0
  state := fun _ => kInactive
  nesting := fun _ => 0
  openBagIndex := fun _ => 0
  retireCount := fun _ => 0
  inDrain := fun _ => false
  bagHead := fun _ => none
  bagTagState := fun _ => 0
  next := fun _ => none
  entries := fun _ => 0
  observed := []
  seen := fun _ => ⟨0, []⟩
  slotOf := fun _ => 0
  retired := []
  place := fun _ => .fresh
  bag := fun _ => []
  holder := fun _ => none
  rotating := fun _ => none
  scope := fun _ => []
  starts := fun _ => 0

namespace Shared

variable (d : Shared)

/-- The sections active now. -/
def activeSections : List (Nat × Nat) :=
  ((List.range d.slotCount).filter fun s => isActive (d.state s)).map
    fun s => (s, d.entries s)

/-- An epoch load, as the history keeps it. -/
def observe : Observation := ⟨d.globalEpoch, d.activeSections⟩

/-- A section that was active at the epoch load `o` on slot `s` has not
been left. -/
def Live (o : Observation) (s : Nat) : Prop :=
  isActive (d.state s) = true ∧ (s, d.entries s) ∈ o.sections

/-- The bag a retired node belongs to until its deleter has returned. -/
def home (n : Node) : Option BagId :=
  match d.place n with
  | .queued o => some o
  | .running o _ => some o
  | _ => none

/-- The nodes a barrier of slot `t` entered now answers for: those
retired on the slot, and those of every sealed or claimed bag. -/
def barrierScope (t : Nat) : List Node :=
  d.retired.filter fun n =>
    d.slotOf n == t
      || (d.home n).any fun o => (bagStateOf (d.bagTagState o)).shut

end Shared

-- ==== the frames

/-- The loop locals of a caller of `claimAndDrain`: the epoch it has
loaded, the bags still to visit and the deleters it may still run. -/
structure Sweep where
  epoch : Nat
  todo : List BagId
  budget : Nat
  deriving DecidableEq, Repr

/-- Who rotates the open bag, and so what follows. -/
inductive After
  | push (n : Node)
  | barrier
  deriving DecidableEq, Repr

/-- Who looks for a free bag. -/
inductive Search
  /-- `prepareOpenBag`, for node `n` retired at epoch `e`, open bag `i`
  tagged `t`. -/
  | prepare (n : Node) (e : Nat) (allowManufacture : Bool) (i t : Nat)
  /-- `sealAndRotateOwnBag`, open bag `i` tagged `t`. -/
  | rotate (i t : Nat)
  /-- `sealAndRotateOwnBag`, after it has tried to make one. -/
  | again
  deriving DecidableEq, Repr

/-- What a call does next, with the locals it still needs. -/
inductive Frame
  /-- `readLock`, about to store the activation. -/
  | readLockStore (e : Nat)
  /-- `prepareOpenBag`, top of its loop. -/
  | prepareLoad (n : Node) (e : Nat) (allowManufacture : Bool)
  /-- `prepareOpenBag`, about to store bag `i` open at `e`. -/
  | prepareStore (n : Node) (e i : Nat)
  /-- `findFreeBag`, about to load bag `b`. -/
  | findFree (s : Search) (b : Nat)
  /-- A rotation from bag `i` tagged `t` to bag `j`: about to open `j`. -/
  | rotateOpen (c : After) (e i t j : Nat)
  /-- The same rotation, about to seal `i`. -/
  | rotateSeal (c : After) (e i t j : Nat)
  /-- `pushNode` to bag `i`, whose word is `v`: about to load the head. -/
  | pushLoad (n : Node) (i v : Nat)
  | pushCas (n : Node) (i v : Nat) (old : Option Node)
  /-- `retire` after the push, about to load the bag's word again. -/
  | retireCheck (i v : Nat)
  | advanceLoad
  | advanceOwn (e : Nat)
  /-- `tryAdvance`, about to scan slot `i`. -/
  | advanceScan (e i : Nat)
  | advanceCas (e : Nat)
  | sweepLoad
  /-- `manufactureFreeBag`, `inDrain` is set. -/
  | manufactureLoad
  /-- `claimAndDrain` of the next bag, about to load its word. -/
  | claimLoad (w : Sweep)
  | claimCas (o : BagId) (v : Nat) (w : Sweep)
  /-- `drainClaimedBag`, about to load the head. -/
  | drainLoad (o : BagId) (tag : Nat) (w : Sweep)
  /-- `drainClaimedBag`, top of its loop. -/
  | drainPop (o : BagId) (tag : Nat) (n : Option Node) (w : Sweep)
  /-- The node is popped, its deleter not started. -/
  | drainRun (o : BagId) (tag : Nat) (n : Node) (next : Option Node) (w : Sweep)
  /-- The deleter of `n` is running. -/
  | drainDeleter (o : BagId) (tag : Nat) (n : Node) (next : Option Node)
      (w : Sweep)
  | drainCheck (o : BagId) (tag : Nat) (w : Sweep)
  /-- About to store the claimed bag's last state. -/
  | drainRelease (o : BagId) (tag : Nat) (st : BagState) (w : Sweep)
  | syncLoop (seen : Observation)
  /-- `sealAndRotateOwnBag`, top of its loop. -/
  | sealLoad
  | sealHead (i t : Nat)
  /-- About to load the epoch the new bag `j` is opened at. -/
  | sealEpoch (i t j : Nat)
  | barrierLoad
  | barrierLoop (e0 : Nat)
  /-- `anyPendingBagAtOrBefore`, about to load the next bag's word. -/
  | pendingTag (e0 : Nat) (todo : List BagId)
  | pendingHead (e0 : Nat) (o : BagId) (todo : List BagId)
  deriving DecidableEq, Repr

/-- The bags of one slot, in order. -/
def ownBags (slot : Nat) : List BagId :=
  (List.range kBagCount).map fun b => (slot, b)

/-- The order `sweepExpired` visits the bags in: own slot first. -/
def sweepOrder (slotCount slot : Nat) : List BagId :=
  (List.range slotCount).flatMap fun k => ownBags ((slot + k) % slotCount)

/-- The order `anyPendingBagAtOrBefore` visits the bags in. -/
def allBags (slotCount : Nat) : List BagId :=
  (List.range slotCount).flatMap ownBags

-- ==== steps of a call

/-- Where a found free bag `j` leads. -/
def Search.found (j : Nat) : Search → List Frame
  | .prepare n e _ i t => [.rotateOpen (.push n) e i t j]
  | .rotate i t => [.sealEpoch i t j]
  | .again => [.sealLoad]

/-- Where it leads that no bag is free. `manufactureFreeBag` starts by
setting `inDrain`. -/
def Search.missed (d : Shared) (slot : Nat) : Search → Shared × List Frame
  | .prepare n e allow i _ =>
    if allow && !d.inDrain slot then
      ({ d with inDrain := update d.inDrain slot true },
        [.manufactureLoad, .prepareLoad n e false])
    else (d, [.prepareStore n e i])
  | .rotate _ _ =>
    if !d.inDrain slot then
      ({ d with inDrain := update d.inDrain slot true },
        [.manufactureLoad, .findFree .again 0])
    else (d, [.findFree .again 0])
  | .again => (d, [.advanceLoad, .sealLoad])

/-- What follows a rotation to bag `j`, opened at `e`. -/
def After.frames (e j : Nat) : After → List Frame
  | .push n => [.pushLoad n j (packBag e .opened)]
  | .barrier => [.barrierLoad]

/-- One step of the top frame of thread `a.thread`, at depth
`a.depth`: the shared state it leaves, and the frames that take its
place. -/
def frameStep (a : Agent) (d : Shared) :
    Frame → Except Fault (Shared × List Frame)
  | .readLockStore e =>
    .ok ({ d with
      state := update d.state a.thread (makeActive e)
      entries := update d.entries a.thread (d.entries a.thread + 1) }, [])
  | .prepareLoad n e allow =>
    let i := d.openBagIndex a.thread
    let v := d.bagTagState (a.thread, i)
    if bagStateOf v = .free then .ok (d, [.prepareStore n e i])
    else if bagStateOf v ≠ .opened then
      .error (.assertion
        "rcu: openBagIndex must designate a Free or Open bag")
    else if e ≤ bagTagOf v then .ok (d, [.pushLoad n i v])
    else .ok (d, [.findFree (.prepare n e allow i (bagTagOf v)) 0])
  | .prepareStore n e i =>
    .ok ({ d with
      bagTagState := update d.bagTagState (a.thread, i)
        (packBag e .opened) }, [.pushLoad n i (packBag e .opened)])
  | .findFree s b =>
    if bagStateOf (d.bagTagState (a.thread, b)) = .free then
      .ok (d, s.found b)
    else if b + 1 < kBagCount then .ok (d, [.findFree s (b + 1)])
    else .ok (s.missed d a.thread)
  | .rotateOpen c e i t j =>
    .ok ({ d with
      bagTagState := update d.bagTagState (a.thread, j) (packBag e .opened)
      rotating := update d.rotating a.thread (some j) },
      [.rotateSeal c e i t j])
  | .rotateSeal c e i t j =>
    .ok ({ d with
      bagTagState := update d.bagTagState (a.thread, i) (packBag t .sealed)
      openBagIndex := update d.openBagIndex a.thread j
      rotating := update d.rotating a.thread none },
      c.frames e j)
  | .pushLoad n i v =>
    .ok (d, [.pushCas n i v (d.bagHead (a.thread, i))])
  | .pushCas n i v old =>
    let d := { d with next := update d.next n old }
    if d.bagHead (a.thread, i) = old then
      .ok ({ d with
        bagHead := update d.bagHead (a.thread, i) (some n)
        bag := update d.bag (a.thread, i) (n :: d.bag (a.thread, i))
        place := update d.place n (.queued (a.thread, i)) },
        [.retireCheck i v])
    else .ok (d, [.pushCas n i v (d.bagHead (a.thread, i))])
  | .retireCheck i v =>
    if d.bagTagState (a.thread, i) ≠ v then
      .error (.assertion
        "rcu: open bag changed identity across a push (owner reentrancy)")
    else if kRetireAdvanceThreshold ≤ d.retireCount a.thread + 1 then
      .ok ({ d with
        retireCount := update d.retireCount a.thread 0 },
        [.advanceLoad])
    else
      .ok ({ d with
        retireCount := update d.retireCount a.thread
          (d.retireCount a.thread + 1) }, [])
  | .advanceLoad =>
    if d.inDrain a.thread then .ok (d, [])
    else .ok (d, [.advanceOwn d.globalEpoch])
  | .advanceOwn e =>
    let own := d.state a.thread
    if isActive own && epochOf own != e then .ok (d, [.sweepLoad])
    else .ok (d, [.advanceScan e 0])
  | .advanceScan e i =>
    let w := d.state i
    if isActive w && epochOf w != e then .ok (d, [.sweepLoad])
    else if i + 1 < d.slotCount then .ok (d, [.advanceScan e (i + 1)])
    else .ok (d, [.advanceCas e])
  | .advanceCas e =>
    if d.globalEpoch = e then
      .ok ({ d with globalEpoch := e + 1 }, [.sweepLoad])
    else .ok (d, [.sweepLoad])
  | .sweepLoad =>
    if d.inDrain a.thread then .ok (d, [])
    else
      .ok ({ d with inDrain := update d.inDrain a.thread true },
        [.claimLoad ⟨d.globalEpoch, sweepOrder d.slotCount a.thread,
          d.drainBatchBound⟩])
  | .manufactureLoad =>
    .ok (d, [.claimLoad ⟨d.globalEpoch, ownBags a.thread, d.drainBatchBound⟩])
  | .claimLoad w =>
    match w.todo with
    | [] =>
      .ok ({ d with
        inDrain := update d.inDrain a.thread false }, [])
    | o :: rest =>
      if w.budget = 0 then
        .ok ({ d with
          inDrain := update d.inDrain a.thread false }, [])
      else
        let v := d.bagTagState o
        if bagStateOf v = .sealed ∧ bagTagOf v + 2 ≤ w.epoch then
          .ok (d, [.claimCas o v { w with todo := rest }])
        else .ok (d, [.claimLoad { w with todo := rest }])
  | .claimCas o v w =>
    if d.bagTagState o = v then
      .ok ({ d with
        bagTagState := update d.bagTagState o (packBag (bagTagOf v) .claimed)
        holder := update d.holder o (some a) },
        [.drainLoad o (bagTagOf v) w])
    else .ok (d, [.claimLoad w])
  | .drainLoad o tag w => .ok (d, [.drainPop o tag (d.bagHead o) w])
  | .drainPop o tag none w => .ok (d, [.drainCheck o tag w])
  | .drainPop o tag (some n) w =>
    if w.budget = 0 then .ok (d, [.drainCheck o tag w])
    else
      .ok ({ d with
        bagHead := update d.bagHead o (d.next n)
        next := update d.next n none
        bag := update d.bag o (d.bag o).tail
        place := update d.place n (.running o a) },
        [.drainRun o tag n (d.next n) { w with budget := w.budget - 1 }])
  | .drainRun o tag n nx w =>
    .ok ({ d with starts := update d.starts n (d.starts n + 1) },
      [.drainDeleter o tag n nx w])
  | .drainDeleter o tag n nx w => .ok (d, [.drainDeleter o tag n nx w])
  | .drainCheck o tag w =>
    .ok (d, [.drainRelease o tag
      (if (d.bagHead o).isSome then .sealed else .free) w])
  | .drainRelease o tag st w =>
    .ok ({ d with
      bagTagState := update d.bagTagState o (packBag tag st)
      holder := update d.holder o none }, [.claimLoad w])
  | .syncLoop seen =>
    if d.globalEpoch < seen.epoch + 2 then
      .ok (d, [.advanceLoad, .syncLoop seen])
    else .ok (d, [])
  | .sealLoad =>
    let i := d.openBagIndex a.thread
    let v := d.bagTagState (a.thread, i)
    if bagStateOf v = .free then .ok (d, [.barrierLoad])
    else if bagStateOf v ≠ .opened then
      .error (.assertion
        "rcu: openBagIndex must designate a Free or Open bag")
    else .ok (d, [.sealHead i (bagTagOf v)])
  | .sealHead i t =>
    if (d.bagHead (a.thread, i)).isNone then .ok (d, [.barrierLoad])
    else .ok (d, [.findFree (.rotate i t) 0])
  | .sealEpoch i t j =>
    .ok (d, [.rotateOpen .barrier d.globalEpoch i t j])
  | .barrierLoad => .ok (d, [.barrierLoop d.globalEpoch])
  | .barrierLoop e0 =>
    if d.globalEpoch < e0 + 2 then
      .ok (d, [.advanceLoad, .barrierLoop e0])
    else .ok (d, [.pendingTag e0 (allBags d.slotCount)])
  | .pendingTag _ [] => .ok (d, [])
  | .pendingTag e0 (o :: rest) =>
    let v := d.bagTagState o
    if (bagStateOf v).shut ∧ bagTagOf v ≤ e0 then
      .ok (d, [.pendingHead e0 o rest])
    else .ok (d, [.pendingTag e0 rest])
  | .pendingHead e0 o rest =>
    if (d.bagHead o).isSome then .ok (d, [.advanceLoad, .barrierLoop e0])
    else .ok (d, [.pendingTag e0 rest])

-- ==== the client

/-- A call the client makes on its slot. -/
inductive Op
  | readLock
  | readUnlock
  | retire (n : Node)
  | tryAdvance
  | sweepExpired
  | synchronize
  | barrier
  deriving DecidableEq, Repr

/-- The caller's obligations: balanced sections, each node retired once
and from a section or a deleter, no wait from either. -/
def legal (d : Shared) (t : Nat) : Op → Bool
  | .readUnlock => 0 < d.nesting t
  | .retire n => d.place n == .fresh && (0 < d.nesting t || d.inDrain t)
  | .synchronize => d.nesting t == 0 && !d.inDrain t
  | .barrier => d.nesting t == 0 && !d.inDrain t
  | _ => true

/-- The first step of a call, up to its first atomic access. -/
def callStep (a : Agent) (d : Shared) : Op → Except Fault (Shared × List Frame)
  | .readLock =>
    if d.nesting a.thread ≠ 0 then
      .ok ({ d with
        nesting := update d.nesting a.thread (d.nesting a.thread + 1) }, [])
    else
      .ok ({ d with nesting := update d.nesting a.thread 1 },
        [.readLockStore d.globalEpoch])
  | .readUnlock =>
    if d.nesting a.thread = 0 then
      .error (.assertion "rcu: readUnlock without a matching readLock")
    else if d.nesting a.thread ≠ 1 then
      .ok ({ d with
        nesting := update d.nesting a.thread (d.nesting a.thread - 1) }, [])
    else
      .ok ({ d with
        nesting := update d.nesting a.thread 0
        state := update d.state a.thread kInactive }, [])
  | .retire n =>
    if (d.next n).isSome then
      .error (.assertion
        "rcu: retire of an already-linked RetireHead (double retire)")
    else if d.nesting a.thread = 0 ∧ d.inDrain a.thread = false then
      .error (.assertion
        "rcu: retire outside a read-side section, a drain, or teardown")
    else if kMaxEpoch < d.globalEpoch then
      .error (.assertion "rcu: epoch exceeded its effective width (I9)")
    else
      .ok ({ d with
        observed := d.observe :: d.observed
        seen := update d.seen n d.observe
        slotOf := update d.slotOf n a.thread
        retired := n :: d.retired
        place := update d.place n (.pushing a) },
        [.prepareLoad n d.globalEpoch true])
  | .tryAdvance => .ok (d, [.advanceLoad])
  | .sweepExpired => .ok (d, [.sweepLoad])
  | .synchronize =>
    if d.nesting a.thread ≠ 0 then
      .error (.assertion
        "rcu: synchronize from inside a read-side section on this domain")
    else if d.inDrain a.thread then
      .error (.assertion "rcu: synchronize from deleter context")
    else
      .ok ({ d with observed := d.observe :: d.observed },
        [.syncLoop d.observe])
  | .barrier =>
    if d.nesting a.thread ≠ 0 then
      .error (.assertion
        "rcu: barrier from inside a read-side section on this domain")
    else if d.inDrain a.thread then
      .error (.assertion "rcu: barrier from deleter context")
    else
      .ok ({ d with
        scope := update d.scope a.thread
          (d.barrierScope a.thread) }, [.sealLoad])

/-- Client code is running: outside the engine, or in a deleter. -/
def inClient : List Frame → Bool
  | [] => true
  | .drainDeleter .. :: _ => true
  | _ => false

/-- What a thread does next. -/
inductive Choice
  | call (op : Op)
  | step
  | finish
  deriving DecidableEq, Repr

/-- One step of thread `t`. A choice that does not apply changes
nothing. -/
def next (t : Nat) (d : Shared) (stack : List Frame) (c : Choice) :
    Except Fault (Shared × List Frame × Unit) :=
  if t < d.slotCount then
    match c, stack with
    | .call op, stack =>
      if inClient stack && legal d t op then
        match callStep ⟨t, stack.length⟩ d op with
        | .error e => .error e
        | .ok (d', fs) => .ok (d', fs ++ stack, ())
      else .ok (d, stack, ())
    | .step, f :: rest =>
      match frameStep ⟨t, rest.length⟩ d f with
      | .error e => .error e
      | .ok (d', fs) => .ok (d', fs ++ rest, ())
    | .finish, .drainDeleter o tag n nx w :: rest =>
      .ok ({ d with place := update d.place n .returned },
        .drainPop o tag nx w :: rest, ())
    | _, stack => .ok (d, stack, ())
  else .ok (d, stack, ())

abbrev Machine := Pool Shared (List Frame)

/-- The domain with every thread outside the engine. -/
def boot (slotCount drainBatchBound : Nat) : Machine :=
  ⟨Shared.init slotCount drainBatchBound, fun _ => []⟩

end CroCOS.Core.Rcu
