/-
The bit pool used by several threads at once (atomic/AtomicBitPool.cpp):
the calls of `AtomicBitPool`, cut at their atomic accesses.

# Reading the model against the source

- A step is one atomic access to an entry: a load or a fetch-and-modify of
  its bitmap, or a fetch-and-add of its count. `Frame` is the access a
  thread makes next.
- `incrementCount` and `decrementCount` are two accesses, the count and
  then, if it changed sides of zero, the hint bit in the parent's word.
  `After` is what their caller does with the `CountResult`.
- What a thread does between two accesses touches nothing shared, and
  belongs to the access before it: `resume` and `getAnyLoop` go on to the
  next access or to the call's answer.
- The layout, the index arithmetic, `doRotation` and `decrementedAt` are
  those of the sequential model. `getAny`'s loop needs no fuel here.
-/
import CroCOS.AtomicBitPool
import CroCOS.Lib.Pool

namespace CroCOS.AtomicBitPool.Threads

open Lib

/-- The local variables of a `getAny`. -/
structure Descent where
  threadId : BitVec 64
  maxRetries : Nat
  retryCount : Nat
  level : Nat
  entryIndex : Nat
  decrementedAt : Nat → Option Nat

/-- What a call does after a count update. -/
inductive After
  /-- The loop of `add`, at level `k`. -/
  | addLoop (absoluteIndex k : Nat)
  /-- Phase 1 of `remove`, at level `k`. -/
  | removeLoop (absoluteIndex k : Nat) (madeEmpty : Bool)
  /-- A back-out loop of `remove`, at level `j`. -/
  | restoreCounts (absoluteIndex j : Nat)
  /-- `backout`, at level `k`, on the way to a return. -/
  | backout (decrementedAt : Nat → Option Nat) (k : Nat) (result : GetResult)
  /-- The decrement that led to an empty word is undone. -/
  | backUp (d : Descent)
  /-- The count of the chosen child is decremented. -/
  | tryChild (d : Descent) (childEntry : Nat)
  /-- The child's count was not positive, and is put back. -/
  | retry (d : Descent)

/-- The atomic access a thread makes next. -/
inductive Frame
  /-- `add`, on the leaf word. -/
  | fetchOr (absoluteIndex : Nat)
  | fetchAdd (entryIndex level : Nat) (after : After)
  | fetchSub (entryIndex level : Nat) (after : After)
  /-- The hint bit of an entry whose count has left or reached zero. -/
  | fetchXor (entryIndex level : Nat) (up : Bool) (newCount : Int)
      (after : After)
  /-- `remove`, on the leaf word. -/
  | fetchAnd (absoluteIndex : Nat) (madeEmpty : Bool)
  /-- `getAny`, at the word of its level. -/
  | load (d : Descent)
  /-- `getAny`, at a bit of its leaf word. -/
  | claim (d : Descent) (actualBit : Nat)

/-- What a step shows. `inserted` and `erased` are the accesses by which
`add` and `remove` change the set; the one of `getAny` is its return. -/
inductive Event
  | called (call : Call)
  | inserted (absoluteIndex : Nat)
  | erased (absoluteIndex : Nat)
  | returned (answer : Answer)
  deriving DecidableEq, Repr

/-- The next access, or the answer. -/
abbrev Next := Frame ⊕ Answer

variable (p : AtomicBitPool)

-- ==== between two

/-- The back-out of `remove`, from level `j` up. -/
def restoreFrom (absoluteIndex j : Nat) : Next :=
  if j < p.levelCount - 1 then
    .inl (.fetchAdd (p.entryIndexForLevel absoluteIndex j) j
      (.restoreCounts absoluteIndex j))
  else .inr (.removed .notPresent)

/-- `backout`: `n` levels from `k` up. -/
def backoutFrom (decrementedAt : Nat → Option Nat) (result : GetResult) :
    Nat → Nat → Next
  | 0, _ => .inr (.got result)
  | n + 1, k =>
    match decrementedAt k with
    | none => backoutFrom decrementedAt result n (k + 1)
    | some entry =>
      .inl (.fetchAdd entry k (.backout decrementedAt k result))

/-- The head of `getAny`'s loop. -/
def getAnyLoop (d : Descent) : Next :=
  if d.maxRetries < d.retryCount then
    backoutFrom d.decrementedAt .contended p.levelCount 0
  else .inl (.load d)

/-- `level++`, to the parent of the entry. -/
def toParent (d : Descent) : Next :=
  getAnyLoop p { d with
    level := d.level + 1
    entryIndex := p.parentEntryIndex d.entryIndex d.level
    retryCount := d.retryCount + 1 }

/-- The caller goes on with the result of a count update. -/
def resume : After → CountResult → Except Fault Next
  | .addLoop i k, cr =>
    if k = p.levelCount - 2 then
      .ok (.inr (.added (if cr.toggledTopLevel && cr.poolTransitioned then
        .addedToEmpty else .addedToNonempty)))
    else
      .ok (.inl (.fetchAdd (p.entryIndexForLevel i (k + 1)) (k + 1)
        (.addLoop i (k + 1))))
  | .removeLoop i k madeEmpty, cr =>
    if cr.newCount < 0 then .ok (restoreFrom p i k)
    else
      let madeEmpty :=
        if k = p.levelCount - 2 ∧ cr.toggledTopLevel then
          cr.poolTransitioned else madeEmpty
      match k with
      | 0 => .ok (.inl (.fetchAnd i madeEmpty))
      | k + 1 =>
        .ok (.inl (.fetchSub (p.entryIndexForLevel i k) k
          (.removeLoop i k madeEmpty)))
  | .restoreCounts i j, _ => .ok (restoreFrom p i (j + 1))
  | .backout decrementedAt k result, _ =>
    .ok (backoutFrom decrementedAt result (p.levelCount - (k + 1)) (k + 1))
  | .backUp d, _ =>
    match setDecrementedAt d.decrementedAt d.level none with
    | .error e => .error e
    | .ok decrementedAt =>
      .ok (toParent p { d with decrementedAt := decrementedAt })
  | .tryChild d childEntry, cr =>
    if cr.newCount < 0 then
      .ok (.inl (.fetchAdd childEntry (d.level - 1) (.retry d)))
    else
      match setDecrementedAt d.decrementedAt (d.level - 1)
          (some childEntry) with
      | .error e => .error e
      | .ok decrementedAt =>
        .ok (getAnyLoop p { d with
          level := d.level - 1
          entryIndex := childEntry
          decrementedAt := decrementedAt })
  | .retry d, _ =>
    .ok (getAnyLoop p { d with retryCount := d.retryCount + 1 })

-- ==== the accesses

/-- What an access leads to: the pool, what is next, and the change to
the set, if it is one. -/
abbrev Outcome := AtomicBitPool × Next × List Event

/-- The first access of `incrementCount` or `decrementCount`; `crossing`
is the count that asks for the second. -/
def countStep (entryIndex level : Nat) (delta crossing : Int) (up : Bool)
    (after : After) : Except Fault Outcome := do
  let (p, oldCount) ← p.fetchCount entryIndex level delta
  if oldCount = crossing ∧ level < p.levelCount - 1 then
    return (p, .inl (.fetchXor entryIndex level up (oldCount + delta) after),
      [])
  else
    let next ← resume p after ⟨oldCount + delta, false, false⟩
    return (p, next, [])

/-- One access of a call. -/
def frameStep : Frame → Except Fault Outcome
  | .fetchOr i => do
    let mask := 1#64 <<< p.bitIndexForLevel i 0
    let (p, old) ← p.fetchBitmap (p.entryIndexForLevel i 0) 0 (· ||| mask)
    if old &&& mask ≠ 0#64 then
      return (p, .inr (.added .alreadyPresent), [])
    else if p.levelCount = 1 then
      return (p, .inr (.added
        (if old = 0#64 then .addedToEmpty else .addedToNonempty)),
        [.inserted i])
    else
      return (p, .inl (.fetchAdd (p.entryIndexForLevel i 0) 0
        (.addLoop i 0)), [.inserted i])
  | .fetchAdd entryIndex level after =>
    countStep p entryIndex level 1 0 true after
  | .fetchSub entryIndex level after =>
    countStep p entryIndex level (-1) 1 false after
  | .fetchXor entryIndex level up newCount after => do
    let bit := 1#64 <<< p.bitIndexInParent entryIndex level
    let (p, oldBitmap) ← p.fetchBitmap
      (p.parentEntryIndex entryIndex level) (level + 1) (· ^^^ bit)
    let next ← resume p after (if level = p.levelCount - 2 then
        ⟨newCount, true, (if up then oldBitmap else oldBitmap ^^^ bit) == 0#64⟩
      else ⟨newCount, false, false⟩)
    return (p, next, [])
  | .fetchAnd i madeEmpty => do
    let mask := 1#64 <<< p.bitIndexForLevel i 0
    let (p, old) ← p.fetchBitmap (p.entryIndexForLevel i 0) 0 (· &&& ~~~mask)
    if old &&& mask = 0#64 then
      if p.levelCount = 1 then return (p, .inr (.removed .notPresent), [])
      else return (p, restoreFrom p i 0, [])
    else
      let madeEmpty :=
        if p.levelCount = 1 then old &&& ~~~mask == 0#64 else madeEmpty
      return (p, .inr (.removed (if madeEmpty then .removedAndMadeEmpty
        else .removedAndStayedNonempty)), [.erased i])
  | .load d => do
    let entry ← p.load d.entryIndex d.level
    match d.level with
    | 0 =>
      if entry.bitmap = 0#64 ∧ p.levelCount = 1 then
        return (p, backoutFrom d.decrementedAt .empty p.levelCount 0, [])
      else
        return (p, .inl (.claim d
          (doRotation d.threadId d.retryCount entry.bitmap)), [])
    | below + 1 =>
      if entry.bitmap = 0#64 then
        if below + 1 = p.levelCount - 1 then
          return (p, backoutFrom d.decrementedAt .empty p.levelCount 0, [])
        else
          -- undo the decrement that led here, and back up
          match d.decrementedAt (below + 1) with
          | none => return (p, toParent p d, [])
          | some undo =>
            return (p, .inl (.fetchAdd undo (below + 1) (.backUp d)), [])
      else
        let actualBit := doRotation d.threadId d.retryCount entry.bitmap
        let childEntry :=
          p.childEntryIndex d.entryIndex actualBit (below + 1)
        return (p, .inl (.fetchSub childEntry below
          (.tryChild d childEntry)), [])
  | .claim d actualBit => do
    let mask := 1#64 <<< actualBit
    let (p, old) ← p.fetchBitmap d.entryIndex 0 (· &&& ~~~mask)
    if old &&& mask ≠ 0#64 then
      return (p, .inr (.got (.success (d.entryIndex <<< 6 ||| actualBit))), [])
    else
      return (p, getAnyLoop p { d with retryCount := d.retryCount + 1 }, [])

-- ==== the threads

/-- The first access of a call. -/
def start : Call → Except Fault Frame
  | .add i => .ok (.fetchOr i)
  | .remove i =>
    if p.levelCount = 1 then .ok (.fetchAnd i false)
    else
      let k := p.levelCount - 2
      .ok (.fetchSub (p.entryIndexForLevel i k) k (.removeLoop i k false))
  | .getAny threadId maxRetries =>
    match clearDecrementedAt p.levelCount with
    | .error e => .error e
    | .ok decrementedAt =>
      .ok (.load ⟨threadId, maxRetries, 0, p.levelCount - 1, 0, decrementedAt⟩)

/-- The frame a thread is left with. -/
def frameOf : Next → Option Frame
  | .inl f => some f
  | .inr _ => none

/-- What a call that is over shows. -/
def returnOf : Next → List Event
  | .inl _ => []
  | .inr answer => [.returned answer]

/-- A thread that runs no call may start one; one that does makes its
next access, whatever is chosen. -/
def next (_ : Nat) (p : AtomicBitPool) (l : Option Frame) (a : Option Call) :
    Except Fault (AtomicBitPool × Option Frame × List Event) :=
  match l, a with
  | some f, _ => do
    let (p, n, events) ← frameStep p f
    return (p, frameOf n, events ++ returnOf n)
  | none, some call => do
    let f ← start p call
    return (p, some f, [.called call])
  | none, none => .ok (p, none, [])

abbrev Machine := Pool AtomicBitPool (Option Frame)

/-- The pool as constructed, and nobody running a call. -/
def Machine.create (cap stride : Nat) : Machine :=
  ⟨AtomicBitPool.create cap stride, fun _ => none⟩

/-- Nobody runs a call. -/
def Quiet (m : Machine) : Prop := ∀ t, m.own t = none

end CroCOS.AtomicBitPool.Threads
