/-
The intrusive doubly linked list with a lock in every node
(core/atomic/AtomicLinkedList.h, AtomicIntrusiveLinkedList).

# Nodes and lists

Nodes and lists are named by numbers, and any number of lists share one
memory: a node carries its two links and its lock wherever it is. Lists
are named in the order of their addresses, which is the order
`lockSentinelPair` takes their locks in. A null link means that the node
is in no list, `sentinel` that it is the first or the last one.

# Threads and steps

A thread is outside the lists or in one call; `Frame` says what the call
does next, and one step is one load, one store, or one operation on a
lock. Three kinds of frames are shared by all calls: waiting for a lock
(`lock`), the stores and unlocks that follow once a call knows what to
do (`todo`), and the answer (`done`). The others are named after the
load they make, and each of them branches on what it finds.

# Reading the model against the source

- `lockWriter` of a held lock waits: the step changes nothing. The lock
  remembers who holds it, for the statements only; nothing reads it.
- The memory orders are left out (steps interleave sequentially), and so
  are the statistics, which are compiled out by default, and the pauses
  between two tries of `popBack`.
- A `continue` is a step back to the first load of the loop.
-/
import CroCOS.Fault
import CroCOS.Lib.Run

namespace CroCOS.AtomicIntrusiveLinkedList

open Function

-- ==== memory

/-- What `previous` and `next` of a node can be. -/
inductive Link
  | null
  | sentinel
  | node (n : Nat)
  deriving DecidableEq, Repr

/-- The three locks of a list, and the lock of a node. -/
inductive Lock
  | head (l : Nat)
  | tail (l : Nat)
  | tailInsert (l : Nat)
  | node (n : Nat)
  deriving DecidableEq, Repr

structure Memory where
  head : Nat → Option Nat
  tail : Nat → Option Nat
  previous : Nat → Link
  next : Nat → Link
  holder : Lock → Option Nat

/-- Nothing is in any list. -/
def Memory.create : Memory :=
  { head := fun _ => none
    tail := fun _ => none
    previous := fun _ => .null
    next := fun _ => .null
    holder := fun _ => none }

/-- A store or an unlock. -/
inductive Act
  | setHead (l : Nat) (v : Option Nat)
  | setTail (l : Nat) (v : Option Nat)
  | setPrevious (n : Nat) (v : Link)
  | setNext (n : Nat) (v : Link)
  | unlock (k : Lock)
  deriving DecidableEq, Repr

def Memory.act (s : Memory) : Act → Memory
  | .setHead l v => { s with head := update s.head l v }
  | .setTail l v => { s with tail := update s.tail l v }
  | .setPrevious n v => { s with previous := update s.previous n v }
  | .setNext n v => { s with next := update s.next n v }
  | .unlock k => { s with holder := update s.holder k none }

def Memory.acquire (s : Memory) (k : Lock) (t : Nat) : Memory :=
  { s with holder := update s.holder k (some t) }

-- ==== calls

inductive Call
  | pushFront (l n : Nat)
  | pushBack (l n : Nat)
  | remove (l n : Nat)
  | popFront (l : Nat)
  | popBack (l : Nat)
  | spliceFront (l source : Nat)
  | spliceBack (l source : Nat)
  deriving DecidableEq, Repr

inductive Answer
  | nothing
  | removed (found : Bool)
  | popped (n : Option Nat)
  deriving DecidableEq, Repr

inductive Frame
  | idle
  | done (r : Answer)
  | lock (k : Lock) (after : Frame)
  | todo (acts : List Act) (after : Frame)
  -- pushFront
  | pushFrontHead (l n : Nat)
  -- pushBack
  | pushBackTail (l n : Nat)
  | pushBackEmpty (l n : Nat)
  | pushBackCheck (l n T : Nat)
  -- remove
  | removePrev (l n : Nat)
  | removeCheck (l n : Nat) (P : Link)
  | removeHead (l n : Nat)
  | removeNext (l n : Nat) (P : Link)
  | removeTail (l n : Nat) (P : Link)
  -- popFront
  | popFrontPeek (l : Nat)
  | popFrontHead (l : Nat)
  | popFrontNext (l H : Nat)
  -- popBack
  | popBackPeek (l : Nat)
  | popBackTail (l : Nat)
  | popBackPrev (l T : Nat)
  | popBackTryPrev (l T P : Nat)
  | popBackTryTail (l T : Nat) (P : Link)
  | popBackCheckTail (l T : Nat) (P : Link)
  | popBackCheckPrev (l T : Nat) (P : Link)
  -- spliceFront and spliceBack
  | spliceHead (front : Bool) (l source : Nat)
  | spliceTail (front : Bool) (l source : Nat) (srcHead : Option Nat)
  | spliceThis (front : Bool) (l source srcHead : Nat) (srcTail : Option Nat)
  deriving DecidableEq, Repr

/-- The lock left of a node of `l`: its predecessor's, or `headLock`. -/
def leftLock (l : Nat) : Link → Lock
  | .node P => .node P
  | _ => .head l

/-- The lock right of a node of `l`: its successor's, or `tailLock`. -/
def rightLock (l : Nat) : Link → Lock
  | .node N => .node N
  | _ => .tail l

/-- `isNode(p) ? p : sentinel()`. -/
def Link.orSentinel : Link → Link
  | .node n => .node n
  | _ => .sentinel

/-- `isNode(p) ? p : nullptr`. -/
def Link.orNull : Link → Option Nat
  | .node n => some n
  | _ => none

/-- The store to what is left of a node: `next` of the predecessor, or
`head`. -/
def setLeft (l : Nat) (P : Link) (N : Link) : Act :=
  match P with
  | .node p => .setNext p N.orSentinel
  | _ => .setHead l N.orNull

/-- The store to what is right of a node: `previous` of the successor,
or `tail`. -/
def setRight (l : Nat) (P : Link) (N : Link) : Act :=
  match N with
  | .node m => .setPrevious m P.orSentinel
  | _ => .setTail l P.orNull

-- ==== the stores of each call

/-- `pushFront` and `pushBack` on an empty list. -/
def linkOnly (l n : Nat) : List Act :=
  [.setPrevious n .sentinel, .setNext n .sentinel, .setHead l (some n),
    .setTail l (some n)]

def linkFront (l n H : Nat) : List Act :=
  [.setPrevious n .sentinel, .setNext n (.node H), .setPrevious H (.node n),
    .setHead l (some n)]

def linkBack (l n T : Nat) : List Act :=
  [.setPrevious n (.node T), .setNext n .sentinel, .setNext T (.node n),
    .setTail l (some n)]

def detach (n : Nat) : List Act := [.setPrevious n .null, .setNext n .null]

/-- `remove`, with every lock held. -/
def unlink (l n : Nat) (P N : Link) : List Act :=
  [setLeft l P N, setRight l P N] ++ detach n
    ++ [.unlock (rightLock l N), .unlock (.node n), .unlock (leftLock l P)]

def headTail (l : Nat) : List Lock := [.head l, .tail l]

def allSentinels (l : Nat) : List Lock := [.head l, .tail l, .tailInsert l]

/-- The locks of `lockSentinelPair`, in the order they are taken. -/
def sentinelPair (front : Bool) (l source : Nat) : List Lock :=
  let own := if front then headTail l else allSentinels l
  if l < source then own ++ headTail source else headTail source ++ own

/-- `unlockSentinelPair`. -/
def unlockSentinels (front : Bool) (l source : Nat) : List Act :=
  (sentinelPair front l source).reverse.map .unlock

/-- The chain of the source before `H`, or after `T`. -/
def spliceLinks (front : Bool) (l x srcHead srcTail : Nat) : List Act :=
  if front then
    [.setNext srcTail (.node x), .setPrevious x (.node srcTail),
      .setHead l (some srcHead)]
  else
    [.setNext x (.node srcHead), .setPrevious srcHead (.node x),
      .setTail l (some srcTail)]

-- ==== the calls

def Frame.lockAll : List Lock → Frame → Frame
  | [], after => after
  | k :: ks, after => .lock k (lockAll ks after)

def Call.enter : Call → Frame
  | .pushFront l n => .lock (.head l) (.pushFrontHead l n)
  | .pushBack l n => .lock (.tailInsert l) (.pushBackTail l n)
  | .remove l n => .removePrev l n
  | .popFront l => .popFrontPeek l
  | .popBack l => .popBackPeek l
  | .spliceFront l source =>
    if l = source then .done .nothing
    else .lockAll (sentinelPair true l source) (.spliceHead true l source)
  | .spliceBack l source =>
    if l = source then .done .nothing
    else .lockAll (sentinelPair false l source) (.spliceHead false l source)

/-- A `tryLockWriter`: taken, or not. -/
def tryLock (s : Memory) (t : Nat) (k : Lock) (taken missed : Frame) :
    Memory × Frame :=
  match s.holder k with
  | none => (s.acquire k t, taken)
  | some _ => (s, missed)

/-- One step of the call that thread `t` is in. -/
def frameStep (t : Nat) (s : Memory) : Frame → Except Fault (Memory × Frame)
  | .idle => .ok (s, .idle)
  | .done r => .ok (s, .done r)
  | .lock k after => .ok (tryLock s t k after (.lock k after))
  | .todo [] after => .ok (s, after)
  | .todo (a :: acts) after => .ok (s.act a, .todo acts after)
  | .pushFrontHead l n =>
    match s.head l with
    | none => .ok (s, .lock (.tail l) (.todo
        (linkOnly l n ++ [.unlock (.tail l), .unlock (.head l)])
        (.done .nothing)))
    | some H => .ok (s, .lock (.node H) (.todo
        (linkFront l n H ++ [.unlock (.node H), .unlock (.head l)])
        (.done .nothing)))
  | .pushBackTail l n =>
    match s.tail l with
    | none => .ok (s, .lock (.head l) (.lock (.tail l) (.pushBackEmpty l n)))
    | some T => .ok (s, .lock (.node T) (.lock (.tail l)
        (.pushBackCheck l n T)))
  | .pushBackEmpty l n =>
    if s.tail l ≠ none then
      .ok (s, .todo [.unlock (.tail l), .unlock (.head l)] (.pushBackTail l n))
    else .ok (s, .todo (linkOnly l n ++ [.unlock (.tail l),
      .unlock (.head l), .unlock (.tailInsert l)]) (.done .nothing))
  | .pushBackCheck l n T =>
    if s.tail l ≠ some T then
      .ok (s, .todo [.unlock (.tail l), .unlock (.node T)] (.pushBackTail l n))
    else .ok (s, .todo (linkBack l n T ++ [.unlock (.tail l),
      .unlock (.node T), .unlock (.tailInsert l)]) (.done .nothing))
  | .removePrev l n =>
    match s.previous n with
    | .null => .ok (s, .done (.removed false))
    | P => .ok (s, .lock (leftLock l P) (.lock (.node n) (.removeCheck l n P)))
  | .removeCheck l n P =>
    if s.previous n ≠ P then
      .ok (s, .todo [.unlock (.node n), .unlock (leftLock l P)]
        (.removePrev l n))
    else if P = .sentinel then .ok (s, .removeHead l n)
    else .ok (s, .removeNext l n P)
  | .removeHead l n =>
    if s.head l ≠ some n then
      .ok (s, .todo [.unlock (.node n), .unlock (.head l)]
        (.done (.removed false)))
    else .ok (s, .removeNext l n .sentinel)
  | .removeNext l n P =>
    match s.next n with
    | .null => .ok (s, .todo [.unlock (.node n), .unlock (leftLock l P)]
        (.done (.removed false)))
    | .node N => .ok (s, .lock (.node N)
        (.todo (unlink l n P (.node N)) (.done (.removed true))))
    | .sentinel => .ok (s, .lock (.tail l) (.removeTail l n P))
  | .removeTail l n P =>
    if s.tail l ≠ some n then
      .ok (s, .todo [.unlock (.tail l), .unlock (.node n),
        .unlock (leftLock l P)] (.done (.removed false)))
    else .ok (s, .todo (unlink l n P .sentinel) (.done (.removed true)))
  | .popFrontPeek l =>
    if s.head l = none then .ok (s, .done (.popped none))
    else .ok (s, .lock (.head l) (.popFrontHead l))
  | .popFrontHead l =>
    match s.head l with
    | none => .ok (s, .todo [.unlock (.head l)] (.done (.popped none)))
    | some H => .ok (s, .lock (.node H) (.popFrontNext l H))
  | .popFrontNext l H =>
    match s.next H with
    | .node N => .ok (s, .todo ([.setPrevious N .sentinel,
        .setHead l (some N)] ++ detach H
        ++ [.unlock (.node H), .unlock (.head l)])
        (.done (.popped (some H))))
    | _ => .ok (s, .lock (.tail l) (.todo ([.setHead l none,
        .setTail l none, .unlock (.tail l)] ++ detach H
        ++ [.unlock (.node H), .unlock (.head l)])
        (.done (.popped (some H)))))
  | .popBackPeek l =>
    if s.tail l = none then .ok (s, .done (.popped none))
    else .ok (s, .lock (.tailInsert l) (.popBackTail l))
  | .popBackTail l =>
    match s.tail l with
    | none => .ok (s, .todo [.unlock (.tailInsert l)] (.done (.popped none)))
    | some T => .ok (s, .popBackPrev l T)
  | .popBackPrev l T =>
    match s.previous T with
    | .null => .ok (s, .popBackTail l)
    | .node P => .ok (s, .popBackTryPrev l T P)
    | .sentinel => .ok (s, .lock (.head l) (.popBackTryTail l T .sentinel))
  | .popBackTryPrev l T P =>
    .ok (tryLock s t (.node P) (.popBackTryTail l T (.node P)) (.popBackTail l))
  | .popBackTryTail l T P =>
    .ok (tryLock s t (.node T) (.lock (.tail l) (.popBackCheckTail l T P))
      (.todo [.unlock (leftLock l P)] (.popBackTail l)))
  | .popBackCheckTail l T P =>
    if s.tail l ≠ some T then
      .ok (s, .todo [.unlock (.tail l), .unlock (.node T),
        .unlock (leftLock l P)] (.popBackTail l))
    else .ok (s, .popBackCheckPrev l T P)
  | .popBackCheckPrev l T P =>
    if s.previous T ≠ P then
      .ok (s, .todo [.unlock (.tail l), .unlock (.node T),
        .unlock (leftLock l P)] (.popBackTail l))
    else .ok (s, .todo ([setLeft l P .sentinel, setRight l P .sentinel]
      ++ detach T ++ [.unlock (.tail l), .unlock (.node T),
        .unlock (leftLock l P), .unlock (.tailInsert l)])
      (.done (.popped (some T))))
  | .spliceHead front l source =>
    .ok (s, .spliceTail front l source (s.head source))
  | .spliceTail front l source srcHead =>
    match srcHead with
    | none => .ok (s, .todo (unlockSentinels front l source) (.done .nothing))
    | some srcHead => .ok (s, .todo
        [.setHead source none, .setTail source none]
        (.spliceThis front l source srcHead (s.tail source)))
  | .spliceThis front l source srcHead srcTail =>
    match if front then s.head l else s.tail l with
    | none => .ok (s, .todo ([.setHead l (some srcHead),
        .setTail l srcTail] ++ unlockSentinels front l source)
        (.done .nothing))
    | some x =>
      match srcTail with
      | none => .error .nullDeref
      | some srcTail => .ok (s, .lock (.node x) (.todo
          (spliceLinks front l x srcHead srcTail
            ++ [.unlock (.node x)] ++ unlockSentinels front l source)
          (.done .nothing)))

-- ==== one call

/-- That many steps of thread `t` with nobody else about. -/
def steps (t : Nat) : Nat → Memory × Frame → Except Fault (Memory × Frame)
  | 0, m => .ok m
  | count + 1, m => do
    let m ← frameStep t m.1 m.2
    steps t count m

/-- More steps than any call takes that is never held up. -/
def stepBound : Nat := 32

/-- A whole call, with nobody else about. -/
def callAlone (s : Memory) (c : Call) : Except Fault (Memory × Answer) := do
  let (s, f) ← steps 0 stepBound (s, c.enter)
  match f with
  | .done r => return (s, r)
  | _ => throw .diverges

end CroCOS.AtomicIntrusiveLinkedList
