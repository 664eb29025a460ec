/-
A lock-free stack of chains (core/atomic/TreiberStack.h,
ChainedTreiberStack) and the head encoding that vmsmalloc gives it
(kernel/mm/vmsmalloc.cpp, VmsHeadEncoding).

# What it is for

`ChainStack` is the purpose: an atomic stack whose elements are chains
of nodes. `push` puts a node on the top chain, or starts a new chain
when the top one is long enough; `pushChain` puts a chain on top;
`pop` takes the whole top chain off. `Event.apply` is one such
operation with the answer the caller got.

# Threads and steps

A thread is outside the stack or in one call (`Frame`, which names
what the call does next); one step is one load, one field read, one
field write or one compare-exchange. A step that ends a call answers
with the call's `Event`, every other step with none, so the answers of
a schedule are the operations in the order in which they took effect,
each between its call and its return.

# Ownership

`owner` says which thread may touch a node. A thread outside the stack
may overwrite the fields of its nodes and hand them to another thread;
it may push what it owns. A popped chain belongs to the popping thread.
Nobody owns a node in the stack, but the fields of the top one are read
by calls that may have come too late: the ABA problem.

# Left out

The memory orders (steps interleave sequentially) and the hooks. Depths
and `maxChainLength` are numbers: `topDepth + 1` is written only below
`kmax`, a `uint32_t`, so it never wraps.
-/
import CroCOS.Lib.Pool
import CroCOS.Lib.SList
import CroCOS.Fault

namespace CroCOS.Core.ChainedTreiberStack

open Function Lib

-- ==== what it is for

/-- A chain of nodes, never empty. -/
structure Chain (Node : Type) where
  head : Node
  rest : List Node
  deriving DecidableEq, Repr

namespace Chain

variable {Node : Type}

def nodes (c : Chain Node) : List Node := c.head :: c.rest

def length (c : Chain Node) : Nat := c.nodes.length

end Chain

/-- What `pop` returns. -/
structure PoppedChain (Node : Type) where
  head : Option Node
  depth : Nat
  deriving DecidableEq, Repr

/-- The atomic stack of chains, top first. -/
abbrev ChainStack (Node : Type) := List (Chain Node)

namespace ChainStack

variable {Node : Type}

/-- The node a push finds on top. -/
def top : ChainStack Node → Option Node
  | [] => none
  | c :: _ => some c.head

/-- Every node in the stack. -/
def nodes (s : ChainStack Node) : List Node := s.flatMap Chain.nodes

def push (kmax : Nat) (n : Node) : ChainStack Node → ChainStack Node
  | [] => [⟨n, []⟩]
  | c :: cs =>
    if kmax ≤ c.length then ⟨n, []⟩ :: c :: cs
    else ⟨n, c.nodes⟩ :: cs

def pushChain (c : Chain Node) (s : ChainStack Node) : ChainStack Node :=
  c :: s

def pop : ChainStack Node → PoppedChain Node × ChainStack Node
  | [] => (⟨none, 0⟩, [])
  | c :: cs => (⟨some c.head, c.length⟩, cs)

end ChainStack

/-- A finished call: what it was given and what it answered. -/
inductive Event (Node : Type)
  | pushed (n : Node) (kmax : Nat)
  | pushedChain (c : Chain Node)
  | popped (r : PoppedChain Node)
  deriving DecidableEq, Repr

/-- The operation an answer stands for, if the answer is the right one.
A step that ends no call does nothing. -/
def Event.apply {Node : Type} [DecidableEq Node] (s : ChainStack Node) :
    Option (Event Node) → Option (ChainStack Node)
  | none => some s
  | some (.pushed n kmax) => some (s.push kmax n)
  | some (.pushedChain c) => some (s.pushChain c)
  | some (.popped r) => if s.pop.1 = r then some s.pop.2 else none

-- ==== the head word

/-- What the stack asks of its head encoding: a word holds a pointer
and a tag, and the zero word is the empty stack's. -/
structure HeadEncoding (Node : Type) where
  pack : Option Node → Nat → Nat
  unpackPointer : Nat → Option Node
  unpackTag : Nat → Nat
  advanceTag : Nat → Nat
  /-- The nodes a word has room for. -/
  fits : Node → Bool
  tagCount : Nat
  tagCount_pos : 0 < tagCount
  pack_zero : pack none 0 = 0
  unpackPointer_pack : ∀ p t, (∀ n ∈ p, fits n = true) →
    unpackPointer (pack p t) = p
  unpackTag_pack : ∀ p t, (∀ n ∈ p, fits n = true) → t < tagCount →
    unpackTag (pack p t) = t
  advanceTag_eq : ∀ t, t < tagCount → advanceTag t = (t + 1) % tagCount

-- ==== the state

/-- The stack and the fields of its nodes; then what happened so far. -/
structure Shared (Node : Type) where
  head : Nat
  maxChainLength : Nat
  next : Node → Option Node
  chainNext : Node → Option Node
  chainDepth : Node → Nat
  /-- The stack of chains as the finished calls left it. -/
  chains : ChainStack Node
  /-- The thread that owns a node, if any does. -/
  owner : Node → Option Nat
  /-- How many pushes have completed. -/
  pushes : Nat

/-- The empty stack, over nodes with arbitrary fields. -/
def Shared.init {Node : Type} (initialMaxChainLength : Nat)
    (next chainNext : Node → Option Node) (chainDepth : Node → Nat)
    (owner : Node → Option Nat) : Shared Node where
  head := 0
  maxChainLength := initialMaxChainLength
  next := next
  chainNext := chainNext
  chainDepth := chainDepth
  chains := []
  owner := owner
  pushes := 0

/-- A loaded head word, and how many pushes had completed by then. -/
structure Snapshot where
  word : Nat
  pushes : Nat
  deriving DecidableEq, Repr

/-- What a push is about to write into its element. -/
inductive Plan (Node : Type)
  /-- A new singleton chain over `next`. -/
  | singleton (next : Option Node)
  /-- The top chain, of length `topDepth`, extended. -/
  | extend (topPtr : Node) (topDepth : Nat)
  deriving DecidableEq, Repr

def Plan.chainNext {Node : Type} : Plan Node → Option Node
  | .singleton _ => none
  | .extend topPtr _ => some topPtr

def Plan.chainDepth {Node : Type} : Plan Node → Nat
  | .singleton _ => 1
  | .extend _ topDepth => topDepth + 1

/-- What a call does next, with the locals it still needs. -/
inductive Frame (Node : Type)
  /-- `push`, about to load the head. -/
  | pushLoad (n : Node)
  /-- About to load `maxChainLength`. -/
  | pushMax (n : Node) (old : Snapshot)
  /-- Top of the loop: about to read the top's depth, if there is one. -/
  | pushTop (n : Node) (kmax : Nat) (old : Snapshot)
  | pushChainNext (n : Node) (kmax : Nat) (old : Snapshot) (plan : Plan Node)
  | pushChainDepth (n : Node) (kmax : Nat) (old : Snapshot) (plan : Plan Node)
  /-- About to read the next of the top that is extended. -/
  | pushReadNext (n : Node) (kmax : Nat) (old : Snapshot) (topPtr : Node)
      (topDepth : Nat)
  | pushNext (n : Node) (kmax : Nat) (old : Snapshot) (plan : Plan Node)
      (next : Option Node)
  | pushCas (n : Node) (kmax : Nat) (old : Snapshot) (plan : Plan Node)
      (next : Option Node)
  /-- `pushChain`, about to load the head. -/
  | chainLoad (c : Chain Node)
  | chainNext (c : Chain Node) (old : Snapshot)
  | chainCas (c : Chain Node) (old : Snapshot)
  /-- `pop`, about to load the head. -/
  | popLoad
  | popDepth (old : Snapshot) (topPtr : Node)
  | popNext (old : Snapshot) (topPtr : Node) (depth : Nat)
  | popCas (old : Snapshot) (topPtr : Node) (depth : Nat)
      (nextStackHead : Option Node)
  deriving DecidableEq, Repr

/-- A call in progress, and how many pushes had completed when it was
made. -/
structure Pending (Node : Type) where
  frame : Frame Node
  since : Nat
  deriving DecidableEq, Repr

-- ==== steps of a call

variable {Node : Type} [DecidableEq Node]

/-- The word a push publishes. -/
def pushedWord (E : HeadEncoding Node) (n : Node) (old : Snapshot) : Nat :=
  E.pack (some n) (E.advanceTag (E.unpackTag old.word))

/-- A push of the chain `c` has just published the word `neu`. -/
def Shared.publish (d : Shared Node) (neu : Nat) (c : Chain Node)
    (s : ChainStack Node) : Shared Node :=
  { d with
    head := neu
    chains := s
    owner := fun n => if n ∈ c.nodes then none else d.owner n
    pushes := d.pushes + 1 }

/-- A pop by thread `t` has just published the word `neu`. -/
def Shared.detach (d : Shared Node) (neu : Nat) (t : Nat) : Shared Node :=
  { d with
    head := neu
    chains := d.chains.pop.2
    owner := fun n =>
      if n ∈ ChainStack.nodes (d.chains.take 1) then some t
      else d.owner n }

/-- One step of a call of thread `t`: the shared state it leaves, and
what it does next, or its answer. -/
def frameStep (E : HeadEncoding Node) (t : Nat) (d : Shared Node) :
    Frame Node → Shared Node × (Frame Node ⊕ Event Node)
  | .pushLoad n => (d, .inl (.pushMax n ⟨d.head, d.pushes⟩))
  | .pushMax n old => (d, .inl (.pushTop n d.maxChainLength old))
  | .pushTop n kmax old =>
    match E.unpackPointer old.word with
    | none => (d, .inl (.pushChainNext n kmax old (.singleton none)))
    | some topPtr =>
      if kmax ≤ d.chainDepth topPtr then
        (d, .inl (.pushChainNext n kmax old (.singleton (some topPtr))))
      else
        (d, .inl (.pushChainNext n kmax old
          (.extend topPtr (d.chainDepth topPtr))))
  | .pushChainNext n kmax old plan =>
    ({ d with chainNext := update d.chainNext n plan.chainNext },
      .inl (.pushChainDepth n kmax old plan))
  | .pushChainDepth n kmax old plan =>
    ({ d with
      chainDepth := update d.chainDepth n plan.chainDepth },
      .inl (match plan with
        | .singleton next => .pushNext n kmax old plan next
        | .extend topPtr topDepth =>
          .pushReadNext n kmax old topPtr topDepth))
  | .pushReadNext n kmax old topPtr topDepth =>
    (d, .inl (.pushNext n kmax old (.extend topPtr topDepth) (d.next topPtr)))
  | .pushNext n kmax old plan next =>
    ({ d with next := update d.next n next },
      .inl (.pushCas n kmax old plan next))
  | .pushCas n kmax old _ _ =>
    if d.head = old.word then
      (d.publish (pushedWord E n old) ⟨n, []⟩ (d.chains.push kmax n),
        .inr (.pushed n kmax))
    else (d, .inl (.pushTop n kmax ⟨d.head, d.pushes⟩))
  | .chainLoad c => (d, .inl (.chainNext c ⟨d.head, d.pushes⟩))
  | .chainNext c old =>
    ({ d with
      next := update d.next c.head (E.unpackPointer old.word) },
      .inl (.chainCas c old))
  | .chainCas c old =>
    if d.head = old.word then
      (d.publish (pushedWord E c.head old) c (d.chains.pushChain c),
        .inr (.pushedChain c))
    else (d, .inl (.chainNext c ⟨d.head, d.pushes⟩))
  | .popLoad =>
    match E.unpackPointer d.head with
    | none => (d, .inr (.popped ⟨none, 0⟩))
    | some topPtr => (d, .inl (.popDepth ⟨d.head, d.pushes⟩ topPtr))
  | .popDepth old topPtr =>
    (d, .inl (.popNext old topPtr (d.chainDepth topPtr)))
  | .popNext old topPtr depth =>
    (d, .inl (.popCas old topPtr depth (d.next topPtr)))
  | .popCas old topPtr depth nextStackHead =>
    if d.head = old.word then
      (d.detach (E.pack nextStackHead (E.unpackTag old.word)) t,
        .inr (.popped ⟨some topPtr, depth⟩))
    else (d, .inl .popLoad)

-- ==== the client

/-- A call of the client. -/
inductive Op (Node : Type)
  | push (n : Node)
  /-- The chain from its head on, and the depth passed with it. -/
  | pushChain (c : Chain Node) (depth : Nat)
  | pop
  deriving DecidableEq, Repr

instance Spells.decidable {next : Node → Option Node} :
    ∀ (h : Option Node) (xs : List Node), Decidable (Spells next h xs)
  | h, [] => inferInstanceAs (Decidable (h = none))
  | h, x :: xs =>
    have : Decidable (Spells next (next x) xs) := Spells.decidable _ xs
    inferInstanceAs (Decidable (h = some x ∧ Spells next (next x) xs))

/-- The caller's obligations: push what one owns; a chain is linked
down to a null link, and its head carries its length. -/
def legal (E : HeadEncoding Node) (d : Shared Node) (t : Nat) : Op Node → Bool
  | .push n => E.fits n && d.owner n == some t
  | .pushChain c depth =>
    (c.nodes.all fun n => E.fits n && d.owner n == some t)
      && decide c.nodes.Nodup && c.length == depth
      && decide (Spells d.chainNext (some c.head) c.nodes)
      && d.chainDepth c.head == depth
  | .pop => true

/-- The first frame of a call, after its assertions. -/
def callStep (d : Shared Node) : Op Node → Except Fault (Frame Node)
  | .push n => .ok (.pushLoad n)
  | .pushChain c depth =>
    if depth = 0 then
      .error (.assertion
        "ChainedTreiberStack::pushChain: depth must be >= 1")
    else if d.chainDepth c.head ≠ depth then
      .error (.assertion
        "ChainedTreiberStack::pushChain: chainHead.chainDepth mismatch")
    else .ok (.chainLoad c)
  | .pop => .ok .popLoad

/-- What a thread does next. -/
inductive Choice (Node : Type)
  | call (op : Op Node)
  | step
  /-- Overwrite the fields of a node it owns. -/
  | write (n : Node) (next chainNext : Option Node) (chainDepth : Nat)
  /-- Hand a node it owns to thread `u`. -/
  | give (n : Node) (u : Nat)
  | setMaxChainLength (k : Nat)
  deriving DecidableEq, Repr

/-- One step of thread `t`. A choice that does not apply changes
nothing. -/
def next (E : HeadEncoding Node) (t : Nat) (d : Shared Node) :
    Option (Pending Node) → Choice Node → Except Fault
        (Shared Node × Option (Pending Node) × Option (Event Node))
  | none, .call op =>
    if legal E d t op then
      match callStep d op with
      | .error e => .error e
      | .ok f => .ok (d, some ⟨f, d.pushes⟩, none)
    else .ok (d, none, none)
  | some p, .step =>
    match frameStep E t d p.frame with
    | (d', .inl f) => .ok (d', some ⟨f, p.since⟩, none)
    | (d', .inr ev) => .ok (d', none, some ev)
  | none, .write n nx cn depth =>
    if d.owner n = some t then
      .ok ({ d with
        next := update d.next n nx
        chainNext := update d.chainNext n cn
        chainDepth := update d.chainDepth n depth }, none, none)
    else .ok (d, none, none)
  | none, .give n u =>
    if d.owner n = some t then
      .ok ({ d with owner := update d.owner n (some u) }, none, none)
    else .ok (d, none, none)
  | none, .setMaxChainLength k =>
    .ok ({ d with maxChainLength := k }, none, none)
  | l, _ => .ok (d, l, none)

abbrev Machine (Node : Type) := Pool (Shared Node) (Option (Pending Node))

/-- The empty stack with every thread outside it. -/
def boot (initialMaxChainLength : Nat) (next chainNext : Node → Option Node)
    (chainDepth : Node → Nat) (owner : Node → Option Nat) :
    Machine Node :=
  ⟨.init initialMaxChainLength next chainNext chainDepth owner,
    fun _ => none⟩

end CroCOS.Core.ChainedTreiberStack

-- ==== vmsmalloc's encoding

namespace CroCOS.VMSubstrate.VmsHeadEncoding

def kWindowAddressBits : Nat := 39

def kPageShift : Nat := 12

def kOffsetBits : Nat := kWindowAddressBits - kPageShift

def kCounterBits : Nat := 64 - kOffsetBits

def kCounterMask : Nat := 1 <<< kCounterBits - 1

def kOffsetMask : Nat := 1 <<< kOffsetBits - 1

/-- A descriptor is the address of its page, above the window's base
`vmsBase`; the word holds its page offset. -/
def pack (vmsBase : Nat) : Option Nat → Nat → Nat
  | none, t => (t &&& kCounterMask) <<< kOffsetBits
  | some p, t =>
    let off := (p - vmsBase) >>> kPageShift
    (t &&& kCounterMask) <<< kOffsetBits ||| (off &&& kOffsetMask)

def unpackPointer (vmsBase : Nat) (s : Nat) : Option Nat :=
  let off := s &&& kOffsetMask
  if off = 0 then none else some (vmsBase + off <<< kPageShift)

def advanceTag (t : Nat) : Nat := (t + 1) &&& kCounterMask

def unpackTag (s : Nat) : Nat := (s >>> kOffsetBits) &&& kCounterMask

/-- A page of the window other than its first. -/
def isDescriptor (vmsBase : Nat) (p : Nat) : Bool :=
  decide (vmsBase < p) && (p - vmsBase) % 2 ^ kPageShift == 0
    && decide (p - vmsBase < 2 ^ kWindowAddressBits)

end CroCOS.VMSubstrate.VmsHeadEncoding
