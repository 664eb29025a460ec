/-
The routing graph builder (kernel/interrupts/InterruptGraphManager.cpp,
namespace managed): which edges between inputs and outputs of interrupt
domains a routing policy may add, and what the builder keeps about the
vertices while it does.

# Reading the model against the source

- A `Topology` is what has been registered: domains, and connectors
  between them. What a domain is (`instanceof`) is its `DomainKind`; a
  domain that both receives and emits is of one of the four subtypes
  the source knows, it stops at an assert on any other. The index maps
  of a connector are arbitrary within the counts of its two domains,
  which is what the one connector class asserts (`AffineConnector`,
  `Topology.ofAffine`).
- The exclusive connectors are those with the flag; the map from pins to
  them is `exclusiveOwner`. `registerExclusiveConnector` refuses a pin
  that has an owner already.
- A vertex handle is the vertex's label. Edges stand newest first, so
  that the first one found is `_getFirstEdgeFromVertex`. The colour of
  a vertex is a function of it; the queries store what they find there,
  so every test returns the builder as well.
- The walks along the first edges go from domain to domain along the
  topology, which is acyclic: the number of domains is fuel enough.
- `isRoutingAllowed` of a context dependent domain, which has no
  implementation yet, reads the edges of the builder.
- An iterator over potential edges is the list of the positions it has
  not passed; its current position is the first. It tests positions as
  it goes, so a loop over it threads the builder through.
- The topological order that `build` walks is cached in two globals;
  `OrderCache` is these.
-/
import CroCOS.InterruptManager

namespace CroCOS.Interrupts.Routing

open CroCOS.Graph (DirectedAcyclic.check topologicalSort)
open Manager (Label)
open RoutingNodeTriggerType

-- ==== the topology

inductive InterruptLineActivationType
  | LEVEL_LOW
  | LEVEL_HIGH
  | EDGE_LOW
  | EDGE_HIGH
  deriving DecidableEq, Repr

def isLevelTriggered (type : InterruptLineActivationType) : Bool :=
  type = .LEVEL_LOW || type = .LEVEL_HIGH

/-- An edge of the routing graph: its source and its target. -/
abbrev Edge (Domain : Type) := Label Domain × Label Domain

/-- What a domain is, with the method its subtype adds. -/
inductive DomainKind (Domain : Type)
  /-- An `InterruptEmitter` only: a device. -/
  | emitter
  /-- An `InterruptReceiver` only. -/
  | receiver
  | freeRoutable
  | contextIndependent (isRoutingAllowed : Nat → Nat → Bool)
  | contextDependent (isRoutingAllowed : Nat → Nat → List (Edge Domain) → Bool)
  | fixedRouting (getEmitterFor : Nat → Nat)

namespace DomainKind

variable {Domain : Type}

def isReceiver : DomainKind Domain → Bool
  | .emitter => false
  | _ => true

def isEmitter : DomainKind Domain → Bool
  | .receiver => false
  | _ => true

/-- The subclasses of `RoutableDomain`. -/
def isRoutable : DomainKind Domain → Bool
  | .freeRoutable | .contextIndependent _ | .contextDependent _ => true
  | _ => false

end DomainKind

structure DomainConnector (Domain : Type) where
  source : Domain
  target : Domain
  emitterToReceiver : Nat → Option Nat
  receiverToEmitter : Nat → Option Nat
  exclusive : Bool

/-- The outputs from `start` on, `width` of them, each to the input
`offset` further. -/
structure AffineConnector (Domain : Type) where
  source : Domain
  target : Domain
  offset : Nat
  start : Nat
  width : Nat
  exclusive : Bool
  deriving DecidableEq, Repr

def AffineConnector.toConnector {Domain : Type}
    (c : AffineConnector Domain) : DomainConnector Domain where
  source := c.source
  target := c.target
  emitterToReceiver index :=
    if index < c.start then none
    else if c.start + c.width ≤ index then none
    else some (index + c.offset)
  receiverToEmitter index :=
    if index < c.offset then none
    else if index - c.offset < c.start then none
    else if c.start + c.width ≤ index - c.offset then none
    else some (index - c.offset)
  exclusive := c.exclusive

/-- What has been registered, in the order of registration, and what the
registration asserts. -/
structure Topology (Domain : Type) [DecidableEq Domain] where
  kind : Domain → DomainKind Domain
  getReceiverCount : Domain → Nat
  getEmitterCount : Domain → Nat
  /-- Nothing for a domain whose type cannot be configured. -/
  getActivationType : Domain → Nat → Option InterruptLineActivationType
  domains : List Domain
  connectors : List (DomainConnector Domain)
  nodup : domains.Nodup
  source_mem : ∀ c ∈ connectors, c.source ∈ domains
  target_mem : ∀ c ∈ connectors, c.target ∈ domains
  source_emits : ∀ c ∈ connectors, (kind c.source).isEmitter = true
  target_receives : ∀ c ∈ connectors, (kind c.target).isReceiver = true
  emitter_lt : ∀ c ∈ connectors, ∀ j, ∀ i ∈ c.receiverToEmitter j,
    i < getEmitterCount c.source
  receiver_lt : ∀ c ∈ connectors, ∀ i, ∀ j ∈ c.emitterToReceiver i,
    j < getReceiverCount c.target
  /-- The graph is simple. -/
  simple : (connectors.map fun c => (c.source, c.target)).Nodup
  acyclic : DirectedAcyclic.check
    ⟨domains, connectors.map fun c => (c.source, c.target)⟩ = .ok true

variable {Domain : Type} [DecidableEq Domain]

namespace Topology

variable (T : Topology Domain)

/-- The graph that `getTopologyGraph` returns. -/
def graph : Graph.Digraph Domain :=
  ⟨T.domains, T.connectors.map fun c => (c.source, c.target)⟩

def outgoingEdges (d : Domain) : List (DomainConnector Domain) :=
  T.connectors.filter fun c => c.source = d

def incomingEdges (d : Domain) : List (DomainConnector Domain) :=
  T.connectors.filter fun c => c.target = d

def findEdge (source target : Domain) : Option (DomainConnector Domain) :=
  T.connectors.find? fun c => c.source = source && c.target = target

/-- The source of the exclusive connector that covers the pin. -/
def exclusiveOwner (pin : Label Domain) : Option Domain :=
  (T.connectors.find? fun c =>
    c.exclusive && c.target = pin.domain
      && (List.range (T.getEmitterCount c.source)).any fun i =>
        c.emitterToReceiver i = some pin.index).map (·.source)

/-- A receiver has a vertex for each input, a device one for each
output. -/
def vertexCount (d : Domain) : Nat :=
  if (T.kind d).isReceiver then T.getReceiverCount d
  else T.getEmitterCount d

def labelsOf (d : Domain) : List (Label Domain) :=
  (List.range (T.vertexCount d)).map fun j => ⟨d, j⟩

/-- Whether `getVertexByLabel` finds a vertex. -/
def hasVertex (l : Label Domain) : Bool :=
  l.domain ∈ T.domains && l.index < T.vertexCount l.domain

/-- The type a receiver's input is configured with. -/
def configuredType (l : Label Domain) : RoutingNodeTriggerType :=
  match T.getActivationType l.domain l.index with
  | none => TRIGGER_UNDETERMINED
  | some type =>
    if isLevelTriggered type then TRIGGER_LEVEL else TRIGGER_EDGE

/-- A topology whose connectors are affine, each with what its
constructor and its registration assert. -/
def ofAffine (kind : Domain → DomainKind Domain)
    (getReceiverCount getEmitterCount : Domain → Nat)
    (getActivationType : Domain → Nat → Option InterruptLineActivationType)
    (domains : List Domain) (connectors : List (AffineConnector Domain))
    (nodup : domains.Nodup)
    (registered : ∀ c ∈ connectors, c.source ∈ domains
      ∧ c.target ∈ domains ∧ (kind c.source).isEmitter = true
      ∧ (kind c.target).isReceiver = true)
    (fits : ∀ c ∈ connectors,
      c.start + c.offset + c.width ≤ getReceiverCount c.target
        ∧ c.start + c.width ≤ getEmitterCount c.source)
    (simple : (connectors.map fun c => (c.source, c.target)).Nodup)
    (acyclic : DirectedAcyclic.check
      ⟨domains, connectors.map fun c => (c.source, c.target)⟩
        = .ok true) :
    Topology Domain where
  kind := kind
  getReceiverCount := getReceiverCount
  getEmitterCount := getEmitterCount
  getActivationType := getActivationType
  domains := domains
  connectors := connectors.map AffineConnector.toConnector
  nodup := nodup
  source_mem := List.forall_mem_map.mpr fun c hc => (registered c hc).1
  target_mem := List.forall_mem_map.mpr fun c hc => (registered c hc).2.1
  source_emits :=
    List.forall_mem_map.mpr fun c hc => (registered c hc).2.2.1
  target_receives :=
    List.forall_mem_map.mpr fun c hc => (registered c hc).2.2.2
  emitter_lt := by
    refine List.forall_mem_map.mpr fun c hc j i hi => ?_
    have hfits := (fits c hc).2
    simp only [AffineConnector.toConnector, Option.mem_def,
      Option.ite_none_left_eq_some, Option.some.injEq] at hi ⊢
    omega
  receiver_lt := by
    refine List.forall_mem_map.mpr fun c hc i j hj => ?_
    have hfits := (fits c hc).1
    simp only [AffineConnector.toConnector, Option.mem_def,
      Option.ite_none_left_eq_some, Option.some.injEq] at hj ⊢
    omega
  simple := by rw [List.map_map]; exact simple
  acyclic := by rw [List.map_map]; exact acyclic

end Topology

-- ==== the builder

structure RoutingNodeMetadata (Domain : Type) where
  triggerType : RoutingNodeTriggerType
  owner : Option Domain
  deriving DecidableEq, Repr

structure RoutingGraphBuilder (Domain : Type) where
  /-- Newest first. -/
  edges : List (Edge Domain)
  color : Label Domain → RoutingNodeMetadata Domain

namespace RoutingGraphBuilder

section Accessors

variable (b : RoutingGraphBuilder Domain)

/-- The target of `_getFirstEdgeFromVertex`. -/
def firstTarget (v : Label Domain) : Option (Label Domain) :=
  (b.edges.find? fun e => e.1 = v).map Prod.snd

def hasEdge (source target : Label Domain) : Bool :=
  (source, target) ∈ b.edges

def setVertexColor (v : Label Domain)
    (color : RoutingNodeMetadata Domain) : RoutingGraphBuilder Domain :=
  { b with color := Function.update b.color v color }

end Accessors

-- ------------------------------------------------- the trigger types

variable (T : Topology Domain) (b : RoutingGraphBuilder Domain)

/-- The loop of `getConnectedComponentTriggerType`. -/
def walkTriggerType : Nat → Label Domain → RoutingNodeTriggerType →
    Except Fault RoutingNodeTriggerType
  | fuel, v, triggerType =>
    match b.firstTarget v with
    | none => .ok triggerType
    | some w =>
      if triggerType = TRIGGER_UNDETERMINED then
        match fuel with
        | 0 => .error .diverges
        | fuel + 1 => walkTriggerType fuel w (b.color w).triggerType
      else .ok triggerType

/-- The answer is stored at the vertex. -/
def getConnectedComponentTriggerType (v : Label Domain) :
    Except Fault (RoutingNodeTriggerType × RoutingGraphBuilder Domain) :=
  match b.walkTriggerType T.domains.length v (b.color v).triggerType with
  | .error e => .error e
  | .ok triggerType =>
    .ok (triggerType,
      b.setVertexColor v { b.color v with triggerType := triggerType })

/-- `setConnectedComponentTriggerType`. -/
def walkSetTriggerType (type : RoutingNodeTriggerType) :
    Nat → Label Domain → RoutingGraphBuilder Domain →
      Except Fault (RoutingGraphBuilder Domain)
  | fuel, v, b =>
    let b' := b.setVertexColor v { b.color v with triggerType := type }
    match b.firstTarget v with
    | none => .ok b'
    | some w =>
      match fuel with
      | 0 => .error .diverges
      | fuel + 1 => walkSetTriggerType type fuel w b'

def setConnectedComponentTriggerType (v : Label Domain)
    (type : RoutingNodeTriggerType) :
    Except Fault (RoutingGraphBuilder Domain) :=
  walkSetTriggerType type T.domains.length v b

-- --------------------------------------------------- the pins' owners

/-- The recursion of `getEffectiveOwner`. An owner found further along
the path is stored, unless it is the vertex's own domain. -/
def walkEffectiveOwner : Nat → Label Domain → RoutingGraphBuilder Domain →
      Except Fault (Option Domain × RoutingGraphBuilder Domain)
  | fuel, h, b =>
    match (b.color h).owner with
    | some owner => .ok (some owner, b)
    | none =>
      match b.firstTarget h with
      | none => .ok (none, b)
      | some target =>
        match fuel with
        | 0 => .error .diverges
        | fuel + 1 =>
          match walkEffectiveOwner fuel target b with
          | .error e => .error e
          | .ok (childOwner, b') =>
            if childOwner = some h.domain then .ok (none, b')
            else .ok (childOwner, b'.setVertexColor h
              { b.color h with owner := childOwner })

def getEffectiveOwner (h : Label Domain) :
    Except Fault (Option Domain × RoutingGraphBuilder Domain) :=
  walkEffectiveOwner T.domains.length h b

end RoutingGraphBuilder

-- ==== the constraint

def areTriggerTypesCompatible (sourceType targetType : RoutingNodeTriggerType)
    (sourceIsReceiver : Bool) : Bool :=
  if targetType = TRIGGER_LEVEL
      ∧ sourceType ≠ TRIGGER_LEVEL ∧ sourceIsReceiver then false
  else if targetType = TRIGGER_EDGE ∧ sourceType = TRIGGER_LEVEL then false
  else true

namespace RoutingConstraint

open RoutingGraphBuilder

variable (T : Topology Domain) (b : RoutingGraphBuilder Domain)

/-- The owner's part of `checkSubtypeRouting`. -/
def checkOwner (source target : Label Domain) :
    Except Fault (Bool × RoutingGraphBuilder Domain) :=
  if (T.kind source.domain).isRoutable then
    match b.getEffectiveOwner T target with
    | .error e => .error e
    | .ok (owner, b) =>
      .ok (owner = none ∨ owner = some source.domain, b)
  else .ok (true, b)

/-- What the subtype of the source allows, over the connector from its
domain to the target's. -/
def subtypeAllows (c : DomainConnector Domain) (source target : Label Domain)
    (emitterIndex : Nat) : Bool :=
  match T.kind source.domain with
  -- `isEdgeAllowedImpl` has answered for a device itself
  | .emitter => c.emitterToReceiver source.index = some target.index
  | .receiver => false
  | .freeRoutable => true
  | .contextIndependent isRoutingAllowed =>
    isRoutingAllowed source.index emitterIndex
  | .contextDependent isRoutingAllowed =>
    isRoutingAllowed source.index emitterIndex b.edges
  | .fixedRouting getEmitterFor =>
    c.emitterToReceiver (getEmitterFor source.index) = some target.index

/-- `isEdgeAllowedImpl` from the connector on. -/
def checkConnector (source target : Label Domain) :
    Except Fault (Bool × RoutingGraphBuilder Domain) :=
  match T.findEdge source.domain target.domain with
  | none => .ok (false, b)
  | some c =>
    match c.receiverToEmitter target.index with
    | none => .ok (false, b)
    | some emitterIndex =>
      if emitterIndex < T.getEmitterCount source.domain then
        match checkOwner T b source target with
        | .error e => .error e
        | .ok (false, b) => .ok (false, b)
        | .ok (true, b) =>
          .ok (subtypeAllows T b c source target emitterIndex, b)
      else .error (.assertion "Emitter index out of bounds")

/-- The trigger types' part of `isEdgeAllowedImpl`. -/
def checkTriggerTypes (source target : Label Domain) :
    Except Fault (Bool × RoutingGraphBuilder Domain) :=
  match b.getConnectedComponentTriggerType T source with
  | .error e => .error e
  | .ok (sourceActivationType, b) =>
    match b.getConnectedComponentTriggerType T target with
    | .error e => .error e
    | .ok (targetActivationType, b) =>
      .ok (areTriggerTypesCompatible sourceActivationType
        targetActivationType (T.kind source.domain).isReceiver, b)

def isEdgeAllowedImpl (source target : Label Domain) (checkTriggerType : Bool) :
    Except Fault (Bool × RoutingGraphBuilder Domain) :=
  if (b.firstTarget source).isSome then
    .ok (b.hasEdge source target, b)
  else if checkTriggerType then
    match checkTriggerTypes T b source target with
    | .error e => .error e
    | .ok (false, b) => .ok (false, b)
    | .ok (true, b) => checkConnector T b source target
  else checkConnector T b source target

def isEdgeAllowed (source target : Label Domain) :
    Except Fault (Bool × RoutingGraphBuilder Domain) :=
  isEdgeAllowedImpl T b source target true

end RoutingConstraint

-- ==== adding the edges

namespace RoutingGraphBuilder

open RoutingConstraint

variable (T : Topology Domain) (b : RoutingGraphBuilder Domain)

/-- `RestrictedGraphBuilder::addEdge` for this constraint: whether the
edge was added. -/
def addRestrictedEdge (source target : Label Domain) :
    Except Fault (Bool × RoutingGraphBuilder Domain) :=
  if T.hasVertex source && T.hasVertex target then
    match isEdgeAllowed T b source target with
    | .error e => .error e
    | .ok (false, b) => .ok (false, b)
    | .ok (true, b) =>
      if b.hasEdge source target then
        .error (.assertion "Duplicate edge in simple graph not allowed")
      else .ok (true, { b with edges := (source, target) :: b.edges })
  else .error (.assertion "Vertex handle index out of bounds")

def addEdge (source target : Label Domain) :
    Except Fault (Bool × RoutingGraphBuilder Domain) :=
  let sourceTriggerType := (b.color source).triggerType
  match b.getConnectedComponentTriggerType T target with
  | .error e => .error e
  | .ok (targetTriggerType, b) =>
    match b.addRestrictedEdge T source target with
    | .error e => .error e
    | .ok (false, b) => .ok (false, b)
    | .ok (true, b) =>
      if targetTriggerType = TRIGGER_UNDETERMINED
          ∧ sourceTriggerType ≠ TRIGGER_UNDETERMINED then
        (b.setConnectedComponentTriggerType T target
          sourceTriggerType).map fun b => (true, b)
      else .ok (true, b)

/-- The colour of a new vertex. -/
def initialColor (l : Label Domain) : RoutingNodeMetadata Domain :=
  if (T.kind l.domain).isReceiver then
    { triggerType := T.configuredType l, owner := T.exclusiveOwner l }
  else { triggerType := TRIGGER_UNDETERMINED, owner := none }

/-- The edges that are forced: those of fixed domains and of devices.
Their targets are vertices (`receiver_lt`), as is asserted. -/
def forcedEdges (d : Domain) : List (Edge Domain) :=
  match T.kind d with
  | .fixedRouting getEmitterFor =>
    (T.outgoingEdges d).flatMap fun c =>
      (List.range (T.getReceiverCount d)).filterMap fun sourceIndex =>
        (c.emitterToReceiver (getEmitterFor sourceIndex)).map
          fun targetIndex => (⟨d, sourceIndex⟩, ⟨c.target, targetIndex⟩)
  | .emitter =>
    (T.outgoingEdges d).flatMap fun c =>
      (List.range (T.getEmitterCount d)).filterMap fun sourceIndex =>
        (c.emitterToReceiver sourceIndex).map
          fun targetIndex => (⟨d, sourceIndex⟩, ⟨c.target, targetIndex⟩)
  | _ => []

def createRoutingGraphBuilder : Except Fault (RoutingGraphBuilder Domain) :=
  (T.domains.flatMap (forcedEdges T)).foldlM
    (fun b e => (b.addEdge T e.1 e.2).map Prod.snd)
    { edges := [], color := initialColor T }

def isEdgeAllowedIgnoringTriggerType (source target : Label Domain) :
    Except Fault (Bool × RoutingGraphBuilder Domain) :=
  if b.hasEdge source target then .ok (false, b)
  else isEdgeAllowedImpl T b source target false

/-- What is done to a builder once it has been made. -/
inductive Call (Domain : Type)
  | addEdge (source target : Label Domain)
  | getConnectedComponentTriggerType (v : Label Domain)
  | getEffectiveOwner (v : Label Domain)

/-- What a call returns. -/
inductive Reply (Domain : Type)
  | added (accepted : Bool)
  | triggerType (type : RoutingNodeTriggerType)
  | owner (owner : Option Domain)
  deriving DecidableEq, Repr

/-- One call; a label without a vertex has no handle to call it with. -/
def step : Call Domain →
    Except Fault (RoutingGraphBuilder Domain × Reply Domain)
  | .addEdge source target =>
    (b.addEdge T source target).map fun p => (p.2, .added p.1)
  | .getConnectedComponentTriggerType v =>
    if T.hasVertex v then
      (b.getConnectedComponentTriggerType T v).map
        fun p => (p.2, .triggerType p.1)
    else .error (.assertion "Vertex handle index out of bounds")
  | .getEffectiveOwner v =>
    if T.hasVertex v then
      (b.getEffectiveOwner T v).map fun p => (p.2, .owner p.1)
    else .error (.assertion "Vertex handle index out of bounds")

end RoutingGraphBuilder

-- ==== the iterators

namespace PotentialEdgeIterator

open RoutingGraphBuilder RoutingConstraint

variable (T : Topology Domain)

/-- The positions `PotentialEdgeIterator<true>` goes through: an index
is compared with the count only after it has been visited. -/
def targetPositions (v : Label Domain) : List (Label Domain) :=
  (T.outgoingEdges v.domain).flatMap fun c =>
    (List.range (max 1 (T.getReceiverCount c.target))).map
      fun index => ⟨c.target, index⟩

/-- Those of `PotentialEdgeIterator<false>`: the source's receivers, or
its emitters if it is a device. -/
def sourcePositions (v : Label Domain) : List (Label Domain) :=
  (T.incomingEdges v.domain).flatMap fun c =>
    (List.range (max 1 (T.vertexCount c.source))).map
      fun index => ⟨c.source, index⟩

/-- A test of the iterator's current position. -/
abbrev Test (Domain : Type) := Label Domain → RoutingGraphBuilder Domain →
    Except Fault (Bool × RoutingGraphBuilder Domain)

/-- `PotentialEdgeIterator<true>::isValidIntermediateState`. It does not
read `checkTriggerType`. -/
def isValidTarget (v : Label Domain) : Test Domain := fun w b =>
  if T.hasVertex v && T.hasVertex w then isEdgeAllowed T b v w
  else .ok (false, b)

/-- `PotentialEdgeIterator<false>::isValidIntermediateState`. -/
def isValidSource (v : Label Domain) (checkTriggerType : Bool) :
    Test Domain := fun w b =>
  if T.hasVertex w && T.hasVertex v then
    isEdgeAllowedImpl T b w v checkTriggerType
  else .ok (false, b)

def advanceToValidState (valid : Test Domain) :
    List (Label Domain) → RoutingGraphBuilder Domain →
      Except Fault (List (Label Domain) × RoutingGraphBuilder Domain)
  | [], b => .ok ([], b)
  | w :: positions, b =>
    match valid w b with
    | .error e => .error e
    | .ok (true, b) => .ok (w :: positions, b)
    | .ok (false, b) => advanceToValidState valid positions b

/-- `++` of the filtered iterator, from the position after the current
one: the next one that is valid and not joined yet. -/
def skipJoined (valid : Test Domain)
    (joined : RoutingGraphBuilder Domain → Label Domain → Bool) :
    List (Label Domain) → RoutingGraphBuilder Domain →
      Except Fault (List (Label Domain) × RoutingGraphBuilder Domain)
  | [], b => .ok ([], b)
  | w :: positions, b =>
    match valid w b with
    | .error e => .error e
    | .ok (false, b) => skipJoined valid joined positions b
    | .ok (true, b) =>
      if joined b w then skipJoined valid joined positions b
      else .ok (w :: positions, b)

/-- A loop over a filtered range. Each turn shortens what is left, so
the length of that is fuel enough. -/
def forEachFrom {α : Type} (valid : Test Domain)
    (joined : RoutingGraphBuilder Domain → Label Domain → Bool)
    (body : Label Domain → RoutingGraphBuilder Domain × α →
      Except Fault (RoutingGraphBuilder Domain × α)) :
    Nat → List (Label Domain) → RoutingGraphBuilder Domain × α →
      Except Fault (RoutingGraphBuilder Domain × α)
  | _, [], s => .ok s
  | 0, _ :: _, _ => .error .diverges
  | fuel + 1, w :: positions, s =>
    match body w s with
    | .error e => .error e
    | .ok s =>
      match skipJoined valid joined positions s.1 with
      | .error e => .error e
      | .ok (positions, b) =>
        forEachFrom valid joined body fuel positions (b, s.2)

/-- The loop from `begin()` on, which skips no joined vertex. -/
def forEach {α : Type} (valid : Test Domain)
    (joined : RoutingGraphBuilder Domain → Label Domain → Bool)
    (body : Label Domain → RoutingGraphBuilder Domain × α →
      Except Fault (RoutingGraphBuilder Domain × α))
    (positions : List (Label Domain))
    (s : RoutingGraphBuilder Domain × α) :
    Except Fault (RoutingGraphBuilder Domain × α) :=
  match advanceToValidState valid positions s.1 with
  | .error e => .error e
  | .ok (positions, b) =>
    forEachFrom valid joined body positions.length positions (b, s.2)

end PotentialEdgeIterator

namespace RoutingGraphBuilder

open PotentialEdgeIterator

variable (T : Topology Domain) (b : RoutingGraphBuilder Domain)

/-- A loop over `getValidEdgesFrom(v)`. -/
def forValidEdgesFrom {α : Type} (v : Label Domain)
    (body : Label Domain → RoutingGraphBuilder Domain × α →
      Except Fault (RoutingGraphBuilder Domain × α))
    (s : RoutingGraphBuilder Domain × α) :
    Except Fault (RoutingGraphBuilder Domain × α) :=
  forEach (isValidTarget T v) (fun b w => b.hasEdge v w) body
    (targetPositions T v) s

/-- The loop body that notes what it is given. -/
def collect (w : Label Domain)
    (s : RoutingGraphBuilder Domain × List (Label Domain)) :
    Except Fault (RoutingGraphBuilder Domain × List (Label Domain)) :=
  .ok (s.1, s.2 ++ [w])

/-- What a loop over `validEdgesFromIgnoringTriggerType(v)` is given.
The range is made with `checkTriggerType` false, which its iterators do
not read, so it is the one of `getValidEdgesFrom`. -/
def validEdgesFromIgnoringTriggerType (v : Label Domain) :
    Except Fault (RoutingGraphBuilder Domain × List (Label Domain)) :=
  forValidEdgesFrom T v collect (b, [])

/-- What a loop over `validEdgesToIgnoringTriggerType(v)` is given. -/
def validEdgesToIgnoringTriggerType (v : Label Domain) :
    Except Fault (RoutingGraphBuilder Domain × List (Label Domain)) :=
  forEach (isValidSource T v false) (fun b w => b.hasEdge w v) collect
    (sourcePositions T v) (b, [])

end RoutingGraphBuilder

-- ==== the build

/-- `isTopologicalOrderDirty` and `_topologicallySortedDomains`. -/
structure OrderCache (Domain : Type) where
  isTopologicalOrderDirty : Bool
  sortedDomains : List Domain
  deriving DecidableEq, Repr

namespace OrderCache

/-- The dirty flag stays as it is. -/
def releaseCachedTopologicalOrdering (cache : OrderCache Domain) :
    OrderCache Domain :=
  { cache with sortedDomains := [] }

def topologicallySortedDomains (cache : OrderCache Domain)
    (T : Topology Domain) :
    Except Fault (List Domain × OrderCache Domain) :=
  if cache.isTopologicalOrderDirty then
    match topologicalSort T.graph with
    | .error e => .error e
    | .ok order => .ok (order, ⟨false, order⟩)
  else .ok (cache.sortedDomains, cache)

end OrderCache

namespace RoutingGraphBuilder

variable (T : Topology Domain) (b : RoutingGraphBuilder Domain)

/-- A vertex takes the colour of the next one on its path. -/
def colorVertex (v : Label Domain) :
    Except Fault (RoutingGraphBuilder Domain) :=
  if T.hasVertex v then
    match b.firstTarget v with
    | none => .ok b
    | some w => .ok (b.setVertexColor v (b.color w))
  else .error (.assertion "Vertex must exist in routing graph")

/-- The loop of `build` over the domains, from the last to the first. -/
def colorDomains (sortedDomains : List Domain) :
    Except Fault (RoutingGraphBuilder Domain) :=
  (sortedDomains.reverse.flatMap T.labelsOf).foldlM (colorVertex T) b

/-- The graph, its edges and colours, is built if its predicate
holds. -/
def build (cache : OrderCache Domain) :
    Except Fault (Option (RoutingGraphBuilder Domain) × OrderCache Domain) :=
  match cache.topologicallySortedDomains T with
  | .error e => .error e
  | .ok (sortedDomains, cache) =>
    match b.colorDomains T sortedDomains with
    | .error e => .error e
    | .ok b =>
      match DirectedAcyclic.check
          ⟨T.domains.flatMap T.labelsOf, b.edges.reverse⟩ with
      | .error e => .error e
      | .ok true => .ok (some b, cache)
      | .ok false => .ok (none, cache)

end RoutingGraphBuilder

end CroCOS.Interrupts.Routing
