/-
Interrupt topology, routing and handlers
(kernel/interrupts/InterruptGraphManager.cpp and
InterruptRoutingAndDispatch.cpp): domains and connectors are registered,
`updateRouting` computes from them which handlers each CPU vector runs
and which EOIs it issues, `dispatchInterrupt` does so.

# Reading the model against the source

- `Platform` is what the domains are (`instanceof`) and their counts. A
  vertex of the routing graph is its label, a domain and an index, and
  the vertices are those that `createRoutingGraphBuilder` makes.
- The routing policy is arbitrary: given the topology it returns the
  routing graph it has filled, or fails. That the edges follow the
  topology's, one per vertex at most, are fields of `RoutingGraph`: the
  builder lets no other in (`RoutingConstraint`). What the policy's last
  call adds, the colours, is `build`. Two domains have at most one
  connector between them, so its index maps are the policy's matter.
- `HashMap::clear` gives the buffer back, so that the next `operator[]`
  takes a hash modulo the capacity 0; `insert` would have allocated a
  new one. The order map is `none` then. Its `operator[]` adds a key
  that is missing with the value 0, so reading it again reads 0.
- `Vector::sort` is introsort. It is a parameter here (`VectorSort`), any
  sort that permutes the vector and calls the comparator, which may
  fault. Up to 16 elements it is `insertionSort`; on no elements its
  upper index wraps and it runs off the buffer.
- The hash containers of `buildChainForVector` and of
  `populateEOIBehaviorTable` are only inserted into, so a `HashSet` is a
  list without duplicates and a `HashMap` a list of pairs. The stack of
  sources is kept with its top first.
- A `SharedPtr<InterruptHandler>` is an index into `handlers`, or null.
  `registeredHandlers`, which only grows, is a function of the label.

# Left out

`configureRoutableDomains`, which tells the routable devices what the
edges are; exclusive connectors, which restrict what a policy may
choose; log lines; interrupt nesting.
-/
import CroCOS.GraphAlgorithms

namespace CroCOS.Interrupts

def CPU_INTERRUPT_COUNT : Nat := 256

inductive RoutingNodeTriggerType
  | TRIGGER_LEVEL
  | TRIGGER_EDGE
  | TRIGGER_UNDETERMINED
  deriving DecidableEq, Repr

/-- The domains to acknowledge, in order. -/
abbrev EOIChain (Domain : Type) := List Domain

structure EOIBehaviorMetadata (Domain : Type) where
  triggerType : RoutingNodeTriggerType
  chain : Option (EOIChain Domain)
  deriving DecidableEq, Repr

end CroCOS.Interrupts

namespace CroCOS.Interrupts.Manager

open CroCOS.Graph (topologicalSort)
open Function

-- ==== the platform

structure Platform (Domain : Type) where
  isInterruptReceiver : Domain → Bool
  isInterruptEmitter : Domain → Bool
  isEOIDomain : Domain → Bool
  isMaskableDomain : Domain → Bool
  getReceiverCount : Domain → Nat
  getEmitterCount : Domain → Nat
  /-- `platform::getCPUInterruptVectors()`, which emits nothing. -/
  vectorFile : Domain
  vectorFile_receives : isInterruptReceiver vectorFile = true
  vectorFile_sink : isInterruptEmitter vectorFile = false

/-- A `RoutingNodeLabel`: a receiver's input or a pure emitter's
output. -/
structure Label (Domain : Type) where
  domain : Domain
  index : Nat
  deriving DecidableEq, Repr

variable {Domain Handler : Type} [DecidableEq Domain]

/-- A receiver has a vertex for each input, another domain one for each
output. -/
def vertexCount (P : Platform Domain) (d : Domain) : Nat :=
  if P.isInterruptReceiver d then P.getReceiverCount d
  else P.getEmitterCount d

/-- The vertices of a domain, in the order of their indices. -/
def labelsOf (P : Platform Domain) (d : Domain) : List (Label Domain) :=
  (List.range (vertexCount P d)).map fun j => ⟨d, j⟩

/-- A routing graph over the topology `T`. -/
structure RoutingGraph (P : Platform Domain) (T : Graph.Digraph Domain) where
  edges : List (Label Domain × Label Domain)
  triggerType : Label Domain → RoutingNodeTriggerType
  source : ∀ e ∈ edges, e.1 ∈ T.vertices.flatMap (labelsOf P)
  target : ∀ e ∈ edges, e.2 ∈ T.vertices.flatMap (labelsOf P)
  follows : ∀ e ∈ edges, (e.1.domain, e.2.domain) ∈ T.edges
  functional : ∀ e ∈ edges, ∀ e' ∈ edges, e.1 = e'.1 → e = e'

namespace RoutingGraph

variable {P : Platform Domain} {T : Graph.Digraph Domain}
variable (g : RoutingGraph P T)

def vertices (_ : RoutingGraph P T) : List (Label Domain) :=
  T.vertices.flatMap (labelsOf P)

/-- `_getFirstEdgeFromVertex`, and the walk's only step. -/
def firstTarget (v : Label Domain) : Option (Label Domain) :=
  (g.edges.find? fun e => e.1 = v).map Prod.snd

/-- The vertex with the label, which is the label. -/
def getVertexByLabel (_ : RoutingGraph P T) (l : Label Domain) :
    Option (Label Domain) :=
  if l.domain ∈ T.vertices ∧ l.index < vertexCount P l.domain then some l
  else none

end RoutingGraph

abbrev Policy (P : Platform Domain) :=
  (T : Graph.Digraph Domain) → Except Fault (RoutingGraph P T)

-- ==== the state

/-- The chain of the EOIs to issue, and the trigger type. -/
abbrev EOITable (Domain : Type) := Nat → EOIBehaviorMetadata Domain

structure State (Domain Handler : Type) where
  /-- The topology builder: what has been registered. -/
  builder : Graph.Digraph Domain
  isGraphDirty : Bool
  isTopologicalOrderDirty : Bool
  cachedGraph : Option (Graph.Digraph Domain)
  sortedDomains : List Domain
  orderMap : Option (List (Domain × Nat))
  /-- The handler objects. -/
  handlers : List Handler
  registeredHandlers : Label Domain → Option (Option Nat)
  handlersByVector : Nat → Option (List (Option Nat))
  receiverMask : Label Domain → Option Bool
  eoiBehaviorTable : EOITable Domain

def State.boot : State Domain Handler where
  builder := ⟨[], []⟩
  isGraphDirty := false
  isTopologicalOrderDirty := false
  cachedGraph := none
  sortedDomains := []
  orderMap := some []
  handlers := []
  registeredHandlers := fun _ => none
  handlersByVector := fun _ => none
  receiverMask := fun _ => none
  eoiBehaviorTable := fun _ => ⟨.TRIGGER_UNDETERMINED, none⟩

-- ==== the topology

def registerDomain (d : Domain) (s : State Domain Handler) :
    Except Fault (State Domain Handler) :=
  if d ∈ s.builder.vertices then
    .error (.assertion "Duplicate vertex label")
  else .ok { s with
    builder := { s.builder with vertices := s.builder.vertices ++ [d] }
    isGraphDirty := true }

def registerConnector (P : Platform Domain) (source target : Domain)
    (s : State Domain Handler) : Except Fault (State Domain Handler) :=
  if source ∉ s.builder.vertices ∨ target ∉ s.builder.vertices then
    .error (.assertion
      "Must add interrupt domains before registering a connector between them")
  else if !P.isInterruptEmitter source then
    .error (.assertion "Connector source must be an interrupt emitter")
  else if !P.isInterruptReceiver target then
    .error (.assertion "Connector target must be an interrupt receiver")
  else if (source, target) ∈ s.builder.edges then
    .error (.assertion "Duplicate edge in simple graph not allowed")
  else .ok { s with
    builder := { s.builder with
      edges := s.builder.edges ++ [(source, target)] }
    isGraphDirty := true }

/-- `getBuilder().build()`: no graph unless it is acyclic. -/
def buildTopology (builder : Graph.Digraph Domain) :
    Except Fault (Option (Graph.Digraph Domain)) := do
  let acyclic ← Graph.DirectedAcyclic.check builder
  return if acyclic then some builder else none

def getTopologyGraph (s : State Domain Handler) :
    Except Fault (State Domain Handler) :=
  if s.isGraphDirty || s.cachedGraph.isNone then do
    let graph ← buildTopology s.builder
    return { s with
      isTopologicalOrderDirty := true
      cachedGraph := graph
      isGraphDirty := false }
  else .ok s

def releaseCachedTopologicalOrdering (s : State Domain Handler) :
    State Domain Handler :=
  { s with
    sortedDomains := []
    orderMap := none }

/-- `*getTopologyGraph()`. -/
def topologyGraph (s : State Domain Handler) :
    Except Fault (Graph.Digraph Domain × State Domain Handler) := do
  let s ← getTopologyGraph s
  match s.cachedGraph with
  | none => .error .nullDeref
  | some graph => return (graph, s)

def recomputeTopologicalOrderIfNecessary (s : State Domain Handler) :
    Except Fault (State Domain Handler) :=
  if s.isTopologicalOrderDirty then do
    let s := releaseCachedTopologicalOrdering s
    let (graph, s) ← topologyGraph s
    let sorted ← topologicalSort graph
    return { s with
      sortedDomains := sorted
      orderMap :=
        if sorted.isEmpty then none else some sorted.zipIdx
      isTopologicalOrderDirty := false }
  else .ok s

/-- `topologicalOrderMap()[d]`. -/
def orderOf (orderMap : Option (List (Domain × Nat))) (d : Domain) :
    Except Fault Nat :=
  match orderMap with
  | none => .error .divideByZero
  | some entries => .ok ((entries.lookup d).getD 0)

-- ==== sorting

/-- A sort of a vector by a comparator that may fault. -/
structure VectorSort where
  sort : {α : Type} → (α → α → Except Fault Bool) → List α →
    Except Fault (List α)
  perm : ∀ {α : Type} (comp : α → α → Except Fault Bool) (xs ys : List α),
    sort comp xs = .ok ys → ys.Perm xs

/-- The inner loop of insertion sort: `key` moves down from the end of
the sorted front, given with its end first. -/
def insertBack {α : Type} (comp : α → α → Except Fault Bool) (key : α) :
    List α → Except Fault (List α)
  | [] => .ok [key]
  | x :: xs => do
    if ← comp key x then
      let xs ← insertBack comp key xs
      return x :: xs
    else return key :: x :: xs

/-- `algorithm::insertionSort`. -/
def insertionSort {α : Type} (comp : α → α → Except Fault Bool)
    (xs : List α) : Except Fault (List α) :=
  if xs.isEmpty then .error .outOfBounds
  else do
    let back ← xs.foldlM (fun front key => insertBack comp key front) []
    return back.reverse

-- ==== the graph

section Routing

variable {P : Platform Domain} {T : Graph.Digraph Domain}
variable (V : VectorSort) (g : RoutingGraph P T)
variable (orderMap : Option (List (Domain × Nat)))

/-- One vertex of `build`'s loop takes the colour of the next. -/
def colorVertex (color : Label Domain → RoutingNodeTriggerType)
    (l : Label Domain) :
    Except Fault (Label Domain → RoutingNodeTriggerType) :=
  match g.getVertexByLabel l with
  | none => .error (.assertion "Vertex must exist in routing graph")
  | some v =>
    match g.firstTarget v with
    | none => .ok color
    | some next => .ok (update color v (color next))

/-- `RoutingGraphBuilder::build`, over the domains the cache has. -/
def build (sortedDomains : List Domain) :
    Except Fault (RoutingGraph P T) := do
  let color ← (sortedDomains.reverse.flatMap (labelsOf P)).foldlM
    (colorVertex g) g.triggerType
  return { g with triggerType := color }

def isPureEmitter (P : Platform Domain) (l : Label Domain) : Bool :=
  !P.isInterruptReceiver l.domain

/-- The comparator of the edge list. -/
def edgeBefore (a b : Label Domain × Label Domain) : Except Fault Bool :=
  if a.2.domain = b.2.domain then .ok (a.2.index < b.2.index)
  else do
    let oa ← orderOf orderMap a.2.domain
    let ob ← orderOf orderMap b.2.domain
    return oa > ob

/-- The locals of `computeFinalVectorNumbers`, with the handler map it
adds to. -/
structure Numbers (Domain : Type) where
  finalVectorNumber : Label Domain → Option Nat
  registeredHandlers : Label Domain → Option (Option Nat)

/-- One edge of the loop: the source goes where the target goes, and a
pure emitter gets a placeholder unless it has an entry. -/
def assignVector (P : Platform Domain) (n : Numbers Domain)
    (edge : Label Domain × Label Domain) : Numbers Domain :=
  let final :=
    if edge.2.domain = P.vectorFile then
      update n.finalVectorNumber edge.2 (some edge.2.index)
    else n.finalVectorNumber
  { finalVectorNumber := update final edge.1 (final edge.2)
    registeredHandlers :=
      if isPureEmitter P edge.1 && (n.registeredHandlers edge.1).isNone then
        update n.registeredHandlers edge.1 (some none)
      else n.registeredHandlers }

def computeFinalVectorNumbers
    (registeredHandlers : Label Domain → Option (Option Nat)) :
    Except Fault (Numbers Domain) := do
  let edgeList ← V.sort (edgeBefore orderMap) g.edges
  return edgeList.foldl (assignVector P) ⟨fun _ => none, registeredHandlers⟩

-- ==== the handlers

/-- The tables `populateHandlerTable` works on. -/
structure Handlers (Domain : Type) where
  registeredHandlers : Label Domain → Option (Option Nat)
  handlersByVector : Nat → Option (List (Option Nat))

/-- One vertex: a pure emitter's pointer goes on its vector's list. -/
def pushHandler (P : Platform Domain)
    (finalVectorNumber : Label Domain → Option Nat)
    (h : Handlers Domain) (v : Label Domain) :
    Except Fault (Handlers Domain) :=
  if isPureEmitter P v then
    match finalVectorNumber v with
    | none => .error (.assertion
        "Emitter vertex has no vector assignment — routing policy left a source unrouted")
    | some vectorNumber =>
      if vectorNumber < CPU_INTERRUPT_COUNT then
        -- `operator[]` adds a missing entry, a null pointer
        let entry := (h.registeredHandlers v).getD none
        let list := (h.handlersByVector vectorNumber).getD []
        .ok {
          registeredHandlers := update h.registeredHandlers v (some entry)
          handlersByVector :=
            update h.handlersByVector vectorNumber (some (list ++ [entry])) }
      else .error .outOfBounds
  else .ok h

def populateHandlerTable (n : Numbers Domain) :
    Except Fault (Handlers Domain) :=
  g.vertices.foldlM (pushHandler P n.finalVectorNumber)
    ⟨n.registeredHandlers, fun _ => none⟩

-- ==== the masks

def maskReceiver (receiverMask : Label Domain → Option Bool)
    (l : Label Domain) : Except Fault (Label Domain → Option Bool) :=
  match g.getVertexByLabel l with
  | none => .error .nullDeref
  | some v =>
    .ok (update receiverMask l (some (g.firstTarget v).isNone))

def enableOnlyMappedInterrupts (receiverMask : Label Domain → Option Bool) :
    Except Fault (Label Domain → Option Bool) :=
  ((T.vertices.filter fun d =>
      P.isMaskableDomain d && P.isInterruptReceiver d).flatMap
    (labelsOf P)).foldlM (maskReceiver g) receiverMask

-- ==== EOIs

/-- The comparator of the source list. -/
def sourceBefore (a b : Label Domain × Nat) : Except Fault Bool :=
  if a.2 = b.2 then
    if a.1.domain = b.1.domain then .ok (a.1.index < b.1.index)
    else do
      let oa ← orderOf orderMap a.1.domain
      let ob ← orderOf orderMap b.1.domain
      return oa < ob
  else .ok (a.2 < b.2)

/-- The routed pure emitters with their vectors, the highest on top. -/
def getSourcesByResultingVector (vectorNumberMap : Label Domain → Option Nat) :
    Except Fault (List (Label Domain × Nat)) := do
  let out ← V.sort (sourceBefore orderMap) (g.vertices.filterMap fun v =>
      if isPureEmitter P v then (vectorNumberMap v).map fun n => (v, n)
      else none)
  return out.reverse

/-- The walk along a routing path, adding the EOI domains it meets. -/
def addPath : Nat → Label Domain → List Domain → Except Fault (List Domain)
  | 0, _, _ => .error .diverges
  | fuel + 1, v, eoiDomains =>
    let eoiDomains :=
      if P.isEOIDomain v.domain then eoiDomains.insert v.domain
      else eoiDomains
    match g.firstTarget v with
    | none => .ok eoiDomains
    | some w => addPath fuel w eoiDomains

/-- The loop of `buildChainForVector`. -/
def popSources (targetVector maxEOIDeviceCount : Nat) :
    List (Label Domain × Nat) → List Domain →
      Except Fault (List (Label Domain × Nat) × List Domain)
  | [], eoiDomains => .ok ([], eoiDomains)
  | (v, n) :: rest, eoiDomains =>
    if eoiDomains.length ≠ maxEOIDeviceCount ∧ n = targetVector then do
      let eoiDomains ← addPath g (g.edges.length + 1) v eoiDomains
      popSources targetVector maxEOIDeviceCount rest eoiDomains
    else .ok ((v, n) :: rest, eoiDomains)

def domainBefore (a b : Domain) :
    Except Fault Bool := do
  let oa ← orderOf orderMap a
  let ob ← orderOf orderMap b
  return oa < ob

def buildChainForVector (sortedInterruptSources : List (Label Domain × Nat))
    (targetVector maxEOIDeviceCount : Nat) :
    Except Fault (List (Label Domain × Nat) × EOIChain Domain) := do
  let (rest, eoiDomains) ← popSources g targetVector maxEOIDeviceCount
    sortedInterruptSources []
  if eoiDomains.isEmpty then return (rest, [])
  else
    let chain ← V.sort (domainBefore orderMap) eoiDomains
    return (rest, chain)

/-- The locals of `populateEOIBehaviorTable`. -/
structure Progress (Domain : Type) where
  orderedSources : List (Label Domain × Nat)
  eoiChains : List (EOIChain Domain × Nat)
  indices : Nat → Nat

/-- A chain that is new gets the next index. -/
def internChain (eoiChains : List (EOIChain Domain × Nat))
    (eoiChain : EOIChain Domain) : List (EOIChain Domain × Nat) :=
  if eoiChains.any fun p => p.1 == eoiChain then eoiChains
  else eoiChains ++ [(eoiChain, eoiChains.length)]

/-- The descending loop over the vectors below the first argument. -/
def indexChains (eoiDeviceLimit : Nat) :
    Nat → Progress Domain → Except Fault (Progress Domain)
  | 0, p => .ok p
  | i + 1, p => do
    let (rest, eoiChain) ← buildChainForVector V g orderMap p.orderedSources
      i eoiDeviceLimit
    let eoiChains := internChain p.eoiChains eoiChain
    match eoiChains.lookup eoiChain with
    | none => .error (.assertion "Key not found in HashMap::at()")
    | some index =>
      indexChains eoiDeviceLimit i
        ⟨rest, eoiChains, update p.indices i index⟩

/-- `eoiChainArray`, null where no entry was stored. -/
def chainArray (eoiChains : List (EOIChain Domain × Nat)) :
    Nat → Option (EOIChain Domain) :=
  eoiChains.foldl (fun a p => update a p.2 (some p.1)) fun _ => none

/-- The ascending loop that stores the table's entries. -/
def storeChain (chainOf : Nat → Option (EOIChain Domain))
    (table : EOITable Domain) (i : Nat) : Except Fault (EOITable Domain) :=
  match g.getVertexByLabel ⟨P.vectorFile, i⟩ with
  | none => .error (.assertion "Vertex does not exist")
  | some v => .ok (update table i ⟨g.triggerType v, chainOf i⟩)

def countEOIDomains (P : Platform Domain) (T : Graph.Digraph Domain) : Nat :=
  T.vertices.countP P.isEOIDomain

def populateEOIBehaviorTable (vectorNumberMap : Label Domain → Option Nat)
    (table : EOITable Domain) : Except Fault (EOITable Domain) := do
  let orderedSources ←
    getSourcesByResultingVector V g orderMap vectorNumberMap
  let p ← indexChains V g orderMap (countEOIDomains P T)
    CPU_INTERRUPT_COUNT ⟨orderedSources, [], fun _ => 0⟩
  (List.range CPU_INTERRUPT_COUNT).foldlM
    (storeChain g fun i => chainArray p.eoiChains (p.indices i)) table

end Routing

-- ==== the calls

variable {P : Platform Domain} (V : VectorSort) (policy : Policy P)

/-- The loop of `createRoutingGraphBuilder` over the domains. -/
def checkDomains (P : Platform Domain) (T : Graph.Digraph Domain) :
    Except Fault Unit :=
  if T.vertices.all fun d => P.isInterruptReceiver d || P.isInterruptEmitter d
  then .ok ()
  else .error (.assertion
    "Domain is neither receiver nor emitter - don't know what to do.")

/-- `updateRouting()`, with the final vector numbers. The later calls of
`topologicalOrderMap()` find what the one in `build` has left. -/
def updateRouting (s : State Domain Handler) :
    Except Fault (State Domain Handler × (Label Domain → Option Nat)) := do
  let (T, s) ← topologyGraph s
  checkDomains P T
  let g ← policy T
  let s ← recomputeTopologicalOrderIfNecessary s
  let g ← build g s.sortedDomains
  let n ← computeFinalVectorNumbers V g s.orderMap s.registeredHandlers
  let h ← populateHandlerTable g n
  let receiverMask ← enableOnlyMappedInterrupts g s.receiverMask
  let table ← populateEOIBehaviorTable V g s.orderMap n.finalVectorNumber
    s.eoiBehaviorTable
  return (releaseCachedTopologicalOrdering { s with
    registeredHandlers := h.registeredHandlers
    handlersByVector := h.handlersByVector
    receiverMask := receiverMask
    eoiBehaviorTable := table }, n.finalVectorNumber)

def registerHandler (interruptSource : Label Domain) (handler : Handler)
    (s : State Domain Handler) : Except Fault (State Domain Handler) :=
  match s.registeredHandlers interruptSource with
  | some none => .error .nullDeref
  | some (some ref) => .ok { s with handlers := s.handlers.set ref handler }
  | none => .ok { s with
      handlers := s.handlers ++ [handler]
      registeredHandlers := update s.registeredHandlers
        interruptSource (some (some s.handlers.length)) }

/-- `dispatchInterrupt`: the EOIs it issues and the handlers it runs. -/
def dispatchInterrupt (s : State Domain Handler) (vector : Nat) :
    List Domain × List Handler :=
  let behavior := s.eoiBehaviorTable vector
  (if behavior.triggerType = .TRIGGER_LEVEL then []
    else behavior.chain.getD [],
    ((s.handlersByVector vector).getD []).filterMap fun ref =>
      ref.bind fun r => s.handlers[r]?)

inductive Call (Domain Handler : Type)
  | registerDomain (d : Domain)
  | registerConnector (source target : Domain)
  | registerHandler (interruptSource : Label Domain) (handler : Handler)
  | updateRouting
  deriving DecidableEq, Repr

/-- One call; `updateRouting` answers with the final vector numbers. -/
def step (s : State Domain Handler) : Call Domain Handler →
      Except Fault (State Domain Handler × Option (Label Domain → Option Nat))
  | .registerDomain d => do
    let s ← registerDomain d s
    return (s, none)
  | .registerConnector source target => do
    let s ← registerConnector P source target s
    return (s, none)
  | .registerHandler l h => do
    let s ← registerHandler l h s
    return (s, none)
  | .updateRouting => do
    let (s, final) ← updateRouting V policy s
    return (s, some final)

end CroCOS.Interrupts.Manager
