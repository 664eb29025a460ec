/-
The finished graph (core/ds/Graph.h) and `buildGraph`, which makes one
from a builder (core/GraphBuilder.h): labels become the slots of an
immutable hash set, the edges of a vertex become two adjacent spans of
one incidence list.

# Reading the model against the source

- A heap array is a list, an access past its end is `outOfBounds`. An
  array from `new T[n]` holds `none` until something is stored; a read
  of that is also `outOfBounds`.
- `vertexLabels` and `edgeLabels` are the hash set that was moved in;
  of an unlabelled graph it is the empty table.
- `*optional` of a decoration is read after the check that every
  decoration is there.
- `check` is the predicate of the structure modifier, any one.
- A vertex and an edge of the graph are their indices; the pointer
  that ties them to the graph is not modelled.
- A loop over a range of the incidence list goes from index to index
  until it meets the end, so it runs off the list if the end is behind.
-/
import CroCOS.GraphBuilder

namespace CroCOS.GraphBuilder

open HashTable (HashSet IndexedHashTable)

variable {VL VC EL EW : Type} [DecidableEq VL] [DecidableEq EL]

-- ==== heap arrays

def load {α : Type} (buffer : List α) (i : Nat) : Except Fault α :=
  match buffer[i]? with
  | none => .error .outOfBounds
  | some a => .ok a

/-- A read of an array that was not initialised. -/
def loadStored {α : Type} (buffer : List (Option α)) (i : Nat) :
    Except Fault α :=
  match buffer[i]? with
  | some (some a) => .ok a
  | _ => .error .outOfBounds

def store {α : Type} (buffer : List α) (i : Nat) (a : α) :
    Except Fault (List α) :=
  if i < buffer.length then .ok (buffer.set i a)
  else .error .outOfBounds

/-- A loop of stores. -/
def storeAll {α : Type} (buffer : List α) (stores : List (Nat × α)) :
    Except Fault (List α) :=
  stores.foldlM (fun buffer s => store buffer s.1 s.2) buffer

-- ==== the graph

/-- The metadata of a vertex: where its edges lie in the incidence
list. -/
inductive VertexMetadata
  | directed (start fromSize toSize : Nat)
  | undirected (start size : Nat)
  deriving DecidableEq, Repr

namespace VertexMetadata

def fromStart : VertexMetadata → Nat
  | .directed start _ _ => start
  | .undirected start _ => start

def toStart : VertexMetadata → Nat
  | .directed start fromSize _ => basicIndex (start + fromSize)
  | .undirected start _ => start

def fromEnd : VertexMetadata → Nat
  | .directed start fromSize _ => basicIndex (start + fromSize)
  | .undirected start size => basicIndex (start + size)

def toEnd : VertexMetadata → Nat
  | .directed start fromSize toSize =>
    basicIndex (start + fromSize + toSize)
  | .undirected start size => basicIndex (start + size)

def outDegree : VertexMetadata → Nat
  | .directed _ fromSize _ => fromSize
  | .undirected _ size => size

def inDegree : VertexMetadata → Nat
  | .directed _ _ toSize => toSize
  | .undirected _ size => size

end VertexMetadata

structure EdgeMetadata where
  source : Nat
  target : Nat
  deriving DecidableEq, Repr

structure Graph (VL VC EL EW : Type) where
  vertexMetadata : List (Option VertexMetadata)
  incidenceLists : List (Option Nat)
  edgeMetadata : List (Option EdgeMetadata)
  vertexColors : List (Option VC)
  vertexLabels : HashSet VL
  vertexCount : Nat
  edgeWeights : List (Option EW)
  edgeLabels : HashSet EL
  edgeCount : Nat

/-- `ImmutableIndexedHashSet::indexOf`: the slot that holds the
element. -/
def indexOf {L : Type} [DecidableEq L] (hasher : L → Nat) (s : HashSet L)
    (element : L) : Except Fault (Option Nat) :=
  match HashTable.probeEntry hasher id s element with
  | .error e => .error e
  | .ok i =>
    match s.entries[i]? with
    | some (.occupied _) => .ok (some i)
    | _ => .ok none

/-- `*indexOf(element)`. -/
def slotOf {L : Type} [DecidableEq L] (hasher : L → Nat) (s : HashSet L)
    (element : L) : Except Fault Nat :=
  match indexOf hasher s element with
  | .error e => .error e
  | .ok none => .error (.assertion "Tried to dereference empty optional")
  | .ok (some i) => .ok i

/-- `*fromIndex(index)`. -/
def labelAt {L : Type} (s : HashSet L) (index : Nat) : Except Fault L :=
  match s.entries[index]? with
  | some (.occupied label) => .ok label
  | _ => .error .nullDeref

def valueOf {L : Type} : HashTable.Entry L → Option L
  | .occupied label => some label
  | _ => none

/-- A loop over the elements of the set, in the order of the slots. -/
def elementsOf {L : Type} (s : HashSet L) : List L :=
  s.entries.filterMap valueOf

namespace Graph

variable (t : Traits VL EL) (g : Graph VL VC EL EW)

/-- What a loop over `vertices()` is given. -/
def vertices : Except Fault (List Nat) :=
  if t.vertexLabeled then
    (elementsOf g.vertexLabels).mapM fun label =>
      (slotOf t.vertexHasher g.vertexLabels label).map basicIndex
  else .ok (List.range g.vertexCount)

/-- What a loop over `edges()` is given. -/
def edges : Except Fault (List Nat) :=
  if t.edgeLabeled then
    (elementsOf g.edgeLabels).mapM fun label =>
      (slotOf t.edgeHasher g.edgeLabels label).map basicIndex
  else .ok (List.range g.edgeCount)

def getVertexCount : Nat :=
  if t.vertexLabeled then g.vertexLabels.count else g.vertexCount

def getEdgeCount : Nat :=
  if t.edgeLabeled then g.edgeLabels.count else g.edgeCount

/-- A loop over the incidence list from `start` to `stop`. -/
def incident (start stop : Nat) : Except Fault (List Nat) :=
  if stop < start then .error .outOfBounds
  else (List.range' start (stop - start)).mapM (loadStored g.incidenceLists)

/-- What a loop over `outgoingEdges(v)` is given. -/
def outgoingEdges (v : Nat) : Except Fault (List Nat) :=
  match loadStored g.vertexMetadata v with
  | .error e => .error e
  | .ok metadata => g.incident metadata.fromStart metadata.fromEnd

/-- What a loop over `incomingEdges(v)` is given. -/
def incomingEdges (v : Nat) : Except Fault (List Nat) :=
  match loadStored g.vertexMetadata v with
  | .error e => .error e
  | .ok metadata => g.incident metadata.toStart metadata.toEnd

def outDegree (v : Nat) : Except Fault Nat :=
  (loadStored g.vertexMetadata v).map VertexMetadata.outDegree

def inDegree (v : Nat) : Except Fault Nat :=
  (loadStored g.vertexMetadata v).map VertexMetadata.inDegree

def getSource (e : Nat) : Except Fault Nat :=
  (loadStored g.edgeMetadata e).map EdgeMetadata.source

def getTarget (e : Nat) : Except Fault Nat :=
  (loadStored g.edgeMetadata e).map EdgeMetadata.target

def getVertexLabel (v : Nat) : Except Fault VL := labelAt g.vertexLabels v
def getVertexColor (v : Nat) : Except Fault VC := loadStored g.vertexColors v
def getEdgeLabel (e : Nat) : Except Fault EL := labelAt g.edgeLabels e
def getEdgeWeight (e : Nat) : Except Fault EW := loadStored g.edgeWeights e

end Graph

-- ==== buildGraph

/-- The set of the labels, `none` if two of them are equal. -/
def labelSet {L : Type} [DecidableEq L] (hasher : L → Nat)
    (labels : List L) : Except Fault (Option (HashSet L)) :=
  match labels.foldlM (fun s label =>
      (HashSet.insert hasher s label).map Prod.fst)
      (IndexedHashTable.create 16) with
  | .error e => .error e
  | .ok s => .ok (if s.count = labels.length then some s else none)

/-- The label set of a graph that may be unlabelled. -/
def labelSetIf {L : Type} [DecidableEq L] (labeled : Bool)
    (hasher : L → Nat) (labels : List L) :
    Except Fault (Option (HashSet L)) :=
  if labeled then labelSet hasher labels else .ok (some ⟨none, 0⟩)

/-- Identifiers for labelled elements, and the size of the arrays they
index. -/
def labelIds {L : Type} [DecidableEq L] (hasher : L → Nat)
    (s : HashSet L) (labels : List L) : Except Fault (List Nat × Nat) :=
  match labels.mapM fun label =>
      (slotOf hasher s label).map basicIndex with
  | .error e => .error e
  | .ok ids =>
    .ok (ids, ids.foldl (fun size id => max size (basicIndex (id + 1))) 0)

section Build

variable (t : Traits VL EL) (b : Builder VL VC EL EW)

def vertexIds (vertexLabels : HashSet VL) : Except Fault (List Nat × Nat) :=
  if t.vertexLabeled then
    labelIds t.vertexHasher vertexLabels (b.vertexInfo.filterMap (·.label))
  else
    .ok ((List.range b.vertexInfo.length).map basicIndex,
      basicIndex b.vertexInfo.length)

/-- The loop over unlabelled edges counts in a `BasicIndex`, which
never reaches a size of 2^32. -/
def edgeIds (edgeLabels : HashSet EL) : Except Fault (List Nat × Nat) :=
  if t.edgeLabeled then
    labelIds t.edgeHasher edgeLabels (b.edgeInfo.filterMap (·.label))
  else if b.edgeInfo.length < 2 ^ 32 then
    .ok (List.range b.edgeInfo.length, b.edgeInfo.length)
  else .error .diverges

/-- The array of a decoration that may not be there. -/
def decorate {α : Type} (decorated : Bool) (size : Nat)
    (ids : List Nat) (values : List (Option α)) :
    Except Fault (List (Option α)) :=
  if decorated then storeAll (List.replicate size none) (ids.zip values)
  else .ok []

/-- One turn of the loop over the edges that stores their endpoints. -/
def storeEndpoints (vertexIdMap : List Nat)
    (edgeMetadata : List (Option EdgeMetadata))
    (edge : Nat × PartialEdgeInfo EL EW) :
    Except Fault (List (Option EdgeMetadata)) := do
  let source ← load vertexIdMap edge.2.fromVertexId
  let target ← load vertexIdMap edge.2.toVertexId
  store edgeMetadata edge.1 (some ⟨source, target⟩)

/-- One turn of the loop that lays the vertices' spans end to end; the
state is the metadata and `currentIncidenceOffset`. -/
def laySpan (outgoingCounts incomingCounts : List Nat)
    (s : List (Option VertexMetadata) × Nat) (vertexId : Nat) :
    Except Fault (List (Option VertexMetadata) × Nat) := do
  let outgoing ← load outgoingCounts vertexId
  let incoming ← load incomingCounts vertexId
  let vertexMetadata ← store s.1 vertexId
    (some (if t.is_directed then .directed s.2 outgoing incoming
      else .undirected s.2 (basicIndex (outgoing + incoming))))
  return (vertexMetadata, basicIndex (s.2 + basicIndex (outgoing + incoming)))

/-- The incidence list while it is filled, with the two arrays of
cursors. -/
structure Cursors where
  incidenceLists : List (Option Nat)
  outgoingOffsets : List Nat
  incomingOffsets : List Nat

def placeOutgoing (vertexMetadata : List (Option VertexMetadata))
    (graphEdgeId : Nat) (s : Cursors) (vertex : Nat) :
    Except Fault Cursors := do
  let metadata ← loadStored vertexMetadata vertex
  let offset ← load s.outgoingOffsets vertex
  let outgoingOffsets ← store s.outgoingOffsets vertex (offset + 1)
  let incidenceLists ← store s.incidenceLists
    (metadata.fromStart + offset) (some graphEdgeId)
  return { s with
    incidenceLists := incidenceLists
    outgoingOffsets := outgoingOffsets }

def placeIncoming (vertexMetadata : List (Option VertexMetadata))
    (graphEdgeId : Nat) (s : Cursors) (vertex : Nat) :
    Except Fault Cursors := do
  let metadata ← loadStored vertexMetadata vertex
  let offset ← load s.incomingOffsets vertex
  let incomingOffsets ← store s.incomingOffsets vertex (offset + 1)
  let incidenceLists ← store s.incidenceLists
    (metadata.toStart + offset) (some graphEdgeId)
  return { s with
    incidenceLists := incidenceLists
    incomingOffsets := incomingOffsets }

/-- One turn of the loop that fills the incidence list. -/
def fillEdge (vertexIdMap : List Nat)
    (vertexMetadata : List (Option VertexMetadata)) (s : Cursors)
    (edge : Nat × PartialEdgeInfo EL EW) : Except Fault Cursors := do
  let fromVertex ← load vertexIdMap edge.2.fromVertexId
  let toVertex ← load vertexIdMap edge.2.toVertexId
  let s ← placeOutgoing vertexMetadata edge.1 s fromVertex
  if t.is_directed then placeIncoming vertexMetadata edge.1 s toVertex
  else placeOutgoing vertexMetadata edge.1 s toVertex

/-- `buildGraph` after its checks. -/
def assemble (vertexLabels : HashSet VL) (edgeLabels : HashSet EL) :
    Except Fault (Graph VL VC EL EW) := do
  let vertexIdMap ← vertexIds t b vertexLabels
  let edgeIdMap ← edgeIds t b edgeLabels
  let edgeWeights ← decorate t.edgeWeighted edgeIdMap.2 edgeIdMap.1
    (b.edgeInfo.map (·.weight))
  let vertexColors ← decorate t.vertexColored vertexIdMap.2 vertexIdMap.1
    (b.vertexInfo.map (·.color))
  let edgeMetadata ← (edgeIdMap.1.zip b.edgeInfo).foldlM
    (storeEndpoints vertexIdMap.1) (List.replicate edgeIdMap.2 none)
  let outgoingCounts ← storeAll (List.replicate vertexIdMap.2 0)
    (vertexIdMap.1.zip (b.vertexInfo.map (·.outgoingEdgeCount)))
  let incomingCounts ← storeAll (List.replicate vertexIdMap.2 0)
    (vertexIdMap.1.zip (b.vertexInfo.map (·.incomingEdgeCount)))
  let spans ← vertexIdMap.1.foldlM (laySpan t outgoingCounts incomingCounts)
    (List.replicate vertexIdMap.2 none, 0)
  let filled ← (edgeIdMap.1.zip b.edgeInfo).foldlM
    (fillEdge t vertexIdMap.1 spans.1)
    { incidenceLists := List.replicate spans.2 none
      outgoingOffsets := List.replicate vertexIdMap.2 0
      incomingOffsets := List.replicate vertexIdMap.2 0 }
  return {
    vertexMetadata := spans.1
    incidenceLists := filled.incidenceLists
    edgeMetadata := edgeMetadata
    vertexColors := vertexColors
    vertexLabels := vertexLabels
    vertexCount := vertexIdMap.2
    edgeWeights := edgeWeights
    edgeLabels := edgeLabels
    edgeCount := edgeIdMap.2 }

/-- Every vertex and every edge has the decorations the graph asks
for. -/
def complete : Bool :=
  b.vertexInfo.all (·.fullyPopulated t) && b.edgeInfo.all (·.fullyPopulated t)

/-- `buildGraph`: `none` if something is missing, if a label occurs
twice, or if the graph fails its predicate. -/
def buildGraph (check : Graph VL VC EL EW → Bool) :
    Except Fault (Option (Graph VL VC EL EW)) :=
  if complete t b then
    match labelSetIf t.vertexLabeled t.vertexHasher
        (b.vertexInfo.filterMap (·.label)) with
    | .error e => .error e
    | .ok none => .ok none
    | .ok (some vertexLabels) =>
      match labelSetIf t.edgeLabeled t.edgeHasher
          (b.edgeInfo.filterMap (·.label)) with
      | .error e => .error e
      | .ok none => .ok none
      | .ok (some edgeLabels) =>
        match assemble t b vertexLabels edgeLabels with
        | .error e => .error e
        | .ok graph => .ok (if check graph then some graph else none)
  else .ok none

end Build

end CroCOS.GraphBuilder
