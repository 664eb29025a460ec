/-
The graph builders of Core (core/GraphBuilder.h): the partial vertices
and edges a graph is put together from, and the restricted builder,
which asks a constraint before it adds an edge and lists the edges the
constraint still allows.

# Reading the model against the source

- A handle is an index into the builder's own vector; a handle of
  another builder, which every call rejects, is not modelled.
- `Traits` holds the template parameters the code branches on. A
  setter that the source only has for a decorated graph is there for
  every graph here: an undecorated one never looks at what it stores.
- `VertexEdgeIndexType` is a `uint32_t`, so the counts and indices the
  builder stores are taken modulo 2^32.
- An iterator is what is left of the enumeration it walks over, so the
  end is the empty list.
- The calls that set up a whole vertex or edge (`addVertex(label)`,
  `populateFromGraph`) are sequences of the calls here.
-/
import CroCOS.HashTable

namespace CroCOS.GraphBuilder

open HashTable (HashMap)

/-- A value stored in a `_GraphInternal::BasicIndex`. -/
def basicIndex (n : Nat) : Nat := n % 2 ^ 32

def invalidVertexEdgeIndex : Nat := 2 ^ 32 - 1

/-- What a graph type says about its decorations and its structure. -/
structure Traits (VL EL : Type) where
  vertexLabeled : Bool
  vertexColored : Bool
  edgeLabeled : Bool
  edgeWeighted : Bool
  is_directed : Bool
  is_simple_graph : Bool
  vertexHasher : VL → Nat
  edgeHasher : EL → Nat

variable {VL VC EL EW : Type} [DecidableEq VL] [DecidableEq EL]

-- ==== the partial graph

structure PartialVertexInfo (VL VC : Type) where
  label : Option VL
  color : Option VC
  index : Nat
  incomingEdgeCount : Nat
  outgoingEdgeCount : Nat
  firstOutgoingEdgeIndex : Nat
  firstIncomingEdgeIndex : Nat
  deriving DecidableEq, Repr

structure PartialEdgeInfo (EL EW : Type) where
  label : Option EL
  weight : Option EW
  fromVertexId : Nat
  toVertexId : Nat
  index : Nat
  nextEdgeForSource : Nat
  nextEdgeForTarget : Nat
  deriving DecidableEq, Repr

def PartialVertexInfo.fullyPopulated (t : Traits VL EL)
    (v : PartialVertexInfo VL VC) : Bool :=
  (!t.vertexLabeled || v.label.isSome)
    && (!t.vertexColored || v.color.isSome)

def PartialEdgeInfo.fullyPopulated (t : Traits VL EL)
    (e : PartialEdgeInfo EL EW) : Bool :=
  (!t.edgeLabeled || e.label.isSome)
    && (!t.edgeWeighted || e.weight.isSome)

/-- `GraphBuilderImpl`. -/
structure Builder (VL VC EL EW : Type) where
  vertexInfo : List (PartialVertexInfo VL VC)
  edgeInfo : List (PartialEdgeInfo EL EW)
  vertexLabelMap : HashMap VL Nat
  edgeLabelMap : HashMap EL Nat
  deriving DecidableEq, Repr

/-- A builder as constructed, and as `reset` leaves it. -/
def Builder.empty : Builder VL VC EL EW where
  vertexInfo := []
  edgeInfo := []
  vertexLabelMap := .create 16
  edgeLabelMap := .create 16

namespace Builder

variable (t : Traits VL EL) (b : Builder VL VC EL EW)

def validateVertexHandle (handle : Nat) : Except Fault Unit :=
  if handle < b.vertexInfo.length then .ok ()
  else .error (.assertion "Vertex handle index out of bounds")

def validateEdgeHandle (handle : Nat) : Except Fault Unit :=
  if handle < b.edgeInfo.length then .ok ()
  else .error (.assertion "Edge handle index out of bounds")

-- ==== vertices

def createVertex : Builder VL VC EL EW :=
  { b with
    vertexInfo := b.vertexInfo ++ [
      { label := none
        color := none
        index := basicIndex b.vertexInfo.length
        incomingEdgeCount := 0
        outgoingEdgeCount := 0
        firstOutgoingEdgeIndex := invalidVertexEdgeIndex
        firstIncomingEdgeIndex := invalidVertexEdgeIndex }] }

def modifyVertex (handle : Nat)
    (f : PartialVertexInfo VL VC → PartialVertexInfo VL VC) :
    Builder VL VC EL EW :=
  { b with vertexInfo := b.vertexInfo.modify handle f }

def modifyEdge (handle : Nat)
    (f : PartialEdgeInfo EL EW → PartialEdgeInfo EL EW) :
    Builder VL VC EL EW :=
  { b with edgeInfo := b.edgeInfo.modify handle f }

/-- The label map without the label an element has now, if it has
one. -/
def forgetLabel {L : Type} [DecidableEq L] (hasher : L → Nat)
    (map : HashMap L Nat) : Option L → Except Fault (HashMap L Nat)
  | none => .ok map
  | some old =>
    match HashMap.remove hasher map old with
    | .error e => .error e
    | .ok (map, _) => .ok map

/-- What `_setVertexLabel` and `_setEdgeLabel` do to the label map:
`none` if some element has the label already. -/
def relabel {L : Type} [DecidableEq L] (hasher : L → Nat)
    (map : HashMap L Nat) (old : Option L) (label : L) (handle : Nat) :
    Except Fault (Option (HashMap L Nat)) :=
  match HashTable.contains hasher Prod.fst map label with
  | .error e => .error e
  | .ok true => .ok none
  | .ok false =>
    match forgetLabel hasher map old with
    | .error e => .error e
    | .ok map =>
      match HashMap.insert hasher map label handle with
      | .error e => .error e
      | .ok map => .ok (some map)

def setVertexLabel (handle : Nat) (label : VL) :
    Except Fault (Builder VL VC EL EW × Bool) :=
  match b.vertexInfo[handle]? with
  | none => .error (.assertion "Vertex handle index out of bounds")
  | some vertex =>
    match relabel t.vertexHasher b.vertexLabelMap vertex.label label handle with
    | .error e => .error e
    | .ok none => .ok (b, false)
    | .ok (some map) =>
      .ok ({ b.modifyVertex handle fun v => { v with label := some label }
             with vertexLabelMap := map }, true)

def clearVertexLabel (handle : Nat) : Except Fault (Builder VL VC EL EW) :=
  match b.vertexInfo[handle]? with
  | none => .error (.assertion "Vertex handle index out of bounds")
  | some vertex =>
    match forgetLabel t.vertexHasher b.vertexLabelMap vertex.label with
    | .error e => .error e
    | .ok map =>
      .ok { b.modifyVertex handle fun v => { v with label := none }
            with vertexLabelMap := map }

def setVertexColor (handle : Nat) (color : VC) :
    Except Fault (Builder VL VC EL EW) :=
  match b.validateVertexHandle handle with
  | .error e => .error e
  | .ok () =>
    .ok (b.modifyVertex handle fun v => { v with color := some color })

-- ==== edges

/-- The edge joins the two vertices; in an undirected graph, in either
direction. -/
def joins (source target : Nat) (e : PartialEdgeInfo EL EW) : Bool :=
  (e.fromVertexId = source && e.toVertexId = target)
    || (!t.is_directed
      && (e.toVertexId = source && e.fromVertexId = target))

/-- `createEdge` on the vertices of two handles; answers the index of
the new edge. A self-loop's two vertices are one object, and it is
updated twice. -/
def createEdge (source target : Nat) :
    Except Fault (Builder VL VC EL EW × Nat) :=
  match b.vertexInfo[source]?, b.vertexInfo[target]? with
  | some sourceInfo, some targetInfo =>
    if t.is_simple_graph && b.edgeInfo.any
        (joins t sourceInfo.index targetInfo.index) then
      .error (.assertion "Duplicate edge in simple graph not allowed")
    else
      let edgeIndex := basicIndex b.edgeInfo.length
      let b₁ := b.modifyVertex source fun v =>
        { v with
          firstOutgoingEdgeIndex := edgeIndex
          outgoingEdgeCount := basicIndex (v.outgoingEdgeCount + 1) }
      let b₂ := b₁.modifyVertex target fun v =>
        { v with
          firstIncomingEdgeIndex := edgeIndex
          incomingEdgeCount := basicIndex (v.incomingEdgeCount + 1) }
      .ok ({ b₂ with
        edgeInfo := b.edgeInfo ++ [
          { label := none
            weight := none
            fromVertexId := sourceInfo.index
            toVertexId := targetInfo.index
            index := edgeIndex
            nextEdgeForSource := sourceInfo.firstOutgoingEdgeIndex
            nextEdgeForTarget := targetInfo.firstIncomingEdgeIndex }] },
        edgeIndex)
  | _, _ => .error (.assertion "Vertex handle index out of bounds")

def setEdgeLabel (handle : Nat) (label : EL) :
    Except Fault (Builder VL VC EL EW × Bool) :=
  match b.edgeInfo[handle]? with
  | none => .error (.assertion "Edge handle index out of bounds")
  | some edge =>
    match relabel t.edgeHasher b.edgeLabelMap edge.label label handle with
    | .error e => .error e
    | .ok none => .ok (b, false)
    | .ok (some map) =>
      .ok ({ b.modifyEdge handle fun e => { e with label := some label }
             with edgeLabelMap := map }, true)

def clearEdgeLabel (handle : Nat) : Except Fault (Builder VL VC EL EW) :=
  match b.edgeInfo[handle]? with
  | none => .error (.assertion "Edge handle index out of bounds")
  | some edge =>
    match forgetLabel t.edgeHasher b.edgeLabelMap edge.label with
    | .error e => .error e
    | .ok map =>
      .ok { b.modifyEdge handle fun e => { e with label := none }
            with edgeLabelMap := map }

def setEdgeWeight (handle : Nat) (weight : EW) :
    Except Fault (Builder VL VC EL EW) :=
  match b.validateEdgeHandle handle with
  | .error e => .error e
  | .ok () =>
    .ok (b.modifyEdge handle fun e => { e with weight := some weight })

/-- `RestrictedGraphBuilder::reset`: the vertices stay, and so do the
heads of their edge lists. -/
def resetEdges : Builder VL VC EL EW where
  vertexInfo := b.vertexInfo.map fun v =>
    { v with incomingEdgeCount := 0, outgoingEdgeCount := 0 }
  edgeInfo := []
  vertexLabelMap := b.vertexLabelMap
  edgeLabelMap := .create 16

/-- The first edge between the two vertices, by its index. -/
def findEdgeBetween (source target : Nat) : Except Fault (Option Nat) :=
  match b.validateVertexHandle source with
  | .error e => .error e
  | .ok () =>
    match b.validateVertexHandle target with
    | .error e => .error e
    | .ok () =>
      .ok ((b.edgeInfo.find? (joins t source target)).map (·.index))

def hasEdge (source target : Nat) : Except Fault Bool :=
  (b.findEdgeBetween t source target).map Option.isSome

end Builder

-- ==== the builder's calls

/-- The calls that change a builder. -/
inductive Call (VL VC EL EW : Type)
  | addVertex
  | setVertexLabel (handle : Nat) (label : VL)
  | clearVertexLabel (handle : Nat)
  | setVertexColor (handle : Nat) (color : VC)
  | addEdge (source target : Nat)
  | setEdgeLabel (handle : Nat) (label : EL)
  | clearEdgeLabel (handle : Nat)
  | setEdgeWeight (handle : Nat) (weight : EW)
  | reset
  | resetEdges

/-- One call, and whether it did what it was asked for: a label that is
taken is refused. -/
def step (t : Traits VL EL) (b : Builder VL VC EL EW) :
    Call VL VC EL EW → Except Fault (Builder VL VC EL EW × Bool)
  | .addVertex => .ok (b.createVertex, true)
  | .setVertexLabel handle label => b.setVertexLabel t handle label
  | .clearVertexLabel handle =>
    (b.clearVertexLabel t handle).map fun b => (b, true)
  | .setVertexColor handle color =>
    (b.setVertexColor handle color).map fun b => (b, true)
  | .addEdge source target =>
    (b.createEdge t source target).map fun p => (p.1, true)
  | .setEdgeLabel handle label => b.setEdgeLabel t handle label
  | .clearEdgeLabel handle =>
    (b.clearEdgeLabel t handle).map fun b => (b, true)
  | .setEdgeWeight handle weight =>
    (b.setEdgeWeight handle weight).map fun b => (b, true)
  | .reset => .ok (.empty, true)
  | .resetEdges => .ok (b.resetEdges, true)

-- ==== the restricted builder

/-- An `EdgeConstraint`: a test for one edge, and the two enumerations
that go with it. -/
structure Constraint (VL VC EL EW : Type) where
  isEdgeAllowed : Builder VL VC EL EW → Nat → Nat → Bool
  validEdgesFrom : Builder VL VC EL EW → Nat → List Nat
  validEdgesTo : Builder VL VC EL EW → Nat → List Nat

namespace RestrictedGraphBuilder

variable (t : Traits VL EL) (c : Constraint VL VC EL EW)
variable (b : Builder VL VC EL EW)

/-- The test for an existing edge, made for simple graphs only. -/
def alreadyJoined (source target : Nat) : Except Fault Bool :=
  if t.is_simple_graph then b.hasEdge t source target else .ok false

def canAddEdge (source target : Nat) : Except Fault Bool :=
  match b.validateVertexHandle source with
  | .error e => .error e
  | .ok () =>
    match b.validateVertexHandle target with
    | .error e => .error e
    | .ok () =>
      match alreadyJoined t b source target with
      | .error e => .error e
      | .ok true => .ok false
      | .ok false => .ok (c.isEdgeAllowed b source target)

-- ---------------------------------------- SimpleGraphFilteredIterator

/-- The rest of the `do … while` of `operator++`, after its first
`++iterator`. -/
def skipJoined (hasEdge : Nat → Except Fault Bool) :
    List Nat → Except Fault (List Nat)
  | [] => .ok []
  | w :: iterator =>
    match hasEdge w with
    | .error e => .error e
    | .ok true => skipJoined hasEdge iterator
    | .ok false => .ok (w :: iterator)

/-- `operator++`. -/
def advance (hasEdge : Nat → Except Fault Bool) :
    List Nat → Except Fault (List Nat)
  | [] => .ok []
  | _ :: iterator => skipJoined hasEdge iterator

/-- A loop over the range from `iterator` on: what it is given. Each
turn shortens what is left, so the length of that is fuel enough. -/
def enumerateFrom (hasEdge : Nat → Except Fault Bool) :
    Nat → List Nat → Except Fault (List Nat)
  | _, [] => .ok []
  | 0, _ :: _ => .error .diverges
  | fuel + 1, w :: iterator =>
    match advance hasEdge (w :: iterator) with
    | .error e => .error e
    | .ok iterator =>
      match enumerateFrom hasEdge fuel iterator with
      | .error e => .error e
      | .ok ws => .ok (w :: ws)

/-- A loop over a `SimpleGraphFilteredIteratorRange`: `begin()` is the
beginning of the constraint's own range. -/
def enumerate (hasEdge : Nat → Except Fault Bool) (range : List Nat) :
    Except Fault (List Nat) :=
  enumerateFrom hasEdge range.length range

/-- What a loop over `getValidEdgesFrom(vertex)` is given. -/
def getValidEdgesFrom (vertex : Nat) : Except Fault (List Nat) :=
  match b.validateVertexHandle vertex with
  | .error e => .error e
  | .ok () =>
    if t.is_simple_graph then
      enumerate (fun w => b.hasEdge t vertex w) (c.validEdgesFrom b vertex)
    else .ok (c.validEdgesFrom b vertex)

/-- What a loop over `getValidEdgesTo(vertex)` is given. -/
def getValidEdgesTo (vertex : Nat) : Except Fault (List Nat) :=
  match b.validateVertexHandle vertex with
  | .error e => .error e
  | .ok () =>
    if t.is_simple_graph then
      enumerate (fun w => b.hasEdge t w vertex) (c.validEdgesTo b vertex)
    else .ok (c.validEdgesTo b vertex)

end RestrictedGraphBuilder

end CroCOS.GraphBuilder
