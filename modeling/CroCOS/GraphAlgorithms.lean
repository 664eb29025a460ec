/-
Directed graphs as far as the interrupt code uses them: the acyclicity
check a graph has to pass when it is built
(core/algo/GraphPredicates.h, DirectedAcyclic) and the topological sort
(core/algo/GraphAlgorithms.h).

# Reading the model against the source

- A graph is its vertices and its edges, each in the order in which the
  source iterates over them. A vertex annotation is a function.
- The depth-first search recurses into a white vertex and makes it
  gray, so it is never deeper than there are vertices; `fuel` is that
  bound. Likewise each turn of the sort's loop takes out a vertex.
- The queue of the sort is pushed at the front and popped at the back;
  here its back comes first.
-/
import CroCOS.Fault

namespace CroCOS.Graph

open Function

structure Digraph (V : Type) where
  vertices : List V
  edges : List (V × V)
  deriving DecidableEq, Repr

variable {V : Type} [DecidableEq V]

namespace Digraph

variable (g : Digraph V)

/-- The targets of the outgoing edges. -/
def outgoing (v : V) : List V :=
  (g.edges.filter fun e => e.1 = v).map Prod.snd

def inDegree (v : V) : Nat := g.edges.countP fun e => e.2 = v

end Digraph

-- ==== acyclicity

namespace DirectedAcyclic

inductive Color
  | white
  | gray
  | black
  deriving DecidableEq, Repr

/-- The loop over the outgoing edges: a gray target closes a cycle, a
white one is searched. -/
def searchTargets
    (search : V → (V → Color) → Except Fault (Bool × (V → Color))) :
    List V → (V → Color) → Except Fault (Bool × (V → Color))
  | [], colors => .ok (false, colors)
  | target :: rest, colors =>
    match colors target with
    | .gray => .ok (true, colors)
    | .black => searchTargets search rest colors
    | .white =>
      match search target colors with
      | .error e => .error e
      | .ok (true, colors) => .ok (true, colors)
      | .ok (false, colors) => searchTargets search rest colors

def hasCycleDFS (g : Digraph V) :
    Nat → V → (V → Color) → Except Fault (Bool × (V → Color))
  | 0, _, _ => .error .diverges
  | fuel + 1, v, colors =>
    match searchTargets (hasCycleDFS g fuel) (g.outgoing v)
        (update colors v .gray) with
    | .error e => .error e
    | .ok (true, colors) => .ok (true, colors)
    | .ok (false, colors) => .ok (false, update colors v .black)

/-- The loop over the starting points. -/
def checkFrom (g : Digraph V) : List V → (V → Color) → Except Fault Bool
  | [], _ => .ok true
  | v :: rest, colors =>
    if colors v = .white then
      match hasCycleDFS g g.vertices.length v colors with
      | .error e => .error e
      | .ok (true, _) => .ok false
      | .ok (false, colors) => checkFrom g rest colors
    else checkFrom g rest colors

def check (g : Digraph V) : Except Fault Bool :=
  checkFrom g g.vertices fun _ => .white

end DirectedAcyclic

-- ==== topological sort

structure SortState (V : Type) where
  queue : List V
  inDegree : V → Nat
  result : List V

/-- One outgoing edge of the vertex that was taken out. -/
def relax (s : SortState V) (target : V) : SortState V :=
  let inDegree := update s.inDegree target (s.inDegree target - 1)
  { s with
    inDegree := inDegree
    queue := if inDegree target = 0 then s.queue ++ [target] else s.queue }

/-- The loop over the queue. -/
def sortFrom (g : Digraph V) : Nat → SortState V → Except Fault (List V)
  | fuel, s =>
    match s.queue with
    | [] => .ok s.result
    | current :: queue =>
      match fuel with
      | 0 => .error .diverges
      | fuel + 1 =>
        sortFrom g fuel ((g.outgoing current).foldl relax { s with
            queue := queue
            result := s.result ++ [current] })

def topologicalSort (g : Digraph V) : Except Fault (List V) :=
  sortFrom g g.vertices.length
    { queue := g.vertices.filter fun v => g.inDegree v = 0
      inDegree := g.inDegree
      result := [] }

end CroCOS.Graph
