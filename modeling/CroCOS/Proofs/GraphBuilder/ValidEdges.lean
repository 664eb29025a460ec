/-
The enumerations of a restricted builder over a simple graph. A loop
over `getValidEdgesFrom` is given the first vertex of the constraint's
enumeration as it is, and of the others those that are not joined yet:
only `operator++` looks at the existing edges, `begin()` does not. So
the loop is given the targets that can be added exactly if the first
one can.
-/
import CroCOS.GraphBuilder

namespace CroCOS.GraphBuilder

variable {VL VC EL EW : Type}
variable {t : Traits VL EL} {c : Constraint VL VC EL EW}
variable {b : Builder VL VC EL EW}
variable {range : List Nat} {v w : Nat}

namespace Builder

theorem validateVertexHandle_of_lt (hv : v < b.vertexInfo.length) :
    b.validateVertexHandle v = .ok () :=
  if_pos hv

/-- `hasEdge` between two vertices of the builder. -/
theorem hasEdge_eq (hv : v < b.vertexInfo.length)
    (hw : w < b.vertexInfo.length) :
    b.hasEdge t v w = .ok (b.edgeInfo.any (joins t v w)) := by
  simp only [hasEdge, findEdgeBetween, validateVertexHandle_of_lt hv,
    validateVertexHandle_of_lt hw, Except.map, Option.isSome_map]
  rw [Except.ok.injEq, Bool.eq_iff_iff, List.find?_isSome, List.any_eq_true]

end Builder

namespace RestrictedGraphBuilder

-- ==== the filtered range

section Range

variable {hasEdge : Nat → Except Fault Bool} {joined : Nat → Bool}

/-- From `operator++` on, the loop is given what is not joined. -/
theorem skipJoined_enumerateFrom
    (hjoined : ∀ w ∈ range, hasEdge w = .ok (joined w)) :
    ∀ fuel, range.length ≤ fuel →
      (skipJoined hasEdge range >>= enumerateFrom hasEdge fuel)
        = .ok (range.filter fun w => !joined w) := by
  induction range with
  | nil =>
    intro fuel _
    simp [skipJoined, enumerateFrom]
  | cons w range ih =>
    have hw := hjoined w List.mem_cons_self
    have hrest : ∀ w' ∈ range, hasEdge w' = .ok (joined w') :=
      fun w' hw' => hjoined w' (List.mem_cons_of_mem _ hw')
    intro fuel hfuel
    cases hj : joined w with
    | true =>
      simp only [skipJoined, hw, List.filter_cons, hj]
      exact ih hrest fuel (by simp at hfuel; omega)
    | false =>
      cases fuel with
      | zero => simp at hfuel
      | succ fuel =>
        have ih := ih hrest fuel (by simpa using hfuel)
        simp only [skipJoined, hw, ok_bind, enumerateFrom, advance,
          List.filter_cons, hj]
        cases hskip : skipJoined hasEdge range with
        | error e => rw [hskip] at ih; cases ih
        | ok iterator =>
          rw [hskip, ok_bind] at ih
          simp [ih]

/-- The first position is given unseen, the others are filtered. -/
theorem enumerate_cons (hjoined : ∀ w' ∈ range, hasEdge w' = .ok (joined w')) :
    enumerate hasEdge (w :: range)
      = .ok (w :: range.filter fun w' => !joined w') := by
  have hrest := skipJoined_enumerateFrom hjoined range.length le_rfl
  simp only [enumerate, List.length_cons, enumerateFrom, advance]
  cases hskip : skipJoined hasEdge range with
  | error e => rw [hskip] at hrest; cases hrest
  | ok iterator =>
    rw [hskip, ok_bind] at hrest
    simp [hrest]

/-- The condition on a range: its first vertex, if it has one, is not
joined yet. -/
def FirstUnjoined (hasEdge : Nat → Except Fault Bool)
    (range : List Nat) : Prop :=
  ∀ w ∈ range.head?, hasEdge w = .ok false

/-- The loop is given exactly the unjoined vertices of the range if and
only if the first one is unjoined. -/
theorem enumerate_exact_iff {CanAdd : Nat → Prop}
    (hjoined : ∀ w ∈ range, hasEdge w = .ok (joined w))
    (hcan : ∀ w, CanAdd w ↔ w ∈ range ∧ joined w = false) :
    (∃ ws, enumerate hasEdge range = .ok ws ∧ ∀ w, w ∈ ws ↔ CanAdd w)
      ↔ FirstUnjoined hasEdge range := by
  cases range with
  | nil => simp [enumerate, enumerateFrom, FirstUnjoined, hcan]
  | cons first range =>
    have hfirst := hjoined first List.mem_cons_self
    rw [enumerate_cons fun w hw => hjoined w (List.mem_cons_of_mem _ hw)]
    simp only [FirstUnjoined, List.head?_cons, Option.mem_some_iff,
      forall_eq', hfirst, Except.ok.injEq, exists_eq_left', hcan,
      List.mem_cons, List.mem_filter, Bool.not_eq_true']
    constructor
    · intro h
      exact ((h first).mp (Or.inl rfl)).2
    · intro h w
      constructor
      · rintro (rfl | hw)
        · exact ⟨Or.inl rfl, h⟩
        · exact ⟨Or.inr hw.1, hw.2⟩
      · rintro ⟨rfl | hw, hj⟩
        · exact Or.inl rfl
        · exact Or.inr ⟨hw, hj⟩

end Range

-- ==== the builder's two ranges

/-- The constraint's enumerations list the vertices its test accepts,
and nothing else. -/
structure Exact (c : Constraint VL VC EL EW) : Prop where
  source : ∀ b v w, v < b.vertexInfo.length → (w ∈ c.validEdgesFrom b v
      ↔ w < b.vertexInfo.length ∧ c.isEdgeAllowed b v w = true)
  target : ∀ b v w, v < b.vertexInfo.length → (w ∈ c.validEdgesTo b v
      ↔ w < b.vertexInfo.length ∧ c.isEdgeAllowed b w v = true)

theorem canAddEdge_iff (ht : t.is_simple_graph = true) :
    canAddEdge t c b v w = .ok true
      ↔ (v < b.vertexInfo.length ∧ w < b.vertexInfo.length)
        ∧ c.isEdgeAllowed b v w = true
        ∧ b.edgeInfo.any (Builder.joins t v w) = false := by
  by_cases hv : v < b.vertexInfo.length
  · by_cases hw : w < b.vertexInfo.length
    · cases hj : b.edgeInfo.any (Builder.joins t v w) with
      | true | false =>
        simp [canAddEdge, alreadyJoined, ht, Builder.hasEdge_eq hv hw, hj,
          Builder.validateVertexHandle, hv, hw]
    · simp [canAddEdge, Builder.validateVertexHandle, hv, hw]
  · simp [canAddEdge, Builder.validateVertexHandle, hv]

/-- Both enumerations of a builder over a simple graph, under an exact
constraint: each is the vertices `canAddEdge` accepts exactly if the
first vertex the constraint lists is not joined yet. -/
theorem getValidEdges_exact_iff (ht : t.is_simple_graph = true)
    (hc : Exact c) (b : Builder VL VC EL EW) {v : Nat}
    (hv : v < b.vertexInfo.length) :
    ((∃ ws, getValidEdgesFrom t c b v = .ok ws
        ∧ ∀ w, w ∈ ws ↔ canAddEdge t c b v w = .ok true)
      ↔ FirstUnjoined (fun w => b.hasEdge t v w) (c.validEdgesFrom b v))
    ∧ ((∃ ws, getValidEdgesTo t c b v = .ok ws
        ∧ ∀ w, w ∈ ws ↔ canAddEdge t c b w v = .ok true)
      ↔ FirstUnjoined (fun w => b.hasEdge t w v) (c.validEdgesTo b v)) := by
  constructor
  · simp only [getValidEdgesFrom, Builder.validateVertexHandle_of_lt hv, ht]
    refine enumerate_exact_iff (fun w hw => Builder.hasEdge_eq hv
      ((hc.source b v w hv).mp hw).1) fun w => ?_
    rw [canAddEdge_iff ht, hc.source b v w hv]
    tauto
  · simp only [getValidEdgesTo, Builder.validateVertexHandle_of_lt hv, ht]
    refine enumerate_exact_iff (fun w hw => Builder.hasEdge_eq
      ((hc.target b v w hv).mp hw).1 hv) fun w => ?_
    rw [canAddEdge_iff ht, hc.target b v w hv]
    tauto

-- ==== a vertex already joined

/-- Undecorated directed simple graphs. -/
def plainTraits : Traits Unit Unit where
  vertexLabeled := false
  vertexColored := false
  edgeLabeled := false
  edgeWeighted := false
  is_directed := true
  is_simple_graph := true
  vertexHasher := fun _ => 0
  edgeHasher := fun _ => 0

/-- The constraint that forbids self-loops and nothing else, and lists
the other vertices in the builder's order. -/
def distinctVertices : Constraint Unit Unit Unit Unit where
  isEdgeAllowed := fun _ v w => v != w
  validEdgesFrom := fun b v =>
    (List.range b.vertexInfo.length).filter fun w => v != w
  validEdgesTo := fun b v =>
    (List.range b.vertexInfo.length).filter fun w => w != v

theorem distinctVertices_exact : Exact distinctVertices where
  source b v w _ := by simp [distinctVertices]
  target b v w _ := by simp [distinctVertices]

/-- Three vertices and the edges given. -/
def threeVertices (edges : List (Nat × Nat)) :
    Except Fault (Builder Unit Unit Unit Unit) :=
  edges.foldlM (fun b e => (b.createEdge plainTraits e.1 e.2).map Prod.fst)
    Builder.empty.createVertex.createVertex.createVertex

/-- Vertex 0 is joined to vertex 2 only, which comes last in its
enumeration: both conditions hold for it. -/
theorem getValidEdges_exact_iff_lastJoined : ∃ b, threeVertices [(0, 2)] = .ok b
      ∧ (∃ ws, getValidEdgesFrom plainTraits distinctVertices b 0 = .ok ws
        ∧ ∀ w, w ∈ ws
          ↔ canAddEdge plainTraits distinctVertices b 0 w = .ok true)
      ∧ ∃ ws, getValidEdgesTo plainTraits distinctVertices b 0 = .ok ws
        ∧ ∀ w, w ∈ ws
          ↔ canAddEdge plainTraits distinctVertices b w 0 = .ok true := by
  have hreach : Lib.Returns (fun b : Builder Unit Unit Unit Unit =>
      0 < b.vertexInfo.length
      ∧ FirstUnjoined (fun w => b.hasEdge plainTraits 0 w)
          (distinctVertices.validEdgesFrom b 0)
      ∧ FirstUnjoined (fun w => b.hasEdge plainTraits w 0)
          (distinctVertices.validEdgesTo b 0))
      (threeVertices [(0, 2)]) := by
    refine ⟨by decide, ?_, ?_⟩
    · intro w hw
      cases hw
      decide
    · intro w hw
      cases hw
      decide
  obtain ⟨b, hb, hv, hsource, htarget⟩ := hreach.exists_ok
  have h := getValidEdges_exact_iff (t := plainTraits) rfl
    distinctVertices_exact b hv
  exact ⟨b, hb, h.1.mpr hsource, h.2.mpr htarget⟩

/-- Vertex 0 is joined to vertex 1, the first of its enumeration: the
loop is given vertex 1 all the same. -/
theorem getValidEdgesFrom_firstJoined : Exact distinctVertices
    ∧ ∃ b, threeVertices [(0, 1)] = .ok b
      ∧ getValidEdgesFrom plainTraits distinctVertices b 0 = .ok [1, 2]
      ∧ canAddEdge plainTraits distinctVertices b 0 1 = .ok false :=
  ⟨distinctVertices_exact, by decide⟩

end RestrictedGraphBuilder

end CroCOS.GraphBuilder
