/-
The paths of a routing graph. Every edge follows a connector of the
topology and no vertex has two of them (`Wired`), so the edges leaving
the vertices are a pointer that rises in the topological order of the
domains (`Wired.rises`), and each vertex has one path with one end. An
edge more makes the paths that ended at its source go on
(`path_addEdge`, `pathEnd_addEdge`).
-/
import CroCOS.InterruptRouting
import CroCOS.Lib.Run
import CroCOS.Lib.Walk
import CroCOS.Proofs.GraphAlgorithms

namespace CroCOS.Interrupts.Routing

open Lib Function

open CroCOS.Graph (IsTopologicalOrder topologicalSort topologicalSort_spec)
open Manager (Label)

variable {Domain : Type} [DecidableEq Domain]
variable {d d' : Domain}
variable {c : DomainConnector Domain}

-- ==== the order of domains

namespace Topology

variable (T : Topology Domain)

theorem graph_wf : T.graph.Wf where
  nodup := T.nodup
  source := by
    intro e he
    obtain ⟨c, hc, rfl⟩ := List.mem_map.mp he
    exact T.source_mem c hc
  target := by
    intro e he
    obtain ⟨c, hc, rfl⟩ := List.mem_map.mp he
    exact T.target_mem c hc

/-- The topological order that the source computes. -/
def order : List Domain := (topologicalSort T.graph).toOption.getD []

theorem order_spec : topologicalSort T.graph = .ok T.order
      ∧ IsTopologicalOrder T.graph T.order := by
  obtain ⟨order, hsort, horder⟩ := topologicalSort_spec T.graph_wf
    ((Graph.DirectedAcyclic.check_iff T.graph_wf).mp T.acyclic)
  have he : T.order = order := by simp [Topology.order, hsort, Except.toOption]
  rw [he]
  exact ⟨hsort, horder⟩

/-- The place of a vertex's domain in the order. -/
def rank (v : Label Domain) : Nat := T.order.idxOf v.domain

theorem rank_lt {v w : Label Domain}
    (h : (v.domain, w.domain) ∈ T.graph.edges) : T.rank v < T.rank w :=
  T.order_spec.2.ascends _ h

theorem rank_lt_length {v : Label Domain} (hv : v.domain ∈ T.domains) :
    T.rank v < T.domains.length := by
  have hperm := T.order_spec.2.perm
  have hmem : v.domain ∈ T.order := hperm.mem_iff.mpr hv
  rw [show T.domains.length = T.order.length from hperm.length_eq.symm]
  exact List.idxOf_lt_length_of_mem hmem

variable {T}

theorem hasVertex_iff {l : Label Domain} : T.hasVertex l = true
      ↔ l.domain ∈ T.domains ∧ l.index < T.vertexCount l.domain := by
  simp [hasVertex]

theorem mem_labelsOf {v : Label Domain} :
    v ∈ T.labelsOf d ↔ v.domain = d ∧ v.index < T.vertexCount d := by
  simp only [labelsOf, List.mem_map, List.mem_range]
  constructor
  · rintro ⟨j, hj, rfl⟩
    exact ⟨rfl, hj⟩
  · rintro ⟨rfl, hj⟩
    exact ⟨v.index, hj, rfl⟩

theorem mem_labels {v : Label Domain} :
    v ∈ T.domains.flatMap T.labelsOf ↔ T.hasVertex v = true := by
  simp only [List.mem_flatMap, mem_labelsOf, hasVertex_iff]
  constructor
  · rintro ⟨d, hd, rfl, hi⟩
    exact ⟨hd, hi⟩
  · rintro ⟨hd, hi⟩
    exact ⟨v.domain, hd, rfl, hi⟩

theorem nodup_labelsOf (d : Domain) : (T.labelsOf d).Nodup := by
  refine List.nodup_range.map ?_
  intro j j' h
  exact (Label.mk.inj h).2

theorem nodup_labels {ds : List Domain} (h : ds.Nodup) :
    (ds.flatMap T.labelsOf).Nodup := by
  rw [List.nodup_flatMap]
  refine ⟨fun d _ => nodup_labelsOf d, h.imp ?_⟩
  intro d d' hne v hv hv'
  apply hne
  rw [← (mem_labelsOf.mp hv).1, ← (mem_labelsOf.mp hv').1]

theorem findEdge_some (h : T.findEdge d d' = some c) :
    c ∈ T.connectors ∧ c.source = d ∧ c.target = d' := by
  have hp := List.find?_some h
  simp only [Bool.and_eq_true, decide_eq_true_eq] at hp
  exact ⟨List.mem_of_find?_eq_some h, hp⟩

theorem isReceiver_of_mem_graph (h : (d, d') ∈ T.graph.edges) :
    (T.kind d').isReceiver = true := by
  obtain ⟨c, hc, he⟩ := List.mem_map.mp h
  rw [← (Prod.mk.inj he).2]
  exact T.target_receives c hc

theorem isEmitter_of_mem_graph (h : (d, d') ∈ T.graph.edges) :
    (T.kind d).isEmitter = true := by
  obtain ⟨c, hc, he⟩ := List.mem_map.mp h
  rw [← (Prod.mk.inj he).1]
  exact T.source_emits c hc

theorem mem_graph_of_findEdge (h : T.findEdge d d' = some c) :
    (d, d') ∈ T.graph.edges := by
  obtain ⟨hc, rfl, rfl⟩ := findEdge_some h
  exact List.mem_map.mpr ⟨c, hc, rfl⟩

end Topology

-- ==== the wired graph

namespace RoutingGraphBuilder

/-- The edges join vertices along the topology, at most one from
each. -/
structure Wired (T : Topology Domain) (b : RoutingGraphBuilder Domain) :
    Prop where
  source : ∀ e ∈ b.edges, T.hasVertex e.1 = true
  target : ∀ e ∈ b.edges, T.hasVertex e.2 = true
  follows : ∀ e ∈ b.edges, (e.1.domain, e.2.domain) ∈ T.graph.edges
  functional : (b.edges.map Prod.fst).Nodup

variable {T : Topology Domain} {b b' : RoutingGraphBuilder Domain}
variable {v w : Label Domain}

theorem firstTarget_congr (h : b'.edges = b.edges) :
    b'.firstTarget = b.firstTarget := by
  funext v
  rw [firstTarget, firstTarget, h]

theorem hasEdge_congr (h : b'.edges = b.edges) :
    b'.hasEdge v w = b.hasEdge v w := by
  rw [hasEdge, hasEdge, h]

@[simp] theorem setVertexColor_edges (b : RoutingGraphBuilder Domain)
    (v : Label Domain) (color : RoutingNodeMetadata Domain) :
    (b.setVertexColor v color).edges = b.edges := rfl

@[simp] theorem setVertexColor_color (b : RoutingGraphBuilder Domain)
    (v : Label Domain) (color : RoutingNodeMetadata Domain) :
    (b.setVertexColor v color).color = update b.color v color :=
  rfl

theorem mem_edges_of_firstTarget (h : b.firstTarget v = some w) :
    (v, w) ∈ b.edges := by
  obtain ⟨e, he, hw⟩ := Option.map_eq_some_iff.mp h
  have hv := List.find?_some he
  simp only [decide_eq_true_eq] at hv
  subst hv hw
  exact List.mem_of_find?_eq_some he

theorem firstTarget_eq_none :
    b.firstTarget v = none ↔ ∀ e ∈ b.edges, e.1 ≠ v := by
  simp [firstTarget]

/-- The new edge is the first of its source. -/
theorem firstTarget_cons (b : RoutingGraphBuilder Domain) (s t : Label Domain) :
    ({ b with edges := (s, t) :: b.edges }
        : RoutingGraphBuilder Domain).firstTarget
      = update b.firstTarget s (some t) := by
  funext v
  by_cases hv : v = s
  · subst hv
    simp [firstTarget]
  · rw [update_of_ne hv]
    simp [firstTarget, Ne.symm hv]

namespace Wired

theorem congr (h : Wired T b) (he : b'.edges = b.edges) : Wired T b' := by
  constructor
  · rw [he]; exact h.source
  · rw [he]; exact h.target
  · rw [he]; exact h.follows
  · rw [he]; exact h.functional

/-- The pointer to the next vertex rises in the order of domains. -/
theorem rises (h : Wired T b) :
    Rises b.firstTarget T.rank T.domains.length where
  rank_lt := by
    intro v w hvw
    exact T.rank_lt (h.follows _ (mem_edges_of_firstTarget hvw))
  bounded := by
    intro v w hvw
    have hw := h.target _ (mem_edges_of_firstTarget hvw)
    exact T.rank_lt_length (Topology.hasVertex_iff.mp hw).1

/-- One more edge, from a vertex that has none. -/
theorem cons (h : Wired T b) {s t : Label Domain}
    (hs : T.hasVertex s = true) (ht : T.hasVertex t = true)
    (hst : (s.domain, t.domain) ∈ T.graph.edges)
    (hfree : b.firstTarget s = none) (he : b'.edges = (s, t) :: b.edges) :
    Wired T b' := by
  constructor
  · rw [he]
    exact List.forall_mem_cons.mpr ⟨hs, h.source⟩
  · rw [he]
    exact List.forall_mem_cons.mpr ⟨ht, h.target⟩
  · rw [he]
    exact List.forall_mem_cons.mpr ⟨hst, h.follows⟩
  · rw [he]
    refine List.nodup_cons.mpr ⟨?_, h.functional⟩
    intro hmem
    obtain ⟨e, hin, hes⟩ := List.mem_map.mp hmem
    exact firstTarget_eq_none.mp hfree e hin hes

end Wired

-- ==== the paths

/-- The vertices from `v` on. -/
def path (T : Topology Domain) (b : RoutingGraphBuilder Domain)
    (v : Label Domain) : List (Label Domain) :=
  walk b.firstTarget T.domains.length v

/-- The last vertex of the path from `v`. -/
def pathEnd (T : Topology Domain) (b : RoutingGraphBuilder Domain)
    (v : Label Domain) : Label Domain :=
  terminal b.firstTarget T.domains.length v

theorem path_congr (h : b'.edges = b.edges) : path T b' v = path T b v := by
  rw [path, path, firstTarget_congr h]

theorem pathEnd_congr (h : b'.edges = b.edges) :
    pathEnd T b' v = pathEnd T b v := by
  rw [pathEnd, pathEnd, firstTarget_congr h]

theorem path_none (h : b.firstTarget v = none) : path T b v = [v] :=
  walk_none h _

theorem pathEnd_none (h : b.firstTarget v = none) : pathEnd T b v = v :=
  terminal_none h _

namespace Wired

theorem path_some (hb : Wired T b) (h : b.firstTarget v = some w) :
    path T b v = v :: path T b w :=
  hb.rises.walk_some h

theorem pathEnd_some (hb : Wired T b) (h : b.firstTarget v = some w) :
    pathEnd T b v = pathEnd T b w :=
  hb.rises.terminal_some h

theorem firstTarget_pathEnd (hb : Wired T b) (v : Label Domain) :
    b.firstTarget (pathEnd T b v) = none :=
  hb.rises.next_terminal v

theorem pathEnd_of_mem (hb : Wired T b) (hw : w ∈ path T b v) :
    pathEnd T b w = pathEnd T b v :=
  hb.rises.terminal_of_mem hw

/-- What holds at a vertex and at every target holds along its path. -/
theorem forall_mem_path (hb : Wired T b) {P : Label Domain → Prop}
    (hv : P v) (htargets : ∀ e ∈ b.edges, P e.2) :
    ∀ x ∈ path T b v, P x := by
  induction v using hb.rises.induct with
  | hstep v ih =>
    intro x hx
    cases hnext : b.firstTarget v with
    | none =>
      rw [path_none hnext, List.mem_singleton] at hx
      rw [hx]
      exact hv
    | some w =>
      rw [hb.path_some hnext, List.mem_cons] at hx
      rcases hx with rfl | hx
      · exact hv
      · exact ih w hnext (htargets _ (mem_edges_of_firstTarget hnext)) x hx

section Cons

variable {s t : Label Domain} (hb : Wired T b) (hb' : Wired T b')
variable (hfree : b.firstTarget s = none)
variable (he : b'.edges = (s, t) :: b.edges)

include he in
theorem firstTarget_eq_update :
    b'.firstTarget = update b.firstTarget s (some t) := by
  rw [← firstTarget_cons b s t]
  exact firstTarget_congr he

include hb hb' hfree he in
/-- The paths that ended at the source of the new edge go on. -/
theorem path_addEdge (v : Label Domain) : path T b' v
      = if pathEnd T b v = s then path T b v ++ path T b t
        else path T b v := by
  have hrises := hb'.rises
  rw [firstTarget_eq_update he] at hrises
  unfold path pathEnd
  rw [firstTarget_eq_update he]
  exact hb.rises.walk_update hrises hfree v

include hb hb' hfree he in
theorem pathEnd_addEdge (v : Label Domain) : pathEnd T b' v
      = if pathEnd T b v = s then pathEnd T b t else pathEnd T b v := by
  have hrises := hb'.rises
  rw [firstTarget_eq_update he] at hrises
  unfold pathEnd
  rw [firstTarget_eq_update he]
  exact hb.rises.terminal_update hrises hfree v

include hb hb' he in
theorem pathEnd_target_ne : pathEnd T b t ≠ s := by
  have hrises := hb'.rises
  rw [firstTarget_eq_update he] at hrises
  exact hb.rises.terminal_ne_of_update hrises

end Cons

end Wired

end RoutingGraphBuilder

end CroCOS.Interrupts.Routing
