/-
Trigger types over whole runs of the builder, and what `build` makes of
them.

`build` walks the domains from the last of the topological order to the
first and gives each vertex the colour of the next one on its path, so
a vertex gets the colour its path ends with: the next one belongs to a
later domain and has got it already (`colorDomains_spec`). That needs
the order. It is cached, and releasing the cache empties it without
setting the flag that would have it computed again; `build` then
colours nothing.
-/
import CroCOS.Proofs.InterruptRouting.AddEdge

namespace CroCOS.Interrupts.Routing

open Manager (Label)
open Lib RoutingNodeTriggerType

variable {Domain : Type} [DecidableEq Domain]

-- ==== the vertices in their order

namespace Topology

variable (T : Topology Domain)

theorem order_nodup : T.order.Nodup :=
  T.order_spec.2.perm.nodup_iff.mpr T.nodup

theorem mem_order {d : Domain} : d ∈ T.order ↔ d ∈ T.domains :=
  T.order_spec.2.perm.mem_iff

/-- From the last domain to the first, the ranks do not rise. -/
theorem labels_pairwise : (T.order.reverse.flatMap T.labelsOf).Pairwise
      fun u v => T.rank v ≤ T.rank u := by
  rw [List.pairwise_flatMap]
  constructor
  · intro d _
    refine List.pairwise_of_forall_mem_list ?_
    intro u hu v hv
    rw [rank, rank, (mem_labelsOf.mp hu).1, (mem_labelsOf.mp hv).1]
  · rw [List.pairwise_reverse, List.pairwise_iff_getElem]
    intro i j hi hj hij u hu v hv
    rw [rank, rank, (mem_labelsOf.mp hu).1, (mem_labelsOf.mp hv).1,
      T.order_nodup.idxOf_getElem, T.order_nodup.idxOf_getElem]
    exact hij.le

end Topology

namespace RoutingGraphBuilder

open RoutingConstraint

variable {T : Topology Domain} {b b' : RoutingGraphBuilder Domain}

-- ==== the colours

/-- In the topological order, every vertex gets the colour its path ends
with. -/
theorem colorDomains_spec (hb : Wired T b) :
    ∃ b', b.colorDomains T T.order = .ok b' ∧ b'.edges = b.edges
      ∧ ∀ v, b'.color v = if T.hasVertex v = true
          then b.color (pathEnd T b v) else b.color v := by
  have hmem : ∀ v, v ∈ T.order.reverse.flatMap T.labelsOf
      ↔ T.hasVertex v = true := by
    intro v
    rw [← Topology.mem_labels]
    simp only [List.mem_flatMap, List.mem_reverse, T.mem_order]
  have hnodup : (T.order.reverse.flatMap T.labelsOf).Nodup :=
    Topology.nodup_labels (List.nodup_reverse.mpr T.order_nodup)
  have hloop := foldlM_splits (f := colorVertex T)
    (I := fun done b' => b'.edges = b.edges
      ∧ ∀ v, b'.color v = if v ∈ done then b.color (pathEnd T b v)
          else b.color v)
    (l := T.order.reverse.flatMap T.labelsOf) (t := b) ?_
    ⟨rfl, by simp⟩
  · obtain ⟨b', hrun, hedges, hcolor⟩ := hloop
    refine ⟨b', hrun, hedges, fun v => ?_⟩
    rw [hcolor v]
    simp only [hmem]
  · rintro done v rest hl b₁ ⟨hedges, hcolor⟩
    have hv : T.hasVertex v = true := by
      rw [← hmem, hl]
      simp
    have hfresh : v ∉ done := by
      rw [hl, List.nodup_append] at hnodup
      intro hin
      exact hnodup.2.2 v hin v List.mem_cons_self rfl
    rw [colorVertex, if_pos hv, firstTarget_congr hedges]
    cases hnext : b.firstTarget v with
    | none =>
      refine ⟨b₁, rfl, hedges, fun u => ?_⟩
      rw [hcolor u]
      by_cases huv : u = v
      · subst huv
        simp [pathEnd_none hnext]
      · simp [huv]
    | some w =>
      -- the next vertex has its colour: its domain comes later
      have hw : w ∈ done := by
        have htarget := hb.target _ (mem_edges_of_firstTarget hnext)
        have hin := (hmem w).mpr htarget
        rw [hl, List.mem_append, List.mem_cons] at hin
        have hlt := hb.rises.rank_lt hnext
        have hpair := T.labels_pairwise
        rw [hl, List.pairwise_append, List.pairwise_cons] at hpair
        rcases hin with hin | rfl | hin
        · exact hin
        · exact absurd hlt (lt_irrefl _)
        · exact absurd (hpair.2.1.1 w hin) (by omega)
      refine ⟨_, rfl, hedges, fun u => ?_⟩
      rw [setVertexColor_color]
      by_cases huv : u = v
      · subst huv
        rw [Function.update_self, hcolor w, if_pos hw,
          ← hb.pathEnd_some hnext, if_pos (by simp)]
      · rw [Function.update_of_ne huv, hcolor u]
        simp [huv]

/-- The graph that is built passes the predicate of its structure. -/
theorem check_edges (hb : Wired T b) : Graph.DirectedAcyclic.check
      ⟨T.domains.flatMap T.labelsOf, b.edges.reverse⟩ = .ok true := by
  refine (Graph.DirectedAcyclic.check_iff
    ⟨Topology.nodup_labels T.nodup, ?_, ?_⟩).mpr
    ⟨fun v => T.domains.length - T.rank v, ?_⟩
  · intro e he
    exact Topology.mem_labels.mpr (hb.source e (List.mem_reverse.mp he))
  · intro e he
    exact Topology.mem_labels.mpr (hb.target e (List.mem_reverse.mp he))
  · intro e he
    have hin := List.mem_reverse.mp he
    have hlt := T.rank_lt (hb.follows e hin)
    have hbound := T.rank_lt_length
      (Topology.hasVertex_iff.mp (hb.target e hin)).1
    show T.domains.length - T.rank e.2 < T.domains.length - T.rank e.1
    omega

end RoutingGraphBuilder

/-- The cache gives the topological order: it is to be computed, or has
been and was not released since. -/
def OrderCache.Holds (cache : OrderCache Domain) (T : Topology Domain) : Prop :=
  cache.isTopologicalOrderDirty = true ∨ cache.sortedDomains = T.order

namespace RoutingGraphBuilder

variable {T : Topology Domain} {b b' : RoutingGraphBuilder Domain}

theorem build_spec (hb : Wired T b) {cache : OrderCache Domain}
    (hcache : cache.Holds T) :
    ∃ g cache', b.build T cache = .ok (some g, cache')
      ∧ ∀ v, T.hasVertex v = true → g.color v = b.color (pathEnd T b v) := by
  have hsorted : ∃ cache', cache.topologicallySortedDomains T
      = .ok (T.order, cache') := by
    rw [OrderCache.topologicallySortedDomains]
    split
    · rw [T.order_spec.1]
      exact ⟨_, rfl⟩
    · rename_i hclean
      refine ⟨cache, ?_⟩
      rw [hcache.resolve_left hclean]
  obtain ⟨cache', hsorted⟩ := hsorted
  obtain ⟨g, hrun, hedges, hcolor⟩ := colorDomains_spec hb
  have hcheck := check_edges (hb.congr hedges)
  refine ⟨g, cache', by simp only [build, hsorted, hrun, hcheck],
    fun v hv => ?_⟩
  rw [hcolor v, if_pos hv]

-- ==== every run

/-- Every run of calls on a new builder, whatever the topology: the
determined types along a path agree; an input that was configured keeps
its type, and has it as its component's; and `build`, where the cache
gives the topological order, gives every vertex the type its path ends
with. -/
theorem run_types_agree {calls : List (Call Domain)}
    {replies : List (Reply Domain)} {b₀ : RoutingGraphBuilder Domain}
    (hcreate : createRoutingGraphBuilder T = .ok b₀)
    (hrun : run (step T) b₀ calls = .ok (b, replies)) :
    (∀ v, ∀ x ∈ path T b v, ∀ y ∈ path T b v,
        (b.color x).triggerType ≠ TRIGGER_UNDETERMINED →
        (b.color y).triggerType ≠ TRIGGER_UNDETERMINED →
          (b.color x).triggerType = (b.color y).triggerType)
      ∧ (∀ v, (T.kind v.domain).isReceiver = true →
          T.configuredType v ≠ TRIGGER_UNDETERMINED →
            ∃ b', b.getConnectedComponentTriggerType T v
              = .ok (T.configuredType v, b'))
      ∧ ∀ cache : OrderCache Domain, cache.Holds T →
          ∃ g cache', b.build T cache = .ok (some g, cache')
            ∧ ∀ v, T.hasVertex v = true → ∀ last,
                (path T b v).getLast? = some last →
                  ∀ x ∈ path T b v, (g.color x).triggerType
                    = (b.color last).triggerType := by
  have hb := run_sound (createRoutingGraphBuilder_sound hcreate).1 hrun
  refine ⟨?_, ?_, ?_⟩
  · intro v x hx y hy hxt hyt
    rw [hb.typed.stored x hxt, hb.typed.stored y hyt, componentType,
      componentType, hb.wired.pathEnd_of_mem hx, hb.wired.pathEnd_of_mem hy]
  · intro v hkind hconf
    obtain ⟨b', hquery, -, -⟩ := getConnectedComponentTriggerType_spec hb v
    have hstored := hb.typed.configured v hkind hconf
    refine ⟨b', ?_⟩
    rw [hquery, ← hb.typed.stored v (by rw [hstored]; exact hconf), hstored]
  · intro cache hcache
    obtain ⟨g, cache', hbuild, hcolor⟩ := build_spec hb.wired hcache
    refine ⟨g, cache', hbuild, fun v hv last hlast x hx => ?_⟩
    rw [path, getLast?_walk] at hlast
    cases hlast
    have hxv : T.hasVertex x = true := hb.wired.forall_mem_path
      (P := fun u => T.hasVertex u = true) hv hb.wired.target x hx
    rw [hcolor x hxv, hb.wired.pathEnd_of_mem hx]
    rfl

/-- A device, 0, behind a freely routable domain, 1, that can be joined to
the edge triggered input of 2. -/
def edgeInput : Topology Nat :=
  .ofAffine (fun d => if d = 0 then .emitter
      else if d = 1 then .freeRoutable else .receiver)
    (fun _ => 1) (fun _ => 1) (fun d _ => if d = 2 then some .EDGE_HIGH
      else none)
    [0, 1, 2] [⟨0, 1, 0, 0, 1, false⟩, ⟨1, 2, 0, 0, 1, false⟩]
    (by decide) (by decide) (by decide) (by decide) (by decide)

/-- The router is joined to the input, the type of the device is asked
for, and the graph built. -/
theorem run_types_agree_edgeInput :
    ∃ b₀ b, createRoutingGraphBuilder edgeInput = .ok b₀
      ∧ run (step edgeInput) b₀ [.addEdge ⟨1, 0⟩ ⟨2, 0⟩,
          .getConnectedComponentTriggerType ⟨0, 0⟩]
        = .ok (b, [.added true, .triggerType TRIGGER_EDGE])
      ∧ OrderCache.Holds ⟨true, []⟩ edgeInput
      ∧ ∃ g cache', b.build edgeInput ⟨true, []⟩ = .ok (some g, cache')
          ∧ (g.color ⟨0, 0⟩).triggerType
            = (b.color ⟨2, 0⟩).triggerType := by
  have hruns : Returns (fun b₀ => Returns (fun p =>
          p.2 = [.added true, .triggerType TRIGGER_EDGE]
          ∧ path edgeInput p.1 ⟨0, 0⟩ = [⟨0, 0⟩, ⟨1, 0⟩, ⟨2, 0⟩])
        (run (step edgeInput) b₀ [.addEdge ⟨1, 0⟩ ⟨2, 0⟩,
          .getConnectedComponentTriggerType ⟨0, 0⟩]))
      (createRoutingGraphBuilder edgeInput) := by decide +kernel
  obtain ⟨b₀, hcreate, hrest⟩ := hruns.exists_ok
  obtain ⟨⟨b, _⟩, hrun, rfl, hpath⟩ := hrest.exists_ok
  obtain ⟨g, cache', hbuild, htype⟩ :=
    (run_types_agree hcreate hrun).2.2 ⟨true, []⟩ (Or.inl rfl)
  refine ⟨b₀, b, hcreate, hrun, Or.inl rfl, g, cache', hbuild,
    htype ⟨0, 0⟩ (by decide) _ ?_ _ ?_⟩
  · rw [hpath]
    rfl
  · rw [hpath]
    exact List.mem_cons_self

/-- A device, `false`, whose output is wired to a level triggered
input. -/
def levelInput : Topology Bool :=
  .ofAffine (fun d => if d then .receiver else .emitter) (fun _ => 1)
    (fun _ => 1) (fun d _ => if d then some .LEVEL_HIGH else none)
    [false, true] [⟨false, true, 0, 0, 1, false⟩]
    (by decide) (by decide) (by decide) (by decide) (by decide)

/-- The graph is built, the cache is released, and the graph is built
again over the same topology: this time the device does not get the
type its path ends with. -/
theorem build_after_release :
    ∃ b g cache g', createRoutingGraphBuilder levelInput = .ok b
      ∧ b.build levelInput ⟨true, []⟩ = .ok (some g, cache)
      ∧ (g.color ⟨false, 0⟩).triggerType = TRIGGER_LEVEL
      ∧ b.build levelInput cache.releaseCachedTopologicalOrdering
        = .ok (some g', cache.releaseCachedTopologicalOrdering)
      ∧ path levelInput b ⟨false, 0⟩ = [⟨false, 0⟩, ⟨true, 0⟩]
      ∧ (b.color ⟨true, 0⟩).triggerType = TRIGGER_LEVEL
      ∧ (g'.color ⟨false, 0⟩).triggerType = TRIGGER_UNDETERMINED := by
  have hruns : Returns (fun b => Returns (fun p => Returns
          (fun q => p.1.isSome = true ∧ q.1.isSome = true
            ∧ (∀ g ∈ p.1, (g.color ⟨false, 0⟩).triggerType = TRIGGER_LEVEL)
            ∧ (∀ g' ∈ q.1, (g'.color ⟨false, 0⟩).triggerType
              = TRIGGER_UNDETERMINED)
            ∧ q.2 = p.2.releaseCachedTopologicalOrdering
            ∧ path levelInput b ⟨false, 0⟩ = [⟨false, 0⟩, ⟨true, 0⟩]
            ∧ (b.color ⟨true, 0⟩).triggerType = TRIGGER_LEVEL)
          (b.build levelInput p.2.releaseCachedTopologicalOrdering))
        (b.build levelInput ⟨true, []⟩))
      (createRoutingGraphBuilder levelInput) := by decide +kernel
  obtain ⟨b, hcreate, hrest⟩ := hruns.exists_ok
  obtain ⟨⟨g, cache⟩, hbuild, hrest⟩ := hrest.exists_ok
  obtain ⟨⟨g', cache'⟩, hbuild', hg, hg', htyped, huntyped, rfl, hends⟩ :=
    hrest.exists_ok
  obtain ⟨g, rfl⟩ := Option.isSome_iff_exists.mp hg
  obtain ⟨g', rfl⟩ := Option.isSome_iff_exists.mp hg'
  exact ⟨b, g, cache, g', hcreate, hbuild, htyped g rfl, hbuild', hends.1,
    hends.2, huntyped g' rfl⟩

end RoutingGraphBuilder

end CroCOS.Interrupts.Routing
