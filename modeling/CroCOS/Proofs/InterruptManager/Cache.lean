/-
The topology cache between the calls: what each flag promises, and what
`updateRouting` finds.

At a call boundary the order's flag is down and the order is released
(or no graph was ever built), and a graph that is not dirty is the one
registered (`Cached`). So `updateRouting` computes an order exactly when
it has to build the graph; the order is then a topological one, of the
domains registered (`Cached.order_built`).
-/
import CroCOS.InterruptManager
import CroCOS.Proofs.GraphAlgorithms
import CroCOS.Lib.Run

namespace CroCOS.Interrupts.Manager

open CroCOS.Graph (topologicalSort IsTopologicalOrder)
open Lib

variable {Domain Handler : Type} [DecidableEq Domain]
variable {P : Platform Domain} {V : VectorSort} {policy : Policy P}
variable {s s' : State Domain Handler}
variable {c : Call Domain Handler} {final : Label Domain → Option Nat}
variable {r : Option (Label Domain → Option Nat)}

-- ==== the invariant

/-- `updateRouting` will build the graph: something was registered since
it last did, or it never did. -/
def Stale (s : State Domain Handler) : Prop :=
  s.isGraphDirty = true ∨ s.cachedGraph = none

omit [DecidableEq Domain] in
instance : Decidable (Stale s) := inferInstanceAs (Decidable (_ ∨ _))

structure Cached (P : Platform Domain) (s : State Domain Handler) : Prop where
  wf : s.builder.Wf
  emits : ∀ e ∈ s.builder.edges, P.isInterruptEmitter e.1 = true
  settled : s.isTopologicalOrderDirty = false
  sorted : s.sortedDomains = []
  released : s.cachedGraph ≠ none → s.orderMap = none
  current : s.isGraphDirty = false → s.cachedGraph ≠ none →
    s.cachedGraph = some s.builder
  grows : ∀ T, s.cachedGraph = some T → ∀ d ∈ T.vertices, d ∈ s.builder.vertices

omit [DecidableEq Domain] in
theorem Cached.boot : Cached P (State.boot : State Domain Handler) where
  wf := ⟨List.nodup_nil, by simp [State.boot], by simp [State.boot]⟩
  emits := by simp [State.boot]
  settled := rfl
  sorted := rfl
  released := fun h => absurd rfl h
  current := fun _ h => absurd rfl h
  grows := fun _ h => by cases h

/-- A domain is registered once. -/
theorem registerDomain_inv {d : Domain} (h : registerDomain d s = .ok s') :
    d ∉ s.builder.vertices ∧ s' = { s with
      builder := { s.builder with vertices := s.builder.vertices ++ [d] }
      isGraphDirty := true } := by
  unfold registerDomain at h
  by_cases hd : d ∈ s.builder.vertices
  · rw [if_pos hd] at h
    cases h
  · rw [if_neg hd] at h
    cases h
    exact ⟨hd, rfl⟩

theorem Cached.registerDomain {d : Domain} (hc : Cached P s)
    (h : registerDomain d s = .ok s') : Cached P s' := by
  obtain ⟨hd, rfl⟩ := registerDomain_inv h
  refine ⟨⟨?_, ?_, ?_⟩, hc.emits, hc.settled, hc.sorted, hc.released,
    (fun hx => by cases hx), ?_⟩
  · exact List.nodup_append.mpr ⟨hc.wf.nodup, List.nodup_singleton d,
      fun a ha b hb hab => hd (by
        rw [← List.mem_singleton.mp hb, ← hab]
        exact ha)⟩
  · exact fun e he => List.mem_append_left _ (hc.wf.source e he)
  · exact fun e he => List.mem_append_left _ (hc.wf.target e he)
  · exact fun T hT d hd => List.mem_append_left _ (hc.grows T hT d hd)

/-- What `registerConnector` has checked. -/
theorem registerConnector_inv {source target : Domain}
    (h : registerConnector P source target s = .ok s') :
    source ∈ s.builder.vertices ∧ target ∈ s.builder.vertices
      ∧ P.isInterruptEmitter source = true
      ∧ s' = { s with
          builder := { s.builder with
            edges := s.builder.edges ++ [(source, target)] }
          isGraphDirty := true } := by
  unfold registerConnector at h
  split_ifs at h with h₁ h₂ h₃ h₄
  cases h
  rw [not_or, not_not, not_not] at h₁
  rw [Bool.not_eq_true', Bool.not_eq_false] at h₂
  exact ⟨h₁.1, h₁.2, h₂, rfl⟩

theorem Cached.registerConnector {source target : Domain}
    (hc : Cached P s) (h : registerConnector P source target s = .ok s') :
    Cached P s' := by
  obtain ⟨hsource, htarget, hemits, rfl⟩ := registerConnector_inv h
  have hcases : ∀ {e : Domain × Domain},
      e ∈ s.builder.edges ++ [(source, target)] →
      e ∈ s.builder.edges ∨ e = (source, target) := fun he =>
    (List.mem_append.mp he).imp_right List.mem_singleton.mp
  refine ⟨⟨hc.wf.nodup, ?_, ?_⟩, ?_, hc.settled, hc.sorted, hc.released,
    (fun hx => by cases hx), hc.grows⟩
  · intro e he
    cases hcases he with
    | inl he => exact hc.wf.source e he
    | inr he => rw [he]; exact hsource
  · intro e he
    cases hcases he with
    | inl he => exact hc.wf.target e he
    | inr he => rw [he]; exact htarget
  · intro e he
    cases hcases he with
    | inl he => exact hc.emits e he
    | inr he => rw [he]; exact hemits

/-- A handler is written through its pointer, or is a new one. -/
theorem registerHandler_inv {l : Label Domain} {handler : Handler}
    (h : registerHandler l handler s = .ok s') :
    (∃ ref, s.registeredHandlers l = some (some ref)
        ∧ s' = { s with handlers := s.handlers.set ref handler })
      ∨ (s.registeredHandlers l = none
        ∧ s' = { s with
            handlers := s.handlers ++ [handler]
            registeredHandlers := Function.update s.registeredHandlers l
              (some (some s.handlers.length)) }) := by
  unfold registerHandler at h
  cases hr : s.registeredHandlers l with
  | none =>
    simp only [hr] at h
    cases h
    exact .inr ⟨rfl, rfl⟩
  | some entry =>
    cases entry with
    | none =>
      simp only [hr] at h
      cases h
    | some ref =>
      simp only [hr] at h
      cases h
      exact .inl ⟨ref, rfl, rfl⟩

theorem Cached.registerHandler {l : Label Domain} {handler : Handler}
    (hc : Cached P s) (h : registerHandler l handler s = .ok s') :
    Cached P s' := by
  cases registerHandler_inv h with
  | inl h =>
    obtain ⟨ref, -, rfl⟩ := h
    exact ⟨hc.wf, hc.emits, hc.settled, hc.sorted, hc.released, hc.current,
      hc.grows⟩
  | inr h =>
    obtain ⟨-, rfl⟩ := h
    exact ⟨hc.wf, hc.emits, hc.settled, hc.sorted, hc.released, hc.current,
      hc.grows⟩

-- ==== the order it uses

/-- The state once the graph has been built. -/
def built (s : State Domain Handler) : State Domain Handler :=
  { s with
    isTopologicalOrderDirty := true
    cachedGraph := some s.builder
    isGraphDirty := false }

/-- The state once the order has been computed. -/
def ordered (s : State Domain Handler) (sorted : List Domain) :
    State Domain Handler :=
  { s with
    sortedDomains := sorted
    orderMap := if sorted.isEmpty then none else some sorted.zipIdx
    isTopologicalOrderDirty := false
    cachedGraph := some s.builder
    isGraphDirty := false }

theorem topologyGraph_of_stale (h : Stale s) : topologyGraph s = (do
      let acyclic ← Graph.DirectedAcyclic.check s.builder
      if acyclic then .ok (s.builder, built s) else .error .nullDeref) := by
  have hcond : (s.isGraphDirty || s.cachedGraph.isNone) = true := by
    rw [Bool.or_eq_true, Option.isNone_iff_eq_none]
    exact h
  unfold topologyGraph getTopologyGraph buildTopology
  rw [if_pos hcond]
  cases Graph.DirectedAcyclic.check s.builder with
  | error e => rfl
  | ok acyclic =>
    cases acyclic with
    | false | true => rfl

omit [DecidableEq Domain] in
theorem Cached.builder_of_not_stale (hc : Cached P s) (h : ¬ Stale s) :
    s.isGraphDirty = false ∧ s.cachedGraph = some s.builder := by
  rw [Stale, not_or, Bool.not_eq_true] at h
  exact ⟨h.1, hc.current h.1 h.2⟩

theorem Cached.topologyGraph_of_not_stale (hc : Cached P s)
    (h : ¬ Stale s) : topologyGraph s = .ok (s.builder, s) := by
  obtain ⟨hdirty, hgraph⟩ := hc.builder_of_not_stale h
  have hget : getTopologyGraph s = .ok s := by
    unfold getTopologyGraph
    rw [hdirty, hgraph]
    rfl
  simp only [topologyGraph, hget, bind, Except.bind, hgraph]
  rfl

theorem recompute_built : recomputeTopologicalOrderIfNecessary (built s) = (do
      let sorted ← topologicalSort s.builder
      return ordered s sorted) := by
  rfl

theorem Cached.recompute (hc : Cached P s) :
    recomputeTopologicalOrderIfNecessary s = .ok s := by
  unfold recomputeTopologicalOrderIfNecessary
  rw [hc.settled]
  rfl

/-- A graph that is built is acyclic, and its order is topological. -/
theorem Cached.order_built (hc : Cached P s)
    (h : Graph.DirectedAcyclic.check s.builder = .ok true) :
    ∃ sorted, topologicalSort s.builder = .ok sorted
      ∧ IsTopologicalOrder s.builder sorted :=
  Graph.topologicalSort_spec hc.wf
    ((Graph.DirectedAcyclic.check_iff hc.wf).mp h)

/-- What `updateRouting` starts from: the topology registered, and its
order unless the graph is the cached one. -/
theorem Cached.topologyGraph_inv {T : Graph.Digraph Domain}
    {s₁ : State Domain Handler} (hc : Cached P s)
    (h : topologyGraph s = .ok (T, s₁)) :
    T = s.builder ∧ ∃ s₂, recomputeTopologicalOrderIfNecessary s₁ = .ok s₂
      ∧ (s₂ = s ∧ s.cachedGraph = some s.builder ∧ s.isGraphDirty = false
        ∨ ∃ sorted, IsTopologicalOrder s.builder sorted
          ∧ s₂ = ordered s sorted) := by
  by_cases hstale : Stale s
  · rw [topologyGraph_of_stale hstale] at h
    obtain ⟨acyclic, hcheck, h⟩ := bind_inv h
    cases acyclic with
    | false => cases h
    | true =>
      cases h
      obtain ⟨sorted, hsort, horder⟩ := hc.order_built hcheck
      refine ⟨rfl, ordered s sorted, ?_, .inr ⟨sorted, horder, rfl⟩⟩
      rw [recompute_built, hsort]
      rfl
  · rw [hc.topologyGraph_of_not_stale hstale] at h
    cases h
    obtain ⟨hdirty, hgraph⟩ := hc.builder_of_not_stale hstale
    exact ⟨rfl, s, hc.recompute, .inl ⟨rfl, hgraph, hdirty⟩⟩

-- ==== the calls

/-- What an `updateRouting` that returns has done. -/
theorem updateRouting_inv (h : updateRouting V policy s = .ok (s', final)) :
    ∃ T s₁ s₂ n hd receiverMask table, ∃ g₀ g : RoutingGraph P T,
      topologyGraph s = .ok (T, s₁)
      ∧ policy T = .ok g₀
      ∧ recomputeTopologicalOrderIfNecessary s₁ = .ok s₂
      ∧ build g₀ s₂.sortedDomains = .ok g
      ∧ computeFinalVectorNumbers V g s₂.orderMap s₂.registeredHandlers
        = .ok n
      ∧ populateHandlerTable g n = .ok hd
      ∧ enableOnlyMappedInterrupts g s₂.receiverMask = .ok receiverMask
      ∧ populateEOIBehaviorTable V g s₂.orderMap n.finalVectorNumber
        s₂.eoiBehaviorTable = .ok table
      ∧ final = n.finalVectorNumber
      ∧ s' = releaseCachedTopologicalOrdering { s₂ with
          registeredHandlers := hd.registeredHandlers
          handlersByVector := hd.handlersByVector
          receiverMask := receiverMask
          eoiBehaviorTable := table } := by
  obtain ⟨⟨T, s₁⟩, hT, h⟩ := bind_inv h
  obtain ⟨-, -, h⟩ := bind_inv h
  obtain ⟨g₀, hg₀, h⟩ := bind_inv h
  obtain ⟨s₂, hs₂, h⟩ := bind_inv h
  obtain ⟨g, hg, h⟩ := bind_inv h
  obtain ⟨n, hn, h⟩ := bind_inv h
  obtain ⟨hd, hhd, h⟩ := bind_inv h
  obtain ⟨receiverMask, hmask, h⟩ := bind_inv h
  obtain ⟨table, htable, h⟩ := bind_inv h
  cases h
  exact ⟨T, s₁, s₂, n, hd, receiverMask, table, g₀, g, hT, hg₀, hs₂, hg, hn,
    hhd, hmask, htable, rfl, rfl⟩

theorem Cached.updateRouting (hc : Cached P s)
    (h : updateRouting V policy s = .ok (s', final)) : Cached P s' := by
  obtain ⟨T, s₁, s₂, n, hd, receiverMask, table, g₀, g, hT, -, hs₂, -, -, -,
    -, -, -, rfl⟩ := updateRouting_inv h
  obtain ⟨-, s₃, hs₃, hcases⟩ := hc.topologyGraph_inv hT
  rw [hs₂] at hs₃
  cases hs₃
  rcases hcases with ⟨rfl, hgraph, -⟩ | ⟨sorted, -, rfl⟩
  · exact ⟨hc.wf, hc.emits, hc.settled, rfl, fun _ => rfl, hc.current, hc.grows⟩
  · exact ⟨hc.wf, hc.emits, rfl, rfl, fun _ => rfl, fun _ _ => rfl,
      fun T hT d hd => by cases hT; exact hd⟩

/-- The calls one by one, for an invariant of the run. -/
theorem step_inv (h : step V policy s c = .ok (s', r)) :
    (∃ d, c = .registerDomain d ∧ registerDomain d s = .ok s')
      ∨ (∃ a b, c = .registerConnector a b
        ∧ registerConnector P a b s = .ok s')
      ∨ (∃ l f, c = .registerHandler l f ∧ registerHandler l f s = .ok s')
      ∨ (∃ final, c = .updateRouting
        ∧ updateRouting V policy s = .ok (s', final) ∧ r = some final) := by
  cases c with
  | registerDomain d =>
    obtain ⟨t, ht, h⟩ := bind_inv h
    cases h
    exact .inl ⟨d, rfl, ht⟩
  | registerConnector a b =>
    obtain ⟨t, ht, h⟩ := bind_inv h
    cases h
    exact .inr (.inl ⟨a, b, rfl, ht⟩)
  | registerHandler l f =>
    obtain ⟨t, ht, h⟩ := bind_inv h
    cases h
    exact .inr (.inr (.inl ⟨l, f, rfl, ht⟩))
  | updateRouting =>
    obtain ⟨⟨t, final⟩, ht, h⟩ := bind_inv h
    cases h
    exact .inr (.inr (.inr ⟨final, rfl, ht, rfl⟩))

theorem Cached.step (hc : Cached P s) (h : step V policy s c = .ok (s', r)) :
    Cached P s' := by
  rcases step_inv h with ⟨d, -, h⟩ | ⟨a, b, -, h⟩ | ⟨l, f, -, h⟩ |
    ⟨final, -, h, -⟩
  · exact hc.registerDomain h
  · exact hc.registerConnector h
  · exact hc.registerHandler h
  · exact hc.updateRouting h

end CroCOS.Interrupts.Manager
