/-
The constraint's test and `addEdge`, over sound builders.

The test returns `allowed`, which reads the edges, the components' types
and the owners along paths, and leaves a builder with the same answers
(`isEdgeAllowedImpl_spec`). `addEdge` adds the edge exactly if it is
allowed and its source has none (`addEdge_spec`), leaves a sound builder
(`Sound.addEdge`), and gives the type of a typed source to the path of
an untyped target and to nothing else (`Adds`). So every run from
`createRoutingGraphBuilder` is sound (`createRoutingGraphBuilder_sound`,
`run_sound`).
-/
import CroCOS.Proofs.InterruptRouting.Sound

namespace CroCOS.Interrupts.Routing

open Manager (Label)
open Lib Function RoutingNodeTriggerType

variable {Domain : Type} [DecidableEq Domain]
variable {T : Topology Domain} {b b' : RoutingGraphBuilder Domain}
variable {s t v : Label Domain}

namespace RoutingConstraint

open RoutingGraphBuilder

-- ==== the test

def ownerAllows (T : Topology Domain) (b : RoutingGraphBuilder Domain)
    (s t : Label Domain) : Bool :=
  !(T.kind s.domain).isRoutable
    || (ownerAlong T.exclusiveOwner (path T b t) = none
      ∨ ownerAlong T.exclusiveOwner (path T b t) = some s.domain)

def connectorAllows (T : Topology Domain)
    (b : RoutingGraphBuilder Domain) (s t : Label Domain) : Bool :=
  match T.findEdge s.domain t.domain with
  | none => false
  | some c =>
    match c.receiverToEmitter t.index with
    | none => false
    | some emitterIndex =>
      ownerAllows T b s t && subtypeAllows T b c s t emitterIndex

def typesAllow (T : Topology Domain) (b : RoutingGraphBuilder Domain)
    (s t : Label Domain) : Bool :=
  areTriggerTypesCompatible (componentType T b s) (componentType T b t)
    (T.kind s.domain).isReceiver

/-- What `isEdgeAllowedImpl` answers. -/
def allowed (T : Topology Domain) (b : RoutingGraphBuilder Domain)
    (s t : Label Domain) (checkTriggerType : Bool) : Bool :=
  if (b.firstTarget s).isSome then b.hasEdge s t
  else (!checkTriggerType || typesAllow T b s t) && connectorAllows T b s t

theorem ownerAllows_congr (h : b'.edges = b.edges) :
    ownerAllows T b' s t = ownerAllows T b s t := by
  rw [ownerAllows, ownerAllows, path_congr h]

theorem subtypeAllows_congr (h : b'.edges = b.edges)
    (c : DomainConnector Domain) (i : Nat) :
    subtypeAllows T b' c s t i = subtypeAllows T b c s t i := by
  rw [subtypeAllows, subtypeAllows, h]

theorem connectorAllows_congr (h : b'.edges = b.edges) :
    connectorAllows T b' s t = connectorAllows T b s t := by
  rw [connectorAllows, connectorAllows]
  simp only [ownerAllows_congr h, subtypeAllows_congr h]

theorem allowed_congr (hb : Wired T b) (h : SameAnswers b b')
    (check : Bool) : allowed T b' s t check = allowed T b s t check := by
  rw [allowed, allowed, firstTarget_congr h.edges, hasEdge_congr h.edges,
    connectorAllows_congr h.edges, typesAllow, typesAllow,
    h.componentType_eq hb, h.componentType_eq hb]

theorem checkOwner_spec (hb : Sound T b) (s t : Label Domain) :
    ∃ b', checkOwner T b s t = .ok (ownerAllows T b s t, b')
      ∧ Sound T b' ∧ SameAnswers b b' := by
  cases hr : (T.kind s.domain).isRoutable with
  | false =>
    refine ⟨b, ?_, hb, .refl b⟩
    simp [checkOwner, ownerAllows, hr]
  | true =>
    obtain ⟨b', hrun, hsound, hsame⟩ := getEffectiveOwner_spec hb t
    refine ⟨b', ?_, hsound, hsame⟩
    simp [checkOwner, ownerAllows, hr, hrun]

theorem checkConnector_spec (hb : Sound T b) (s t : Label Domain) :
    ∃ b', checkConnector T b s t = .ok (connectorAllows T b s t, b')
      ∧ Sound T b' ∧ SameAnswers b b' := by
  rw [checkConnector, connectorAllows]
  cases hc : T.findEdge s.domain t.domain with
  | none => exact ⟨b, rfl, hb, .refl b⟩
  | some c =>
    simp only
    cases hi : c.receiverToEmitter t.index with
    | none => exact ⟨b, rfl, hb, .refl b⟩
    | some i =>
      obtain ⟨hmem, hsource, -⟩ := Topology.findEdge_some hc
      have hlt : i < T.getEmitterCount s.domain := by
        rw [← hsource]
        exact T.emitter_lt c hmem _ i hi
      obtain ⟨b', hrun, hsound, hsame⟩ := checkOwner_spec hb s t
      refine ⟨b', ?_, hsound, hsame⟩
      simp only [if_pos hlt, hrun]
      cases ownerAllows T b s t with
      | false => rfl
      | true => simp [subtypeAllows_congr hsame.edges]

theorem checkTriggerTypes_spec (hb : Sound T b) (s t : Label Domain) :
    ∃ b', checkTriggerTypes T b s t = .ok (typesAllow T b s t, b')
      ∧ Sound T b' ∧ SameAnswers b b' := by
  obtain ⟨b₁, hrun₁, hb₁, hsame₁⟩ :=
    getConnectedComponentTriggerType_spec hb s
  obtain ⟨b₂, hrun₂, hb₂, hsame₂⟩ :=
    getConnectedComponentTriggerType_spec hb₁ t
  refine ⟨b₂, ?_, hb₂, hsame₁.trans hsame₂⟩
  simp only [checkTriggerTypes, hrun₁, hrun₂, typesAllow,
    hsame₁.componentType_eq hb.wired]

theorem isEdgeAllowedImpl_spec (hb : Sound T b) (s t : Label Domain)
    (check : Bool) :
    ∃ b', isEdgeAllowedImpl T b s t check
        = .ok (allowed T b s t check, b')
      ∧ Sound T b' ∧ SameAnswers b b' := by
  rw [isEdgeAllowedImpl, allowed]
  by_cases hs : (b.firstTarget s).isSome = true
  · rw [if_pos hs, if_pos hs]
    exact ⟨b, rfl, hb, .refl b⟩
  · rw [if_neg hs, if_neg hs]
    cases check with
    | false =>
      exact checkConnector_spec hb s t
    | true =>
      obtain ⟨b₁, hrun₁, hb₁, hsame₁⟩ := checkTriggerTypes_spec hb s t
      simp only [if_true, hrun₁, Bool.not_true, Bool.false_or]
      cases typesAllow T b s t with
      | false => exact ⟨b₁, rfl, hb₁, hsame₁⟩
      | true =>
        obtain ⟨b₂, hrun₂, hb₂, hsame₂⟩ := checkConnector_spec hb₁ s t
        refine ⟨b₂, ?_, hb₂, hsame₁.trans hsame₂⟩
        simp only [hrun₂, connectorAllows_congr hsame₁.edges, Bool.true_and]

/-- What is allowed follows a connector. -/
theorem mem_graph_of_connectorAllows (h : connectorAllows T b s t = true) :
    (s.domain, t.domain) ∈ T.graph.edges := by
  rw [connectorAllows] at h
  cases hc : T.findEdge s.domain t.domain with
  | none => simp [hc] at h
  | some c => exact Topology.mem_graph_of_findEdge hc

theorem ownerAllows_of_connectorAllows
    (h : connectorAllows T b s t = true) : ownerAllows T b s t = true := by
  rw [connectorAllows] at h
  cases hc : T.findEdge s.domain t.domain with
  | none => simp [hc] at h
  | some c =>
    cases hi : c.receiverToEmitter t.index with
    | none => simp [hc, hi] at h
    | some i =>
      simp only [hc, hi, Bool.and_eq_true] at h
      exact h.1

end RoutingConstraint

-- ==== one more edge

namespace RoutingGraphBuilder

open RoutingConstraint

/-- The edge from `s` to `t` has been added: if the source is typed and
the target is not, the end of the target's path now has the source's
type. -/
structure Adds (T : Topology Domain) (s t : Label Domain)
    (b b' : RoutingGraphBuilder Domain) : Prop where
  free : b.firstTarget s = none
  allowed : RoutingConstraint.allowed T b s t true = true
  source : T.hasVertex s = true
  target : T.hasVertex t = true
  edges : b'.edges = (s, t) :: b.edges
  ends : ∀ v, b'.firstTarget v = none → (b'.color v).triggerType
      = if v = pathEnd T b t ∧ componentType T b t = TRIGGER_UNDETERMINED
        then (b.color s).triggerType
        else (b.color v).triggerType

/-- A typed source that may join a typed target has its type. -/
theorem type_eq_of_compatible {sourceType targetType :
      RoutingNodeTriggerType} {isReceiver : Bool}
    (h : areTriggerTypesCompatible sourceType targetType isReceiver = true)
    (hs : sourceType ≠ TRIGGER_UNDETERMINED)
    (ht : targetType ≠ TRIGGER_UNDETERMINED)
    (hr : isReceiver = true) : sourceType = targetType := by
  cases sourceType <;> cases targetType <;>
    simp_all [areTriggerTypesCompatible]

theorem typesAllow_of_allowed (hfree : b.firstTarget s = none)
    (h : allowed T b s t true = true) : typesAllow T b s t = true := by
  simp only [allowed, hfree, Option.isSome_none, Bool.false_eq_true,
    if_false, Bool.and_eq_true] at h
  exact h.1

theorem connectorAllows_of_allowed (hfree : b.firstTarget s = none)
    {check : Bool} (h : allowed T b s t check = true) :
    connectorAllows T b s t = true := by
  simp only [allowed, hfree, Option.isSome_none, Bool.false_eq_true,
    if_false, Bool.and_eq_true] at h
  exact h.2

namespace Adds

theorem follows (h : Adds T s t b b') : (s.domain, t.domain) ∈ T.graph.edges :=
  mem_graph_of_connectorAllows (connectorAllows_of_allowed h.free h.allowed)

theorem wired (h : Adds T s t b b') (hb : Wired T b) : Wired T b' :=
  hb.cons h.source h.target h.follows h.free h.edges

theorem componentType_eq (h : Adds T s t b b') (hb : Wired T b)
    (v : Label Domain) :
    componentType T b' v
      = if pathEnd T b v = s ∨ pathEnd T b v = pathEnd T b t then
          if componentType T b t = TRIGGER_UNDETERMINED then
            (b.color s).triggerType
          else componentType T b t
        else componentType T b v := by
  have hb' := h.wired hb
  rw [componentType, h.ends _ (hb'.firstTarget_pathEnd v),
    hb.pathEnd_addEdge hb' h.free h.edges v]
  by_cases hs : pathEnd T b v = s
  · rw [if_pos hs, if_pos (Or.inl hs)]
    simp only [true_and]
    rfl
  · rw [if_neg hs]
    by_cases ht : pathEnd T b v = pathEnd T b t
    · rw [if_pos (Or.inr ht)]
      simp only [ht, true_and]
      rfl
    · rw [if_neg (by simp [ht]), if_neg (by simp [hs, ht])]
      rfl

end Adds

/-- A path only grows behind the pin whose owner it leads to. -/
theorem ownerAlong_append {owner : Label Domain → Option Domain}
    {o : Domain} (l l' : List (Label Domain))
    (h : ownerAlong owner l = some o) :
    ownerAlong owner (l ++ l') = some o := by
  induction l with
  | nil => cases h
  | cons v l ih =>
    rw [List.cons_append, ownerAlong]
    rw [ownerAlong] at h
    cases hv : owner v with
    | some o' =>
      simp only [hv] at h ⊢
      exact h
    | none =>
      simp only [hv] at h ⊢
      split at h
      · cases h
      · rename_i hne
        rw [ih h, if_neg]
        rw [h] at hne
        exact hne

/-- The colours after an edge was added. -/
def Recolored (T : Topology Domain) (s t : Label Domain)
    (b b' : RoutingGraphBuilder Domain) : Prop :=
  ∀ u, b'.color u
    = if (componentType T b t = TRIGGER_UNDETERMINED
          ∧ (b.color s).triggerType ≠ TRIGGER_UNDETERMINED)
        ∧ u ∈ path T b t
      then ⟨(b.color s).triggerType, (b.color u).owner⟩
      else b.color u

/-- What `addEdge` does to a sound builder amounts to `Adds`. -/
theorem Recolored.adds (hcolor : Recolored T s t b b') (hb : Wired T b)
    (hfree : b.firstTarget s = none)
    (hallowed : allowed T b s t true = true)
    (hs : T.hasVertex s = true) (ht : T.hasVertex t = true)
    (he : b'.edges = (s, t) :: b.edges) : Adds T s t b b' := by
  refine ⟨hfree, hallowed, hs, ht, he, fun v hv => ?_⟩
  have hvs : v ≠ s := by
    rintro rfl
    rw [Wired.firstTarget_eq_update he, update_self] at hv
    cases hv
  have hvfree : b.firstTarget v = none := by
    rw [Wired.firstTarget_eq_update he, update_of_ne hvs] at hv
    exact hv
  have hend : v ∈ path T b t ↔ v = pathEnd T b t := by
    constructor
    · intro hmem
      rw [← hb.pathEnd_of_mem hmem, pathEnd_none hvfree]
    · rintro rfl
      exact terminal_mem_walk _ _ _
  rw [hcolor v]
  by_cases hvt : v = pathEnd T b t
  · by_cases hu : componentType T b t = TRIGGER_UNDETERMINED
    · by_cases hsu : (b.color s).triggerType = TRIGGER_UNDETERMINED
      · rw [if_neg (by simp [hsu]), if_pos ⟨hvt, hu⟩, hsu, hvt]
        exact hu
      · rw [if_pos ⟨⟨hu, hsu⟩, hend.mpr hvt⟩, if_pos ⟨hvt, hu⟩]
    · rw [if_neg (by simp [hu]), if_neg (by simp [hu])]
  · rw [if_neg (by simp [hend, hvt]), if_neg (by simp [hvt])]

/-- The type stored at a source that may join a typed path is the
path's. -/
theorem Typed.source_type (htyped : Typed T b)
    (hfree : b.firstTarget s = none) (htypes : typesAllow T b s t = true)
    (hs : (b.color s).triggerType ≠ TRIGGER_UNDETERMINED)
    (ht : componentType T b t ≠ TRIGGER_UNDETERMINED) :
    (b.color s).triggerType = componentType T b t := by
  rw [typesAllow, componentType_none hfree] at htypes
  refine type_eq_of_compatible htypes hs ht ?_
  cases hkind : (T.kind s.domain).isReceiver with
  | true => rfl
  | false => exact absurd (htyped.device s hkind hfree) hs

theorem Sound.adds (hb : Sound T b) (hadds : Adds T s t b b')
    (hcolor : Recolored T s t b b') : Sound T b' := by
  have hwired := hadds.wired hb.wired
  have hcomp := hadds.componentType_eq hb.wired
  have htypes := typesAllow_of_allowed hadds.free hadds.allowed
  -- an untyped target's path has no stored type
  have huntyped : componentType T b t = TRIGGER_UNDETERMINED → ∀ u ∈ path T b t,
        (b.color u).triggerType = TRIGGER_UNDETERMINED := by
    intro hu u hmem
    by_contra hne
    have hstored := hb.typed.stored u hne
    rw [componentType, hb.wired.pathEnd_of_mem hmem] at hstored
    exact hne (hstored.trans hu)
  refine ⟨hwired, ⟨?_, ?_, ?_⟩, ⟨?_, ?_⟩⟩
  · intro u hu
    rw [hcomp u]
    rw [hcolor u] at hu ⊢
    by_cases hset : (componentType T b t = TRIGGER_UNDETERMINED
        ∧ (b.color s).triggerType ≠ TRIGGER_UNDETERMINED)
        ∧ u ∈ path T b t
    · rw [if_pos hset, if_pos (Or.inr (hb.wired.pathEnd_of_mem hset.2)),
        if_pos hset.1.1]
    · rw [if_neg hset] at hu ⊢
      have hstored := hb.typed.stored u hu
      by_cases hus : pathEnd T b u = s
      · rw [if_pos (Or.inl hus)]
        have htype : (b.color u).triggerType = (b.color s).triggerType := by
          rw [hstored, componentType, hus]
        by_cases hut : componentType T b t = TRIGGER_UNDETERMINED
        · rw [if_pos hut, htype]
        · rw [if_neg hut, htype]
          rw [htype] at hu
          exact hb.typed.source_type hadds.free htypes hu hut
      · by_cases hut : pathEnd T b u = pathEnd T b t
        · have hsame : componentType T b u = componentType T b t := by
            rw [componentType, hut]
            rfl
          rw [if_pos (Or.inr hut), if_neg, hstored, hsame]
          rw [← hsame, ← hstored]
          exact hu
        · rw [if_neg (by simp [hus, hut]), hstored]
  · intro u hkind hu
    have hmem : u ∉ path T b t := by
      intro hmem
      have hreceives := hb.wired.forall_mem_path
        (P := fun u => (T.kind u.domain).isReceiver = true)
        (Topology.isReceiver_of_mem_graph hadds.follows)
        (fun e he =>
          Topology.isReceiver_of_mem_graph (hb.wired.follows e he)) u hmem
      rw [hreceives] at hkind
      cases hkind
    have hus : u ≠ s := by
      rintro rfl
      rw [Wired.firstTarget_eq_update hadds.edges, update_self] at hu
      cases hu
    rw [Wired.firstTarget_eq_update hadds.edges, update_of_ne hus] at hu
    rw [hcolor u, if_neg (by simp [hmem])]
    exact hb.typed.device u hkind hu
  · intro u hkind hu
    have hconf := hb.typed.configured u hkind hu
    rw [hcolor u, if_neg]
    · exact hconf
    · rintro ⟨⟨hut, -⟩, hmem⟩
      rw [huntyped hut u hmem] at hconf
      exact hu hconf.symm
  · intro u o ho
    have hold : (b.color u).owner = some o := by
      rw [hcolor u] at ho
      split at ho <;> exact ho
    rw [hb.wired.path_addEdge hwired hadds.free hadds.edges u]
    have hstored := hb.owned.stored u o hold
    split
    · exact ownerAlong_append _ _ hstored
    · exact hstored
  · intro u o ho
    have hpin := hb.owned.pinned u o ho
    rw [hcolor u]
    split <;> exact hpin

-- ==== addEdge

/-- What is added after a query is added to the builder before it. -/
theorem Adds.of_sameAnswers {b₀ : RoutingGraphBuilder Domain}
    (h : Adds T s t b b') (hb : Wired T b₀) (hsame : SameAnswers b₀ b) :
    Adds T s t b₀ b' := by
  have hfree : b₀.firstTarget s = none := by
    rw [← firstTarget_congr hsame.edges]
    exact h.free
  refine ⟨hfree, ?_, h.source, h.target, ?_, fun v hv => ?_⟩
  · rw [← allowed_congr hb hsame]
    exact h.allowed
  · rw [h.edges, hsame.edges]
  · have hvfree : b₀.firstTarget v = none := by
      by_cases hvs : v = s
      · rw [hvs]
        exact hfree
      · rw [Wired.firstTarget_eq_update h.edges,
          update_of_ne hvs, firstTarget_congr hsame.edges] at hv
        exact hv
    rw [h.ends v hv, pathEnd_congr hsame.edges, hsame.componentType_eq hb,
      hsame.ends s hfree, hsame.ends v hvfree]

/-- An allowed edge that is not there leaves a vertex that has none. -/
theorem firstTarget_none_of_allowed {check : Bool}
    (h : allowed T b s t check = true) (hnew : b.hasEdge s t = false) :
    b.firstTarget s = none := by
  cases hs : b.firstTarget s with
  | none => rfl
  | some w =>
    rw [allowed, hs] at h
    simp only [hnew] at h
    cases h

/-- The restricted builder, after the queries of the test. -/
theorem addRestrictedEdge_spec (hb : Sound T b)
    (hs : T.hasVertex s = true) (ht : T.hasVertex t = true) :
    ∃ b', Sound T b' ∧ SameAnswers b b' ∧ b.addRestrictedEdge T s t
      = if allowed T b s t true = false then .ok (false, b')
        else if b.hasEdge s t = true then
          .error (.assertion "Duplicate edge in simple graph not allowed")
        else .ok (true, { b' with edges := (s, t) :: b'.edges }) := by
  obtain ⟨b', hrun, hsound, hsame⟩ := isEdgeAllowedImpl_spec hb s t true
  refine ⟨b', hsound, hsame, ?_⟩
  rw [← hasEdge_congr hsame.edges]
  simp only [addRestrictedEdge, hs, ht, isEdgeAllowed, hrun]
  cases allowed T b s t true with
  | false | true => rfl

/-- A refused edge changes no answer, an edge that is there already
stops the run, and any other allowed one is added. -/
theorem addEdge_spec (hb : Sound T b)
    (hs : T.hasVertex s = true) (ht : T.hasVertex t = true) :
    (allowed T b s t true = false ∧ ∃ b', b.addEdge T s t = .ok (false, b')
      ∧ Sound T b' ∧ SameAnswers b b')
    ∨ (b.hasEdge s t = true ∧ b.addEdge T s t
      = .error (.assertion "Duplicate edge in simple graph not allowed"))
    ∨ ∃ b', b.addEdge T s t = .ok (true, b')
      ∧ Sound T b' ∧ Adds T s t b b' := by
  obtain ⟨b₁, hrun₁, hb₁, hsame₁⟩ :=
    getConnectedComponentTriggerType_spec hb t
  obtain ⟨b₂, hb₂, hsame₂, hrun₂⟩ := addRestrictedEdge_spec hb₁ hs ht
  have hsame := hsame₁.trans hsame₂
  rw [allowed_congr hb.wired hsame₁, hasEdge_congr hsame₁.edges] at hrun₂
  by_cases h : allowed T b s t true = false
  · refine Or.inl ⟨h, b₂, ?_, hb₂, hsame⟩
    rw [if_pos h] at hrun₂
    simp only [addEdge, hrun₁, hrun₂]
  rw [if_neg h] at hrun₂
  rw [Bool.not_eq_false] at h
  by_cases hold : b.hasEdge s t = true
  · refine Or.inr (Or.inl ⟨hold, ?_⟩)
    rw [if_pos hold] at hrun₂
    simp only [addEdge, hrun₁, hrun₂]
  rw [if_neg hold] at hrun₂
  refine Or.inr (Or.inr ?_)
  have hfree := firstTarget_none_of_allowed h (Bool.eq_false_iff.mpr hold)
  have h₂ : allowed T b₂ s t true = true := by
    rw [allowed_congr hb.wired hsame]
    exact h
  have hfree₂ : b₂.firstTarget s = none := by
    rw [firstTarget_congr hsame.edges]
    exact hfree
  -- it is enough to look at the builder the edge is put into
  have key : ∀ b' : RoutingGraphBuilder Domain,
      b'.edges = (s, t) :: b₂.edges → Recolored T s t b₂ b' →
        Sound T b' ∧ Adds T s t b b' := by
    intro b' he hcolor
    have hadds := hcolor.adds hb₂.wired hfree₂ h₂ hs ht he
    exact ⟨hb₂.adds hadds hcolor, hadds.of_sameAnswers hb.wired hsame⟩
  simp only [addEdge, hrun₁, hrun₂]
  by_cases hset : componentType T b t = TRIGGER_UNDETERMINED
      ∧ (b.color s).triggerType ≠ TRIGGER_UNDETERMINED
  · rw [if_pos hset]
    have hwired : Wired T { b₂ with edges := (s, t) :: b₂.edges } :=
      hb₂.wired.cons hs ht (mem_graph_of_connectorAllows
        (connectorAllows_of_allowed hfree₂ h₂)) hfree₂ rfl
    obtain ⟨b', hrun, hedges, hcolor⟩ := walkSetTriggerType_spec
      (b.color s).triggerType T.domains.length t _ hwired (by omega)
    rw [setConnectedComponentTriggerType, hrun]
    refine ⟨b', rfl, key b' hedges fun u => ?_⟩
    rw [hcolor u, hb₂.wired.path_addEdge hwired hfree₂ rfl t,
      if_neg (hb₂.wired.pathEnd_target_ne hwired rfl)]
    simp [hsame.componentType_eq hb.wired, hsame.ends s hfree, hset]
  · rw [if_neg hset]
    refine ⟨_, rfl, key _ rfl fun u => ?_⟩
    rw [hsame.componentType_eq hb.wired, hsame.ends s hfree, if_neg]
    exact fun hc => hset hc.1

/-- The ways `addEdge` returns. -/
theorem addEdge_cases (hb : Sound T b) {accepted : Bool}
    (h : b.addEdge T s t = .ok (accepted, b')) :
    Sound T b'
      ∧ ((accepted = false ∧ allowed T b s t true = false
          ∧ SameAnswers b b')
        ∨ (accepted = true ∧ Adds T s t b b')) := by
  by_cases hv : (T.hasVertex s && T.hasVertex t) = true
  · obtain ⟨hs, ht⟩ := Bool.and_eq_true_iff.mp hv
    rcases addEdge_spec hb hs ht with ⟨hrefused, b₁, hrun, hsound, hsame⟩
      | ⟨-, hrun⟩ | ⟨b₁, hrun, hsound, hadds⟩
    · rw [hrun] at h
      cases h
      exact ⟨hsound, Or.inl ⟨rfl, hrefused, hsame⟩⟩
    · rw [hrun] at h
      cases h
    · rw [hrun] at h
      cases h
      exact ⟨hsound, Or.inr ⟨rfl, hadds⟩⟩
  · obtain ⟨b₁, hrun, -, -⟩ := getConnectedComponentTriggerType_spec hb t
    simp only [addEdge, hrun, addRestrictedEdge, if_neg hv] at h
    cases h

-- ==== the runs

theorem exclusiveOwner_isReceiver {o : Domain}
    (h : T.exclusiveOwner v = some o) :
    (T.kind v.domain).isReceiver = true := by
  obtain ⟨c, hc, -⟩ := Option.map_eq_some_iff.mp h
  have hp := List.find?_some hc
  simp only [Bool.and_eq_true, decide_eq_true_eq] at hp
  rw [← hp.1.2]
  exact T.target_receives c (List.mem_of_find?_eq_some hc)

theorem initial_sound : Sound T { edges := [], color := initialColor T } := by
  have hfree : ∀ v, ({ edges := [], color := initialColor T }
      : RoutingGraphBuilder Domain).firstTarget v = none := fun _ => rfl
  refine ⟨⟨by simp, by simp, by simp, by simp⟩, ⟨?_, ?_, ?_⟩, ⟨?_, ?_⟩⟩
  · intro v _
    rw [componentType_none (hfree v)]
  · intro v hkind _
    simp [initialColor, hkind]
  · intro v hkind _
    simp [initialColor, hkind]
  · intro v o ho
    rw [path_none (hfree v)]
    cases hkind : (T.kind v.domain).isReceiver with
    | false => simp [initialColor, hkind] at ho
    | true =>
      have hpin : T.exclusiveOwner v = some o := by
        simpa [initialColor, hkind] using ho
      simp [ownerAlong, hpin]
  · intro v o ho
    simp [initialColor, exclusiveOwner_isReceiver ho, ho]

theorem mem_outgoingEdges {d : Domain} {c : DomainConnector Domain} :
    c ∈ T.outgoingEdges d ↔ c ∈ T.connectors ∧ c.source = d := by
  simp [Topology.outgoingEdges]

/-- A forced edge leaves a vertex of its domain, and its target is a
vertex. -/
theorem forcedEdges_vertices {d : Domain} {e : Edge Domain}
    (hd : d ∈ T.domains) (he : e ∈ forcedEdges T d) :
    e.1.domain = d ∧ T.hasVertex e.1 = true ∧ T.hasVertex e.2 = true
      ∧ (T.kind d).isRoutable = false := by
  have htarget : ∀ c ∈ T.outgoingEdges d, ∀ i, ∀ j ∈ c.emitterToReceiver i,
      T.hasVertex ⟨c.target, j⟩ = true := by
    intro c hc i j hj
    have hmem := (mem_outgoingEdges.mp hc).1
    rw [Topology.hasVertex_iff, Topology.vertexCount, T.target_receives c hmem]
    exact ⟨T.target_mem c hmem, T.receiver_lt c hmem i j hj⟩
  rw [forcedEdges] at he
  cases hkind : T.kind d with
  | fixedRouting getEmitterFor | emitter =>
    simp only [hkind, List.mem_flatMap, List.mem_filterMap,
      List.mem_range] at he
    obtain ⟨c, hc, i, hi, hmap⟩ := he
    obtain ⟨j, hj, rfl⟩ := Option.map_eq_some_iff.mp hmap
    refine ⟨rfl, ?_, htarget c hc _ j hj, rfl⟩
    rw [Topology.hasVertex_iff, Topology.vertexCount, hkind]
    exact ⟨hd, hi⟩
  | receiver | freeRoutable | contextIndependent f | contextDependent f =>
    simp [hkind] at he

/-- The connectors that leave a domain lead to different ones. -/
theorem outgoingEdges_pairwise (d : Domain) :
    (T.outgoingEdges d).Pairwise fun c c' => c.target ≠ c'.target := by
  refine ((List.pairwise_map.mp T.simple).filter _).imp_of_mem ?_
  intro c c' hc hc' hne heq
  apply hne
  rw [(mem_outgoingEdges.mp hc).2, (mem_outgoingEdges.mp hc').2, heq]

/-- No edge is forced twice: each source index comes once for every
connector. -/
theorem forced_nodup (d : Domain) (count : Nat) (emitter : Nat → Nat) :
    ((T.outgoingEdges d).flatMap fun c =>
      (List.range count).filterMap fun i =>
        (c.emitterToReceiver (emitter i)).map fun j =>
          ((⟨d, i⟩, ⟨c.target, j⟩) : Edge Domain)).Nodup := by
  rw [List.nodup_flatMap]
  constructor
  · intro c _
    refine List.nodup_range.filterMap ?_
    intro i i' e he he'
    obtain ⟨j, -, rfl⟩ := Option.map_eq_some_iff.mp he
    obtain ⟨j', -, heq⟩ := Option.map_eq_some_iff.mp he'
    exact (Label.mk.inj (Prod.mk.inj heq).1).2.symm
  · refine (outgoingEdges_pairwise d).imp ?_
    intro c c' hne e he he'
    obtain ⟨i, -, hi⟩ := List.mem_filterMap.mp he
    obtain ⟨i', -, hi'⟩ := List.mem_filterMap.mp he'
    obtain ⟨j, -, rfl⟩ := Option.map_eq_some_iff.mp hi
    obtain ⟨j', -, heq⟩ := Option.map_eq_some_iff.mp hi'
    exact hne (Label.mk.inj (Prod.mk.inj heq).2).1.symm

theorem forcedEdges_nodup (d : Domain) : (forcedEdges T d).Nodup := by
  rw [forcedEdges]
  cases T.kind d with
  | fixedRouting getEmitterFor => exact forced_nodup d _ getEmitterFor
  | emitter => exact forced_nodup d _ fun i => i
  | receiver | freeRoutable | contextIndependent f | contextDependent f =>
    exact List.nodup_nil

theorem allForcedEdges_nodup : (T.domains.flatMap (forcedEdges T)).Nodup := by
  rw [List.nodup_flatMap]
  refine ⟨fun d _ => forcedEdges_nodup d, ?_⟩
  refine T.nodup.imp_of_mem ?_
  intro d d' hd hd' hne e he he'
  apply hne
  rw [← (forcedEdges_vertices hd he).1, ← (forcedEdges_vertices hd' he').1]

/-- The builder is made without a fault, and its edges are forced
ones. -/
theorem createRoutingGraphBuilder_spec (T : Topology Domain) :
    ∃ b, createRoutingGraphBuilder T = .ok b ∧ Sound T b
      ∧ ∀ e ∈ b.edges, (T.kind e.1.domain).isRoutable = false := by
  have hloop := foldlM_splits
    (f := fun b (e : Edge Domain) => (b.addEdge T e.1 e.2).map Prod.snd)
    (I := fun done b => Sound T b ∧ ∀ e ∈ b.edges, e ∈ done)
    (l := T.domains.flatMap (forcedEdges T))
    (t := { edges := [], color := initialColor T }) ?_
    ⟨initial_sound, by simp⟩
  · obtain ⟨b, hrun, hsound, hedges⟩ := hloop
    refine ⟨b, hrun, hsound, fun e he => ?_⟩
    obtain ⟨d, hd, hforced⟩ := List.mem_flatMap.mp (hedges e he)
    obtain ⟨hdomain, -, -, hkind⟩ := forcedEdges_vertices hd hforced
    rw [hdomain]
    exact hkind
  · rintro done e rest hl b ⟨hsound, hedges⟩
    have hmem : e ∈ T.domains.flatMap (forcedEdges T) := by
      rw [hl]
      simp
    obtain ⟨d, hd, hforced⟩ := List.mem_flatMap.mp hmem
    obtain ⟨-, hs, ht, -⟩ := forcedEdges_vertices hd hforced
    have hnew : b.hasEdge e.1 e.2 = false := by
      have hnodup := allForcedEdges_nodup (T := T)
      rw [hl, List.nodup_append] at hnodup
      rw [hasEdge, decide_eq_false_iff_not]
      intro hin
      exact hnodup.2.2 e (hedges e hin) e List.mem_cons_self rfl
    rcases addEdge_spec hsound hs ht with ⟨-, b', hrun, hsound', hsame⟩
      | ⟨hold, -⟩ | ⟨b', hrun, hsound', hadds⟩
    · refine ⟨b', by rw [hrun]; rfl, hsound', fun e' he' => ?_⟩
      rw [hsame.edges] at he'
      exact List.mem_append_left _ (hedges e' he')
    · rw [hnew] at hold
      cases hold
    · refine ⟨b', by rw [hrun]; rfl, hsound', fun e' he' => ?_⟩
      rw [hadds.edges, List.mem_cons] at he'
      rcases he' with rfl | he'
      · exact List.mem_append_right _ List.mem_cons_self
      · exact List.mem_append_left _ (hedges e' he')

theorem createRoutingGraphBuilder_sound
    (h : createRoutingGraphBuilder T = .ok b) :
    Sound T b ∧ ∀ e ∈ b.edges, (T.kind e.1.domain).isRoutable = false := by
  obtain ⟨b', hrun, hspec⟩ := createRoutingGraphBuilder_spec T
  rw [hrun] at h
  cases h
  exact hspec

/-- What one call does: it adds the edge it names, or no answer
changes. -/
theorem step_cases (hb : Sound T b) {call : Call Domain}
    {reply : Reply Domain} (h : b.step T call = .ok (b', reply)) :
    Sound T b' ∧ (SameAnswers b b'
      ∨ ∃ s t, call = .addEdge s t ∧ Adds T s t b b') := by
  cases call with
  | addEdge s t =>
    obtain ⟨⟨accepted, b₁⟩, hrun, heq⟩ := map_inv h
    obtain ⟨rfl, -⟩ := Prod.mk.inj heq
    obtain ⟨hsound, hcase⟩ := addEdge_cases hb hrun
    refine ⟨hsound, ?_⟩
    rcases hcase with ⟨-, -, hsame⟩ | ⟨-, hadds⟩
    · exact Or.inl hsame
    · exact Or.inr ⟨s, t, rfl, hadds⟩
  | getConnectedComponentTriggerType v =>
    rw [step] at h
    split at h
    · obtain ⟨b₁, hrun, hsound, hsame⟩ :=
        getConnectedComponentTriggerType_spec hb v
      rw [hrun] at h
      cases h
      exact ⟨hsound, Or.inl hsame⟩
    · cases h
  | getEffectiveOwner v =>
    rw [step] at h
    split at h
    · obtain ⟨b₁, hrun, hsound, hsame⟩ := getEffectiveOwner_spec hb v
      rw [hrun] at h
      cases h
      exact ⟨hsound, Or.inl hsame⟩
    · cases h

/-- Every state that calls lead to is sound. -/
theorem run_sound {calls : List (Call Domain)}
    {replies : List (Reply Domain)} (hb : Sound T b)
    (h : run (step T) b calls = .ok (b', replies)) : Sound T b' :=
  run_invariant (I := Sound T) (Q := fun _ => True)
    (fun _ _ _ _ hs _ hstep => (step_cases hs hstep).1) hb
    (fun _ _ => trivial) h

end RoutingGraphBuilder

end CroCOS.Interrupts.Routing
