/-
Exclusive pins. A path respects the owners (`Clear`) if every owned pin
on it comes after a vertex of its owner. The test for an edge looks at
the owner that the target's path leads to, and that is the owner of the
first owned pin: if the test passes, the path is clear up to there. It
is clear behind a vertex of a routable domain as well, because the edge
that leaves it was tested, whatever has been added since
(`clear_of_ownerAlong`).

Only the edges of fixed domains are never tested. A pin of a fixed
domain that has an owner hides the pins that its wiring leads to, so
that the property needs the wiring itself to respect them; the wiring is
complete when the builder is made.
-/
import CroCOS.Proofs.InterruptRouting.AddEdge

namespace CroCOS.Interrupts.Routing

open Manager (Label)

variable {Domain : Type} [DecidableEq Domain]
variable {T : Topology Domain}
variable {passed : List Domain}
variable {path' : List (Label Domain)}

def DomainKind.isFixed : DomainKind Domain → Bool
  | .fixedRouting _ => true
  | _ => false

-- ==== clear paths

/-- Every owned pin of the path belongs to one of the domains passed
before the path, or to that of a vertex before the pin. -/
def Clear (T : Topology Domain) (passed : List Domain)
    (path : List (Label Domain)) : Prop :=
  ∀ before w after o, path = before ++ w :: after →
    T.exclusiveOwner w = some o → o ∈ passed ∨ ∃ x ∈ before, x.domain = o

theorem clear_nil (passed : List Domain) : Clear T passed [] := by
  intro before w after o h
  exact absurd h (by simp)

theorem clear_cons {v : Label Domain} {path : List (Label Domain)} :
    Clear T passed (v :: path)
      ↔ (∀ o ∈ T.exclusiveOwner v, o ∈ passed)
        ∧ Clear T (v.domain :: passed) path := by
  constructor
  · intro h
    refine ⟨fun o ho => ?_, fun before w after o hsplit ho => ?_⟩
    · have := h [] v path o rfl ho
      simpa using this
    · have := h (v :: before) w after o (by rw [hsplit]; rfl) ho
      rcases this with hin | ⟨x, hx, rfl⟩
      · exact Or.inl (List.mem_cons_of_mem _ hin)
      · rcases List.mem_cons.mp hx with rfl | hx
        · exact Or.inl List.mem_cons_self
        · exact Or.inr ⟨x, hx, rfl⟩
  · rintro ⟨hv, hpath⟩ before w after o hsplit ho
    cases before with
    | nil =>
      obtain ⟨rfl, -⟩ := List.cons.inj hsplit
      exact Or.inl (hv o ho)
    | cons u before =>
      obtain ⟨rfl, hrest⟩ := List.cons.inj hsplit
      rcases hpath before w after o hrest ho with hin | ⟨x, hx, rfl⟩
      · rcases List.mem_cons.mp hin with rfl | hin
        · exact Or.inr ⟨v, List.mem_cons_self, rfl⟩
        · exact Or.inl hin
      · exact Or.inr ⟨x, List.mem_cons_of_mem _ hx, rfl⟩

instance decidableClear (T : Topology Domain) :
    (passed : List Domain) → (path : List (Label Domain)) →
      Decidable (Clear T passed path)
  | _, [] => .isTrue (clear_nil _)
  | passed, v :: path =>
    have := decidableClear T (v.domain :: passed) path
    decidable_of_iff' _ clear_cons

theorem Clear.mono {passed' : List Domain} {path : List (Label Domain)}
    (h : Clear T passed path) (hsub : passed ⊆ passed') :
    Clear T passed' path := by
  intro before w after o hsplit ho
  rcases h before w after o hsplit ho with hin | hx
  · exact Or.inl (hsub hin)
  · exact Or.inr hx

/-- A clear path goes on as one that is clear behind a domain passed
before. -/
theorem Clear.append_passed {d : Domain} {path : List (Label Domain)}
    (h' : Clear T [d] path') :
    ∀ {passed : List Domain}, d ∈ passed → Clear T passed path →
      Clear T passed (path ++ path') := by
  induction path with
  | nil =>
    intro passed hd _
    exact h'.mono (by simpa using hd)
  | cons v path ih =>
    intro passed hd h
    obtain ⟨hv, hpath⟩ := clear_cons.mp h
    exact clear_cons.mpr ⟨hv, ih (List.mem_cons_of_mem _ hd) hpath⟩

/-- A clear path goes on as one that is clear behind one of its
vertices. -/
theorem Clear.append {s : Label Domain} {path : List (Label Domain)}
    (h : Clear T passed path) (hs : s ∈ path)
    (h' : Clear T [s.domain] path') : Clear T passed (path ++ path') := by
  induction path generalizing passed with
  | nil => cases hs
  | cons v path ih =>
    obtain ⟨hv, hpath⟩ := clear_cons.mp h
    refine clear_cons.mpr ⟨hv, ?_⟩
    rcases List.mem_cons.mp hs with rfl | hs
    · exact h'.append_passed List.mem_cons_self hpath
    · exact ih hpath hs

namespace RoutingGraphBuilder

open Lib RoutingConstraint

variable {b b' : RoutingGraphBuilder Domain} {s t v : Label Domain}

-- ==== the invariant

/-- The paths behind the edges of routable domains are clear, and those
from the owned pins of the other domains. -/
structure Respects (T : Topology Domain)
    (b : RoutingGraphBuilder Domain) : Prop where
  edges : ∀ e ∈ b.edges, (T.kind e.1.domain).isRoutable = true →
    Clear T [e.1.domain] (path T b e.2)
  pins : ∀ v, T.hasVertex v = true → (T.kind v.domain).isRoutable = false →
      ∀ o ∈ T.exclusiveOwner v, Clear T [o] (path T b v)

/-- If the owner that a path leads to has been passed, the path is
clear. -/
theorem clear_of_ownerAlong (hb : Wired T b) (h : Respects T b)
    (v : Label Domain) (hv : T.hasVertex v = true) :
    ∀ passed, (∀ o ∈ ownerAlong T.exclusiveOwner (path T b v),
      o ∈ passed) → Clear T passed (path T b v) := by
  induction v using hb.rises.induct with
  | hstep v ih =>
    intro passed halong
    cases hnext : b.firstTarget v with
    | none =>
      rw [path_none hnext] at halong ⊢
      refine clear_cons.mpr ⟨fun o ho => halong o ?_, clear_nil _⟩
      rw [Option.mem_def] at ho
      simp [ownerAlong, ho]
    | some w =>
      have hpath := hb.path_some hnext
      have hedge := mem_edges_of_firstTarget hnext
      have hw := hb.target _ hedge
      cases howner : T.exclusiveOwner v with
      | some o =>
        have hpassed : o ∈ passed := by
          refine halong o ?_
          simp [hpath, ownerAlong, howner]
        cases hkind : (T.kind v.domain).isRoutable with
        | false =>
          exact (h.pins v hv hkind o howner).mono (by simpa using hpassed)
        | true =>
          rw [hpath]
          refine clear_cons.mpr ⟨?_, ?_⟩
          · intro o' ho'
            rw [howner] at ho'
            cases ho'
            exact hpassed
          · exact (h.edges _ hedge hkind).mono (by simp)
      | none =>
        rw [hpath]
        refine clear_cons.mpr ⟨by simp [howner], ?_⟩
        refine ih w hnext hw _ fun o ho => ?_
        by_cases hdomain : o = v.domain
        · rw [hdomain]
          exact List.mem_cons_self
        · refine List.mem_cons_of_mem _ (halong o ?_)
          rw [Option.mem_def] at ho
          simp [hpath, ownerAlong, howner, ho, hdomain]

/-- An edge from a routable domain that the test lets through. -/
theorem Respects.adds (h : Respects T b) (hb : Wired T b)
    (hadds : Adds T s t b b')
    (hs : (T.kind s.domain).isRoutable = true) : Respects T b' := by
  have hwired := hadds.wired hb
  have howner := ownerAllows_of_connectorAllows
    (connectorAllows_of_allowed hadds.free hadds.allowed)
  have hclear : Clear T [s.domain] (path T b t) := by
    refine clear_of_ownerAlong hb h t hadds.target _ fun o ho => ?_
    rw [Option.mem_def] at ho
    simp [ownerAllows, hs, ho] at howner
    simp [howner]
  -- a path that ended at the source goes on as the target's
  have hgrow : ∀ v passed, Clear T passed (path T b v) →
      Clear T passed (path T b' v) := by
    intro v passed hv
    rw [hb.path_addEdge hwired hadds.free hadds.edges v]
    split
    · rename_i hend
      refine hv.append ?_ hclear
      rw [← hend]
      exact terminal_mem_walk _ _ _
    · exact hv
  constructor
  · intro e he hkind
    rw [hadds.edges, List.mem_cons] at he
    rcases he with rfl | he
    · exact hgrow t _ hclear
    · exact hgrow e.2 _ (h.edges e he hkind)
  · intro v hv hkind o ho
    exact hgrow v _ (h.pins v hv hkind o ho)

theorem Respects.congr (h : Respects T b) (he : b'.edges = b.edges) :
    Respects T b' := by
  constructor
  · intro e hin hkind
    rw [path_congr he]
    rw [he] at hin
    exact h.edges e hin hkind
  · intro v hv hkind o ho
    rw [path_congr he]
    exact h.pins v hv hkind o ho

/-- The condition on the wiring: from an owned pin of a fixed domain it
leads to no pin of an owner that was not passed. -/
def WiringRespects (T : Topology Domain)
    (b₀ : RoutingGraphBuilder Domain) : Prop :=
  ∀ v, T.hasVertex v = true → (T.kind v.domain).isFixed = true →
    ∀ o ∈ T.exclusiveOwner v, Clear T [o] (path T b₀ v)

/-- Before anything is added, only fixed domains lead further. -/
theorem WiringRespects.respects (h : WiringRespects T b)
    (hb : Wired T b) (hforced : ∀ e ∈ b.edges,
      (T.kind e.1.domain).isRoutable = false) : Respects T b := by
  constructor
  · intro e he hkind
    rw [hforced e he] at hkind
    cases hkind
  · intro v hv hkind o ho
    cases hfixed : (T.kind v.domain).isFixed with
    | true => exact h v hv hfixed o ho
    | false =>
      have hreceives := exclusiveOwner_isReceiver ho
      have hfree : b.firstTarget v = none := by
        rw [firstTarget_eq_none]
        rintro e he rfl
        have hemits := Topology.isEmitter_of_mem_graph (hb.follows e he)
        cases hdomain : T.kind e.1.domain <;>
          simp_all [DomainKind.isReceiver, DomainKind.isRoutable,
            DomainKind.isFixed, DomainKind.isEmitter]
      rw [path_none hfree]
      refine clear_cons.mpr ⟨fun o' ho' => ?_, clear_nil _⟩
      rw [Option.mem_def.mp ho] at ho'
      cases ho'
      exact List.mem_singleton_self o

/-- An edge is added from a routable domain, or something is asked. -/
def FromRoutable (T : Topology Domain) : Call Domain → Prop
  | .addEdge s _ => (T.kind s.domain).isRoutable = true
  | _ => True

/-- The builder with nothing but the pins' own owners stored. -/
def forgetOwners (T : Topology Domain) (b : RoutingGraphBuilder Domain) :
    RoutingGraphBuilder Domain :=
  { b with color := fun v =>
      { b.color v with owner := T.exclusiveOwner v } }

theorem Sound.forgetOwners (hb : Sound T b) : Sound T (b.forgetOwners T) := by
  have hcomp : ∀ v, componentType T (b.forgetOwners T) v
      = componentType T b v := fun _ => rfl
  refine ⟨hb.wired.congr rfl, ⟨fun v hv => ?_, hb.typed.device,
    hb.typed.configured⟩, ⟨fun v o ho => ?_, fun _ _ ho => ho⟩⟩
  · rw [hcomp]
    exact hb.typed.stored v hv
  · replace ho : T.exclusiveOwner v = some o := ho
    cases hnext : (b.forgetOwners T).firstTarget v with
    | none => simp [path_none hnext, ownerAlong, ho]
    | some w =>
      have hwired : Wired T (b.forgetOwners T) := hb.wired.congr rfl
      simp [hwired.path_some hnext, ownerAlong, ho]

/-- Every run that adds edges of routable domains to a new builder: if
the fixed wiring respects the owners, so does every path behind an edge
of a routable domain; and the stored owners never change an answer. -/
theorem run_respects_owners {calls : List (Call Domain)}
    {replies : List (Reply Domain)} {b₀ : RoutingGraphBuilder Domain}
    (hcreate : createRoutingGraphBuilder T = .ok b₀)
    (hcalls : ∀ call ∈ calls, FromRoutable T call)
    (hrun : run (step T) b₀ calls = .ok (b, replies)) :
    (WiringRespects T b₀ →
        ∀ e ∈ b.edges, (T.kind e.1.domain).isRoutable = true →
          ∀ before w after o, path T b e.2 = before ++ w :: after →
            T.exclusiveOwner w = some o →
              o = e.1.domain ∨ ∃ x ∈ before, x.domain = o)
      ∧ ∀ v, ∃ owner b₁ b₂, b.getEffectiveOwner T v = .ok (owner, b₁)
          ∧ (b.forgetOwners T).getEffectiveOwner T v
            = .ok (owner, b₂) := by
  obtain ⟨hb₀, hforced⟩ := createRoutingGraphBuilder_sound hcreate
  constructor
  · intro hwiring e he hkind before w after o hsplit ho
    have hinit := hwiring.respects hb₀.wired hforced
    have hinv := run_invariant
      (I := fun b => Sound T b ∧ Respects T b) (Q := FromRoutable T)
      ?_ ⟨hb₀, hinit⟩ hcalls hrun
    · have hclear := hinv.2.edges e he hkind before w after o hsplit ho
      simpa using hclear
    · rintro b call b' reply ⟨hb, hres⟩ hfrom hstep
      obtain ⟨hb', hcase⟩ := step_cases hb hstep
      refine ⟨hb', ?_⟩
      rcases hcase with hsame | ⟨s, t, rfl, hadds⟩
      · exact hres.congr hsame.edges
      · exact hres.adds hb.wired hadds hfrom
  · intro v
    have hb := run_sound hb₀ hrun
    obtain ⟨b₁, hquery, -, -⟩ := getEffectiveOwner_spec hb v
    obtain ⟨b₂, hquery', -, -⟩ := getEffectiveOwner_spec hb.forgetOwners v
    exact ⟨_, b₁, b₂, hquery, hquery'⟩

/-- Two routable domains, 0 and 2, a fixed one, 1, and a sink, 3, with
one line each. The line of 0 is the owner of the pin of 1, and `owner`
tells which of 1 and 2 owns the pin of 3; the fixed wiring leads there
from 1. -/
def sharedSink (owner : Fin 4) : Topology (Fin 4) :=
  .ofAffine (fun d => if d = 1 then .fixedRouting id
      else if d = 3 then .receiver else .freeRoutable)
    (fun _ => 1) (fun _ => 1) (fun _ _ => none) [0, 1, 2, 3]
    [⟨0, 1, 0, 0, 1, true⟩, ⟨1, 3, 0, 0, 1, owner = 1⟩,
      ⟨2, 3, 0, 0, 1, owner = 2⟩]
    (by decide) (by decide +revert) (by decide +revert) (by decide +revert)
    (by decide +revert)

/-- The sink belongs to the fixed domain, and 0 may route to its own
pin of that. -/
theorem run_respects_owners_sharedSink :
    ∃ b₀ b replies, createRoutingGraphBuilder (sharedSink 1) = .ok b₀
      ∧ WiringRespects (sharedSink 1) b₀
      ∧ (∀ call ∈ [Call.addEdge ⟨0, 0⟩ ⟨1, 0⟩],
          FromRoutable (sharedSink 1) call)
      ∧ run (step (sharedSink 1)) b₀ [.addEdge ⟨0, 0⟩ ⟨1, 0⟩]
        = .ok (b, replies)
      ∧ ∀ e ∈ b.edges, ((sharedSink 1).kind e.1.domain).isRoutable = true →
          ∀ before w after o, path (sharedSink 1) b e.2 = before ++ w :: after →
            (sharedSink 1).exclusiveOwner w = some o →
              o = e.1.domain ∨ ∃ x ∈ before, x.domain = o := by
  have hruns : Returns (fun b₀ => (∀ v ∈ (sharedSink 1).domains.flatMap
            (sharedSink 1).labelsOf,
          ((sharedSink 1).kind v.domain).isFixed = true →
            ∀ o ∈ (sharedSink 1).exclusiveOwner v,
              Clear (sharedSink 1) [o] (path (sharedSink 1) b₀ v))
        ∧ Returns (fun _ => True)
          (run (step (sharedSink 1)) b₀ [.addEdge ⟨0, 0⟩ ⟨1, 0⟩]))
      (createRoutingGraphBuilder (sharedSink 1)) := by decide +kernel
  obtain ⟨b₀, hcreate, hwiring, hrest⟩ := hruns.exists_ok
  obtain ⟨⟨b, replies⟩, hrun, -⟩ := hrest.exists_ok
  have hcalls : ∀ call ∈ [Call.addEdge ⟨0, 0⟩ ⟨1, 0⟩],
      FromRoutable (sharedSink 1) call := by
    intro call hcall
    rw [List.mem_singleton] at hcall
    subst hcall
    rfl
  have hrespects : WiringRespects (sharedSink 1) b₀ := fun v hv =>
    hwiring v (Topology.mem_labels.mpr hv)
  exact ⟨b₀, b, replies, hcreate, hrespects, hcalls, hrun,
    (run_respects_owners hcreate hcalls hrun).1 hrespects⟩

/-- The sink belongs to 2. The edge from 0 to its own pin of the fixed
domain is accepted, and leads on to the sink, whose owner is not on the
way. -/
theorem addEdge_reaches_foreign_pin :
    ∃ b₀ b, createRoutingGraphBuilder (sharedSink 2) = .ok b₀
      ∧ run (step (sharedSink 2)) b₀ [.addEdge ⟨0, 0⟩ ⟨1, 0⟩]
        = .ok (b, [.added true])
      ∧ FromRoutable (sharedSink 2) (.addEdge ⟨0, 0⟩ ⟨1, 0⟩)
      ∧ (⟨0, 0⟩, ⟨1, 0⟩) ∈ b.edges
      ∧ path (sharedSink 2) b ⟨1, 0⟩ = [⟨1, 0⟩, ⟨3, 0⟩]
      ∧ (sharedSink 2).exclusiveOwner ⟨3, 0⟩ = some 2 := by
  simp only [FromRoutable]
  decide +kernel

end RoutingGraphBuilder

end CroCOS.Interrupts.Routing
