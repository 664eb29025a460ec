/-
The loops over potential edges. The tests that an iterator makes on its
way change no answer, so a loop is given what one would expect of a
single builder (`forEach_spec`): of the valid positions, the first one
as it is, and then those that are not joined yet. Only `++` looks for
joined vertices, `begin()` does not.

Of the two trigger-agnostic enumerations the forward one uses a test
that does look at the trigger types. So it is exact only for a vertex
that has no edge yet and whose potential targets all have a compatible
type; the backward one is exact unless it begins at a vertex that is
joined already.
-/
import CroCOS.Proofs.InterruptRouting.AddEdge

namespace CroCOS.Interrupts.Routing

open Manager (Label)
open Lib RoutingGraphBuilder

variable {Domain : Type} [DecidableEq Domain]
variable {T : Topology Domain} {b b₁ : RoutingGraphBuilder Domain}
variable {v w : Label Domain}

namespace PotentialEdgeIterator

-- ==== the loops

/-- The builder is `b` but for what tests have stored. -/
structure Queried (T : Topology Domain)
    (b b₁ : RoutingGraphBuilder Domain) : Prop where
  sound : Sound T b₁
  same : SameAnswers b b₁

/-- On such builders the test answers `p`. -/
def Tests (T : Topology Domain) (b : RoutingGraphBuilder Domain)
    (valid : Test Domain) (p : Label Domain → Bool) : Prop :=
  ∀ b₁, Queried T b b₁ → ∀ w, ∃ b₂, valid w b₁ = .ok (p w, b₂)
    ∧ Queried T b b₂

/-- What a loop over a filtered range is given. -/
def given (p joined : Label Domain → Bool)
    (positions : List (Label Domain)) : List (Label Domain) :=
  match positions.filter p with
  | [] => []
  | w :: ws => w :: ws.filter fun w => !joined w

variable {valid : Test Domain} {p joined : Label Domain → Bool}
variable {isJoined : RoutingGraphBuilder Domain → Label Domain → Bool}

theorem advanceToValidState_spec (hvalid : Tests T b valid p) :
    ∀ positions b₁, Queried T b b₁ →
      ∃ b₂, advanceToValidState valid positions b₁
          = .ok (positions.dropWhile fun w => !p w, b₂)
        ∧ Queried T b b₂ := by
  intro positions
  induction positions with
  | nil => exact fun b₁ hb => ⟨b₁, rfl, hb⟩
  | cons w positions ih =>
    intro b₁ hb
    obtain ⟨b₂, hrun, hb₂⟩ := hvalid b₁ hb w
    rw [advanceToValidState, hrun]
    cases hp : p w with
    | true => exact ⟨b₂, by simp [hp], hb₂⟩
    | false =>
      simp only [List.dropWhile_cons, hp, Bool.not_false]
      exact ih b₂ hb₂

variable {α : Type}
variable {body : Label Domain → RoutingGraphBuilder Domain × α →
  Except Fault (RoutingGraphBuilder Domain × α)} {f : α → Label Domain → α}

/-- The loop body only queries the builder, and computes `f`. -/
def Computes (T : Topology Domain) (b : RoutingGraphBuilder Domain)
    (body : Label Domain → RoutingGraphBuilder Domain × α →
      Except Fault (RoutingGraphBuilder Domain × α))
    (f : α → Label Domain → α) : Prop :=
  ∀ b₁, Queried T b b₁ → ∀ w a, ∃ b₂, body w (b₁, a) = .ok (b₂, f a w)
    ∧ Queried T b b₂

/-- From `++` on, the loop is given the valid positions that are not
joined. -/
theorem skipJoined_forEachFrom (hvalid : Tests T b valid p)
    (hjoined : ∀ b₁, Queried T b b₁ → isJoined b₁ = joined)
    (hbody : Computes T b body f) :
    ∀ positions fuel b₁ a, Queried T b b₁ → positions.length ≤ fuel →
      ∃ b₂, (skipJoined valid isJoined positions b₁ >>= fun r =>
            forEachFrom valid isJoined body fuel r.1 (r.2, a))
          = .ok (b₂, (positions.filter fun w => p w && !joined w).foldl f a)
        ∧ Queried T b b₂ := by
  intro positions
  induction positions with
  | nil =>
    intro fuel b₁ a hb _
    exact ⟨b₁, by simp [skipJoined, forEachFrom], hb⟩
  | cons w positions ih =>
    intro fuel b₁ a hb hfuel
    obtain ⟨fuel, rfl⟩ : ∃ n, fuel = n + 1 :=
      ⟨fuel - 1, by simp at hfuel; omega⟩
    have hlength : positions.length ≤ fuel := by simpa using hfuel
    obtain ⟨b₂, hrun, hb₂⟩ := hvalid b₁ hb w
    simp only [skipJoined, hrun, List.filter_cons]
    cases hp : p w with
    | false => simpa [hp] using ih (fuel + 1) b₂ a hb₂ (by omega)
    | true =>
      simp only [hjoined b₂ hb₂]
      cases hj : joined w with
      | true => simpa [hj] using ih (fuel + 1) b₂ a hb₂ (by omega)
      | false =>
        obtain ⟨b₃, hturn, hb₃⟩ := hbody b₂ hb₂ w a
        obtain ⟨b₄, hrest, hb₄⟩ := ih fuel b₃ (f a w) hb₃ hlength
        refine ⟨b₄, ?_, hb₄⟩
        simp only [Bool.false_eq_true, if_false, ok_bind, forEachFrom,
          hturn, Bool.not_false, Bool.and_self, if_true]
        cases hskip : skipJoined valid isJoined positions b₃ with
        | error e =>
          rw [hskip] at hrest
          cases hrest
        | ok r =>
          rw [hskip] at hrest
          exact hrest

/-- A whole loop. -/
theorem forEach_spec (hb : Sound T b) (hvalid : Tests T b valid p)
    (hjoined : ∀ b₁, Queried T b b₁ → isJoined b₁ = joined)
    (hbody : Computes T b body f) (positions : List (Label Domain))
    (a : α) :
    ∃ b₂, forEach valid isJoined body positions (b, a)
        = .ok (b₂, (given p joined positions).foldl f a)
      ∧ Queried T b b₂ := by
  obtain ⟨b₁, hbegin, hb₁⟩ :=
    advanceToValidState_spec hvalid positions b ⟨hb, .refl b⟩
  have hfilter : positions.filter p
      = (positions.dropWhile fun w => !p w).filter p := by
    clear hbegin
    induction positions with
    | nil => rfl
    | cons w positions ih =>
      cases hp : p w with
      | true => simp [hp]
      | false => simpa [hp] using ih
  rw [forEach]
  simp only [hbegin]
  rw [given, hfilter]
  cases hdrop : positions.dropWhile fun w => !p w with
  | nil => exact ⟨b₁, rfl, hb₁⟩
  | cons w rest =>
    have hw : p w = true := by
      have := List.head?_dropWhile_not (fun w => !p w) positions
      rw [hdrop] at this
      simpa using this
    obtain ⟨b₂, hturn, hb₂⟩ := hbody b₁ hb₁ w a
    obtain ⟨b₃, hrest, hb₃⟩ := skipJoined_forEachFrom hvalid hjoined
      hbody rest rest.length b₂ (f a w) hb₂ le_rfl
    refine ⟨b₃, ?_, hb₃⟩
    simp only [List.length_cons, forEachFrom, hturn, List.filter_cons, hw,
      if_true, List.filter_filter]
    cases hskip : skipJoined valid isJoined rest b₂ with
    | error e =>
      rw [hskip] at hrest
      cases hrest
    | ok r =>
      rw [hskip] at hrest
      simpa [Bool.and_comm] using hrest

-- ==== the two directions

open RoutingConstraint

/-- What the forward iterator accepts. -/
def validTarget (T : Topology Domain) (b : RoutingGraphBuilder Domain)
    (v w : Label Domain) : Bool :=
  T.hasVertex v && T.hasVertex w && allowed T b v w true

/-- What the backward iterator accepts. -/
def validSource (T : Topology Domain) (b : RoutingGraphBuilder Domain)
    (v : Label Domain) (check : Bool) (w : Label Domain) : Bool :=
  T.hasVertex w && T.hasVertex v && allowed T b w v check

theorem tests_target (hb : Wired T b) (v : Label Domain) :
    Tests T b (isValidTarget T v) (validTarget T b v) := by
  intro b₁ hb₁ w
  rw [isValidTarget, validTarget]
  cases hvw : T.hasVertex v && T.hasVertex w with
  | false => exact ⟨b₁, rfl, hb₁⟩
  | true =>
    obtain ⟨b₂, hrun, hsound, hsame⟩ :=
      isEdgeAllowedImpl_spec hb₁.sound v w true
    refine ⟨b₂, ?_, hsound, hb₁.same.trans hsame⟩
    simp only [if_true, isEdgeAllowed, hrun, allowed_congr hb hb₁.same,
      Bool.true_and]

theorem tests_source (hb : Wired T b) (v : Label Domain) (check : Bool) :
    Tests T b (isValidSource T v check) (validSource T b v check) := by
  intro b₁ hb₁ w
  rw [isValidSource, validSource]
  cases hvw : T.hasVertex w && T.hasVertex v with
  | false => exact ⟨b₁, rfl, hb₁⟩
  | true =>
    obtain ⟨b₂, hrun, hsound, hsame⟩ :=
      isEdgeAllowedImpl_spec hb₁.sound w v check
    refine ⟨b₂, ?_, hsound, hb₁.same.trans hsame⟩
    simp only [if_true, hrun, allowed_congr hb hb₁.same, Bool.true_and]

omit [DecidableEq Domain] in
/-- The positions of an enumeration: a block of indices for each of a
list of distinct domains. -/
theorem positions_nodup {cs : List (DomainConnector Domain)}
    {site : DomainConnector Domain → Domain}
    (count : DomainConnector Domain → Nat)
    (hcs : cs.Pairwise fun c c' => site c ≠ site c') :
    (cs.flatMap fun c => (List.range (count c)).map
      fun index => (⟨site c, index⟩ : Label Domain)).Nodup := by
  rw [List.nodup_flatMap]
  refine ⟨fun c _ => List.nodup_range.map ?_, hcs.imp ?_⟩
  · intro i i' h
    exact (Label.mk.inj h).2
  · intro c c' hne l hl hl'
    obtain ⟨i, -, rfl⟩ := List.mem_map.mp hl
    obtain ⟨i', -, h⟩ := List.mem_map.mp hl'
    exact hne (Label.mk.inj h).1.symm

theorem targetPositions_nodup (v : Label Domain) :
    (targetPositions T v).Nodup :=
  positions_nodup _ (outgoingEdges_pairwise v.domain)

theorem incomingEdges_pairwise (d : Domain) :
    (T.incomingEdges d).Pairwise fun c c' => c.source ≠ c'.source := by
  refine ((List.pairwise_map.mp T.simple).filter _).imp_of_mem ?_
  intro c c' hc hc' hne heq
  have ht := List.of_mem_filter hc
  have ht' := List.of_mem_filter hc'
  simp only [decide_eq_true_eq] at ht ht'
  apply hne
  rw [ht, ht', heq]

theorem sourcePositions_nodup (v : Label Domain) :
    (sourcePositions T v).Nodup :=
  positions_nodup _ (incomingEdges_pairwise v.domain)

theorem mem_targetPositions (hw : T.hasVertex w = true)
    (hvw : (v.domain, w.domain) ∈ T.graph.edges) :
    w ∈ targetPositions T v := by
  obtain ⟨c, hc, he⟩ := List.mem_map.mp hvw
  obtain ⟨hsource, htarget⟩ := Prod.mk.inj he
  have hindex := (Topology.hasVertex_iff.mp hw).2
  rw [Topology.vertexCount, Topology.isReceiver_of_mem_graph hvw,
    if_pos rfl] at hindex
  refine List.mem_flatMap.mpr ⟨c, mem_outgoingEdges.mpr ⟨hc, hsource⟩, ?_⟩
  refine List.mem_map.mpr ⟨w.index, List.mem_range.mpr ?_, ?_⟩
  · rw [htarget]
    omega
  · rw [htarget]

theorem mem_sourcePositions (hw : T.hasVertex w = true)
    (hwv : (w.domain, v.domain) ∈ T.graph.edges) :
    w ∈ sourcePositions T v := by
  obtain ⟨c, hc, he⟩ := List.mem_map.mp hwv
  obtain ⟨hsource, htarget⟩ := Prod.mk.inj he
  have hindex := (Topology.hasVertex_iff.mp hw).2
  refine List.mem_flatMap.mpr ⟨c, ?_, ?_⟩
  · exact List.mem_filter.mpr ⟨hc, decide_eq_true htarget⟩
  · refine List.mem_map.mpr ⟨w.index, List.mem_range.mpr ?_, ?_⟩
    · rw [hsource]
      omega
    · rw [hsource]

omit [DecidableEq Domain] in
/-- Of a range without repetitions, the loop is given the valid vertices
that are not joined, exactly if the first valid one is not. -/
theorem given_exact_iff (p joined : Label Domain → Bool)
    {positions : List (Label Domain)} (hnodup : positions.Nodup) :
    ((given p joined positions).Nodup
        ∧ ∀ w, w ∈ given p joined positions
          ↔ (w ∈ positions ∧ p w = true) ∧ joined w = false)
      ↔ ∀ w ∈ (positions.filter p).head?, joined w = false := by
  have hfiltered := hnodup.filter p
  rw [given]
  cases hf : positions.filter p with
  | nil =>
    simp only [List.nodup_nil, List.not_mem_nil, false_iff, true_and,
      List.head?_nil, Option.not_mem_none, IsEmpty.forall_iff,
      implies_true, iff_true]
    rintro w ⟨hw, -⟩
    have := List.mem_filter.mpr hw
    rw [hf] at this
    cases this
  | cons first rest =>
    rw [hf] at hfiltered
    have hmem : ∀ w, (w ∈ positions ∧ p w = true)
        ↔ w = first ∨ w ∈ rest := by
      intro w
      rw [← List.mem_filter, hf, List.mem_cons]
    simp only [hmem, List.head?_cons, Option.mem_some_iff, forall_eq',
      List.mem_cons, List.mem_filter, Bool.not_eq_true']
    constructor
    · intro h
      exact ((h.2 first).mp (Or.inl rfl)).2
    · intro hfirst
      refine ⟨(hfiltered.sublist ((List.filter_sublist).cons_cons first)),
        fun w => ⟨?_, ?_⟩⟩
      · rintro (rfl | ⟨hw, hj⟩)
        · exact ⟨Or.inl rfl, hfirst⟩
        · exact ⟨Or.inr hw, hj⟩
      · rintro ⟨rfl | hw, hj⟩
        · exact Or.inl rfl
        · exact Or.inr ⟨hw, hj⟩

end PotentialEdgeIterator

namespace RoutingGraphBuilder

open PotentialEdgeIterator RoutingConstraint

-- ==== the enumerations

/-- A test that returned and said yes. -/
def Accepts (x : Except Fault (Bool × RoutingGraphBuilder Domain)) : Prop :=
  Returns (fun p => p.1 = true) x

/-- The loop ends, having been given what satisfies `P`, each once. -/
def Enumerates
    (x : Except Fault (RoutingGraphBuilder Domain × List (Label Domain)))
    (P : Label Domain → Prop) : Prop :=
  ∃ b' ws, x = .ok (b', ws) ∧ ws.Nodup ∧ ∀ w, w ∈ ws ↔ P w

theorem computes_collect (T : Topology Domain)
    (b : RoutingGraphBuilder Domain) :
    Computes T b collect fun acc w => acc ++ [w] :=
  fun b₁ hb₁ _ _ => ⟨b₁, rfl, hb₁⟩

theorem validEdgesFromIgnoringTriggerType_eq (hb : Sound T b)
    (v : Label Domain) :
    ∃ b', b.validEdgesFromIgnoringTriggerType T v
      = .ok (b', given (validTarget T b v) (fun w => b.hasEdge v w)
          (targetPositions T v)) := by
  have hjoined : ∀ b₁, Queried T b b₁ →
      (fun w => b₁.hasEdge v w) = fun w => b.hasEdge v w := fun b₁ hb₁ =>
    funext fun w => hasEdge_congr hb₁.same.edges
  obtain ⟨b', hrun, -⟩ := forEach_spec hb (tests_target hb.wired v)
    hjoined (computes_collect T b) (targetPositions T v) []
  refine ⟨b', ?_⟩
  rw [validEdgesFromIgnoringTriggerType, forValidEdgesFrom, hrun]
  simp [← List.flatMap_def]

theorem validEdgesToIgnoringTriggerType_eq (hb : Sound T b) (v : Label Domain) :
    ∃ b', b.validEdgesToIgnoringTriggerType T v
      = .ok (b', given (validSource T b v false) (fun w => b.hasEdge w v)
          (sourcePositions T v)) := by
  have hjoined : ∀ b₁, Queried T b b₁ →
      (fun w => b₁.hasEdge w v) = fun w => b.hasEdge w v := fun b₁ hb₁ =>
    funext fun w => hasEdge_congr hb₁.same.edges
  obtain ⟨b', hrun, -⟩ := forEach_spec hb (tests_source hb.wired v false)
    hjoined (computes_collect T b) (sourcePositions T v) []
  refine ⟨b', ?_⟩
  rw [validEdgesToIgnoringTriggerType, hrun]
  simp [← List.flatMap_def]

theorem accepts_ignoring (hb : Sound T b) (v w : Label Domain) :
    Accepts (b.isEdgeAllowedIgnoringTriggerType T v w)
      ↔ b.hasEdge v w = false ∧ allowed T b v w false = true := by
  rw [isEdgeAllowedIgnoringTriggerType]
  cases hold : b.hasEdge v w with
  | true => simp [Accepts, Returns]
  | false =>
    obtain ⟨b', hrun, -, -⟩ := isEdgeAllowedImpl_spec hb v w false
    simp [Accepts, Returns, hrun]

theorem accepts_isEdgeAllowed (hb : Sound T b) (v w : Label Domain) :
    Accepts (isEdgeAllowed T b v w) ↔ allowed T b v w true = true := by
  obtain ⟨b', hrun, -, -⟩ := isEdgeAllowedImpl_spec hb v w true
  simp [Accepts, Returns, isEdgeAllowed, hrun]

theorem hasEdge_of_firstTarget_none (h : b.firstTarget v = none)
    (w : Label Domain) : b.hasEdge v w = false := by
  rw [hasEdge, decide_eq_false_iff_not]
  exact fun hin => firstTarget_eq_none.mp h _ hin rfl

/-- The forward enumeration of a vertex that has an edge gives that
edge's target, which cannot be added again. -/
theorem not_enumerates_of_some (hb : Sound T b)
    (hv : T.hasVertex v = true) {x : Label Domain}
    (hx : b.firstTarget v = some x) :
    ¬ Enumerates (b.validEdgesFromIgnoringTriggerType T v) fun w =>
      T.hasVertex w = true
        ∧ Accepts (b.isEdgeAllowedIgnoringTriggerType T v w) := by
  rintro ⟨b', ws, hrun, -, hmem⟩
  obtain ⟨b₁, hrun₁⟩ := validEdgesFromIgnoringTriggerType_eq hb v
  rw [hrun₁] at hrun
  cases hrun
  have hedge := mem_edges_of_firstTarget hx
  have hvalid : ∀ w, validTarget T b v w = true → b.hasEdge v w = true := by
    intro w hw
    simp only [validTarget, allowed, hx, Option.isSome_some,
      Bool.and_eq_true] at hw
    exact hw.2
  have hxin : x ∈ (targetPositions T v).filter (validTarget T b v) := by
    have hxv := hb.wired.target _ hedge
    refine List.mem_filter.mpr
      ⟨mem_targetPositions hxv (hb.wired.follows _ hedge), ?_⟩
    simp only [validTarget, allowed, hx, Option.isSome_some, hv,
      hxv, Bool.true_and]
    exact decide_eq_true hedge
  cases hf : (targetPositions T v).filter (validTarget T b v) with
  | nil =>
    rw [hf] at hxin
    cases hxin
  | cons first rest =>
    have hfirst : first ∈ given (validTarget T b v)
        (fun w => b.hasEdge v w) (targetPositions T v) := by
      rw [given, hf]
      exact List.mem_cons_self
    have hjoined := hvalid first (List.mem_filter.mp
      (hf ▸ List.mem_cons_self)).2
    have hunjoined := ((accepts_ignoring hb v first).mp
      ((hmem first).mp hfirst).2).1
    rw [hjoined] at hunjoined
    cases hunjoined

/-- What a free vertex is given: the vertices its connectors allow, of a
compatible type. -/
theorem mem_given_target (hv : T.hasVertex v = true)
    (hfree : b.firstTarget v = none) (w : Label Domain) :
    (w ∈ targetPositions T v ∧ validTarget T b v w = true)
      ↔ T.hasVertex w = true ∧ allowed T b v w true = true := by
  simp only [validTarget, hv, Bool.true_and, Bool.and_eq_true]
  constructor
  · exact fun h => h.2
  · rintro ⟨hw, hallowed⟩
    refine ⟨mem_targetPositions hw ?_, hw, hallowed⟩
    exact mem_graph_of_connectorAllows
      (connectorAllows_of_allowed hfree hallowed)

theorem validEdgesFrom_exact_iff (hb : Sound T b) (hv : T.hasVertex v = true) :
    (Enumerates (b.validEdgesFromIgnoringTriggerType T v) fun w =>
        T.hasVertex w = true
          ∧ Accepts (b.isEdgeAllowedIgnoringTriggerType T v w))
      ↔ b.firstTarget v = none
        ∧ ∀ w, T.hasVertex w = true →
          Accepts (b.isEdgeAllowedIgnoringTriggerType T v w) →
            Accepts (isEdgeAllowed T b v w) := by
  cases hfree : b.firstTarget v with
  | some x =>
    simp only [reduceCtorEq, false_and, iff_false]
    exact not_enumerates_of_some hb hv hfree
  | none =>
    obtain ⟨b', hrun⟩ := validEdgesFromIgnoringTriggerType_eq hb v
    have hnew := hasEdge_of_firstTarget_none hfree
    obtain ⟨hnodup, hgiven⟩ := (given_exact_iff (validTarget T b v)
      (fun w => b.hasEdge v w) (targetPositions_nodup v)).mpr
      fun w _ => hnew w
    have hmem : ∀ w, w ∈ given (validTarget T b v)
        (fun w => b.hasEdge v w) (targetPositions T v)
          ↔ T.hasVertex w = true ∧ Accepts (isEdgeAllowed T b v w) := by
      intro w
      rw [hgiven w, mem_given_target hv hfree, accepts_isEdgeAllowed hb]
      simp [hnew w]
    simp only [true_and]
    constructor
    · rintro ⟨b₁, ws, hrun₁, -, hws⟩ w hw hignoring
      rw [hrun] at hrun₁
      cases hrun₁
      exact ((hmem w).mp ((hws w).mpr ⟨hw, hignoring⟩)).2
    · intro hcompatible
      refine ⟨b', _, hrun, hnodup, fun w => ?_⟩
      rw [hmem w]
      refine and_congr_right fun hw => ⟨fun hallowed => ?_, hcompatible w hw⟩
      rw [accepts_ignoring hb]
      rw [accepts_isEdgeAllowed hb] at hallowed
      refine ⟨hnew w, ?_⟩
      simp only [allowed, hfree, Option.isSome_none, Bool.false_eq_true, Bool.not_false, Bool.true_or]
      exact connectorAllows_of_allowed hfree hallowed

/-- Of the vertices that may be joined to `v`, or are (`allowed`), the
first in the order of the topology's connectors has no edge to it. -/
def FirstSourceUnjoined (T : Topology Domain)
    (b : RoutingGraphBuilder Domain) (v : Label Domain) : Prop :=
  ∀ w ∈ ((sourcePositions T v).filter (validSource T b v false)).head?,
    b.hasEdge w v = false

theorem mem_given_source (hb : Sound T b) (hv : T.hasVertex v = true)
    (w : Label Domain) :
    (w ∈ sourcePositions T v ∧ validSource T b v false w = true)
      ↔ T.hasVertex w = true ∧ allowed T b w v false = true := by
  simp only [validSource, hv, Bool.and_true, Bool.and_eq_true]
  constructor
  · exact fun h => h.2
  · rintro ⟨hw, hallowed⟩
    refine ⟨mem_sourcePositions hw ?_, hw, hallowed⟩
    cases hfree : b.firstTarget w with
    | none =>
      exact mem_graph_of_connectorAllows
        (connectorAllows_of_allowed hfree hallowed)
    | some x =>
      simp only [allowed, hfree, Option.isSome_some, if_true, hasEdge,
        decide_eq_true_eq] at hallowed
      exact hb.wired.follows _ hallowed

theorem validEdgesTo_exact_iff (hb : Sound T b) (hv : T.hasVertex v = true) :
    (Enumerates (b.validEdgesToIgnoringTriggerType T v) fun w =>
        T.hasVertex w = true
          ∧ Accepts (b.isEdgeAllowedIgnoringTriggerType T w v))
      ↔ FirstSourceUnjoined T b v := by
  obtain ⟨b', hrun⟩ := validEdgesToIgnoringTriggerType_eq hb v
  have hwanted : ∀ w, ((w ∈ sourcePositions T v
        ∧ validSource T b v false w = true) ∧ b.hasEdge w v = false)
      ↔ T.hasVertex w = true
        ∧ Accepts (b.isEdgeAllowedIgnoringTriggerType T w v) := by
    intro w
    rw [mem_given_source hb hv, accepts_ignoring hb]
    tauto
  have hexact := given_exact_iff (validSource T b v false)
    (fun w => b.hasEdge w v) (sourcePositions_nodup (T := T) v)
  simp only [hwanted] at hexact
  refine Iff.trans ⟨?_, ?_⟩ hexact
  · rintro ⟨b₂, ws, hrun₂, hws⟩
    rw [hrun] at hrun₂
    cases hrun₂
    exact hws
  · exact fun h => ⟨b', _, hrun, h⟩

/-- Every run of calls on a new builder, and every vertex: when the two
trigger-agnostic enumerations give exactly the vertices that the
trigger-agnostic test accepts, each once. -/
theorem validEdgesIgnoringTriggerType_exact_iff
    {calls : List (Call Domain)} {replies : List (Reply Domain)}
    {b₀ : RoutingGraphBuilder Domain}
    (hcreate : createRoutingGraphBuilder T = .ok b₀)
    (hrun : run (step T) b₀ calls = .ok (b, replies))
    (hv : T.hasVertex v = true) :
    ((Enumerates (b.validEdgesFromIgnoringTriggerType T v) fun w =>
          T.hasVertex w = true
            ∧ Accepts (b.isEdgeAllowedIgnoringTriggerType T v w))
        ↔ b.firstTarget v = none
          ∧ ∀ w, T.hasVertex w = true →
            Accepts (b.isEdgeAllowedIgnoringTriggerType T v w) →
              Accepts (isEdgeAllowed T b v w))
      ∧ ((Enumerates (b.validEdgesToIgnoringTriggerType T v) fun w =>
          T.hasVertex w = true
            ∧ Accepts (b.isEdgeAllowedIgnoringTriggerType T w v))
        ↔ FirstSourceUnjoined T b v) := by
  have hb := run_sound (createRoutingGraphBuilder_sound hcreate).1 hrun
  exact ⟨validEdgesFrom_exact_iff hb hv, validEdgesTo_exact_iff hb hv⟩

/-- A device, 0, and a freely routable domain, 1, both connected to the
only input of 2, which may be configured. -/
def sharedInput (type : Option InterruptLineActivationType) :
    Topology (Fin 3) :=
  .ofAffine (fun d => if d = 0 then .emitter
      else if d = 1 then .freeRoutable else .receiver)
    (fun _ => 1) (fun _ => 1) (fun d _ => if d = 2 then type else none)
    [0, 1, 2] [⟨0, 2, 0, 0, 1, false⟩, ⟨1, 2, 0, 0, 1, false⟩]
    (by decide) (by decide) (by decide) (by decide) (by decide)

instance decidableAccepts
    (x : Except Fault (Bool × RoutingGraphBuilder Domain)) :
    Decidable (Accepts x) :=
  inferInstanceAs (Decidable (Returns _ x))

/-- With an untyped input, the forward enumeration from the routable
domain is exact. -/
theorem validEdgesIgnoringTriggerType_exact_iff_sharedInput : ∃ b₀ b replies,
      createRoutingGraphBuilder (sharedInput none) = .ok b₀
      ∧ run (step (sharedInput none)) b₀ [.getEffectiveOwner ⟨2, 0⟩]
        = .ok (b, replies)
      ∧ (sharedInput none).hasVertex ⟨1, 0⟩ = true
      ∧ Enumerates (b.validEdgesFromIgnoringTriggerType (sharedInput none)
          ⟨1, 0⟩) fun w => (sharedInput none).hasVertex w = true
            ∧ Accepts (b.isEdgeAllowedIgnoringTriggerType
              (sharedInput none) ⟨1, 0⟩ w) := by
  have hruns : Returns (fun b₀ => Returns
        (fun r => r.1.firstTarget ⟨1, 0⟩ = none
          ∧ ∀ w ∈ (sharedInput none).domains.flatMap
              (sharedInput none).labelsOf,
            Accepts (r.1.isEdgeAllowedIgnoringTriggerType
              (sharedInput none) ⟨1, 0⟩ w) →
            Accepts (isEdgeAllowed (sharedInput none) r.1 ⟨1, 0⟩ w))
        (run (step (sharedInput none)) b₀ [.getEffectiveOwner ⟨2, 0⟩]))
      (createRoutingGraphBuilder (sharedInput none)) := by decide +kernel
  obtain ⟨b₀, hcreate, hrest⟩ := hruns.exists_ok
  obtain ⟨⟨b, replies⟩, hrun, hfree, htypes⟩ := hrest.exists_ok
  refine ⟨b₀, b, replies, hcreate, hrun, rfl, ?_⟩
  exact (validEdgesIgnoringTriggerType_exact_iff hcreate hrun rfl).1.mpr
    ⟨hfree, fun w hw => htypes w (Topology.mem_labels.mpr hw)⟩

/-- With a level triggered input, the forward enumeration leaves out the
vertex that the test accepts; the backward one gives the device, which
is joined. -/
theorem validEdgesIgnoringTriggerType_inexact : ∃ b b₁ b₂,
      createRoutingGraphBuilder (sharedInput (some .LEVEL_HIGH)) = .ok b
      ∧ b.validEdgesFromIgnoringTriggerType
          (sharedInput (some .LEVEL_HIGH)) ⟨1, 0⟩ = .ok (b₁, [])
      ∧ Accepts (b.isEdgeAllowedIgnoringTriggerType
          (sharedInput (some .LEVEL_HIGH)) ⟨1, 0⟩ ⟨2, 0⟩)
      ∧ b.validEdgesToIgnoringTriggerType
          (sharedInput (some .LEVEL_HIGH)) ⟨2, 0⟩
        = .ok (b₂, [⟨0, 0⟩, ⟨1, 0⟩])
      ∧ ¬ Accepts (b.isEdgeAllowedIgnoringTriggerType
          (sharedInput (some .LEVEL_HIGH)) ⟨0, 0⟩ ⟨2, 0⟩) := by
  -- every answer is asked for where the calls before it have returned
  simp only [exists_and_left]
  decide +kernel

end RoutingGraphBuilder

end CroCOS.Interrupts.Routing
