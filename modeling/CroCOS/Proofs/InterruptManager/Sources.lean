/-
Which sources a vector has, and the order its sources are popped in. The
edges are sorted by falling order of their targets, so that a vertex's
own edge is processed before those into it and the vector numbers are
those of the routes (`compute_complete`); the routed pure emitters are
then stacked by vector, order of domain and output (`Stack`).
-/
import CroCOS.Proofs.InterruptManager.Dispatch
import CroCOS.Proofs.InterruptManager.Rerouting

namespace CroCOS.Interrupts.Manager

open Function Lib

variable {Domain : Type} [DecidableEq Domain]
variable {P : Platform Domain} {T : Graph.Digraph Domain} {V : VectorSort}
variable {g : RoutingGraph P T} {sorted : List Domain}
variable {v w : Label Domain} {n : Nat}

-- ==== the setting

/-- What `updateRouting` has when it computes the tables: a topology in
which only emitters have outgoing connectors, its topological order, and
a vector file of all the vectors. -/
structure Prepared (g : RoutingGraph P T) (sorted : List Domain) :
    Prop where
  wf : T.Wf
  order : Graph.IsTopologicalOrder T sorted
  emits : ∀ e ∈ T.edges, P.isInterruptEmitter e.1 = true
  vectors : P.vectorFile ∈ T.vertices
  width : P.getReceiverCount P.vectorFile = CPU_INTERRUPT_COUNT

/-- A pure emitter, routed to vector `n`. -/
def IsSource (g : RoutingGraph P T) (v : Label Domain) (n : Nat) : Prop :=
  isPureEmitter P v = true ∧ RoutesTo g v n

/-- The EOI domain is on the route of the label. -/
def OnPath (g : RoutingGraph P T) (v : Label Domain) (d : Domain) : Prop :=
  P.isEOIDomain d = true
    ∧ ∃ w, Relation.ReflTransGen (fun a b => (a, b) ∈ g.edges) v w
      ∧ w.domain = d

/-- The place of a label among those of one vector. -/
def place (sorted : List Domain) (v : Label Domain) : ℕ ×ₗ ℕ :=
  toLex (sorted.idxOf v.domain, v.index)

-- ==== the order

omit [DecidableEq Domain] in
theorem mem_labels {domains : List Domain} :
    v ∈ domains.flatMap (labelsOf P)
      ↔ v.domain ∈ domains ∧ v.index < vertexCount P v.domain := by
  rw [List.mem_flatMap]
  constructor
  · intro h
    obtain ⟨d, hd, hv⟩ := h
    obtain ⟨j, hj, rfl⟩ := List.mem_map.mp hv
    exact ⟨hd, List.mem_range.mp hj⟩
  · intro h
    exact ⟨v.domain, h.1, List.mem_map.mpr
      ⟨v.index, List.mem_range.mpr h.2, rfl⟩⟩

theorem mem_order (h : Prepared g sorted) {d : Domain} :
    d ∈ sorted ↔ d ∈ T.vertices := h.order.perm.mem_iff

theorem orderOf_sorted {d : Domain} (hd : d ∈ sorted) :
    orderOf (some sorted.zipIdx) d = .ok (sorted.idxOf d) := by
  show Except.ok ((sorted.zipIdx.lookup d).getD 0) = _
  rw [lookup_zipIdx hd, Option.getD_some, Nat.zero_add]

theorem source_mem (h : Prepared g sorted) (he : (v, w) ∈ g.edges) :
    v.domain ∈ sorted :=
  (mem_order h).mpr (mem_labels.mp (g.source _ he)).1

theorem target_mem (h : Prepared g sorted) (he : (v, w) ∈ g.edges) :
    w.domain ∈ sorted :=
  (mem_order h).mpr (mem_labels.mp (g.target _ he)).1

theorem edge_ascends (h : Prepared g sorted) (he : (v, w) ∈ g.edges) :
    sorted.idxOf v.domain < sorted.idxOf w.domain :=
  h.order.ascends _ (g.follows _ he)

/-- The vector file has no outgoing edge. -/
theorem edge_source_ne (h : Prepared g sorted) (he : (v, w) ∈ g.edges) :
    v.domain ≠ P.vectorFile := by
  intro hv
  have := h.emits _ (g.follows _ he)
  rw [hv, P.vectorFile_sink] at this
  cases this

theorem place_inj (hv : v.domain ∈ sorted)
    (hp : place sorted v = place sorted w) : v = w := by
  have hp := Prod.ext_iff.mp (toLex.injective hp)
  obtain ⟨d, i⟩ := v
  obtain ⟨d', i'⟩ := w
  have hd : d = d' := (List.idxOf_inj hv).mp hp.1
  have hi : i = i' := hp.2
  rw [hd, hi]

omit [DecidableEq Domain] in
/-- A source has an edge. -/
theorem IsSource.edge (hv : IsSource g v n) : ∃ w, (v, w) ∈ g.edges := by
  rcases Relation.ReflTransGen.cases_head hv.2 with hf | ⟨w, hw, -⟩
  · have hp := hv.1
    rw [hf, isPureEmitter, P.vectorFile_receives] at hp
    cases hp
  · exact ⟨w, hw⟩

theorem IsSource.mem (h : Prepared g sorted) (hv : IsSource g v n) :
    v.domain ∈ sorted := by
  obtain ⟨w, hw⟩ := hv.edge
  exact source_mem h hw

theorem IsSource.onPath_mem (h : Prepared g sorted) (hv : IsSource g v n)
    {d : Domain} (hd : OnPath g v d) : d ∈ sorted := by
  obtain ⟨-, w, hw, rfl⟩ := hd
  rcases Relation.ReflTransGen.cases_tail hw with hf | ⟨x, -, he⟩
  · rw [hf]
    exact hv.mem h
  · exact target_mem h he

/-- Every source is routed to a vector there is. -/
theorem IsSource.lt (h : Prepared g sorted) (hv : IsSource g v n) :
    n < CPU_INTERRUPT_COUNT := by
  rcases Relation.ReflTransGen.cases_tail hv.2 with hf | ⟨x, -, he⟩
  · have hp := hv.1
    rw [← hf, isPureEmitter, P.vectorFile_receives] at hp
    cases hp
  · have := (mem_labels.mp (g.target _ he)).2
    rwa [vertexCount, if_pos P.vectorFile_receives, h.width] at this

-- ==== the vector numbers

/-- An edge whose target's own edge has been processed. -/
theorem assignVector_complete (h : Prepared g sorted)
    {n : Numbers Domain} {pre : List (Label Domain × Label Domain)}
    (hpre : ∀ e ∈ pre, e ∈ g.edges)
    (hn : ∀ e ∈ pre, ∀ k, RoutesTo g e.1 k →
      n.finalVectorNumber e.1 = some k)
    (he : (v, w) ∈ g.edges) (hnext : ∀ x, (w, x) ∈ g.edges → (w, x) ∈ pre) :
    ∀ e ∈ pre ++ [(v, w)], ∀ k, RoutesTo g e.1 k →
      (assignVector P n (v, w)).finalVectorNumber e.1 = some k := by
  let final := if w.domain = P.vectorFile then
    update n.finalVectorNumber w (some w.index) else n.finalVectorNumber
  have hstep : (assignVector P n (v, w)).finalVectorNumber
      = update final v (final w) := rfl
  -- a vertex with an edge is none of the vector file's
  have hfinal : ∀ a b, (a, b) ∈ g.edges →
      final a = n.finalVectorNumber a := by
    intro a b hab
    unfold final
    split_ifs with hfile
    · refine update_of_ne (fun hx => edge_source_ne h hab ?_) _ _
      rw [hx]
      exact hfile
    · rfl
  have htarget : ∀ k, RoutesTo g v k → final w = some k := by
    intro k hk
    rcases Relation.ReflTransGen.cases_head hk with hf | ⟨b, hb, hk⟩
    · exact absurd (congrArg Label.domain hf) (edge_source_ne h he)
    · cases g.functional _ he _ hb rfl
      rcases Relation.ReflTransGen.cases_head hk with hf | ⟨x, hx, -⟩
      · rw [hf]
        unfold final
        rw [hf, if_pos rfl, update_self]
      · rw [hfinal w x hx]
        exact hn _ (hnext x hx) k hk
  intro e hmem k hk
  rw [hstep]
  by_cases hev : e.1 = v
  · rw [hev] at hk ⊢
    rw [update_self]
    exact htarget k hk
  · rw [update_of_ne hev]
    rw [List.mem_append, List.mem_singleton] at hmem
    have hmem := hmem.resolve_right fun hx => hev (congrArg Prod.fst hx)
    rw [hfinal e.1 e.2 (hpre e hmem)]
    exact hn e hmem k hk

/-- Sorted by falling order of their targets, the edges are processed
with a vertex's own edge before those into it. -/
theorem assignVectors_complete (h : Prepared g sorted) :
    ∀ (post pre : List (Label Domain × Label Domain)) {n : Numbers Domain},
      (∀ e, e ∈ pre ++ post ↔ e ∈ g.edges) →
      ((pre ++ post).Pairwise fun a b =>
        sorted.idxOf b.2.domain ≤ sorted.idxOf a.2.domain) →
      (∀ e ∈ pre, ∀ k, RoutesTo g e.1 k →
        n.finalVectorNumber e.1 = some k) →
      ∀ e ∈ g.edges, ∀ k, RoutesTo g e.1 k →
        (post.foldl (assignVector P) n).finalVectorNumber e.1 = some k := by
  intro post
  induction post with
  | nil =>
    intro pre n hmem _ hn e he
    rw [← hmem, List.append_nil] at he
    exact hn e he
  | cons e post ih =>
    intro pre n hmem hsorted hn
    obtain ⟨v, w⟩ := e
    have he : (v, w) ∈ g.edges :=
      (hmem _).mp (List.mem_append_right _ List.mem_cons_self)
    rw [List.append_cons] at hmem hsorted
    refine ih (pre ++ [(v, w)]) hmem hsorted ?_
    refine assignVector_complete h (fun e he => (hmem e).mp
      (List.mem_append_left _ (List.mem_append_left _ he))) hn he ?_
    intro x hx
    have hup := edge_ascends h hx
    rcases List.mem_append.mp ((hmem _).mpr hx) with hin | hin
    · rcases List.mem_append.mp hin with hin | hin
      · exact hin
      · cases List.mem_singleton.mp hin
        exact absurd (edge_ascends h he) (lt_irrefl _)
    · have := (List.pairwise_append.mp hsorted).2.2 (v, w)
        (List.mem_append_right _ (List.mem_singleton.mpr rfl)) _ hin
      exact absurd hup (not_lt.mpr this)

/-- The key of `edgeBefore`. -/
theorem edgeBefore_eq (h : Prepared g sorted)
    {a b : Label Domain × Label Domain} (ha : a ∈ g.edges)
    (hb : b ∈ g.edges) :
    edgeBefore (some sorted.zipIdx) a b = .ok (decide
      (toLex (OrderDual.toDual (sorted.idxOf a.2.domain), a.2.index)
        < toLex (OrderDual.toDual (sorted.idxOf b.2.domain), b.2.index))) := by
  have hma := target_mem h ha
  unfold edgeBefore
  simp only [Prod.Lex.toLex_lt_toLex, OrderDual.toDual_lt_toDual]
  split_ifs with hd
  · simp [hd]
  · have hne : sorted.idxOf a.2.domain ≠ sorted.idxOf b.2.domain :=
      fun hx => hd ((List.idxOf_inj hma).mp hx)
    rw [orderOf_sorted hma, orderOf_sorted (target_mem h hb)]
    simp only [EmbeddingLike.apply_eq_iff_eq, hne, false_and, or_false]
    rfl

/-- The vector numbers of the sources are those of their routes. -/
theorem compute_complete (h : Prepared g sorted) (hV : V.Sorts)
    (r : Label Domain → Option (Option Nat)) (hne : g.edges ≠ []) :
    ∃ m, computeFinalVectorNumbers V g (some sorted.zipIdx) r = .ok m
      ∧ ∀ v, isPureEmitter P v = true → ∀ k,
        (m.finalVectorNumber v = some k ↔ RoutesTo g v k) := by
  obtain ⟨edgeList, hsort, hle⟩ := hV (fun e =>
      toLex (OrderDual.toDual (sorted.idxOf e.2.domain), e.2.index))
    _ g.edges hne fun a ha b hb => edgeBefore_eq h ha hb
  have hcompute : computeFinalVectorNumbers V g (some sorted.zipIdx) r
      = .ok (edgeList.foldl (assignVector P) ⟨fun _ => none, r⟩) := by
    unfold computeFinalVectorNumbers
    rw [hsort]
    rfl
  refine ⟨_, hcompute, fun v hv k => ⟨compute_sound hcompute v k, ?_⟩⟩
  intro hk
  obtain ⟨w, hw⟩ := IsSource.edge ⟨hv, hk⟩
  refine assignVectors_complete h edgeList [] (fun e =>
    (V.perm _ _ _ hsort).mem_iff) (hle.imp fun {a b} hab => ?_)
    (fun e he => by cases he) _ hw k hk
  rcases Prod.Lex.toLex_le_toLex.mp hab with hlt | ⟨heq, -⟩
  · exact (OrderDual.toDual_lt_toDual.mp hlt).le
  · exact (OrderDual.toDual.injective heq).ge

-- ==== the sources

/-- The stack the descending loop starts from. -/
structure Stack (g : RoutingGraph P T) (sorted : List Domain)
    (S : List (Label Domain × Nat)) : Prop where
  mem_iff : ∀ p, p ∈ S ↔ IsSource g p.1 p.2
  nodup : S.Nodup
  descends : S.Pairwise fun a b =>
    toLex (b.2, place sorted b.1) ≤ toLex (a.2, place sorted a.1)

/-- The key of `sourceBefore`. -/
theorem sourceBefore_eq {a b : Label Domain × Nat}
    (ha : a.1.domain ∈ sorted) (hb : b.1.domain ∈ sorted) :
    sourceBefore (some sorted.zipIdx) a b = .ok (decide
      (toLex (a.2, place sorted a.1) < toLex (b.2, place sorted b.1))) := by
  unfold sourceBefore place
  simp only [Prod.Lex.toLex_lt_toLex]
  split_ifs with hn hd
  · simp [hn, hd]
  · have hne : sorted.idxOf a.1.domain ≠ sorted.idxOf b.1.domain :=
      fun hx => hd ((List.idxOf_inj ha).mp hx)
    rw [orderOf_sorted ha, orderOf_sorted hb]
    simp only [hn, hne, lt_irrefl, true_and, false_and, or_false, false_or]
    rfl
  · simp [hn]

theorem sources_stack (h : Prepared g sorted) (hV : V.Sorts)
    {final : Label Domain → Option Nat}
    (hfinal : ∀ v, isPureEmitter P v = true → ∀ k,
      (final v = some k ↔ RoutesTo g v k))
    (hsource : ∃ v n, IsSource g v n) :
    ∃ S, getSourcesByResultingVector V g (some sorted.zipIdx) final = .ok S
      ∧ Stack g sorted S := by
  let routed := g.vertices.filterMap fun v =>
    if isPureEmitter P v then (final v).map fun n => (v, n) else none
  have hin : ∀ {p b}, b ∈ (if isPureEmitter P p then
      (final p).map fun n => (p, n) else none) →
      b.1 = p ∧ IsSource g b.1 b.2 := by
    intro p b hb
    by_cases hp : isPureEmitter P p = true
    · rw [if_pos hp] at hb
      obtain ⟨k, hk, rfl⟩ := Option.map_eq_some_iff.mp hb
      exact ⟨rfl, hp, (hfinal p hp k).mp hk⟩
    · rw [if_neg hp] at hb
      cases hb
  have hmem : ∀ p, p ∈ routed ↔ IsSource g p.1 p.2 := by
    intro p
    unfold routed
    rw [List.mem_filterMap]
    constructor
    · intro hp
      obtain ⟨v, -, hv⟩ := hp
      exact (hin hv).2
    · intro hp
      obtain ⟨w, hw⟩ := hp.edge
      refine ⟨p.1, g.source _ hw, ?_⟩
      rw [if_pos hp.1, (hfinal p.1 hp.1 p.2).mpr hp.2]
      rfl
  have hnodup : routed.Nodup := by
    refine (vertices_nodup P h.wf.nodup).filterMap fun a a' b hb hb' => ?_
    rw [← (hin hb).1, ← (hin hb').1]
  obtain ⟨v, n, hv⟩ := hsource
  have hne : routed ≠ [] :=
    List.ne_nil_of_mem ((hmem (v, n)).mpr hv)
  obtain ⟨out, hsort, hle⟩ := hV
    (fun p => toLex (p.2, place sorted p.1)) _ routed hne
    fun a ha b hb => sourceBefore_eq (((hmem a).mp ha).mem h)
      (((hmem b).mp hb).mem h)
  have hperm := V.perm _ _ _ hsort
  refine ⟨out.reverse, ?_, fun p => ?_, ?_, List.pairwise_reverse.mpr hle⟩
  · unfold getSourcesByResultingVector
    rw [hsort]
    rfl
  · rw [List.mem_reverse, hperm.mem_iff, hmem]
  · rw [List.nodup_reverse]
    exact hperm.nodup_iff.mpr hnodup

omit [DecidableEq Domain] in
/-- The sources up to a vector: its own on top. -/
theorem filter_lt_succ {S : List (Label Domain × Nat)}
    (hdesc : S.Pairwise fun a b => b.2 ≤ a.2) (i : Nat) :
    (S.filter fun p => p.2 < i + 1)
      = (S.filter fun p => p.2 = i) ++ S.filter fun p => p.2 < i := by
  induction S with
  | nil => rfl
  | cons p S ih =>
    obtain ⟨hp, hS⟩ := List.pairwise_cons.mp hdesc
    have ih := ih hS
    rcases lt_trichotomy p.2 i with hlt | heq | hgt
    · have hnone : (S.filter fun q => q.2 = i) = [] := by
        rw [List.filter_eq_nil_iff]
        intro q hq
        have := hp q hq
        simp only [decide_eq_true_eq]
        omega
      rw [List.filter_cons_of_pos (by simpa using hlt.le),
        List.filter_cons_of_neg (by simp [hlt.ne]),
        List.filter_cons_of_pos (by simpa using hlt), ih, hnone]
      rfl
    · rw [List.filter_cons_of_pos (by simp [heq]),
        List.filter_cons_of_pos (by simp [heq]),
        List.filter_cons_of_neg (by simp [heq]), ih]
      rfl
    · rw [List.filter_cons_of_neg (by simpa using hgt),
        List.filter_cons_of_neg (by simp [hgt.ne']),
        List.filter_cons_of_neg (by simpa using hgt.le), ih]

theorem Stack.falls {S : List (Label Domain × Nat)} (hS : Stack g sorted S) :
    S.Pairwise fun a b => b.2 ≤ a.2 :=
  hS.descends.imp fun {a b} hab => by
    rcases Prod.Lex.toLex_le_toLex.mp hab with hlt | ⟨heq, -⟩
    · exact hlt.le
    · exact heq.le

theorem Stack.mem_own {S : List (Label Domain × Nat)}
    (hS : Stack g sorted S) {q : Label Domain × Nat} :
    q ∈ (S.filter fun p => p.2 = n) ↔ IsSource g q.1 n ∧ q.2 = n := by
  rw [List.mem_filter, hS.mem_iff, decide_eq_true_eq]
  exact ⟨fun hq => ⟨hq.2 ▸ hq.1, hq.2⟩, fun hq => ⟨hq.2.symm ▸ hq.1, hq.2⟩⟩

end CroCOS.Interrupts.Manager
