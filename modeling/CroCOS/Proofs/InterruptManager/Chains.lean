/-
The EOI chains. The vectors are visited from the highest down, over one
stack of sources sorted by vector. As long as every vector takes all of
its sources, the stack on arrival at a vector holds exactly the sources
of that vector and of those below, and the chain is the right one.

# What an early stop leaves behind

A vector stops when it has seen every EOI domain there is. Its own
chain is complete then, but the sources it has not popped stay on top
of the stack, and no lower vector finds its own: from there on every
chain is empty (`Owed`). So all chains are right exactly if no vector
below one that stops early needs a chain (`Unstarved`), which is said
of the routing graph alone: a vector's sources are popped from the last
in the order of their domains and outputs to the first.
-/
import CroCOS.Proofs.InterruptManager.Sources

namespace CroCOS.Interrupts.Manager

open Function Lib

variable {Domain : Type} [DecidableEq Domain]
variable {P : Platform Domain} {T : Graph.Digraph Domain} {V : VectorSort}
variable {g : RoutingGraph P T} {sorted : List Domain}
variable {v w : Label Domain} {n : Nat}

-- ==== what a vector is owed

/-- The chain vector `n` is owed. -/
structure IsChainFor (g : RoutingGraph P T) (sorted : List Domain) (n : Nat)
    (chain : EOIChain Domain) : Prop where
  /-- In topological order, so each domain once. -/
  ordered : chain.Pairwise fun a b => sorted.idxOf a < sorted.idxOf b
  mem_iff : ∀ d, d ∈ chain ↔ ∃ v, IsSource g v n ∧ OnPath g v d

/-- Some source of the vector has all the EOI domains on the routes of
the sources popped before it. -/
def StopsEarly (g : RoutingGraph P T) (sorted : List Domain) (n : Nat) :
    Prop :=
  ∃ v, IsSource g v n ∧ ∀ d ∈ T.vertices, P.isEOIDomain d = true →
    ∃ w, IsSource g w n ∧ place sorted v < place sorted w ∧ OnPath g w d

def NeedsEOI (g : RoutingGraph P T) (n : Nat) : Prop :=
  ∃ v d, IsSource g v n ∧ OnPath g v d

/-- No vector below one that stops early needs a chain. -/
def Unstarved (g : RoutingGraph P T) (sorted : List Domain) : Prop :=
  ∀ n, StopsEarly g sorted n → ∀ k < n, ¬ NeedsEOI g k

-- ==== stopping early

def SeesAll (g : RoutingGraph P T) (ps : List (Label Domain × Nat)) :
    Prop :=
  ∀ d ∈ T.vertices, P.isEOIDomain d = true → ∃ p ∈ ps, OnPath g p.1 d

/-- Stopping early, said of the stack. -/
theorem stopsEarly_iff (h : Prepared g sorted)
    {S : List (Label Domain × Nat)} (hS : Stack g sorted S) :
    StopsEarly g sorted n ↔ ∃ pre p post,
      (S.filter fun q => q.2 = n) = pre ++ p :: post ∧ SeesAll g pre := by
  have hdesc := hS.descends.filter fun q => decide (q.2 = n)
  have hnodup := hS.nodup.filter fun q => decide (q.2 = n)
  constructor
  · intro hstop
    obtain ⟨v, hv, hall⟩ := hstop
    obtain ⟨pre, post, hsplit⟩ :=
      List.append_of_mem ((hS.mem_own (q := (v, n))).mpr ⟨hv, rfl⟩)
    refine ⟨pre, (v, n), post, hsplit, fun d hd heoi => ?_⟩
    obtain ⟨w, hw, hlt, hon⟩ := hall d hd heoi
    have hin := (hS.mem_own (q := (w, n))).mpr ⟨hw, rfl⟩
    rw [hsplit] at hin hdesc
    refine ⟨(w, n), ?_, hon⟩
    rcases List.mem_append.mp hin with hin | hin
    · exact hin
    · rcases List.mem_cons.mp hin with heq | hin
      · cases heq
        exact absurd hlt (lt_irrefl _)
      · have hle := List.rel_of_pairwise_cons
          (List.pairwise_append.mp hdesc).2.1 hin
        rw [Prod.Lex.toLex_le_toLex] at hle
        exact absurd hlt (not_lt.mpr (hle.resolve_left (lt_irrefl n)).2)
  · intro hstop
    obtain ⟨pre, p, post, hsplit, hall⟩ := hstop
    have hp : IsSource g p.1 n ∧ p.2 = n :=
      hS.mem_own.mp (by simp [hsplit])
    refine ⟨p.1, hp.1, fun d hd heoi => ?_⟩
    obtain ⟨q, hq, hon⟩ := hall d hd heoi
    have hqs : IsSource g q.1 n ∧ q.2 = n :=
      hS.mem_own.mp (by simp [hsplit, hq])
    rw [hsplit] at hdesc hnodup
    have hle := (List.pairwise_append.mp hdesc).2.2 q hq p List.mem_cons_self
    have hne : q ≠ p := (List.nodup_append.mp hnodup).2.2 q hq p
      List.mem_cons_self
    rw [Prod.Lex.toLex_le_toLex, hp.2, hqs.2] at hle
    refine ⟨q.1, hqs.1, lt_of_le_of_ne
      (hle.resolve_left (lt_irrefl n)).2 fun hx => hne ?_, hon⟩
    exact Prod.ext (place_inj (hqs.1.mem h) hx.symm) (hqs.2.trans hp.2.symm)

-- ==== the walk

theorem firstTarget_eq_some :
    g.firstTarget v = some w ↔ (v, w) ∈ g.edges := by
  unfold RoutingGraph.firstTarget
  rw [Option.map_eq_some_iff]
  constructor
  · intro he
    obtain ⟨e, hfind, rfl⟩ := he
    have hsrc : e.1 = v := by simpa using List.find?_some hfind
    rw [← hsrc]
    exact List.mem_of_find?_eq_some hfind
  · intro he
    cases hfind : g.edges.find? fun e => e.1 = v with
    | none =>
      have := List.find?_eq_none.mp hfind _ he
      simp at this
    | some e =>
      have hsrc : e.1 = v := by simpa using List.find?_some hfind
      have := g.functional _ (List.mem_of_find?_eq_some hfind) _ he hsrc
      exact ⟨e, rfl, congrArg Prod.snd this⟩

theorem onPath_of_sink {d : Domain} (hv : g.firstTarget v = none) :
    OnPath g v d ↔ P.isEOIDomain d = true ∧ v.domain = d := by
  refine and_congr_right fun _ => ⟨fun hd => ?_, fun hd => ⟨v, .refl, hd⟩⟩
  obtain ⟨w, hw, hd⟩ := hd
  rcases Relation.ReflTransGen.cases_head hw with hf | ⟨x, hx, -⟩
  · rw [hf]
    exact hd
  · rw [firstTarget_eq_some.mpr hx] at hv
    cases hv

omit [DecidableEq Domain] in
theorem onPath_of_edge {d : Domain} (he : (v, w) ∈ g.edges) :
    OnPath g v d
      ↔ (P.isEOIDomain d = true ∧ v.domain = d) ∨ OnPath g w d := by
  unfold OnPath
  rw [← and_or_left]
  refine and_congr_right fun _ => ⟨fun hd => ?_, fun hd => ?_⟩
  · obtain ⟨x, hx, hd⟩ := hd
    rcases Relation.ReflTransGen.cases_head hx with hf | ⟨b, hb, hx⟩
    · exact .inl (hf ▸ hd)
    · cases g.functional _ he _ hb rfl
      exact .inr ⟨x, hx, hd⟩
  · rcases hd with hd | ⟨x, hx, hd⟩
    · exact ⟨v, .refl, hd⟩
    · exact ⟨x, hx.head he, hd⟩

/-- The edges a walk that stands at `v` can still take. -/
def ahead (g : RoutingGraph P T) (sorted : List Domain) (v : Label Domain) :
    Nat :=
  (g.edges.filter fun e =>
    sorted.idxOf v.domain ≤ sorted.idxOf e.1.domain).length

theorem ahead_lt (h : Prepared g sorted) (he : (v, w) ∈ g.edges) :
    ahead g sorted w < ahead g sorted v := by
  have hlt := edge_ascends h he
  have hsub : (g.edges.filter fun e =>
        sorted.idxOf w.domain ≤ sorted.idxOf e.1.domain).Sublist
      (g.edges.filter fun e =>
        sorted.idxOf v.domain ≤ sorted.idxOf e.1.domain) := by
    refine List.monotone_filter_right _ fun e he => ?_
    rw [decide_eq_true_eq] at he ⊢
    omega
  refine Nat.lt_of_le_of_ne hsub.length_le fun hlen => ?_
  -- the edge taken is behind the walk once it has moved on
  have hmem : (v, w) ∈ g.edges.filter fun e =>
      sorted.idxOf w.domain ≤ sorted.idxOf e.1.domain := by
    rw [hsub.eq_of_length hlen, List.mem_filter]
    exact ⟨he, decide_eq_true le_rfl⟩
  exact absurd hlt (not_lt.mpr (of_decide_eq_true (List.mem_filter.mp hmem).2))

/-- The walk ends, and adds the EOI domains of the path. -/
theorem addPath_spec (h : Prepared g sorted) :
    ∀ {fuel : Nat} {v : Label Domain} (s : List Domain),
      ahead g sorted v < fuel →
      ∃ s', addPath g fuel v s = .ok s'
        ∧ (∀ d, d ∈ s' ↔ d ∈ s ∨ OnPath g v d) ∧ (s.Nodup → s'.Nodup) := by
  intro fuel
  induction fuel with
  | zero => exact fun s hfuel => absurd hfuel (Nat.not_lt_zero _)
  | succ fuel ih =>
    intro v s hfuel
    -- what the visit of `v` itself adds
    let s₁ := if P.isEOIDomain v.domain then s.insert v.domain else s
    have hmem : ∀ d, d ∈ s₁ ↔ d ∈ s
        ∨ P.isEOIDomain d = true ∧ v.domain = d := by
      intro d
      unfold s₁
      split_ifs with he
      · rw [List.mem_insert_iff, or_comm]
        exact or_congr_right ⟨fun hd => ⟨hd ▸ he, hd.symm⟩, fun hd => hd.2.symm⟩
      · exact ⟨.inl, fun hd => hd.resolve_right fun hd => he (hd.2 ▸ hd.1)⟩
    have hnodup : s.Nodup → s₁.Nodup := by
      intro hs
      unfold s₁
      split_ifs
      · exact hs.insert
      · exact hs
    cases hout : g.firstTarget v with
    | none =>
      refine ⟨s₁, by simp only [addPath, hout]; rfl, fun d => ?_, hnodup⟩
      rw [hmem, onPath_of_sink hout]
    | some w =>
      have he := firstTarget_eq_some.mp hout
      have hlt := ahead_lt h he
      obtain ⟨s', hs', hmem', hnodup'⟩ := ih s₁ (v := w) (by omega)
      refine ⟨s', ?_, fun d => ?_, fun hs => hnodup' (hnodup hs)⟩
      · simp only [addPath, hout]
        exact hs'
      · rw [hmem', hmem, onPath_of_edge he, or_assoc]

-- ==== one vector

/-- As many EOI domains as there are: all of them. -/
theorem length_eq_count_iff (h : Prepared g sorted) {s : List Domain}
    {done : List (Label Domain × Nat)} (hnodup : s.Nodup)
    (hin : ∀ d ∈ s, d ∈ sorted)
    (hs : ∀ d, d ∈ s ↔ ∃ p ∈ done, OnPath g p.1 d) :
    s.length = countEOIDomains P T ↔ SeesAll g done := by
  have heoi : ∀ d ∈ s, d ∈ T.vertices.filter P.isEOIDomain := by
    intro d hd
    obtain ⟨p, -, hp⟩ := (hs d).mp hd
    exact List.mem_filter.mpr ⟨(mem_order h).mp (hin d hd), hp.1⟩
  rw [countEOIDomains, List.countP_eq_length_filter]
  constructor
  · intro hlen d hd he
    have hperm := (hnodup.subperm heoi).perm_of_length_le hlen.ge
    exact (hs d).mp (hperm.mem_iff.mpr (List.mem_filter.mpr ⟨hd, he⟩))
  · intro hall
    refine ((List.perm_ext_iff_of_nodup hnodup
      (h.wf.nodup.filter _)).mpr fun d => ⟨heoi d, fun hd => ?_⟩).length_eq
    obtain ⟨hd, he⟩ := List.mem_filter.mp hd
    exact (hs d).mpr (hall d hd he)

/-- The pops of one vector, `done` of whose sources have been popped and
whose others are on top: what is left of them is nothing unless all EOI
domains have been seen before the last. -/
theorem popSources_spec (h : Prepared g sorted)
    {rest : List (Label Domain × Nat)} (hrest : ∀ p ∈ rest, p.2 ≠ n) :
    ∀ (own done : List (Label Domain × Nat)) {s : List Domain},
      (∀ p ∈ own, IsSource g p.1 n ∧ p.2 = n) →
      s.Nodup → (∀ d ∈ s, d ∈ sorted) →
      (∀ d, d ∈ s ↔ ∃ p ∈ done, OnPath g p.1 d) →
      ∃ left s', popSources g n (countEOIDomains P T) (own ++ rest) s
          = .ok (left ++ rest, s')
        ∧ (∀ p ∈ left, p.2 = n) ∧ s'.Nodup
        ∧ (∀ d, d ∈ s' ↔ ∃ p ∈ done ++ own, OnPath g p.1 d)
        ∧ (left ≠ [] ↔ ∃ pre p post, own = pre ++ p :: post
          ∧ SeesAll g (done ++ pre)) := by
  intro own
  induction own with
  | nil =>
    intro done s _ hnodup _ hs
    refine ⟨[], s, ?_, by simp, hnodup, ?_, by simp⟩
    · cases rest with
      | nil => rfl
      | cons q rest =>
        obtain ⟨v, m⟩ := q
        have hm : m ≠ n := hrest (v, m) List.mem_cons_self
        simp only [List.nil_append, popSources, hm, and_false, if_false]
    · rw [List.append_nil]
      exact hs
  | cons q own ih =>
    intro done s hown hnodup hin hs
    obtain ⟨v, m⟩ := q
    obtain ⟨hv, hm⟩ := hown (v, m) List.mem_cons_self
    cases (show m = n from hm)
    have hcount := length_eq_count_iff h hnodup hin hs
    by_cases hfull : s.length = countEOIDomains P T
    · -- everything has been seen: the sources stay on the stack
      refine ⟨(v, n) :: own, s, ?_, fun p hp => (hown p hp).2, hnodup, ?_,
        fun _ => ⟨[], (v, n), own, rfl, ?_⟩, fun _ => List.cons_ne_nil _ _⟩
      · simp only [List.cons_append, popSources, hfull, ne_eq,
          not_true_eq_false, false_and, if_false]
      · intro d
        rw [hs]
        constructor
        · intro hd
          obtain ⟨p, hp, hd⟩ := hd
          exact ⟨p, List.mem_append_left _ hp, hd⟩
        · intro hd
          obtain ⟨p, hp, hd⟩ := hd
          rcases List.mem_append.mp hp with hp | hp
          · exact ⟨p, hp, hd⟩
          · exact hcount.mp hfull d ((mem_order h).mp
              ((hown p hp).1.onPath_mem h hd)) hd.1
      · rw [List.append_nil]
        exact hcount.mp hfull
    · obtain ⟨s₁, hadd, hmem₁, hnodup₁⟩ := addPath_spec h s
        (Nat.lt_succ_of_le (List.length_filter_le _ g.edges) :
          ahead g sorted v < g.edges.length + 1)
      have hin₁ : ∀ d ∈ s₁, d ∈ sorted := fun d hd =>
        ((hmem₁ d).mp hd).elim (hin d) (hv.onPath_mem h)
      obtain ⟨left, s', hpop, hleft, hn', hmem', hiff⟩ :=
        ih (done ++ [(v, n)]) (fun p hp => hown p (List.mem_cons_of_mem _ hp))
          (hnodup₁ hnodup) hin₁ fun d => by
            rw [hmem₁, hs]
            simp only [List.mem_append, List.mem_singleton, or_and_right,
              exists_or, exists_eq_left]
      refine ⟨left, s', ?_, hleft, hn', fun d => ?_, hiff.trans ⟨?_, ?_⟩⟩
      · simp only [List.cons_append, popSources, ne_eq, hfull, hadd]
        exact hpop
      · rw [hmem', ← List.append_cons]
      · intro hstop
        obtain ⟨pre, p, post, hsplit, hall⟩ := hstop
        refine ⟨(v, n) :: pre, p, post, by rw [hsplit]; rfl, ?_⟩
        rw [List.append_cons]
        exact hall
      · intro hstop
        obtain ⟨pre, p, post, hsplit, hall⟩ := hstop
        cases pre with
        | nil =>
          rw [List.append_nil] at hall
          exact absurd (hcount.mpr hall) hfull
        | cons q pre =>
          injection hsplit with hq hsplit
          rw [← hq, List.append_cons] at hall
          exact ⟨pre, p, post, hsplit, hall⟩

/-- The sorted domains of a vector are its chain. -/
theorem sort_isChainFor (h : Prepared g sorted) (hV : V.Sorts)
    {s : List Domain} (hne : s ≠ []) (hnodup : s.Nodup)
    (hmem : ∀ d, d ∈ s ↔ ∃ v, IsSource g v n ∧ OnPath g v d) :
    ∃ chain, V.sort (domainBefore (some sorted.zipIdx)) s = .ok chain
      ∧ IsChainFor g sorted n chain := by
  have hin : ∀ d ∈ s, d ∈ sorted := by
    intro d hd
    obtain ⟨v, hv, hon⟩ := (hmem d).mp hd
    exact hv.onPath_mem h hon
  obtain ⟨chain, hsort, hle⟩ := hV (fun d => sorted.idxOf d)
    (domainBefore (some sorted.zipIdx)) s hne fun a ha b hb => by
      unfold domainBefore
      rw [orderOf_sorted (hin a ha), orderOf_sorted (hin b hb)]
      rfl
  have hperm := V.perm _ _ _ hsort
  refine ⟨chain, hsort, ?_, fun d => hperm.mem_iff.trans (hmem d)⟩
  refine (hle.and (hperm.nodup_iff.mpr hnodup)).imp_of_mem
    fun {a b} ha _ hab => ?_
  exact lt_of_le_of_ne hab.1 fun hx =>
    hab.2 ((List.idxOf_inj (hin a (hperm.mem_iff.mp ha))).mp hx)

-- ==== the loop

/-- The stack on arrival below vector `i`: untouched while no vector
from `i` on has stopped early, and stuck from the first that does. -/
def StackAt (g : RoutingGraph P T) (sorted : List Domain)
    (S : List (Label Domain × Nat)) (i : Nat)
    (stack : List (Label Domain × Nat)) : Prop :=
  (stack = (S.filter fun p => p.2 < i) ∧ ∀ n ≥ i, ¬ StopsEarly g sorted n)
    ∨ (∃ q rest, stack = q :: rest ∧ i ≤ q.2)
      ∧ ∃ n ≥ i, StopsEarly g sorted n

/-- The chain vector `k` gets. -/
def Owed (g : RoutingGraph P T) (sorted : List Domain) (k : Nat)
    (chain : EOIChain Domain) : Prop :=
  ((∀ n > k, ¬ StopsEarly g sorted n) → IsChainFor g sorted k chain)
    ∧ ((∃ n > k, StopsEarly g sorted n) → chain = [])

theorem buildChainForVector_spec (h : Prepared g sorted) (hV : V.Sorts)
    {S stack : List (Label Domain × Nat)} (hS : Stack g sorted S) {i : Nat}
    (hat : StackAt g sorted S (i + 1) stack) :
    ∃ rest chain, buildChainForVector V g (some sorted.zipIdx) stack i
        (countEOIDomains P T) = .ok (rest, chain)
      ∧ Owed g sorted i chain ∧ StackAt g sorted S i rest := by
  rcases hat with ⟨hstack, hnone⟩ | ⟨⟨⟨v, m⟩, rest, hstack, hm⟩, n, hn, hstop⟩
  · have hbelow : ∀ p ∈ S.filter fun p => p.2 < i, p.2 ≠ i := by
      intro p hp
      exact (of_decide_eq_true (List.mem_filter.mp hp).2).ne
    obtain ⟨left, s, hpop, hleft, hnodup, hmem, hiff⟩ :=
      popSources_spec h hbelow (S.filter fun p => p.2 = i) []
        (fun p hp => hS.mem_own.mp hp) List.nodup_nil
        (fun d hd => by cases hd) (s := []) (by simp)
    rw [List.nil_append] at hmem
    have hmem : ∀ d, d ∈ s ↔ ∃ v, IsSource g v i ∧ OnPath g v d := by
      intro d
      rw [hmem]
      constructor
      · intro hd
        obtain ⟨p, hp, hd⟩ := hd
        exact ⟨p.1, (hS.mem_own.mp hp).1, hd⟩
      · intro hd
        obtain ⟨v, hv, hd⟩ := hd
        exact ⟨(v, i), (hS.mem_own (q := (v, i))).mpr ⟨hv, rfl⟩, hd⟩
    have hiff : left ≠ [] ↔ StopsEarly g sorted i :=
      hiff.trans (stopsEarly_iff h hS).symm
    -- the chain is sorted unless there is nothing to sort
    obtain ⟨chain, hchain, hfor⟩ : ∃ chain,
        buildChainForVector V g (some sorted.zipIdx) stack i
          (countEOIDomains P T) = .ok (left ++ S.filter fun p => p.2 < i, chain)
          ∧ IsChainFor g sorted i chain := by
      unfold buildChainForVector
      rw [hstack, filter_lt_succ hS.falls, hpop]
      by_cases hs : s = []
      · refine ⟨[], by rw [hs]; rfl, List.Pairwise.nil, ?_⟩
        rw [← hs]
        exact hmem
      · obtain ⟨chain, hsort, hfor⟩ := sort_isChainFor h hV hs hnodup hmem
        refine ⟨chain, ?_, hfor⟩
        show (if s.isEmpty then _ else _) = _
        rw [if_neg (by simpa using hs), hsort]
        rfl
    refine ⟨_, chain, hchain, ⟨fun _ => hfor, ?_⟩, ?_⟩
    · intro hex
      obtain ⟨n, hn, hstop⟩ := hex
      exact absurd hstop (hnone n hn)
    · cases left with
      | nil =>
        refine .inl ⟨rfl, fun n hn => ?_⟩
        rcases Nat.eq_or_lt_of_le hn with rfl | hn
        · exact fun hstop => hiff.mpr hstop rfl
        · exact hnone n hn
      | cons q left =>
        exact .inr ⟨⟨q, _, rfl, (hleft q List.mem_cons_self).ge⟩, i, le_rfl,
          hiff.mp (List.cons_ne_nil _ _)⟩
  · have hmi : m ≠ i := Nat.ne_of_gt hm
    refine ⟨stack, [], ?_, ⟨fun hnone => absurd hstop (hnone n hn),
      fun _ => rfl⟩, .inr ⟨⟨(v, m), rest, hstack, Nat.le_of_succ_le hm⟩, n,
        Nat.le_of_succ_le hn, hstop⟩⟩
    unfold buildChainForVector
    rw [hstack]
    simp only [popSources, hmi, and_false, if_false]
    rfl

section Interning

variable {l : List (EOIChain Domain × Nat)} {c : EOIChain Domain}

/-- The indices are handed out in order. -/
def Interned (l : List (EOIChain Domain × Nat)) : Prop :=
  l.map Prod.snd = List.range l.length

theorem Interned.intern (h : Interned l) (c : EOIChain Domain) :
    Interned (internChain l c) := by
  unfold internChain
  split
  · exact h
  · unfold Interned at h ⊢
    rw [List.map_append, h, List.length_append, List.length_singleton,
      List.range_succ]
    rfl

theorem subset_internChain (c : EOIChain Domain) :
    ∀ p ∈ l, p ∈ internChain l c := by
  intro p hp
  unfold internChain
  split
  · exact hp
  · exact List.mem_append_left _ hp

/-- A chain that has been interned is found. -/
theorem lookup_internChain (l : List (EOIChain Domain × Nat))
    (c : EOIChain Domain) :
    ∃ k, (internChain l c).lookup c = some k ∧ (c, k) ∈ internChain l c := by
  have hmem : ∃ k, (c, k) ∈ internChain l c := by
    unfold internChain
    split
    · rename_i hany
      obtain ⟨p, hp, hpc⟩ := List.any_eq_true.mp hany
      refine ⟨p.2, ?_⟩
      rw [← beq_iff_eq.mp hpc]
      exact hp
    · exact ⟨l.length, List.mem_append_right _ (List.mem_singleton.mpr rfl)⟩
  obtain ⟨k, hk⟩ := hmem
  cases hl : (internChain l c).lookup c with
  | none =>
    have := List.lookup_eq_none_iff.mp hl (c, k) hk
    simp at this
  | some k' =>
    obtain ⟨l₁, l₂, hsplit, -⟩ := List.lookup_eq_some_iff.mp hl
    refine ⟨k', rfl, ?_⟩
    rw [hsplit]
    exact List.mem_append_right _ List.mem_cons_self

omit [DecidableEq Domain] in
/-- The array has each chain at its index. -/
theorem chainArray_of_mem {k : Nat} (h : Interned l) (hk : (c, k) ∈ l) :
    chainArray l k = some c := by
  have hnodup : (l.map Prod.snd).Nodup := by
    rw [h]
    exact List.nodup_range
  clear h
  unfold chainArray
  induction l using List.reverseRecOn with
  | nil => cases hk
  | append_singleton l p ih =>
    rw [List.map_append, List.nodup_append] at hnodup
    obtain ⟨hl, -, hdisj⟩ := hnodup
    rw [List.foldl_append, List.foldl_cons, List.foldl_nil]
    rw [List.mem_append, List.mem_singleton] at hk
    cases hk with
    | inl hk =>
      have hne : k ≠ p.2 := hdisj k (List.mem_map.mpr ⟨_, hk, rfl⟩) p.2
        (List.mem_singleton.mpr rfl)
      rw [update_of_ne hne]
      exact ih hk hl
    | inr hk =>
      rw [← hk, update_self]

end Interning

/-- The vectors from `i` up have been visited. -/
structure Indexed (g : RoutingGraph P T) (sorted : List Domain)
    (S : List (Label Domain × Nat)) (i : Nat) (p : Progress Domain) :
    Prop where
  stack : StackAt g sorted S i p.orderedSources
  interned : Interned p.eoiChains
  chains : ∀ k, i ≤ k → k < CPU_INTERRUPT_COUNT →
    ∃ c, Owed g sorted k c ∧ (c, p.indices k) ∈ p.eoiChains

/-- One vector, and by induction the loop over them. -/
theorem Indexed.loop (h : Prepared g sorted) (hV : V.Sorts)
    {S : List (Label Domain × Nat)} (hS : Stack g sorted S) :
    ∀ {i : Nat} {p : Progress Domain}, Indexed g sorted S i p →
      ∃ p', indexChains V g (some sorted.zipIdx) (countEOIDomains P T) i p
          = .ok p' ∧ Indexed g sorted S 0 p' := by
  intro i
  induction i with
  | zero => exact fun {p} hp => ⟨p, rfl, hp⟩
  | succ i ih =>
    intro p hp
    obtain ⟨rest, chain, hbuild, hchain, hstack⟩ :=
      buildChainForVector_spec h hV hS hp.stack
    obtain ⟨k, hlook, hk⟩ := lookup_internChain p.eoiChains chain
    have hnext : Indexed g sorted S i ⟨rest, internChain p.eoiChains chain,
        update p.indices i k⟩ := by
      refine ⟨hstack, hp.interned.intern chain, fun j hij hj => ?_⟩
      dsimp only
      by_cases hji : j = i
      · rw [hji, update_self]
        exact ⟨chain, hchain, hk⟩
      · rw [update_of_ne hji]
        obtain ⟨c, hc, hmem⟩ := hp.chains j (by omega) hj
        exact ⟨c, hc, subset_internChain chain _ hmem⟩
    obtain ⟨p', hp', hdone⟩ := ih hnext
    refine ⟨p', ?_, hdone⟩
    unfold indexChains
    rw [hbuild]
    dsimp only [bind, Except.bind]
    rw [hlook]
    exact hp'

theorem indexed_start (h : Prepared g sorted)
    {S : List (Label Domain × Nat)} (hS : Stack g sorted S) :
    Indexed g sorted S CPU_INTERRUPT_COUNT ⟨S, [], fun _ => 0⟩ := by
  refine ⟨.inl ⟨?_, fun n hn hstop => ?_⟩, rfl,
    fun k hk hk' => absurd hk (Nat.not_le.mpr hk')⟩
  · rw [eq_comm, List.filter_eq_self]
    intro q hq
    exact decide_eq_true (((hS.mem_iff q).mp hq).lt h)
  · obtain ⟨v, hv, -⟩ := hstop
    exact absurd (hv.lt h) (Nat.not_lt.mpr hn)

/-- The table's entries, one after the other. -/
theorem storeChains_spec (h : Prepared g sorted)
    (chainOf : Nat → Option (EOIChain Domain)) :
    ∀ (is : List Nat) (table : EOITable Domain),
      (∀ i ∈ is, i < CPU_INTERRUPT_COUNT) →
      ∃ table', is.foldlM (storeChain g chainOf) table = .ok table'
        ∧ ∀ i, (i ∈ is ∨ (table i).chain = chainOf i) →
          (table' i).chain = chainOf i := by
  intro is
  induction is with
  | nil =>
    exact fun table _ => ⟨table, rfl, fun i hi => hi.resolve_left (by simp)⟩
  | cons i is ih =>
    intro table hlt
    have hvertex : g.getVertexByLabel ⟨P.vectorFile, i⟩
        = some ⟨P.vectorFile, i⟩ := by
      refine if_pos ⟨h.vectors, ?_⟩
      rw [vertexCount, if_pos P.vectorFile_receives, h.width]
      exact hlt i List.mem_cons_self
    obtain ⟨table', hrun, hchain⟩ := ih
      (update table i ⟨g.triggerType ⟨P.vectorFile, i⟩, chainOf i⟩)
      fun j hj => hlt j (List.mem_cons_of_mem i hj)
    refine ⟨table', ?_, fun j hj => hchain j ?_⟩
    · rw [List.foldlM_cons, storeChain, hvertex]
      exact hrun
    · by_cases hji : j = i
      · rw [hji, update_self]
        exact .inr rfl
      · rw [update_of_ne hji]
        exact hj.imp_left fun hj => (List.mem_cons.mp hj).resolve_left hji

-- ==== the result

/-- Each vector's chain has the EOI domains on the routes of its sources,
in topological order, exactly if no vector below one that stops early
needs one. -/
theorem eoi_chains_complete (hV : V.Sorts) (h : Prepared g sorted)
    (hsource : ∃ v n, IsSource g v n)
    (r : Label Domain → Option (Option Nat)) (table : EOITable Domain) :
    ∃ numbers table',
      computeFinalVectorNumbers V g (some sorted.zipIdx) r = .ok numbers
      ∧ populateEOIBehaviorTable V g (some sorted.zipIdx)
          numbers.finalVectorNumber table = .ok table'
      ∧ ((∀ n < CPU_INTERRUPT_COUNT, ∃ chain, (table' n).chain = some chain
            ∧ IsChainFor g sorted n chain ∧ (NeedsEOI g n → chain ≠ []))
          ↔ Unstarved g sorted) := by
  obtain ⟨w, m, hw⟩ := hsource
  obtain ⟨x, hx⟩ := hw.edge
  obtain ⟨numbers, hnumbers, hfinal⟩ :=
    compute_complete h hV r (List.ne_nil_of_mem hx)
  obtain ⟨S, hsources, hS⟩ := sources_stack h hV hfinal ⟨w, m, hw⟩
  obtain ⟨p, hp, hdone⟩ := Indexed.loop h hV hS (indexed_start h hS)
  obtain ⟨table', htable, hchain⟩ := storeChains_spec h
    (fun i => chainArray p.eoiChains (p.indices i))
    (List.range CPU_INTERRUPT_COUNT) table fun i hi => List.mem_range.mp hi
  have hget : ∀ k < CPU_INTERRUPT_COUNT, ∃ c, Owed g sorted k c
      ∧ (table' k).chain = some c := by
    intro k hk
    obtain ⟨c, hc, hmem⟩ := hdone.chains k (Nat.zero_le k) hk
    refine ⟨c, hc, ?_⟩
    rw [hchain k (.inl (List.mem_range.mpr hk))]
    exact chainArray_of_mem hdone.interned hmem
  refine ⟨numbers, table', hnumbers, ?_, fun hall => ?_, fun hu k hk => ?_⟩
  · unfold populateEOIBehaviorTable
    rw [hsources]
    show (indexChains V g (some sorted.zipIdx) (countEOIDomains P T)
      CPU_INTERRUPT_COUNT ⟨S, [], fun _ => 0⟩ >>= _) = _
    rw [hp]
    exact htable
  · intro n hstop k hkn hneed
    obtain ⟨v, d, hv, -⟩ := id hneed
    obtain ⟨c, hc, hck⟩ := hget k (hv.lt h)
    obtain ⟨c', hck', -, hne⟩ := hall k (hv.lt h)
    rw [hck] at hck'
    cases hck'
    exact hne hneed (hc.2 ⟨n, hkn, hstop⟩)
  · obtain ⟨c, hc, hck⟩ := hget k hk
    have hfor : IsChainFor g sorted k c := by
      by_cases hex : ∃ n > k, StopsEarly g sorted n
      · -- nothing is owed to a vector below
        obtain ⟨n, hn, hstop⟩ := id hex
        rw [hc.2 hex]
        refine ⟨List.Pairwise.nil, fun d =>
          ⟨fun hd => absurd hd List.not_mem_nil, fun hd => ?_⟩⟩
        obtain ⟨v, hv, hon⟩ := hd
        exact absurd ⟨v, d, hv, hon⟩ (hu n hstop k hn)
      · exact hc.1 fun n hn hstop => hex ⟨n, hn, hstop⟩
    refine ⟨c, hck, hfor, fun hneed hnil => ?_⟩
    obtain ⟨v, d, hv, hd⟩ := hneed
    have := (hfor.mem_iff d).mpr ⟨v, hv, hd⟩
    rw [hnil] at this
    cases this

-- ==== two lines

/-- Two devices of two lines each, behind the controller. -/
def linesPlatform : Platform Device :=
  { machine with getEmitterCount := fun _ => 2 }

def linesTopology : Graph.Digraph Device :=
  ⟨[.vectors, .controller, .disk, .timer],
    [(.controller, .vectors), (.disk, .controller), (.timer, .controller)]⟩

def linesOrder : List Device := [.disk, .timer, .controller, .vectors]

/-- A line of the disk on vector 40, or both, and one of the timer on
vector 33. -/
def lines (both : Bool) : RoutingGraph linesPlatform linesTopology :=
  wiredGraph linesPlatform
    ([(⟨.disk, 0⟩, ⟨.controller, 0⟩), (⟨.timer, 0⟩, ⟨.controller, 1⟩),
      (⟨.controller, 0⟩, ⟨.vectors, 40⟩), (⟨.controller, 1⟩, ⟨.vectors, 33⟩)]
      ++ if both then [(⟨.disk, 1⟩, ⟨.controller, 0⟩)] else [])
    (by cases both <;> decide) linesTopology

theorem lines_prepared (both : Bool) :
    Prepared (lines both) linesOrder where
  wf := ⟨by decide, by decide, by decide⟩
  order := ⟨by decide, by decide⟩
  emits := by decide
  vectors := by decide
  width := rfl

theorem lines_disk (both : Bool) : IsSource (lines both) ⟨.disk, 0⟩ 40 :=
  ⟨rfl, .head (b := ⟨.controller, 0⟩) (by cases both <;> decide +kernel)
    (.single (by cases both <;> decide +kernel))⟩

theorem lines_timer (both : Bool) : IsSource (lines both) ⟨.timer, 0⟩ 33 :=
  ⟨rfl, .head (b := ⟨.controller, 1⟩) (by cases both <;> decide +kernel)
    (.single (by cases both <;> decide +kernel))⟩

/-- With one source each, no vector stops early. -/
theorem lines_unstarved : Unstarved (lines false) linesOrder := by
  have hpure : ∀ v k, IsSource (lines false) v k →
      v = ⟨.disk, 0⟩ ∧ k = 40 ∨ v = ⟨.timer, 0⟩ ∧ k = 33 := by
    intro v k hv
    obtain ⟨w, hw⟩ := hv.edge
    have hw := List.mem_of_mem_filter hw
    have hunique : ∀ {j}, RoutesTo (lines false) v j → k = j := fun hj =>
      RoutesTo.unique (lines_prepared false).emits hv.2 hj
    simp only [List.cons_append, List.nil_append, List.mem_cons,
      Prod.mk.injEq, Bool.false_eq_true, if_false, List.not_mem_nil,
      or_false] at hw
    rcases hw with ⟨rfl, -⟩ | ⟨rfl, -⟩ | ⟨rfl, -⟩ | ⟨rfl, -⟩
    · exact .inl ⟨rfl, hunique (lines_disk false).2⟩
    · exact .inr ⟨rfl, hunique (lines_timer false).2⟩
    · cases hv.1
    · cases hv.1
  intro n hstop
  obtain ⟨v, hv, hall⟩ := hstop
  obtain ⟨w, hw, hlt, -⟩ := hall .controller (by decide) rfl
  rcases hpure v n hv with ⟨rfl, rfl⟩ | ⟨rfl, rfl⟩ <;>
    rcases hpure w _ hw with ⟨rfl, h⟩ | ⟨rfl, h⟩
  · exact absurd hlt (lt_irrefl _)
  · cases h
  · cases h
  · exact absurd hlt (lt_irrefl _)

/-- The timer's vector gets its chain beside a disk with one line. -/
theorem eoi_chains_complete_oneLine : ∃ numbers table' chain,
    computeFinalVectorNumbers smallSort (lines false)
      (some linesOrder.zipIdx) (fun _ => none) = .ok numbers
    ∧ populateEOIBehaviorTable smallSort (lines false)
        (some linesOrder.zipIdx) numbers.finalVectorNumber
        (State.boot : State Device Nat).eoiBehaviorTable = .ok table'
    ∧ (table' 33).chain = some chain ∧ Device.controller ∈ chain := by
  obtain ⟨numbers, table', hnumbers, htable, hiff⟩ :=
    eoi_chains_complete smallSort_sorts (lines_prepared false)
      ⟨_, _, lines_timer false⟩ (fun _ => none)
      (State.boot : State Device Nat).eoiBehaviorTable
  obtain ⟨chain, hchain, hfor, -⟩ := hiff.mpr lines_unstarved 33 (by decide)
  exact ⟨numbers, table', chain, hnumbers, htable, hchain,
    (hfor.mem_iff _).mpr ⟨_, lines_timer false, rfl, ⟨.controller, 1⟩,
      .single (by decide +kernel), rfl⟩⟩

theorem lines_tables : Returns (fun numbers => Returns (fun table' =>
      (table' 40).chain = some [.controller] ∧ (table' 33).chain = some [])
    (populateEOIBehaviorTable smallSort (lines true)
      (some linesOrder.zipIdx) numbers.finalVectorNumber
      (State.boot : State Device Nat).eoiBehaviorTable))
    (computeFinalVectorNumbers smallSort (lines true)
      (some linesOrder.zipIdx) fun _ => none) := by
  decide +kernel

/-- With both lines on vector 40 the first leaves the other on the
stack, and the timer's vector gets no chain. -/
theorem early_stop_starves_lower_vectors : ∃ numbers table',
    computeFinalVectorNumbers smallSort (lines true)
      (some linesOrder.zipIdx) (fun _ => none) = .ok numbers
    ∧ populateEOIBehaviorTable smallSort (lines true)
        (some linesOrder.zipIdx) numbers.finalVectorNumber
        (State.boot : State Device Nat).eoiBehaviorTable = .ok table'
    ∧ (table' 40).chain = some [.controller] ∧ (table' 33).chain = some []
    ∧ IsSource (lines true) ⟨.timer, 0⟩ 33
    ∧ OnPath (lines true) ⟨.timer, 0⟩ .controller := by
  obtain ⟨numbers, hnumbers, heval⟩ := lines_tables.exists_ok
  obtain ⟨table', htable, hchains⟩ := heval.exists_ok
  exact ⟨numbers, table', hnumbers, htable, hchains.1, hchains.2,
    lines_timer true, rfl, ⟨.controller, 1⟩,
    .single (by decide +kernel), rfl⟩

end CroCOS.Interrupts.Manager
