/-
The acyclicity check and the topological sort are right: both return on
every graph whose edges connect its vertices, a graph passes the check
if and only if it has no cycle, that is, a rank that falls along every
edge, and the sort of such a graph lists every vertex once, sources
before targets.

# The search

`Finished` is what the search keeps of the black vertices: their targets
are black too, with a lower rank. A vertex that is blackened gets a rank
above all others, its targets being black by then: none of them can be
gray, that would have been a cycle, and a white one was searched.
Conversely the gray vertices are those the search has come through, of
higher ranks than the one it is at, so in an acyclic graph no target is
gray. `Searched` says both at once.

# The sort

The vertices that are out or queued are those whose sources are all out
(`Sorting.degree` counts the edges from the others). When the queue is
empty, a vertex that is left would have a source that is left, of
higher rank: there is none of the highest rank.
-/
import CroCOS.GraphAlgorithms

namespace CroCOS.Graph

open Function

variable {V : Type} [DecidableEq V] {g : Digraph V}
variable {s : SortState V}
variable {search : V → (V → Color) → Except Fault (Bool × (V → Color))}

namespace Digraph

/-- The vertices are distinct and the edges connect them. -/
structure Wf (g : Digraph V) : Prop where
  nodup : g.vertices.Nodup
  source : ∀ e ∈ g.edges, e.1 ∈ g.vertices
  target : ∀ e ∈ g.edges, e.2 ∈ g.vertices

/-- A rank falls along every edge. -/
def Acyclic (g : Digraph V) : Prop :=
  ∃ rank : V → Nat, ∀ e ∈ g.edges, rank e.2 < rank e.1

theorem mem_outgoing {v w : V} : w ∈ g.outgoing v ↔ (v, w) ∈ g.edges := by
  unfold outgoing
  rw [List.mem_map]
  constructor
  · intro h
    obtain ⟨e, he, hw⟩ := h
    rw [List.mem_filter, decide_eq_true_eq] at he
    rw [← he.2, ← hw]
    exact he.1
  · intro h
    exact ⟨(v, w), List.mem_filter.mpr ⟨h, decide_eq_true rfl⟩, rfl⟩

end Digraph

-- ==== the search

namespace DirectedAcyclic

variable {colors colors' : V → Color} {v : V}

/-- The targets of a black vertex are black and rank lower. -/
def Finished (g : Digraph V) (colors : V → Color) : Prop :=
  ∃ (rank : V → Nat) (bound : Nat), ∀ v, colors v = .black → rank v < bound
      ∧ ∀ w ∈ g.outgoing v, colors w = .black ∧ rank w < rank v

/-- What a search that finds no cycle does to the colours. -/
structure Extends (g : Digraph V) (colors colors' : V → Color) : Prop where
  finished : Finished g colors'
  black : ∀ w, colors w = .black → colors' w = .black
  gray : ∀ w, colors' w = .gray ↔ colors w = .gray

theorem Extends.refl (h : Finished g colors) : Extends g colors colors :=
  ⟨h, fun _ hw => hw, fun _ => Iff.rfl⟩

theorem Extends.trans {colors₁ : V → Color} (h : Extends g colors colors₁)
    (h' : Extends g colors₁ colors') : Extends g colors colors' :=
  ⟨h'.finished, fun w hw => h'.black w (h.black w hw),
    fun w => (h'.gray w).trans (h.gray w)⟩

/-- What a search of some vertices does: it finds no cycle and blackens
them, or it finds one, and then no rank keeps the gray vertices above
those searched. -/
def Searched (g : Digraph V) (colors : V → Color) (targets : List V)
    (r : Except Fault (Bool × (V → Color))) : Prop :=
  (∃ colors', r = .ok (false, colors') ∧ Extends g colors colors'
    ∧ ∀ t ∈ targets, colors' t = .black)
  ∨ ∃ colors', r = .ok (true, colors') ∧ ∀ rank : V → Nat,
    (∀ e ∈ g.edges, rank e.2 < rank e.1) →
      ∃ t ∈ targets, ∃ u, colors u = .gray ∧ rank u ≤ rank t

/-- The white vertices left. -/
def whites (g : Digraph V) (colors : V → Color) : Nat :=
  g.vertices.countP fun v => colors v = .white

theorem Extends.whites_le (h : Extends g colors colors') :
    whites g colors' ≤ whites g colors := by
  refine List.countP_mono_left fun w _ hw => ?_
  cases hc : colors w with
  | white => rfl
  | gray => rw [(h.gray w).mpr hc] at hw; cases hw
  | black => rw [h.black w hc] at hw; cases hw

theorem whites_gray_lt (hmem : v ∈ g.vertices) (hv : colors v = .white) :
    whites g (update colors v .gray) < whites g colors := by
  have hfilter : (g.vertices.filter fun u =>
        update colors v .gray u = .white)
      = (g.vertices.filter fun u => colors u = .white).filter
        fun u => u ≠ v := by
    rw [List.filter_filter]
    refine List.filter_congr fun u _ => ?_
    by_cases huv : u = v
    · simp [huv]
    · simp [huv]
  unfold whites
  rw [List.countP_eq_length_filter, List.countP_eq_length_filter, hfilter,
    List.length_filter_lt_length_iff_exists]
  exact ⟨v, List.mem_filter.mpr ⟨hmem, decide_eq_true hv⟩, by simp⟩

theorem searchTargets_searched {n : Nat}
    (hsearch : ∀ v colors, v ∈ g.vertices → colors v = .white →
      whites g colors ≤ n → Finished g colors →
      Searched g colors [v] (search v colors)) :
    ∀ (targets : List V) (colors : V → Color),
      (∀ t ∈ targets, t ∈ g.vertices) → whites g colors ≤ n →
      Finished g colors →
      Searched g colors targets (searchTargets search targets colors) := by
  intro targets
  induction targets with
  | nil =>
    intro colors _ _ hfin
    exact Or.inl ⟨colors, rfl, .refl hfin,
      fun t ht => absurd ht List.not_mem_nil⟩
  | cons t rest ih =>
    intro colors hin hn hfin
    -- the rest of the loop, once `t` is black
    have hrest : ∀ {colors₁}, Extends g colors colors₁ → colors₁ t = .black →
        Searched g colors (t :: rest) (searchTargets search rest colors₁) := by
      intro colors₁ hext hblack
      rcases ih colors₁ (fun u hu => hin u (List.mem_cons_of_mem t hu))
          (hext.whites_le.trans hn) hext.finished with
        ⟨colors', hs, hext', hall⟩ | ⟨colors', hs, hcycle⟩
      · refine Or.inl ⟨colors', hs, hext.trans hext', fun u hu => ?_⟩
        cases List.mem_cons.mp hu with
        | inl hut => rw [hut]; exact hext'.black t hblack
        | inr hu => exact hall u hu
      · refine Or.inr ⟨colors', hs, fun rank hrank => ?_⟩
        obtain ⟨u, hu, w, hw, hle⟩ := hcycle rank hrank
        exact ⟨u, List.mem_cons_of_mem t hu, w, (hext.gray w).mp hw, hle⟩
    rw [searchTargets]
    cases hc : colors t with
    | gray =>
      exact Or.inr ⟨colors, rfl, fun rank _ =>
        ⟨t, List.mem_cons_self, t, hc, le_rfl⟩⟩
    | black => exact hrest (.refl hfin) hc
    | white =>
      rcases hsearch t colors (hin t List.mem_cons_self) hc hn hfin with
        ⟨colors₁, hs, hext, hblack⟩ | ⟨colors₁, hs, hcycle⟩
      · simp only [hs]
        exact hrest hext (hblack t List.mem_cons_self)
      · simp only [hs]
        refine Or.inr ⟨colors₁, rfl, fun rank hrank => ?_⟩
        obtain ⟨u, hu, hgray⟩ := hcycle rank hrank
        rw [List.mem_singleton.mp hu] at hgray
        exact ⟨t, List.mem_cons_self, hgray⟩

/-- A white vertex that is made gray was nobody's black target. -/
theorem Finished.gray (h : Finished g colors) (hv : colors v = .white) :
    Finished g (update colors v .gray) := by
  obtain ⟨rank, bound, hrank⟩ := h
  refine ⟨rank, bound, fun u hu => ?_⟩
  have huv : u ≠ v := by
    intro huv
    rw [huv, update_self] at hu
    cases hu
  rw [update_of_ne huv] at hu
  refine ⟨(hrank u hu).1, fun w hw => ?_⟩
  obtain ⟨hblack, hlt⟩ := (hrank u hu).2 w hw
  have hwv : w ≠ v := by
    intro hwv
    rw [hwv, hv] at hblack
    cases hblack
  exact ⟨by rw [update_of_ne hwv]; exact hblack, hlt⟩

/-- A gray vertex whose targets are black may be blackened. -/
theorem Finished.blacken (h : Finished g colors) (hv : colors v = .gray)
    (htargets : ∀ w ∈ g.outgoing v, colors w = .black) :
    Finished g (update colors v .black) := by
  obtain ⟨rank, bound, hrank⟩ := h
  have hne : ∀ w, colors w = .black → w ≠ v := by
    intro w hw hwv
    rw [hwv, hv] at hw
    cases hw
  refine ⟨update rank v bound, bound + 1, fun u hu => ?_⟩
  by_cases huv : u = v
  · rw [huv, update_self]
    refine ⟨Nat.lt_succ_self bound, fun w hw => ?_⟩
    have hblack := htargets w hw
    rw [update_of_ne (hne w hblack), update_of_ne (hne w hblack)]
    exact ⟨hblack, (hrank w hblack).1⟩
  · rw [update_of_ne huv] at hu ⊢
    refine ⟨Nat.lt_succ_of_lt (hrank u hu).1, fun w hw => ?_⟩
    obtain ⟨hblack, hlt⟩ := (hrank u hu).2 w hw
    rw [update_of_ne (hne w hblack), update_of_ne (hne w hblack)]
    exact ⟨hblack, hlt⟩

theorem hasCycleDFS_searched (hw : g.Wf) :
    ∀ (fuel : Nat) (v : V) (colors : V → Color), v ∈ g.vertices →
      colors v = .white → whites g colors ≤ fuel → Finished g colors →
      Searched g colors [v] (hasCycleDFS g fuel v colors) := by
  intro fuel
  induction fuel with
  | zero =>
    intro v colors hv hwhite hn
    have := whites_gray_lt (g := g) hv hwhite
    omega
  | succ fuel ih =>
    intro v colors hv hwhite hn hfin
    have hlt := whites_gray_lt (g := g) hv hwhite
    rw [hasCycleDFS]
    rcases searchTargets_searched ih (g.outgoing v) _
        (fun t ht => hw.target (v, t) (Digraph.mem_outgoing.mp ht))
        (by omega) (hfin.gray hwhite) with
      ⟨colors₁, hs, hext, htargets⟩ | ⟨colors₁, hs, hcycle⟩
    · simp only [hs]
      have hgray : colors₁ v = .gray :=
        (hext.gray v).mpr (update_self v _ _)
      refine Or.inl ⟨_, rfl, ⟨hext.finished.blacken hgray htargets,
        fun w hw => ?_, fun w => ?_⟩, fun t ht => ?_⟩
      · by_cases hwv : w = v
        · rw [hwv, update_self]
        · rw [update_of_ne hwv]
          refine hext.black w ?_
          rw [update_of_ne hwv]
          exact hw
      · by_cases hwv : w = v
        · rw [hwv, update_self, hwhite]
          exact ⟨fun hx => (by cases hx), fun hx => (by cases hx)⟩
        · rw [update_of_ne hwv, hext.gray w, update_of_ne hwv]
      · rw [List.mem_singleton.mp ht, update_self]
    · simp only [hs]
      refine Or.inr ⟨colors₁, rfl, fun rank hrank => ?_⟩
      obtain ⟨t, ht, u, hu, hle⟩ := hcycle rank hrank
      have hlow : rank t < rank v := hrank _ (Digraph.mem_outgoing.mp ht)
      have huv : u ≠ v := by
        intro huv
        rw [huv] at hle
        omega
      rw [update_of_ne huv] at hu
      exact ⟨v, List.mem_cons_self, u, hu, by omega⟩

theorem checkFrom_searched (hw : g.Wf) :
    ∀ (starts : List V) (colors : V → Color),
      (∀ v ∈ starts, v ∈ g.vertices) → (∀ u, colors u ≠ .gray) →
      Finished g colors →
      (checkFrom g starts colors = .ok true ∧ ∃ colors',
        Extends g colors colors' ∧ ∀ v ∈ starts, colors' v = .black)
      ∨ (checkFrom g starts colors = .ok false ∧ ¬g.Acyclic) := by
  intro starts
  induction starts with
  | nil =>
    intro colors _ _ hfin
    exact Or.inl ⟨rfl, colors, .refl hfin,
      fun v hv => absurd hv List.not_mem_nil⟩
  | cons v rest ih =>
    intro colors hin hgray hfin
    have hrest : ∀ {colors₁}, Extends g colors colors₁ → colors₁ v = .black →
        (checkFrom g rest colors₁ = .ok true ∧ ∃ colors',
          Extends g colors colors' ∧ ∀ u ∈ v :: rest, colors' u = .black)
        ∨ (checkFrom g rest colors₁ = .ok false ∧ ¬g.Acyclic) := by
      intro colors₁ hext hblack
      rcases ih colors₁ (fun u hu => hin u (List.mem_cons_of_mem v hu))
          (fun u hu => hgray u ((hext.gray u).mp hu)) hext.finished with
        ⟨hs, colors', hext', hall⟩ | hcycle
      · refine Or.inl ⟨hs, colors', hext.trans hext', fun u hu => ?_⟩
        cases List.mem_cons.mp hu with
        | inl huv => rw [huv]; exact hext'.black v hblack
        | inr hu => exact hall u hu
      · exact Or.inr hcycle
    rw [checkFrom]
    cases hc : colors v with
    | gray => exact absurd hc (hgray v)
    | black => exact hrest (.refl hfin) hc
    | white =>
      rcases hasCycleDFS_searched hw g.vertices.length v colors
          (hin v List.mem_cons_self) hc List.countP_le_length hfin with
        ⟨colors₁, hs, hext, hblack⟩ | ⟨colors₁, hs, hcycle⟩
      · simp only [hs]
        exact hrest hext (hblack v List.mem_cons_self)
      · simp only [if_true, hs]
        refine Or.inr ⟨trivial, fun ⟨rank, hrank⟩ => ?_⟩
        obtain ⟨_, _, u, hu, -⟩ := hcycle rank hrank
        exact hgray u hu

/-- The check returns and passes exactly the acyclic graphs. -/
theorem check_spec (hw : g.Wf) :
    ∃ b, check g = .ok b ∧ (b = true ↔ g.Acyclic) := by
  rcases checkFrom_searched hw g.vertices (fun _ => .white)
      (fun v hv => hv) (fun u hu => by cases hu)
      ⟨fun _ => 0, 0, fun v hv => by cases hv⟩ with
    ⟨hs, colors, ⟨⟨rank, bound, hrank⟩, -, -⟩, hall⟩ | ⟨hs, hcycle⟩
  · refine ⟨true, hs, fun _ => ⟨rank, fun e he => ?_⟩, fun _ => rfl⟩
    have hblack := hall e.1 (hw.source e he)
    exact ((hrank e.1 hblack).2 e.2 (Digraph.mem_outgoing.mpr he)).2
  · exact ⟨false, hs, fun h => (by cases h), fun h => absurd h hcycle⟩

theorem check_iff (hw : g.Wf) : check g = .ok true ↔ g.Acyclic := by
  obtain ⟨b, hb, hiff⟩ := check_spec hw
  rw [hb, ← hiff, Except.ok.injEq]

end DirectedAcyclic

-- ==== the sort

/-- Every vertex once, sources before targets. -/
structure IsTopologicalOrder (g : Digraph V) (order : List V) : Prop where
  perm : order.Perm g.vertices
  ascends : ∀ e ∈ g.edges, order.idxOf e.1 < order.idxOf e.2

/-- The edges into `v` from vertices that are not out yet. -/
def pending (g : Digraph V) (result : List V) (v : V) : Nat :=
  g.edges.countP fun e => e.2 = v && !result.contains e.1

/-- The invariant of the sort; `targets` are the edges of the vertex
just taken out that are still to be relaxed. -/
structure Sorting (g : Digraph V) (targets : List V) (s : SortState V) :
    Prop where
  nodup : (s.result ++ s.queue).Nodup
  inside : ∀ v ∈ s.result ++ s.queue, v ∈ g.vertices
  degree : ∀ v, s.inDegree v = pending g s.result v + targets.count v
  ready : ∀ v ∈ g.vertices, v ∈ s.result ++ s.queue ↔ s.inDegree v = 0
  sorted : ∀ l₁ v l₂, s.result = l₁ ++ v :: l₂ → ∀ u, (u, v) ∈ g.edges → u ∈ l₁

theorem Sorting.relax {t : V} {targets : List V}
    (h : Sorting g (t :: targets) s) (ht : t ∈ g.vertices) :
    Sorting g targets (relax s t) := by
  have hdeg : ∀ v, update s.inDegree t (s.inDegree t - 1) v
      = pending g s.result v + targets.count v := by
    intro v
    have := h.degree v
    by_cases hvt : v = t
    · rw [hvt, List.count_cons_self] at this
      rw [hvt, update_self]
      omega
    · rw [List.count_cons_of_ne (Ne.symm hvt)] at this
      rw [update_of_ne hvt]
      exact this
  have hpos : s.inDegree t ≠ 0 := by
    have := h.degree t
    rw [List.count_cons_self] at this
    omega
  have hout : t ∉ s.result ++ s.queue := fun hx =>
    hpos ((h.ready t ht).mp hx)
  by_cases hz : update s.inDegree t (s.inDegree t - 1) t = 0
  · simp only [Graph.relax, if_pos hz]
    refine ⟨?_, ?_, hdeg, ?_, h.sorted⟩
    · show (s.result ++ (s.queue ++ [t])).Nodup
      rw [← List.append_assoc]
      exact List.nodup_append.mpr ⟨h.nodup, List.nodup_singleton t,
        fun a ha b hb hab => hout (by
          rw [← List.mem_singleton.mp hb, ← hab]
          exact ha)⟩
    · intro v hv
      rw [← List.append_assoc, List.mem_append, List.mem_singleton] at hv
      cases hv with
      | inl hv => exact h.inside v hv
      | inr hv => rw [hv]; exact ht
    · intro v hv
      show v ∈ s.result ++ (s.queue ++ [t])
        ↔ update s.inDegree t (s.inDegree t - 1) v = 0
      rw [← List.append_assoc, List.mem_append, List.mem_singleton]
      by_cases hvt : v = t
      · rw [hvt]
        exact ⟨fun _ => hz, fun _ => Or.inr rfl⟩
      · rw [update_of_ne hvt, ← h.ready v hv]
        simp [hvt]
  · simp only [Graph.relax, if_neg hz]
    refine ⟨h.nodup, h.inside, hdeg, ?_, h.sorted⟩
    intro v hv
    by_cases hvt : v = t
    · rw [hvt]
      exact ⟨fun hx => absurd hx hout, fun hx => absurd hx hz⟩
    · show v ∈ s.result ++ s.queue
        ↔ update s.inDegree t (s.inDegree t - 1) v = 0
      rw [update_of_ne hvt]
      exact h.ready v hv

theorem relax_foldl_result (targets : List V) (s : SortState V) :
    (targets.foldl relax s).result = s.result := by
  induction targets generalizing s with
  | nil => rfl
  | cons t targets ih => exact ih (relax s t)

theorem Sorting.relaxAll :
    ∀ {targets : List V} {s : SortState V}, Sorting g targets s →
      (∀ t ∈ targets, t ∈ g.vertices) →
      Sorting g [] (targets.foldl Graph.relax s) := by
  intro targets
  induction targets with
  | nil => intro s h _; exact h
  | cons t targets ih =>
    intro s h hin
    exact ih (h.relax (hin t List.mem_cons_self)) fun u hu =>
      hin u (List.mem_cons_of_mem t hu)

omit [DecidableEq V] in
/-- Counting by cases. -/
theorem countP_eq_add {p q r : V × V → Bool} {edges : List (V × V)}
    (h : ∀ e, (p e).toNat = (q e).toNat + (r e).toNat) :
    edges.countP p = edges.countP q + edges.countP r := by
  induction edges with
  | nil => rfl
  | cons e edges ih =>
    have key : ∀ b : Bool, (if b = true then 1 else 0) = b.toNat := by
      decide
    rw [List.countP_cons, List.countP_cons, List.countP_cons, key, key,
      key, h e]
    omega

/-- The edges of a vertex are pending until it is taken out. -/
theorem pending_split {result : List V} {current : V}
    (hc : current ∉ result) (v : V) :
    pending g result v
      = pending g (result ++ [current]) v + (g.outgoing current).count v := by
  unfold pending Digraph.outgoing
  rw [List.count_eq_countP, List.countP_map, List.countP_filter]
  refine countP_eq_add fun e => ?_
  by_cases he : e.1 = current
  · by_cases hv : e.2 = v
    · simp [he, hv, hc]
    · simp [hv, beq_false_of_ne hv]
  · simp [he]

/-- Take a vertex out of the queue. -/
theorem Sorting.take {current : V} {queue : List V} (h : Sorting g [] s)
    (hq : s.queue = current :: queue) : Sorting g (g.outgoing current) { s with
        queue := queue
        result := s.result ++ [current] } := by
  have hsame : s.result ++ [current] ++ queue = s.result ++ s.queue := by
    rw [hq, List.append_assoc]
    rfl
  have hnodup := h.nodup
  have hin : current ∈ s.result ++ s.queue := by
    rw [hq]
    exact List.mem_append_right _ List.mem_cons_self
  have hnew : current ∉ s.result := by
    intro hx
    rw [hq] at hnodup
    exact (List.nodup_append.mp hnodup).2.2 current hx current
      List.mem_cons_self rfl
  refine ⟨?_, ?_, ?_, ?_, ?_⟩
  · show (s.result ++ [current] ++ queue).Nodup
    rw [hsame]
    exact hnodup
  · intro v hv
    exact h.inside v (by rw [← hsame]; exact hv)
  · intro v
    rw [h.degree v, pending_split hnew v]
    rfl
  · intro v hv
    rw [hsame]
    exact h.ready v hv
  · -- the sources of a vertex that was queued are out
    intro l₁ v l₂ hsplit u hu
    rcases List.eq_nil_or_concat l₂ with hnil | ⟨l₂', z, hl₂⟩
    · rw [hnil] at hsplit
      obtain ⟨hres, hv⟩ := List.append_inj' hsplit rfl
      rw [List.cons.injEq] at hv
      rw [← hres]
      have hzero := (h.ready current (h.inside current hin)).mp hin
      have hdeg := h.degree current
      have hpend : pending g s.result current = 0 := by omega
      unfold pending at hpend
      rw [List.countP_eq_zero] at hpend
      have := hpend (u, v) hu
      rw [← hv.1] at this
      simpa using this
    · rw [hl₂, List.concat_eq_append, ← List.cons_append,
        ← List.append_assoc] at hsplit
      obtain ⟨hres, -⟩ := List.append_inj' hsplit rfl
      exact h.sorted l₁ v l₂' hres u hu

theorem Sorting.loop (hw : g.Wf) :
    ∀ (fuel : Nat) {s : SortState V}, Sorting g [] s →
      g.vertices.length ≤ fuel + s.result.length →
      ∃ s', sortFrom g fuel s = .ok s'.result ∧ Sorting g [] s'
        ∧ s'.queue = [] := by
  intro fuel
  induction fuel with
  | zero =>
    intro s h hfuel
    cases hq : s.queue with
    | nil => exact ⟨s, by unfold sortFrom; rw [hq], h, hq⟩
    | cons current queue =>
      have hle := (h.nodup.subperm h.inside).length_le
      rw [hq, List.length_append, List.length_cons] at hle
      omega
  | succ fuel ih =>
    intro s h hfuel
    cases hq : s.queue with
    | nil => exact ⟨s, by unfold sortFrom; rw [hq], h, hq⟩
    | cons current queue =>
      have hin : ∀ t ∈ g.outgoing current, t ∈ g.vertices :=
        fun t ht => hw.target (current, t) (Digraph.mem_outgoing.mp ht)
      have hnext := (h.take hq).relaxAll hin
      obtain ⟨s', hs', hdone, hempty⟩ := ih hnext (by
        rw [relax_foldl_result, List.length_append, List.length_singleton]
        omega)
      refine ⟨s', ?_, hdone, hempty⟩
      unfold sortFrom
      rw [hq]
      exact hs'

/-- When the queue is empty, every vertex of an acyclic graph is out. -/
theorem Sorting.complete (hw : g.Wf) (ha : g.Acyclic) (h : Sorting g [] s)
    (hq : s.queue = []) : ∀ v ∈ g.vertices, v ∈ s.result := by
  obtain ⟨rank, hrank⟩ := ha
  have hbound : ∀ v ∈ g.vertices, rank v ≤ (g.vertices.map rank).sum :=
    fun v hv => List.le_sum_of_mem (List.mem_map.mpr ⟨v, hv, rfl⟩)
  -- a vertex that is left has a source that is left and ranks higher
  have key : ∀ n v, v ∈ g.vertices → v ∉ s.result →
      (g.vertices.map rank).sum < rank v + n → False := by
    intro n
    induction n with
    | zero =>
      intro v hv _ hlt
      have := hbound v hv
      omega
    | succ n ih =>
      intro v hv hout hlt
      have hdeg : s.inDegree v ≠ 0 := by
        rw [Ne, ← h.ready v hv, hq, List.append_nil]
        exact hout
      rw [h.degree v, List.count_nil] at hdeg
      obtain ⟨e, he, hcond⟩ :=
        List.countP_pos_iff.mp (Nat.pos_of_ne_zero hdeg)
      rw [Bool.and_eq_true, decide_eq_true_eq, Bool.not_eq_true',
        List.contains_eq_mem, decide_eq_false_iff_not] at hcond
      have hlt' := hrank e he
      rw [hcond.1] at hlt'
      exact ih e.1 (hw.source e he) hcond.2 (by omega)
  intro v hv
  by_contra hout
  exact key ((g.vertices.map rank).sum + 1) v hv hout (by omega)

/-- The sort of an acyclic graph is a topological order. -/
theorem topologicalSort_spec (hw : g.Wf) (ha : g.Acyclic) :
    ∃ order, topologicalSort g = .ok order ∧ IsTopologicalOrder g order := by
  have hstart : Sorting g []
      { queue := g.vertices.filter fun v => g.inDegree v = 0
        inDegree := g.inDegree
        result := [] } := by
    refine ⟨hw.nodup.filter _, fun v hv => List.mem_of_mem_filter hv, ?_, ?_,
      ?_⟩
    · intro v
      refine List.countP_congr fun e _ => ?_
      simp
    · intro v hv
      show v ∈ g.vertices.filter _ ↔ _
      rw [List.mem_filter, decide_eq_true_eq]
      exact ⟨fun hx => hx.2, fun hx => ⟨hv, hx⟩⟩
    · intro l₁ v l₂ hsplit
      exact absurd hsplit (by simp)
  obtain ⟨s, hs, hdone, hq⟩ := Sorting.loop hw g.vertices.length hstart le_rfl
  have hnodup : s.result.Nodup := by
    have := hdone.nodup
    rw [hq, List.append_nil] at this
    exact this
  have hinside : ∀ v ∈ s.result, v ∈ g.vertices := fun v hv =>
    hdone.inside v (List.mem_append_left _ hv)
  have hall := hdone.complete hw ha hq
  refine ⟨s.result, hs, ⟨?_, ?_⟩⟩
  · exact (List.perm_ext_iff_of_nodup hnodup hw.nodup).mpr fun v =>
      ⟨hinside v, hall v⟩
  · intro e he
    obtain ⟨l₁, l₂, hsplit⟩ :=
      List.append_of_mem (hall e.2 (hw.target e he))
    have hmem := hdone.sorted l₁ e.2 l₂ hsplit e.1 he
    rw [hsplit] at hnodup
    have hnot : e.2 ∉ l₁ := fun hx =>
      (List.nodup_append.mp hnodup).2.2 e.2 hx e.2 List.mem_cons_self rfl
    rw [hsplit, List.idxOf_append_of_mem hmem,
      List.idxOf_append_of_notMem hnot, List.idxOf_cons_self]
    exact List.idxOf_lt_length_of_mem hmem

-- ==== cycles

namespace Digraph

/-- A walk along at least one edge. -/
def Leads (g : Digraph V) : V → V → Prop :=
  Relation.TransGen fun v w => (v, w) ∈ g.edges

/-- The rank of a vertex in a graph without a cycle is the number of
vertices it leads to: the target of an edge leads to fewer, not to
itself. -/
theorem acyclic_iff (hw : g.Wf) : g.Acyclic ↔ ∀ v, ¬g.Leads v v := by
  classical
  constructor
  · rintro ⟨rank, hrank⟩ v hv
    have hfall : ∀ w, g.Leads v w → rank w < rank v := by
      intro w h
      induction h with
      | single he => exact hrank _ he
      | tail _ he ih => exact (hrank _ he).trans ih
    exact Nat.lt_irrefl _ (hfall v hv)
  · intro hcycle
    refine ⟨fun v => (g.vertices.toFinset.filter (g.Leads v)).card, ?_⟩
    intro e he
    apply Finset.card_lt_card
    refine Finset.ssubset_iff_of_subset ?_ |>.mpr ⟨e.2, ?_, ?_⟩
    · intro w hmem
      rw [Finset.mem_filter] at hmem ⊢
      exact ⟨hmem.1, .head he hmem.2⟩
    · rw [Finset.mem_filter, List.mem_toFinset]
      exact ⟨hw.target e he, .single he⟩
    · intro hmem
      exact hcycle e.2 (Finset.mem_filter.mp hmem).2

end Digraph

/-- The check returns, and passes the graphs without a cycle; the sort of
such a graph lists every vertex once, sources before targets. -/
theorem check_topologicalSort (hw : g.Wf) :
    (∃ b, DirectedAcyclic.check g = .ok b)
      ∧ (DirectedAcyclic.check g = .ok true ↔ ∀ v, ¬g.Leads v v)
      ∧ ((∀ v, ¬g.Leads v v) → ∃ order, topologicalSort g = .ok order
          ∧ order.Nodup
          ∧ (∀ v, v ∈ order ↔ v ∈ g.vertices)
          ∧ ∀ e ∈ g.edges, order.idxOf e.1 < order.idxOf e.2) := by
  refine ⟨?_, ?_, ?_⟩
  · obtain ⟨b, hb, -⟩ := DirectedAcyclic.check_spec hw
    exact ⟨b, hb⟩
  · rw [← Digraph.acyclic_iff hw, DirectedAcyclic.check_iff hw]
  · intro hcycle
    obtain ⟨order, hsort, hperm, hasc⟩ :=
      topologicalSort_spec hw ((Digraph.acyclic_iff hw).mpr hcycle)
    exact ⟨order, hsort, hperm.nodup_iff.mpr hw.nodup, fun v => hperm.mem_iff,
      hasc⟩

/-- Two edges side by side. -/
theorem check_topologicalSort_parallel :
    ∃ g : Digraph Nat, g.edges = [(2, 0), (2, 0), (0, 1)]
      ∧ DirectedAcyclic.check g = .ok true ∧ (∀ v, ¬g.Leads v v)
      ∧ topologicalSort g = .ok [2, 0, 1]
      ∧ ∀ e ∈ g.edges, [2, 0, 1].idxOf e.1 < [2, 0, 1].idxOf e.2 := by
  let g : Digraph Nat := ⟨[0, 1, 2], [(2, 0), (2, 0), (0, 1)]⟩
  have hcheck : DirectedAcyclic.check g = .ok true := rfl
  obtain ⟨-, hiff, hsort⟩ :=
    check_topologicalSort (g := g) ⟨by decide, by decide, by decide⟩
  obtain ⟨order, hrun, -, -, hasc⟩ := hsort (hiff.mp hcheck)
  have hcomputed : topologicalSort g = .ok [2, 0, 1] := rfl
  cases hrun.symm.trans hcomputed
  exact ⟨g, rfl, hcheck, hiff.mp hcheck, hcomputed, hasc⟩

end CroCOS.Graph
