/-
What a builder knows of its edges while they are put in: as long as its
vertices fit into a `BasicIndex`, every vertex stands at its own index,
every edge ends at two vertices of the builder, and the two counters of
a vertex count the edges that leave and enter it, modulo 2^32.

Labels, colours, weights and the label maps play no part in this, so
every call that only decorates keeps it for the same reason.
-/
import CroCOS.GraphBuilder

namespace CroCOS.GraphBuilder

open Lib

variable {VL VC EL EW : Type}
variable {t : Traits VL EL} {b b' : Builder VL VC EL EW}
variable {ok : Bool}

-- ==== the invariant

structure Counted (b : Builder VL VC EL EW) : Prop where
  index : ∀ {i : Nat} {v : PartialVertexInfo VL VC},
    b.vertexInfo[i]? = some v → v.index = i
  outgoing : ∀ {i : Nat} {v : PartialVertexInfo VL VC},
    b.vertexInfo[i]? = some v → v.outgoingEdgeCount
      = basicIndex (b.edgeInfo.countP fun e => e.fromVertexId = i)
  incoming : ∀ {i : Nat} {v : PartialVertexInfo VL VC},
    b.vertexInfo[i]? = some v → v.incomingEdgeCount
      = basicIndex (b.edgeInfo.countP fun e => e.toVertexId = i)
  source_lt : ∀ e ∈ b.edgeInfo, e.fromVertexId < b.vertexInfo.length
  target_lt : ∀ e ∈ b.edgeInfo, e.toVertexId < b.vertexInfo.length

/-- The invariant: a builder with more vertices than indices is left
alone, for only `reset` can make it smaller again. -/
def Fitting (b : Builder VL VC EL EW) : Prop :=
  b.vertexInfo.length ≤ 2 ^ 32 → Counted b

theorem basicIndex_of_lt {n : Nat} (h : n < 2 ^ 32) : basicIndex n = n :=
  Nat.mod_eq_of_lt h

/-- A counter of type `BasicIndex` that is incremented. -/
theorem basicIndex_succ (n : Nat) :
    basicIndex (basicIndex n + 1) = basicIndex (n + 1) := by
  simp [basicIndex]

-- ==== decorating calls

/-- Same vertices and edges up to decorations. -/
structure SameShape (b b' : Builder VL VC EL EW) : Prop where
  vertices : b'.vertexInfo.map
      (fun v => (v.index, v.outgoingEdgeCount, v.incomingEdgeCount))
    = b.vertexInfo.map
      fun v => (v.index, v.outgoingEdgeCount, v.incomingEdgeCount)
  edges : b'.edgeInfo.map (fun e => (e.fromVertexId, e.toVertexId))
    = b.edgeInfo.map fun e => (e.fromVertexId, e.toVertexId)

/-- A change that a projection does not see. -/
theorem map_modify_eq {α β : Type _} {g : α → β} {f : α → α}
    (hf : ∀ a, g (f a) = g a) (l : List α) (i : Nat) :
    (l.modify i f).map g = l.map g := by
  refine List.ext_getElem? fun j => ?_
  rw [List.getElem?_map, List.getElem?_map, List.getElem?_modify]
  cases l[j]? with
  | none => rfl
  | some a =>
    by_cases hij : i = j
    · simp [hij, hf]
    · simp [hij]

theorem SameShape.length_eq (h : SameShape b b') :
    b'.vertexInfo.length = b.vertexInfo.length := by
  have hlen := congrArg List.length h.vertices
  simpa using hlen

theorem SameShape.vertex (h : SameShape b b') {i : Nat}
    {v' : PartialVertexInfo VL VC} (hv : b'.vertexInfo[i]? = some v') :
    ∃ v, b.vertexInfo[i]? = some v ∧ v'.index = v.index
      ∧ v'.outgoingEdgeCount = v.outgoingEdgeCount
      ∧ v'.incomingEdgeCount = v.incomingEdgeCount := by
  have hi := congrArg (fun l => l[i]?) h.vertices
  simp only [List.getElem?_map, hv] at hi
  cases hb : b.vertexInfo[i]? with
  | none => rw [hb] at hi; cases hi
  | some v =>
    rw [hb] at hi
    injection hi with hi
    injection hi with hindex hi
    injection hi with hout hin
    exact ⟨v, rfl, hindex, hout, hin⟩

/-- What is counted, and required of every edge, depends on the
endpoints only. -/
theorem SameShape.countP (h : SameShape b b') (p : Nat × Nat → Bool) :
    b'.edgeInfo.countP (fun e => p (e.fromVertexId, e.toVertexId))
      = b.edgeInfo.countP fun e => p (e.fromVertexId, e.toVertexId) := by
  have hc := congrArg (List.countP p) h.edges
  rwa [List.countP_map, List.countP_map] at hc

theorem SameShape.mem (h : SameShape b b') {e' : PartialEdgeInfo EL EW}
    (he : e' ∈ b'.edgeInfo) :
    ∃ e ∈ b.edgeInfo, e.fromVertexId = e'.fromVertexId
      ∧ e.toVertexId = e'.toVertexId := by
  have hm : (e'.fromVertexId, e'.toVertexId)
      ∈ b.edgeInfo.map fun e => (e.fromVertexId, e.toVertexId) := by
    rw [← h.edges]
    exact List.mem_map_of_mem he
  obtain ⟨e, hb, heq⟩ := List.mem_map.mp hm
  injection heq with hs ht
  exact ⟨e, hb, hs, ht⟩

theorem Fitting.decorate (h : Fitting b) (hs : SameShape b b') :
    Fitting b' := by
  intro hfit
  rw [hs.length_eq] at hfit
  have hc := h hfit
  refine ⟨?_, ?_, ?_, ?_, ?_⟩
  · intro i v' hv
    obtain ⟨v, hb, hindex, -, -⟩ := hs.vertex hv
    rw [hindex, hc.index hb]
  · intro i v' hv
    obtain ⟨v, hb, -, hout, -⟩ := hs.vertex hv
    rw [hout, hc.outgoing hb, hs.countP fun p => decide (p.1 = i)]
  · intro i v' hv
    obtain ⟨v, hb, -, -, hin⟩ := hs.vertex hv
    rw [hin, hc.incoming hb, hs.countP fun p => decide (p.2 = i)]
  · intro e' he
    obtain ⟨e, hb, hsource, -⟩ := hs.mem he
    rw [← hsource, hs.length_eq]
    exact hc.source_lt e hb
  · intro e' he
    obtain ⟨e, hb, -, htarget⟩ := hs.mem he
    rw [← htarget, hs.length_eq]
    exact hc.target_lt e hb

theorem Fitting.decorateVertex (h : Fitting b) {handle : Nat}
    {f : PartialVertexInfo VL VC → PartialVertexInfo VL VC}
    (hv : b'.vertexInfo = b.vertexInfo.modify handle f)
    (he : b'.edgeInfo = b.edgeInfo)
    (hf : ∀ v, ((f v).index, (f v).outgoingEdgeCount, (f v).incomingEdgeCount)
      = (v.index, v.outgoingEdgeCount, v.incomingEdgeCount)) : Fitting b' :=
  h.decorate ⟨by rw [hv]; exact map_modify_eq hf _ _, by rw [he]⟩

theorem Fitting.decorateEdge (h : Fitting b) {handle : Nat}
    {f : PartialEdgeInfo EL EW → PartialEdgeInfo EL EW}
    (hv : b'.vertexInfo = b.vertexInfo)
    (he : b'.edgeInfo = b.edgeInfo.modify handle f)
    (hf : ∀ e, ((f e).fromVertexId, (f e).toVertexId)
      = (e.fromVertexId, e.toVertexId)) : Fitting b' :=
  h.decorate ⟨by rw [hv], by rw [he]; exact map_modify_eq hf _ _⟩

-- ==== vertices and edges

theorem fitting_empty : Fitting (Builder.empty : Builder VL VC EL EW) := by
  intro _
  refine ⟨?_, ?_, ?_, ?_, ?_⟩
  all_goals simp [Builder.empty]

theorem Fitting.createVertex (h : Fitting b) : Fitting b.createVertex := by
  intro hfit
  have hlen : b.createVertex.vertexInfo.length
      = b.vertexInfo.length + 1 := by simp [Builder.createVertex]
  have hc := h (by omega)
  -- no edge touches the new vertex
  have hsource : ∀ e ∈ b.edgeInfo,
      ¬ decide (e.fromVertexId = b.vertexInfo.length) = true := fun e he =>
    by simpa using (hc.source_lt e he).ne
  have htarget : ∀ e ∈ b.edgeInfo,
      ¬ decide (e.toVertexId = b.vertexInfo.length) = true := fun e he =>
    by simpa using (hc.target_lt e he).ne
  have hcases : ∀ {i : Nat} {v : PartialVertexInfo VL VC},
      b.createVertex.vertexInfo[i]? = some v →
      b.vertexInfo[i]? = some v
      ∨ i = b.vertexInfo.length ∧ v.index = basicIndex i
        ∧ v.outgoingEdgeCount = 0 ∧ v.incomingEdgeCount = 0 := by
    intro i v hv
    simp only [Builder.createVertex] at hv
    by_cases hi : i < b.vertexInfo.length
    · rw [List.getElem?_append_left hi] at hv
      exact Or.inl hv
    · obtain rfl : i = b.vertexInfo.length := by
        have hlt := (List.getElem?_eq_some_iff.mp hv).1
        simp at hlt
        omega
      rw [List.getElem?_concat_length] at hv
      cases hv
      exact Or.inr ⟨rfl, rfl, rfl, rfl⟩
  refine ⟨?_, ?_, ?_, ?_, ?_⟩
  · intro i v hv
    rcases hcases hv with hv | ⟨rfl, hindex, -, -⟩
    · exact hc.index hv
    · rw [hindex, basicIndex_of_lt (by omega)]
  · intro i v hv
    rcases hcases hv with hv | ⟨rfl, -, hout, -⟩
    · exact hc.outgoing hv
    · show v.outgoingEdgeCount = basicIndex (b.edgeInfo.countP _)
      rw [hout, List.countP_eq_zero.mpr hsource]
      rfl
  · intro i v hv
    rcases hcases hv with hv | ⟨rfl, -, -, hin⟩
    · exact hc.incoming hv
    · show v.incomingEdgeCount = basicIndex (b.edgeInfo.countP _)
      rw [hin, List.countP_eq_zero.mpr htarget]
      rfl
  · intro e he
    rw [hlen]
    exact Nat.lt_succ_of_lt (hc.source_lt e he)
  · intro e he
    rw [hlen]
    exact Nat.lt_succ_of_lt (hc.target_lt e he)

theorem fitting_resetEdges (h : Fitting b) : Fitting b.resetEdges := by
  intro hfit
  have hlen : b.resetEdges.vertexInfo.length = b.vertexInfo.length := by
    simp [Builder.resetEdges]
  have hc := h (by omega)
  have hcases : ∀ {i : Nat} {v : PartialVertexInfo VL VC},
      b.resetEdges.vertexInfo[i]? = some v → v.index = i
        ∧ v.outgoingEdgeCount = 0 ∧ v.incomingEdgeCount = 0 := by
    intro i v hv
    simp only [Builder.resetEdges, List.getElem?_map,
      Option.map_eq_some_iff] at hv
    obtain ⟨w, hw, rfl⟩ := hv
    have hindex : w.index = i := hc.index hw
    exact ⟨hindex, rfl, rfl⟩
  refine ⟨fun hv => (hcases hv).1, fun hv => (hcases hv).2.1,
    fun hv => (hcases hv).2.2, ?_, ?_⟩
  all_goals simp [Builder.resetEdges]

/-- What `createEdge` answers when it answers. -/
theorem createEdge_inv {source target index : Nat}
    (h : b.createEdge t source target = .ok (b', index)) :
    ∃ sourceInfo targetInfo e, b.vertexInfo[source]? = some sourceInfo
      ∧ b.vertexInfo[target]? = some targetInfo
      ∧ e.fromVertexId = sourceInfo.index
      ∧ e.toVertexId = targetInfo.index
      ∧ b'.edgeInfo = b.edgeInfo ++ [e]
      ∧ ∃ next, b'.vertexInfo = (b.vertexInfo.modify source fun v =>
          { v with
            firstOutgoingEdgeIndex := next
            outgoingEdgeCount := basicIndex (v.outgoingEdgeCount + 1) }
        ).modify target fun v =>
          { v with
            firstIncomingEdgeIndex := next
            incomingEdgeCount := basicIndex (v.incomingEdgeCount + 1) } := by
  rw [Builder.createEdge] at h
  cases hs : b.vertexInfo[source]? with
  | none => simp [hs] at h
  | some sourceInfo =>
    cases ht : b.vertexInfo[target]? with
    | none => simp [ht] at h
    | some targetInfo =>
      simp only [hs, ht] at h
      split at h
      · cases h
      · cases h
        exact ⟨sourceInfo, targetInfo, _, rfl, rfl, rfl, rfl, rfl, _, rfl⟩

theorem Fitting.createEdge (h : Fitting b) {source target index : Nat}
    (hcreate : b.createEdge t source target = .ok (b', index)) :
    Fitting b' := by
  obtain ⟨sourceInfo, targetInfo, e, hs, ht, hfrom, hto, hedges, next,
    hverts⟩ := createEdge_inv hcreate
  intro hfit
  have hlen : b'.vertexInfo.length = b.vertexInfo.length := by
    rw [hverts, List.length_modify, List.length_modify]
  have hc := h (by omega)
  have hsource : e.fromVertexId = source := by rw [hfrom, hc.index hs]
  have htarget : e.toVertexId = target := by rw [hto, hc.index ht]
  have hsource_lt := (List.getElem?_eq_some_iff.mp hs).1
  have htarget_lt := (List.getElem?_eq_some_iff.mp ht).1
  have hcases : ∀ {i : Nat} {v' : PartialVertexInfo VL VC},
      b'.vertexInfo[i]? = some v' →
      ∃ v, b.vertexInfo[i]? = some v ∧ v'.index = v.index
        ∧ v'.outgoingEdgeCount = (if source = i
          then basicIndex (v.outgoingEdgeCount + 1)
          else v.outgoingEdgeCount)
        ∧ v'.incomingEdgeCount = (if target = i
          then basicIndex (v.incomingEdgeCount + 1)
          else v.incomingEdgeCount) := by
    intro i v' hv
    rw [hverts, List.getElem?_modify, List.getElem?_modify] at hv
    cases hb : b.vertexInfo[i]? with
    | none => rw [hb] at hv; simp at hv
    | some v =>
      refine ⟨v, rfl, ?_⟩
      rw [hb] at hv
      split_ifs at hv ⊢
      all_goals
        injection hv with hv
        subst hv
        exact ⟨rfl, rfl, rfl⟩
  refine ⟨?_, ?_, ?_, ?_, ?_⟩
  · intro i v' hv
    obtain ⟨v, hb, hindex, -, -⟩ := hcases hv
    rw [hindex, hc.index hb]
  · intro i v' hv
    obtain ⟨v, hb, -, hout, -⟩ := hcases hv
    rw [hout, hc.outgoing hb, hedges, List.countP_append,
      List.countP_singleton, hsource]
    by_cases hi : source = i
    · simp [hi, basicIndex_succ]
    · simp [hi]
  · intro i v' hv
    obtain ⟨v, hb, -, -, hin⟩ := hcases hv
    rw [hin, hc.incoming hb, hedges, List.countP_append,
      List.countP_singleton, htarget]
    by_cases hi : target = i
    · simp [hi, basicIndex_succ]
    · simp [hi]
  · intro e' he
    rw [hedges, List.mem_append, List.mem_singleton] at he
    rw [hlen]
    rcases he with he | rfl
    · exact hc.source_lt e' he
    · omega
  · intro e' he
    rw [hedges, List.mem_append, List.mem_singleton] at he
    rw [hlen]
    rcases he with he | rfl
    · exact hc.target_lt e' he
    · omega

-- ==== the runs

theorem step_fitting [DecidableEq VL] [DecidableEq EL]
    {c : Call VL VC EL EW} (h : Fitting b)
    (hstep : step t b c = .ok (b', ok)) : Fitting b' := by
  cases c with
  | addVertex =>
    cases hstep
    exact h.createVertex
  | setVertexLabel handle label =>
    simp only [step, Builder.setVertexLabel] at hstep
    (repeat' split at hstep) <;> cases hstep
    · exact h
    · exact h.decorateVertex rfl rfl fun _ => rfl
  | clearVertexLabel handle =>
    obtain ⟨b'', hcall, heq⟩ := map_inv hstep
    simp only [Builder.clearVertexLabel] at hcall
    (repeat' split at hcall) <;> cases hcall
    cases heq
    exact h.decorateVertex rfl rfl fun _ => rfl
  | setVertexColor handle color =>
    obtain ⟨b'', hcall, heq⟩ := map_inv hstep
    simp only [Builder.setVertexColor] at hcall
    split at hcall <;> cases hcall
    cases heq
    exact h.decorateVertex rfl rfl fun _ => rfl
  | addEdge source target =>
    obtain ⟨⟨b'', index⟩, hcall, heq⟩ := map_inv hstep
    cases heq
    exact h.createEdge hcall
  | setEdgeLabel handle label =>
    simp only [step, Builder.setEdgeLabel] at hstep
    (repeat' split at hstep) <;> cases hstep
    · exact h
    · exact h.decorateEdge rfl rfl fun _ => rfl
  | clearEdgeLabel handle =>
    obtain ⟨b'', hcall, heq⟩ := map_inv hstep
    simp only [Builder.clearEdgeLabel] at hcall
    (repeat' split at hcall) <;> cases hcall
    cases heq
    exact h.decorateEdge rfl rfl fun _ => rfl
  | setEdgeWeight handle weight =>
    obtain ⟨b'', hcall, heq⟩ := map_inv hstep
    simp only [Builder.setEdgeWeight] at hcall
    split at hcall <;> cases hcall
    cases heq
    exact h.decorateEdge rfl rfl fun _ => rfl
  | reset =>
    cases hstep
    exact fitting_empty
  | resetEdges =>
    cases hstep
    exact fitting_resetEdges h

/-- The counters are right in every builder that calls can reach. -/
theorem run_fitting [DecidableEq VL] [DecidableEq EL]
    {calls : List (Call VL VC EL EW)} {oks : List Bool}
    (hrun : run (step t) .empty calls = .ok (b, oks)) : Fitting b :=
  run_invariant (Q := fun _ => True)
    (fun _ _ _ _ hI _ hstep => step_fitting hI hstep)
    fitting_empty (fun _ _ => trivial) hrun

end CroCOS.GraphBuilder
