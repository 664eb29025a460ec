/-
The loops of `buildGraph` on a builder with fewer than 2^31 edges, one
by one. Storing at distinct identifiers stores everything
(`foldlM_stores`); the loop over the vertices lays their spans end to
end (`laySpans`); the loop over the edges sorts them into these spans
by counting (`fillEdges`, on the rules of Lib/Buckets). An edge has a
place in two spans, that of the edges leaving its source and that of
the edges entering its target, so there are 2·E places: this is what
has to fit into a `BasicIndex`.
-/
import CroCOS.Lib.Buckets
import CroCOS.Proofs.GraphBuilder.Counts
import CroCOS.Proofs.GraphBuilder.Labels

namespace CroCOS.GraphBuilder

open Lib HashTable

variable {i id size : Nat}

-- ==== heap arrays

section Arrays

variable {α β : Type}

theorem load_of_getElem? {buffer : List α} {a : α} (h : buffer[i]? = some a) :
    load buffer i = .ok a := by
  simp only [load, h]

theorem loadStored_of_getElem? {buffer : List (Option α)} {a : α}
    (h : buffer[i]? = some (some a)) : loadStored buffer i = .ok a := by
  simp only [loadStored, h]

theorem store_of_lt {buffer : List α} (h : i < buffer.length) (a : α) :
    store buffer i a = .ok (buffer.set i a) :=
  if_pos h

/-- A loop that stores at distinct places of the array. -/
theorem foldlM_stores {f : List α → β → Except Fault (List α)}
    {l : List β} (key : β → Nat) (value : β → α) (buffer : List α)
    (hf : ∀ b ∈ l, ∀ buffer, f buffer b = store buffer (key b) (value b))
    (hnd : (l.map key).Nodup) (hlt : ∀ b ∈ l, key b < buffer.length) :
    ∃ buffer', l.foldlM f buffer = .ok buffer'
      ∧ buffer'.length = buffer.length
      ∧ ∀ b ∈ l, buffer'[key b]? = some (value b) := by
  refine foldlM_splits (I := fun done (buffer' : List α) =>
    buffer'.length = buffer.length
      ∧ ∀ b ∈ done, buffer'[key b]? = some (value b)) ?_ ⟨rfl, by simp⟩
  intro done b rest hl buffer' ⟨hlen, hdone⟩
  have hb : b ∈ l := by rw [hl]; simp
  have hnew : key b ∉ done.map key := by
    rw [hl, List.map_append] at hnd
    exact fun hmem => (List.disjoint_of_nodup_append hnd) hmem
      List.mem_cons_self
  have hroom : key b < buffer'.length := by
    rw [hlen]
    exact hlt b hb
  refine ⟨buffer'.set (key b) (value b), ?_, ?_, ?_⟩
  · rw [hf b hb, store_of_lt hroom]
  · rw [List.length_set, hlen]
  · intro c hc
    rcases List.mem_append.mp hc with hc | hc
    · rw [List.getElem?_set_ne, hdone c hc]
      intro heq
      exact hnew (heq ▸ List.mem_map_of_mem hc)
    · rw [List.mem_singleton.mp hc, List.getElem?_set_self hroom]

/-- Storing the `i`th value at the `i`th identifier. -/
theorem storeAll_spec (buffer : List α) {ids : List Nat} {values : List α}
    (hlen : ids.length = values.length) (hnd : ids.Nodup)
    (hlt : ∀ id ∈ ids, id < buffer.length) :
    ∃ buffer', storeAll buffer (ids.zip values) = .ok buffer'
      ∧ buffer'.length = buffer.length
      ∧ ∀ (i id : Nat) (a : α), ids[i]? = some id → values[i]? = some a →
        buffer'[id]? = some a := by
  have hkeys : (ids.zip values).map Prod.fst = ids :=
    List.map_fst_zip (by omega)
  obtain ⟨buffer', hstore, hlen', hread⟩ := foldlM_stores
    (f := fun buffer s => store buffer s.1 s.2) (l := ids.zip values)
    Prod.fst Prod.snd buffer (fun _ _ _ => rfl) (by rw [hkeys]; exact hnd)
    (fun p hp => hlt p.1 (by
      rw [← hkeys]
      exact List.mem_map_of_mem hp))
  refine ⟨buffer', hstore, hlen', fun i id a hid ha => ?_⟩
  have hmem : (id, a) ∈ ids.zip values := by
    refine List.mem_of_getElem? (i := i) ?_
    rw [List.getElem?_zip_eq_some]
    exact ⟨hid, ha⟩
  exact hread _ hmem

theorem decorate_spec (decorated : Bool) {ids : List Nat}
    {values : List (Option α)} (hlen : ids.length = values.length)
    (hnd : ids.Nodup) (hlt : ∀ id ∈ ids, id < size) :
    ∃ buffer, decorate decorated size ids values = .ok buffer
      ∧ (decorated = true → ∀ (i id : Nat) (a : α), ids[i]? = some id →
        values[i]? = some (some a) → loadStored buffer id = .ok a) := by
  cases decorated with
  | false => exact ⟨[], rfl, by simp⟩
  | true =>
    obtain ⟨buffer, hstore, -, hread⟩ := storeAll_spec
      (List.replicate size none) hlen hnd (by simpa using hlt)
    exact ⟨buffer, hstore, fun _ i id a hid ha =>
      loadStored_of_getElem? (hread i id _ hid ha)⟩

end Arrays

-- ==== the spans

variable {VL VC EL EW : Type}

/-- The number of edges that leave vertex `i` of the builder. -/
def outCount (b : Builder VL VC EL EW) (i : Nat) : Nat :=
  b.edgeInfo.countP fun e => e.fromVertexId = i

/-- The number of edges that enter it. -/
def inCount (b : Builder VL VC EL EW) (i : Nat) : Nat :=
  b.edgeInfo.countP fun e => e.toVertexId = i

/-- The places vertex `i` takes in the incidence list. -/
def places (b : Builder VL VC EL EW) (i : Nat) : Nat :=
  outCount b i + inCount b i

variable {t : Traits VL EL} {b : Builder VL VC EL EW}

theorem offset_places (hc : Counted b) :
    offset (places b) b.vertexInfo.length = 2 * b.edgeInfo.length := by
  have hout := offset_countP (fun e : PartialEdgeInfo EL EW =>
    e.fromVertexId) hc.source_lt
  have hin := offset_countP (fun e : PartialEdgeInfo EL EW =>
    e.toVertexId) hc.target_lt
  simp only [offset, places, outCount, inCount,
    Finset.sum_add_distrib] at hout hin ⊢
  omega

/-- The metadata the vertex `i` ends up with. -/
def spanOf (b : Builder VL VC EL EW) (i : Nat) : VertexMetadata :=
  .directed (offset (places b) i) (outCount b i) (inCount b i)

/-- The loop that lays the spans end to end. -/
theorem laySpans (ht : t.is_directed = true) (hc : Counted b)
    (hfew : b.edgeInfo.length < 2 ^ 31) {vids outgoing incoming : List Nat}
    (hlen : vids.length = b.vertexInfo.length) (hnd : vids.Nodup)
    (hlt : ∀ id ∈ vids, id < size) (hout : ∀ i id : Nat, vids[i]? = some id →
      outgoing[id]? = some (outCount b i))
    (hin : ∀ i id : Nat, vids[i]? = some id →
      incoming[id]? = some (inCount b i)) :
    ∃ metadata, vids.foldlM (laySpan t outgoing incoming)
        (List.replicate size none, 0)
        = .ok (metadata, 2 * b.edgeInfo.length)
      ∧ ∀ i id : Nat, vids[i]? = some id →
        metadata[id]? = some (some (spanOf b i)) := by
  obtain ⟨s, hs, hoff, -, hmeta⟩ := foldlM_splits
    (f := laySpan t outgoing incoming) (l := vids)
    (t := (List.replicate size none, 0))
    (I := fun done s => s.2 = offset (places b) done.length
      ∧ s.1.length = size
      ∧ ∀ i id : Nat, done[i]? = some id → s.1[id]? = some (some (spanOf b i)))
    (by
      intro done id rest hvids s ⟨hoff, hsize, hdone⟩
      have hid : vids[done.length]? = some id := by simp [hvids]
      have hroom : id < s.1.length := by
        rw [hsize]
        exact hlt id (List.mem_of_getElem? hid)
      have hnew : id ∉ done := by
        rw [hvids] at hnd
        exact fun hmem => (List.disjoint_of_nodup_append hnd) hmem
          List.mem_cons_self
      -- no offset wraps around
      have hi : done.length < b.vertexInfo.length := by
        rw [← hlen, hvids]
        simp
      have hall := offset_add_le (places b) hi
      have htotal := offset_places hc
      have hplaces : basicIndex (outCount b done.length
          + inCount b done.length) = places b done.length :=
        basicIndex_of_lt (show places b done.length < 2 ^ 32 by omega)
      have hnext : basicIndex (offset (places b) done.length
          + places b done.length)
          = offset (places b) (done.length + 1) := by
        rw [offset_succ]
        exact basicIndex_of_lt (by omega)
      refine ⟨(s.1.set id (some (spanOf b done.length)),
        offset (places b) (done.length + 1)), ?_, by simp, by simp [hsize],
        ?_⟩
      · simp only [laySpan, load_of_getElem? (hout _ _ hid),
          load_of_getElem? (hin _ _ hid), ok_bind, ht,
          store_of_lt hroom, hoff, hplaces, hnext]
        rfl
      · intro i id' hid'
        by_cases hlast : i < done.length
        · rw [List.getElem?_append_left hlast] at hid'
          rw [List.getElem?_set_ne, hdone i id' hid']
          rintro rfl
          exact hnew (List.mem_of_getElem? hid')
        · obtain rfl : i = done.length := by
            have hle := (List.getElem?_eq_some_iff.mp hid').1
            simp at hle
            omega
          rw [List.getElem?_concat_length] at hid'
          cases hid'
          exact List.getElem?_set_self hroom)
    ⟨rfl, by simp, by simp⟩
  refine ⟨s.1, ?_, hmeta⟩
  rw [hs, ← offset_places hc, ← hlen, ← hoff]

-- ==== the incidence list

/-- The places an edge is stored at: key `(true, i)` is the span of the
edges leaving `i`, key `(false, i)` that of the edges entering it. -/
def placements (edges : List (Nat × PartialEdgeInfo EL EW)) :
    List ((Bool × Nat) × Nat) :=
  edges.flatMap fun p =>
    [((true, p.2.fromVertexId), p.1), ((false, p.2.toVertexId), p.1)]

/-- Where the two spans of a vertex start. -/
def startOf (b : Builder VL VC EL EW) : Bool × Nat → Nat
  | (true, i) => offset (places b) i
  | (false, i) => offset (places b) i + outCount b i

/-- The vertex an edge has on one of its sides. -/
def vertexOn : Bool → PartialEdgeInfo EL EW → Nat
  | true, e => e.fromVertexId
  | false, e => e.toVertexId

theorem bucket_placements (side : Bool) (i : Nat)
    (edges : List (Nat × PartialEdgeInfo EL EW)) :
    bucket (side, i) (placements edges)
      = (edges.filter fun p => vertexOn side p.2 = i).map Prod.fst := by
  induction edges with
  | nil => rfl
  | cons p edges ih =>
    rw [placements, List.flatMap_cons, bucket_append, ← placements]
    by_cases hi : vertexOn side p.2 = i
    · cases side <;> simp_all [bucket, vertexOn]
    · cases side <;> simp_all [bucket, vertexOn]

section Fill

variable {eids : List Nat} (heids : eids.length = b.edgeInfo.length)

include heids

/-- A span is as long as its vertex's counter says. -/
theorem length_bucket (side : Bool) (i : Nat) :
    (bucket (side, i) (placements (eids.zip b.edgeInfo))).length
      = b.edgeInfo.countP fun e => vertexOn side e = i := by
  have hsnd : (eids.zip b.edgeInfo).map Prod.snd = b.edgeInfo :=
    List.map_snd_zip (by omega)
  rw [bucket_placements, List.length_map, ← List.countP_eq_length_filter]
  conv_rhs => rw [← hsnd, List.countP_map]
  rfl

/-- A span that is not empty lies between the offsets of its vertex and
the next. -/
theorem startOf_span (hc : Counted b) (k : Bool × Nat)
    (hne : bucket k (placements (eids.zip b.edgeInfo)) ≠ []) :
    k.2 < b.vertexInfo.length
      ∧ offset (places b) k.2 ≤ startOf b k
      ∧ startOf b k + (bucket k (placements (eids.zip b.edgeInfo))).length
        ≤ offset (places b) (k.2 + 1) := by
  obtain ⟨side, i⟩ := k
  have hpos := List.length_pos_iff.mpr hne
  rw [length_bucket heids] at hpos ⊢
  obtain ⟨e, he, hside⟩ := List.countP_pos_iff.mp hpos
  obtain rfl : vertexOn side e = i := of_decide_eq_true hside
  rw [offset_succ, places, ← Nat.add_assoc]
  cases side with
  | true => exact ⟨hc.source_lt e he, le_rfl, Nat.le_add_right ..⟩
  | false => exact ⟨hc.target_lt e he, Nat.le_add_right .., le_rfl⟩

/-- The spans fill the incidence list and do not overlap. -/
theorem laid_placements (hc : Counted b) :
    Laid (startOf b) (placements (eids.zip b.edgeInfo))
      (2 * b.edgeInfo.length) where
  within k hk := by
    obtain ⟨hlt, -, hend⟩ := startOf_span heids hc k hk
    have hmono := offset_mono (places b) (show k.2 + 1 ≤ _ from hlt)
    rw [offset_places hc] at hmono
    omega
  apart k k' hne hk hk' := by
    obtain ⟨-, hstart, hend⟩ := startOf_span heids hc k hk
    obtain ⟨-, hstart', hend'⟩ := startOf_span heids hc k' hk'
    rcases Nat.lt_trichotomy k.2 k'.2 with hlt | heq | hgt
    · have hmono := offset_mono (places b) (show k.2 + 1 ≤ k'.2 from hlt)
      omega
    · -- the two spans of one vertex
      obtain ⟨side, i⟩ := k
      obtain ⟨side', i'⟩ := k'
      obtain rfl : i = i' := heq
      cases side with
      | true =>
        cases side' with
        | true => exact absurd rfl hne
        | false =>
          rw [length_bucket heids]
          exact Or.inl le_rfl
      | false =>
        cases side' with
        | false => exact absurd rfl hne
        | true =>
          rw [length_bucket heids true]
          exact Or.inr le_rfl
    · have hmono := offset_mono (places b) (show k'.2 + 1 ≤ k.2 from hgt)
      omega

end Fill

/-- The state of the loop after the placements `done`: the cursor of a
span counts what was stored in it. -/
structure Placed (b : Builder VL VC EL EW) (vids : List Nat)
    (done : List ((Bool × Nat) × Nat)) (s : Cursors) : Prop where
  length : s.incidenceLists.length = 2 * b.edgeInfo.length
  outgoing : ∀ i id : Nat, vids[i]? = some id →
    s.outgoingOffsets[id]? = some (bucket (true, i) done).length
  incoming : ∀ i id : Nat, vids[i]? = some id →
    s.incomingOffsets[id]? = some (bucket (false, i) done).length
  filled : Filled (startOf b) done s.incidenceLists

section Place

variable {vids : List Nat} {metadata : List (Option VertexMetadata)}
variable {done : List ((Bool × Nat) × Nat)} {s : Cursors}

/-- Different vertices have different identifiers. -/
theorem ids_ne (hnd : vids.Nodup) {i' id' : Nat} (hid : vids[i]? = some id)
    (hid' : vids[i']? = some id') (hi : i ≠ i') : id ≠ id' := by
  rintro rfl
  exact hi ((List.getElem?_inj (List.getElem?_eq_some_iff.mp hid).1
    hnd).mp (hid.trans hid'.symm))

theorem placeOutgoing_spec (h : Placed b vids done s) (hnd : vids.Nodup)
    (rest : List ((Bool × Nat) × Nat)) {e : Nat} (hid : vids[i]? = some id)
    (hmeta : metadata[id]? = some (some (spanOf b i)))
    (hl : Laid (startOf b) (done ++ ((true, i), e) :: rest)
      (2 * b.edgeInfo.length)) :
    ∃ s', placeOutgoing metadata e s id = .ok s'
      ∧ Placed b vids (done ++ [((true, i), e)]) s' := by
  have hcursor := h.outgoing i id hid
  have hroom := (List.getElem?_eq_some_iff.mp hcursor).1
  have hplace : (spanOf b i).fromStart + (bucket (true, i) done).length
      < s.incidenceLists.length := by
    rw [h.length]
    exact hl.lt
  refine ⟨_, by
    simp only [placeOutgoing, loadStored_of_getElem? hmeta,
      load_of_getElem? hcursor, ok_bind, store_of_lt hroom,
      store_of_lt hplace]
    rfl, ?_, ?_, ?_, ?_⟩
  · simp [h.length]
  · intro i' id' hid'
    rw [bucket_append]
    by_cases hi : i = i'
    · subst hi
      rw [hid] at hid'
      cases hid'
      simp [List.getElem?_set_self hroom, bucket_cons_self]
    · rw [List.getElem?_set_ne (ids_ne hnd hid hid' hi),
        bucket_cons_of_ne (by simpa using hi)]
      simpa using h.outgoing i' id' hid'
  · intro i' id' hid'
    rw [bucket_append, bucket_cons_of_ne (by simp)]
    simpa using h.incoming i' id' hid'
  · refine h.filled.place rest ?_
    rw [h.length]
    exact hl

theorem placeIncoming_spec (h : Placed b vids done s) (hnd : vids.Nodup)
    (rest : List ((Bool × Nat) × Nat)) {e : Nat} (hid : vids[i]? = some id)
    (hmeta : metadata[id]? = some (some (spanOf b i)))
    (hfit : offset (places b) i + outCount b i < 2 ^ 32)
    (hl : Laid (startOf b) (done ++ ((false, i), e) :: rest)
      (2 * b.edgeInfo.length)) :
    ∃ s', placeIncoming metadata e s id = .ok s'
      ∧ Placed b vids (done ++ [((false, i), e)]) s' := by
  have hcursor := h.incoming i id hid
  have hroom := (List.getElem?_eq_some_iff.mp hcursor).1
  have hstart : (spanOf b i).toStart = startOf b (false, i) :=
    basicIndex_of_lt hfit
  have hplace : (spanOf b i).toStart + (bucket (false, i) done).length
      < s.incidenceLists.length := by
    rw [h.length, hstart]
    exact hl.lt
  refine ⟨_, by
    simp only [placeIncoming, loadStored_of_getElem? hmeta,
      load_of_getElem? hcursor, ok_bind, store_of_lt hroom,
      store_of_lt hplace]
    rfl, ?_, ?_, ?_, ?_⟩
  · simp [h.length]
  · intro i' id' hid'
    rw [bucket_append, bucket_cons_of_ne (by simp)]
    simpa using h.outgoing i' id' hid'
  · intro i' id' hid'
    rw [bucket_append]
    by_cases hi : i = i'
    · subst hi
      rw [hid] at hid'
      cases hid'
      simp [List.getElem?_set_self hroom, bucket_cons_self]
    · rw [List.getElem?_set_ne (ids_ne hnd hid hid' hi),
        bucket_cons_of_ne (by simpa using hi)]
      simpa using h.incoming i' id' hid'
  · rw [hstart]
    refine h.filled.place rest ?_
    rw [h.length]
    exact hl

end Place

/-- The loop that fills the incidence list. -/
theorem fillEdges (ht : t.is_directed = true) (hc : Counted b)
    (hfew : b.edgeInfo.length < 2 ^ 31) {vids eids : List Nat}
    {metadata : List (Option VertexMetadata)}
    (hlen : vids.length = b.vertexInfo.length) (hnd : vids.Nodup)
    (hlt : ∀ id ∈ vids, id < size) (heids : eids.length = b.edgeInfo.length)
    (hmeta : ∀ i id : Nat, vids[i]? = some id →
      metadata[id]? = some (some (spanOf b i))) :
    ∃ s, (eids.zip b.edgeInfo).foldlM (fillEdge t vids metadata)
        { incidenceLists := List.replicate (2 * b.edgeInfo.length) none
          outgoingOffsets := List.replicate size 0
          incomingOffsets := List.replicate size 0 } = .ok s
      ∧ Filled (startOf b) (placements (eids.zip b.edgeInfo))
          s.incidenceLists := by
  have hlaid := laid_placements heids hc
  obtain ⟨s, hs, hplaced⟩ := foldlM_splits
    (f := fillEdge t vids metadata) (l := eids.zip b.edgeInfo)
    (t := { incidenceLists := List.replicate (2 * b.edgeInfo.length) none
            outgoingOffsets := List.replicate size 0
            incomingOffsets := List.replicate size 0 })
    (I := fun done s => Placed b vids (placements done) s)
    (by
      intro done p rest hsplit s hs
      have hp : p.2 ∈ b.edgeInfo := by
        have hmem : p ∈ eids.zip b.edgeInfo := by rw [hsplit]; simp
        exact (List.of_mem_zip hmem).2
      obtain ⟨source, hsource⟩ : ∃ id, vids[p.2.fromVertexId]? = some id :=
        ⟨_, List.getElem?_eq_getElem (by
          rw [hlen]; exact hc.source_lt _ hp)⟩
      obtain ⟨target, htarget⟩ : ∃ id, vids[p.2.toVertexId]? = some id :=
        ⟨_, List.getElem?_eq_getElem (by
          rw [hlen]; exact hc.target_lt _ hp)⟩
      have hitems : placements (eids.zip b.edgeInfo)
          = placements done ++ ((true, p.2.fromVertexId), p.1)
            :: ((false, p.2.toVertexId), p.1) :: placements rest := by
        rw [hsplit]
        simp [placements]
      have hfit : offset (places b) p.2.toVertexId
          + outCount b p.2.toVertexId < 2 ^ 32 := by
        have hle := offset_add_le (places b) (hc.target_lt _ hp)
        rw [offset_places hc, places] at hle
        omega
      rw [hitems] at hlaid
      obtain ⟨s₁, hs₁, h₁⟩ := placeOutgoing_spec hs hnd _ hsource
        (hmeta _ _ hsource) hlaid
      obtain ⟨s₂, hs₂, h₂⟩ := placeIncoming_spec h₁ hnd (placements rest)
        htarget (hmeta _ _ htarget) hfit (by simpa using hlaid)
      refine ⟨s₂, ?_, ?_⟩
      · simp only [fillEdge, load_of_getElem? hsource,
          load_of_getElem? htarget, ok_bind, hs₁, ht, if_true, hs₂]
      · simpa [placements] using h₂)
    (by
      refine ⟨by simp, ?_, ?_, filled_nil _ _⟩
      all_goals
        intro i id hid
        simp [hlt id (List.mem_of_getElem? hid), placements])
  exact ⟨s, hs, hplaced.filled⟩

end CroCOS.GraphBuilder
