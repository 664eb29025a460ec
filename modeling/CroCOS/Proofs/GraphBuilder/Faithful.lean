/-
The graph `buildGraph` makes is the builder's, under new identifiers:
`Embeds` lists what that means, accessor by accessor. With fewer than
2^31 edges, and fewer than 2^31 vertices if they are labelled or 2^32 if
not, `buildGraph` always returns, and every graph it returns embeds the
builder.

The bound of the edges is that of the incidence list: with 2^31 edges the 2·E places
come to zero modulo 2^32, the list is allocated empty, and the first
edge is stored past its end.
-/
import CroCOS.GraphAlgorithms
import CroCOS.Proofs.GraphBuilder.Build

namespace CroCOS.GraphBuilder

open Lib HashTable

variable {VL VC EL EW : Type}

-- ==== what is expected

/-- The edges that leave vertex `i` of the builder, by index. -/
def edgesFrom (b : Builder VL VC EL EW) (i : Nat) : List Nat :=
  (b.edgeInfo.zipIdx.filter fun p => p.1.fromVertexId = i).map Prod.snd

/-- The edges that enter it. -/
def edgesTo (b : Builder VL VC EL EW) (i : Nat) : List Nat :=
  (b.edgeInfo.zipIdx.filter fun p => p.1.toVertexId = i).map Prod.snd

variable [DecidableEq VL] [DecidableEq EL]

/-- `g` is the graph of the builder, vertex `i` being called `vid i`
and edge `j` being called `eid j`. -/
structure Embeds (t : Traits VL EL) (b : Builder VL VC EL EW)
    (g : Graph VL VC EL EW) (vid eid : Nat → Nat) : Prop where
  vertex_inj : ∀ i < b.vertexInfo.length, ∀ j < b.vertexInfo.length,
    vid i = vid j → i = j
  edge_inj : ∀ i < b.edgeInfo.length, ∀ j < b.edgeInfo.length,
    eid i = eid j → i = j
  vertices : ∃ vs, g.vertices t = .ok vs
    ∧ vs.Perm ((List.range b.vertexInfo.length).map vid)
  edges : ∃ es, g.edges t = .ok es
    ∧ es.Perm ((List.range b.edgeInfo.length).map eid)
  vertexCount : g.getVertexCount t = b.vertexInfo.length
  edgeCount : g.getEdgeCount t = b.edgeInfo.length
  outgoing : ∀ i < b.vertexInfo.length,
    g.outgoingEdges (vid i) = .ok ((edgesFrom b i).map eid)
  incoming : ∀ i < b.vertexInfo.length,
    g.incomingEdges (vid i) = .ok ((edgesTo b i).map eid)
  outDegree : ∀ i < b.vertexInfo.length,
    g.outDegree (vid i) = .ok (edgesFrom b i).length
  inDegree : ∀ i < b.vertexInfo.length,
    g.inDegree (vid i) = .ok (edgesTo b i).length
  source : ∀ (j : Nat) (e : PartialEdgeInfo EL EW), b.edgeInfo[j]? = some e →
      e.fromVertexId < b.vertexInfo.length
      ∧ g.getSource (eid j) = .ok (vid e.fromVertexId)
  target : ∀ (j : Nat) (e : PartialEdgeInfo EL EW), b.edgeInfo[j]? = some e →
      e.toVertexId < b.vertexInfo.length
      ∧ g.getTarget (eid j) = .ok (vid e.toVertexId)
  vertexLabel : t.vertexLabeled = true →
    ∀ (i : Nat) (v : PartialVertexInfo VL VC), b.vertexInfo[i]? = some v →
      ∃ label, v.label = some label ∧ g.getVertexLabel (vid i) = .ok label
  vertexColor : t.vertexColored = true →
    ∀ (i : Nat) (v : PartialVertexInfo VL VC), b.vertexInfo[i]? = some v →
      ∃ color, v.color = some color ∧ g.getVertexColor (vid i) = .ok color
  edgeLabel : t.edgeLabeled = true →
    ∀ (j : Nat) (e : PartialEdgeInfo EL EW), b.edgeInfo[j]? = some e →
      ∃ label, e.label = some label ∧ g.getEdgeLabel (eid j) = .ok label
  edgeWeight : t.edgeWeighted = true →
    ∀ (j : Nat) (e : PartialEdgeInfo EL EW), b.edgeInfo[j]? = some e →
      ∃ weight, e.weight = some weight
        ∧ g.getEdgeWeight (eid j) = .ok weight

variable {t : Traits VL EL} {b : Builder VL VC EL EW}

-- ==== the identifiers

omit [DecidableEq VL] [DecidableEq EL] in
theorem map_eq_filterMap_map {α β : Type} {f : α → Option β} :
    ∀ {l : List α}, (∀ a ∈ l, (f a).isSome = true) →
      l.map f = (l.filterMap f).map some := by
  intro l
  induction l with
  | nil => exact fun _ => rfl
  | cons a l ih =>
    intro h
    obtain ⟨x, hx⟩ :=
      Option.isSome_iff_exists.mp (h a List.mem_cons_self)
    rw [List.map_cons, List.filterMap_cons_some hx, List.map_cons, hx,
      ih fun a' ha => h a' (List.mem_cons_of_mem a ha)]

/-- A label set that was accepted names distinct labels. -/
theorem labelIds_of_labelSet {α L : Type} [DecidableEq L] {hasher : L → Nat}
    {f : α → Option L} {l : List α} {s : HashSet L}
    (hsome : ∀ a ∈ l, (f a).isSome = true)
    (hset : labelSet hasher (l.filterMap f) = .ok (some s))
    (hfew : l.length < 2 ^ 31) :
    ∃ ids size, labelIds hasher s (l.filterMap f) = .ok (ids, size)
      ∧ Named true hasher s (l.map f) ids size := by
  obtain ⟨s', hs', href, hg⟩ := labelSet_spec hasher (l.filterMap f)
  rw [hs'] at hset
  by_cases hnd : (l.filterMap f).Nodup
  · rw [if_pos hnd] at hset
    cases hset
    rw [map_eq_filterMap_map hsome]
    exact labelIds_spec href hg hnd
      (lt_of_le_of_lt (List.length_filterMap_le _ _) hfew)
  · rw [if_neg hnd] at hset
    cases hset

section Populated

omit [DecidableEq VL] [DecidableEq EL]

theorem vertex_populated {v : PartialVertexInfo VL VC}
    (h : v.fullyPopulated t = true) :
    (t.vertexLabeled = true → v.label.isSome = true)
      ∧ (t.vertexColored = true → v.color.isSome = true) := by
  simpa [PartialVertexInfo.fullyPopulated, ← Bool.not_eq_true,
    ← imp_iff_not_or] using h

theorem edge_populated {e : PartialEdgeInfo EL EW}
    (h : e.fullyPopulated t = true) :
    (t.edgeLabeled = true → e.label.isSome = true)
      ∧ (t.edgeWeighted = true → e.weight.isSome = true) := by
  simpa [PartialEdgeInfo.fullyPopulated, ← Bool.not_eq_true,
    ← imp_iff_not_or] using h

end Populated

omit [DecidableEq EL] in
theorem vertexIds_spec {s : HashSet VL}
    (hall : ∀ v ∈ b.vertexInfo, v.fullyPopulated t = true)
    (hset : labelSetIf t.vertexLabeled t.vertexHasher
      (b.vertexInfo.filterMap (·.label)) = .ok (some s))
    (hfew : b.vertexInfo.length < if t.vertexLabeled then 2 ^ 31
      else 2 ^ 32) :
    ∃ ids size, vertexIds t b s = .ok (ids, size)
      ∧ Named t.vertexLabeled t.vertexHasher s
          (b.vertexInfo.map (·.label)) ids size := by
  cases hl : t.vertexLabeled with
  | false =>
    rw [hl] at hfew
    have hfew : b.vertexInfo.length < 2 ^ 32 := hfew
    have hids : (List.range b.vertexInfo.length).map basicIndex
        = List.range b.vertexInfo.length :=
      (List.map_congr_left fun i hi => basicIndex_of_lt (by
        have := List.mem_range.mp hi
        omega)).trans (List.map_id _)
    refine ⟨_, _, by
      rw [vertexIds, if_neg (by simp [hl]), hids,
        basicIndex_of_lt (by omega)], ?_⟩
    have hn := named_range t.vertexHasher s (b.vertexInfo.map (·.label))
    rwa [List.length_map] at hn
  | true =>
    rw [hl, labelSetIf] at hset
    rw [if_pos hl] at hfew
    rw [vertexIds, if_pos hl]
    exact labelIds_of_labelSet
      (fun v hv => (vertex_populated (hall v hv)).1 hl) hset hfew

omit [DecidableEq VL] in
theorem edgeIds_spec {s : HashSet EL}
    (hall : ∀ e ∈ b.edgeInfo, e.fullyPopulated t = true)
    (hset : labelSetIf t.edgeLabeled t.edgeHasher
      (b.edgeInfo.filterMap (·.label)) = .ok (some s))
    (hfew : b.edgeInfo.length < 2 ^ 31) :
    ∃ ids size, edgeIds t b s = .ok (ids, size)
      ∧ Named t.edgeLabeled t.edgeHasher s
          (b.edgeInfo.map (·.label)) ids size := by
  cases hl : t.edgeLabeled with
  | false =>
    refine ⟨_, _, by
      rw [edgeIds, if_neg (by simp [hl]), if_pos (by omega)], ?_⟩
    have hn := named_range t.edgeHasher s (b.edgeInfo.map (·.label))
    rwa [List.length_map] at hn
  | true =>
    rw [hl, labelSetIf] at hset
    rw [edgeIds, if_pos hl]
    exact labelIds_of_labelSet
      (fun e he => (edge_populated (hall e he)).1 hl) hset hfew

-- ==== the graph

section Ids

variable {ids : List Nat} {n : Nat}

omit [DecidableEq VL] [DecidableEq EL]

theorem getElem?_getD {i : Nat} (hi : i < ids.length) :
    ids[i]? = some (ids.getD i 0) := by
  rw [List.getD_eq_getElem _ _ hi, List.getElem?_eq_getElem]

theorem getD_inj (hlen : ids.length = n) (hnd : ids.Nodup) :
    ∀ i < n, ∀ j < n, ids.getD i 0 = ids.getD j 0 → i = j := by
  intro i hi j hj heq
  rw [← hlen] at hi hj
  refine (List.getElem?_inj hi hnd).mp ?_
  rw [getElem?_getD hi, getElem?_getD hj, heq]

theorem map_getD_range (hlen : ids.length = n) :
    ((List.range n).map fun i => ids.getD i 0) = ids := by
  subst hlen
  refine List.ext_getElem (by simp) fun i hi hi' => ?_
  simp [List.getElem?_eq_getElem hi']

/-- A decoration that every item has is found under the item's
identifier. -/
theorem decoration_found {α β : Type} {xs : List α} {f : α → Option β}
    {P : Nat → β → Prop} (hall : ∀ x ∈ xs, (f x).isSome = true)
    (hat : ∀ (i : Nat) (y : β), (xs.map f)[i]? = some (some y) →
      ∃ id, ids[i]? = some id ∧ P id y)
    (i : Nat) (x : α) (hi : xs[i]? = some x) :
    ∃ y, f x = some y ∧ P (ids.getD i 0) y := by
  obtain ⟨y, hy⟩ :=
    Option.isSome_iff_exists.mp (hall x (List.mem_of_getElem? hi))
  obtain ⟨id, hid, hP⟩ := hat i y
    (by rw [List.getElem?_map, hi, Option.map_some, hy])
  rw [List.getD_eq_getElem?_getD, hid]
  exact ⟨y, hy, hP⟩

end Ids

section Stored

omit [DecidableEq VL] [DecidableEq EL]

/-- The loop over the edges that stores their endpoints. -/
theorem storeEndpoints_spec (hc : Counted b) {vids eids : List Nat}
    {size : Nat} (hvids : vids.length = b.vertexInfo.length)
    (heids : eids.length = b.edgeInfo.length) (hnd : eids.Nodup)
    (hlt : ∀ id ∈ eids, id < size) :
    ∃ metadata, (eids.zip b.edgeInfo).foldlM (storeEndpoints vids)
        (List.replicate size none) = .ok metadata
      ∧ ∀ (j id : Nat) (e : PartialEdgeInfo EL EW), eids[j]? = some id →
        b.edgeInfo[j]? = some e → metadata[id]? = some (some
          ⟨vids.getD e.fromVertexId 0, vids.getD e.toVertexId 0⟩) := by
  have hkeys : (eids.zip b.edgeInfo).map Prod.fst = eids :=
    List.map_fst_zip (by omega)
  have hread : ∀ {i : Nat}, i < b.vertexInfo.length →
      load vids i = .ok (vids.getD i 0) := by
    intro i hi
    exact load_of_getElem? (getElem?_getD (by omega))
  obtain ⟨metadata, hfold, -, hstored⟩ := foldlM_stores
    (f := storeEndpoints vids) (l := eids.zip b.edgeInfo) Prod.fst
    (fun p => some ⟨vids.getD p.2.fromVertexId 0, vids.getD p.2.toVertexId 0⟩)
    (List.replicate size none)
    (by
      intro p hp buffer
      have he := (List.of_mem_zip hp).2
      simp only [storeEndpoints, hread (hc.source_lt _ he),
        hread (hc.target_lt _ he), ok_bind])
    (by rw [hkeys]; exact hnd)
    (by
      intro p hp
      rw [List.length_replicate]
      exact hlt _ (List.of_mem_zip hp).1)
  refine ⟨metadata, hfold, fun j id e hid he => ?_⟩
  have hmem : (id, e) ∈ eids.zip b.edgeInfo := by
    refine List.mem_of_getElem? (i := j) ?_
    rw [List.getElem?_zip_eq_some]
    exact ⟨hid, he⟩
  exact hstored _ hmem

/-- The counters of the vertices, stored by identifier. -/
theorem storeCounts_spec {vids : List Nat} {size : Nat}
    (count : PartialVertexInfo VL VC → Nat) (countOf : Nat → Nat)
    (hcount : ∀ (i : Nat) (v : PartialVertexInfo VL VC),
      b.vertexInfo[i]? = some v → count v = countOf i)
    (hlen : vids.length = b.vertexInfo.length) (hnd : vids.Nodup)
    (hlt : ∀ id ∈ vids, id < size) :
    ∃ counts, storeAll (List.replicate size 0)
        (vids.zip (b.vertexInfo.map count)) = .ok counts
      ∧ ∀ i id : Nat, vids[i]? = some id → counts[id]? = some (countOf i) := by
  have hvalues : vids.length = (b.vertexInfo.map count).length := by
    rw [List.length_map, hlen]
  obtain ⟨counts, hstore, -, hread⟩ := storeAll_spec
    (List.replicate size 0) hvalues hnd (by simpa using hlt)
  refine ⟨counts, hstore, fun i id hid => ?_⟩
  have hi : i < b.vertexInfo.length := by
    rw [← hlen]
    exact (List.getElem?_eq_some_iff.mp hid).1
  refine hread i id _ hid ?_
  rw [List.getElem?_map, List.getElem?_eq_getElem hi, Option.map_some,
    hcount i _ (List.getElem?_eq_getElem hi)]

/-- The edges with their identifiers, by index. -/
theorem zip_eq_zipIdx_map {eids : List Nat}
    (heids : eids.length = b.edgeInfo.length) :
    eids.zip b.edgeInfo
      = b.edgeInfo.zipIdx.map fun p => (eids.getD p.2 0, p.1) := by
  refine List.ext_getElem (by simp [heids]) fun j hj hj' => ?_
  have hlt : j < eids.length := by
    simp only [List.length_zip] at hj
    omega
  simp [List.getElem?_eq_getElem hlt]

/-- A bucket has the edges of its vertex on its side. -/
theorem bucket_eq {eids : List Nat} (heids : eids.length = b.edgeInfo.length)
    (side : Bool) (i : Nat) :
    bucket (side, i) (placements (eids.zip b.edgeInfo))
      = ((b.edgeInfo.zipIdx.filter fun p => vertexOn side p.1 = i).map
          Prod.snd).map fun j => eids.getD j 0 := by
  rw [bucket_placements, zip_eq_zipIdx_map heids, List.filter_map,
    List.map_map, List.map_map]
  rfl

variable {g : Graph VL VC EL EW} {eids : List Nat} {i id : Nat}

theorem length_edgesOn (b : Builder VL VC EL EW) (side : Bool) (i : Nat) :
    ((b.edgeInfo.zipIdx.filter fun p => vertexOn side p.1 = i).map
      Prod.snd).length = b.edgeInfo.countP fun e => vertexOn side e = i := by
  have hlen := congrArg List.length
    (bucket_eq (List.length_range (n := b.edgeInfo.length)) side i)
  rw [length_bucket (by simp), List.length_map] at hlen
  exact hlen.symm

/-- A span of a filled incidence list reads as its bucket. -/
theorem incident_eq {k : Bool × Nat} {stop : Nat}
    (hfilled : Filled (startOf b) (placements (eids.zip b.edgeInfo))
      g.incidenceLists)
    (hstop : stop = startOf b k
      + (bucket k (placements (eids.zip b.edgeInfo))).length) :
    g.incident (startOf b k) stop
      = .ok (bucket k (placements (eids.zip b.edgeInfo))) := by
  rw [Graph.incident, if_neg (by omega), hstop, Nat.add_sub_cancel_left]
  exact hfilled.read (fun _ _ h => loadStored_of_getElem? h) k

section Span

variable (heids : eids.length = b.edgeInfo.length)
  (hmeta : g.vertexMetadata[id]? = some (some (spanOf b i)))
  (hfilled : Filled (startOf b) (placements (eids.zip b.edgeInfo))
    g.incidenceLists)
  (hfit : offset (places b) i + outCount b i + inCount b i < 2 ^ 32)

include heids hmeta hfilled hfit

theorem outgoingEdges_eq :
    g.outgoingEdges id
      = .ok ((edgesFrom b i).map fun j => eids.getD j 0) := by
  have hstop : (spanOf b i).fromEnd = startOf b (true, i)
      + (bucket (true, i) (placements (eids.zip b.edgeInfo))).length := by
    rw [length_bucket heids]
    exact basicIndex_of_lt (by omega)
  rw [Graph.outgoingEdges, loadStored_of_getElem? hmeta]
  exact (incident_eq hfilled hstop).trans
    (congrArg _ (bucket_eq heids true i))

theorem incomingEdges_eq :
    g.incomingEdges id
      = .ok ((edgesTo b i).map fun j => eids.getD j 0) := by
  have hstart : (spanOf b i).toStart = startOf b (false, i) :=
    basicIndex_of_lt (by omega)
  have hstop : (spanOf b i).toEnd = startOf b (false, i)
      + (bucket (false, i) (placements (eids.zip b.edgeInfo))).length := by
    rw [length_bucket heids]
    exact basicIndex_of_lt hfit
  rw [Graph.incomingEdges, loadStored_of_getElem? hmeta]
  show g.incident (spanOf b i).toStart (spanOf b i).toEnd = _
  rw [hstart]
  exact (incident_eq hfilled hstop).trans
    (congrArg _ (bucket_eq heids false i))

end Span

end Stored

/-- `assemble` on the builders it is called for. -/
theorem assemble_spec (ht : t.is_directed = true) (hc : Counted b)
    (hV : b.vertexInfo.length < if t.vertexLabeled then 2 ^ 31 else 2 ^ 32)
    (hE : b.edgeInfo.length < 2 ^ 31) (hcomplete : complete t b = true)
    {vertexLabels : HashSet VL} {edgeLabels : HashSet EL}
    (hvl : labelSetIf t.vertexLabeled t.vertexHasher
      (b.vertexInfo.filterMap (·.label)) = .ok (some vertexLabels))
    (hel : labelSetIf t.edgeLabeled t.edgeHasher
      (b.edgeInfo.filterMap (·.label)) = .ok (some edgeLabels)) :
    ∃ g vid eid, assemble t b vertexLabels edgeLabels = .ok g
      ∧ Embeds t b g vid eid := by
  simp only [complete, Bool.and_eq_true, List.all_eq_true] at hcomplete
  obtain ⟨vids, vsize, hvids, hv⟩ := vertexIds_spec hcomplete.1 hvl hV
  obtain ⟨eids, esize, heids, he⟩ := edgeIds_spec hcomplete.2 hel hE
  have hvlen : vids.length = b.vertexInfo.length := by
    rw [hv.length, List.length_map]
  have helen : eids.length = b.edgeInfo.length := by
    rw [he.length, List.length_map]
  obtain ⟨weights, hweights, hweight⟩ := decorate_spec t.edgeWeighted
    (show eids.length = (b.edgeInfo.map (·.weight)).length by
      rw [List.length_map, helen]) he.nodup he.lt
  obtain ⟨colors, hcolors, hcolor⟩ := decorate_spec t.vertexColored
    (show vids.length = (b.vertexInfo.map (·.color)).length by
      rw [List.length_map, hvlen]) hv.nodup hv.lt
  obtain ⟨endpoints, hendpoints, hends⟩ :=
    storeEndpoints_spec hc hvlen helen he.nodup he.lt
  -- a counter below 2^31 has not wrapped around
  have hout_le : ∀ i, outCount b i < 2 ^ 32 := fun i =>
    lt_of_le_of_lt List.countP_le_length (by omega)
  have hin_le : ∀ i, inCount b i < 2 ^ 32 := fun i =>
    lt_of_le_of_lt List.countP_le_length (by omega)
  obtain ⟨outgoing, houtgoing, hout⟩ := storeCounts_spec
    (·.outgoingEdgeCount) (outCount b)
    (fun i v hi => (hc.outgoing hi).trans (basicIndex_of_lt (hout_le i)))
    hvlen hv.nodup hv.lt
  obtain ⟨incoming, hincoming, hin⟩ := storeCounts_spec
    (·.incomingEdgeCount) (inCount b)
    (fun i v hi => (hc.incoming hi).trans (basicIndex_of_lt (hin_le i)))
    hvlen hv.nodup hv.lt
  obtain ⟨metadata, hspans, hmeta⟩ :=
    laySpans ht hc hE hvlen hv.nodup hv.lt hout hin
  obtain ⟨filled, hfill, hfilled⟩ :=
    fillEdges ht hc hE hvlen hv.nodup hv.lt helen hmeta
  have hvid : ∀ i < b.vertexInfo.length, vids[i]? = some (vids.getD i 0) :=
    fun i hi => getElem?_getD (by omega)
  have heid : ∀ j < b.edgeInfo.length, eids[j]? = some (eids.getD j 0) :=
    fun j hj => getElem?_getD (by omega)
  have hfit : ∀ i < b.vertexInfo.length,
      offset (places b) i + outCount b i + inCount b i < 2 ^ 32 := by
    intro i hi
    have hle := offset_add_le (places b) hi
    rw [offset_places hc, places] at hle
    omega
  refine ⟨_, fun i => vids.getD i 0, fun j => eids.getD j 0, by
    simp only [assemble, hvids, heids, hweights, hcolors, hendpoints,
      houtgoing, hincoming, hspans, hfill, ok_bind]
    rfl, ?_⟩
  constructor
  case vertex_inj => exact getD_inj hvlen hv.nodup
  case edge_inj => exact getD_inj helen he.nodup
  case vertices =>
    obtain ⟨vs, hvs, hperm⟩ := hv.listed
    exact ⟨vs, hvs, by rw [map_getD_range hvlen]; exact hperm⟩
  case edges =>
    obtain ⟨es, hes, hperm⟩ := he.listed
    exact ⟨es, hes, by rw [map_getD_range helen]; exact hperm⟩
  case vertexCount => exact hv.count.trans (List.length_map _)
  case edgeCount => exact he.count.trans (List.length_map _)
  case outgoing =>
    intro i hi
    exact outgoingEdges_eq helen (hmeta _ _ (hvid i hi)) hfilled (hfit i hi)
  case incoming =>
    intro i hi
    exact incomingEdges_eq helen (hmeta _ _ (hvid i hi)) hfilled (hfit i hi)
  case outDegree =>
    intro i hi
    rw [Graph.outDegree, loadStored_of_getElem? (hmeta _ _ (hvid i hi))]
    exact congrArg _ (length_edgesOn b true i).symm
  case inDegree =>
    intro i hi
    rw [Graph.inDegree, loadStored_of_getElem? (hmeta _ _ (hvid i hi))]
    exact congrArg _ (length_edgesOn b false i).symm
  case source =>
    intro j e hj
    have hlt := (List.getElem?_eq_some_iff.mp hj).1
    refine ⟨hc.source_lt e (List.mem_of_getElem? hj), ?_⟩
    rw [Graph.getSource, loadStored_of_getElem? (hends _ _ _ (heid j hlt) hj)]
    rfl
  case target =>
    intro j e hj
    have hlt := (List.getElem?_eq_some_iff.mp hj).1
    refine ⟨hc.target_lt e (List.mem_of_getElem? hj), ?_⟩
    rw [Graph.getTarget, loadStored_of_getElem? (hends _ _ _ (heid j hlt) hj)]
    rfl
  case vertexLabel =>
    exact fun hl => decoration_found
      (fun v h => (vertex_populated (hcomplete.1 v h)).1 hl) (hv.label hl)
  case vertexColor =>
    refine fun hl => decoration_found
      (P := fun id y => loadStored colors id = .ok y)
      (fun v h => (vertex_populated (hcomplete.1 v h)).2 hl)
      fun i color hi => ?_
    have hid := hvid i (by simpa using (List.getElem?_eq_some_iff.mp hi).1)
    exact ⟨_, hid, hcolor hl i _ color hid hi⟩
  case edgeLabel =>
    exact fun hl => decoration_found
      (fun e h => (edge_populated (hcomplete.2 e h)).1 hl) (he.label hl)
  case edgeWeight =>
    refine fun hl => decoration_found
      (P := fun id y => loadStored weights id = .ok y)
      (fun e h => (edge_populated (hcomplete.2 e h)).2 hl)
      fun j weight hj => ?_
    have hid := heid j (by simpa using (List.getElem?_eq_some_iff.mp hj).1)
    exact ⟨_, hid, hweight hl j _ weight hid hj⟩

/-- Every builder the calls can reach with fewer than 2^31 edges and 2^31
labelled or 2^32 unlabelled vertices: `buildGraph` returns, and a graph it
returns is the builder's. -/
theorem buildGraph_embeds (ht : t.is_directed = true)
    (check : Graph VL VC EL EW → Bool) {calls : List (Call VL VC EL EW)}
    {oks : List Bool}
    (hrun : run (step t) .empty calls = .ok (b, oks))
    (hV : b.vertexInfo.length < if t.vertexLabeled then 2 ^ 31 else 2 ^ 32)
    (hE : b.edgeInfo.length < 2 ^ 31) :
    ∃ built, buildGraph t b check = .ok built
      ∧ ∀ g, built = some g → ∃ vid eid, Embeds t b g vid eid := by
  have hc : Counted b := run_fitting hrun (by split at hV <;> omega)
  obtain ⟨sv, hsv⟩ : ∃ s, labelSetIf t.vertexLabeled t.vertexHasher
      (b.vertexInfo.filterMap (·.label)) = .ok s := by
    cases hl : t.vertexLabeled with
    | false => exact ⟨_, rfl⟩
    | true => exact ⟨_, (labelSet_spec _ _).choose_spec.1⟩
  obtain ⟨se, hse⟩ : ∃ s, labelSetIf t.edgeLabeled t.edgeHasher
      (b.edgeInfo.filterMap (·.label)) = .ok s := by
    cases hl : t.edgeLabeled with
    | false => exact ⟨_, rfl⟩
    | true => exact ⟨_, (labelSet_spec _ _).choose_spec.1⟩
  cases hcomplete : complete t b with
  | false =>
    exact ⟨none, by simp [buildGraph, hcomplete], by simp⟩
  | true =>
    cases sv with
    | none => exact ⟨none, by simp [buildGraph, hsv], by simp⟩
    | some vertexLabels =>
      cases se with
      | none =>
        exact ⟨none, by simp [buildGraph, hsv, hse],
          by simp⟩
      | some edgeLabels =>
        obtain ⟨g, vid, eid, hg, hembeds⟩ :=
          assemble_spec ht hc hV hE hcomplete hsv hse
        refine ⟨if check g then some g else none, by
          simp only [buildGraph, hcomplete, if_true, hsv, hse, hg],
          ?_⟩
        intro g' hg'
        split at hg'
        · cases hg'
          exact ⟨vid, eid, hembeds⟩
        · cases hg'

-- ==== the algorithms' graph

/-- The builder's graph, as the algorithms over graphs have it. -/
def digraph (b : Builder VL VC EL EW) : CroCOS.Graph.Digraph Nat where
  vertices := List.range b.vertexInfo.length
  edges := b.edgeInfo.map fun e => (e.fromVertexId, e.toVertexId)

/-- Its targets and in-degrees are what the loops over the built graph
find. -/
theorem Embeds.reads_digraph {g : Graph VL VC EL EW} {vid eid : Nat → Nat}
    (h : Embeds t b g vid eid) {i : Nat} (hi : i < b.vertexInfo.length) :
    (g.outgoingEdges (vid i) >>= fun es => es.mapM g.getTarget)
        = .ok (((digraph b).outgoing i).map vid)
      ∧ g.inDegree (vid i) = .ok ((digraph b).inDegree i) := by
  constructor
  · have htarget : ∀ p ∈ b.edgeInfo.zipIdx, g.getTarget (eid p.2)
        = .ok (vid p.1.toVertexId) := fun p hp =>
      (h.target p.2 p.1 (List.mk_mem_zipIdx_iff_getElem?.mp hp)).2
    have hout : (digraph b).outgoing i
        = (b.edgeInfo.filter fun e => e.fromVertexId = i).map
          (·.toVertexId) := by
      rw [CroCOS.Graph.Digraph.outgoing, digraph,
        List.filter_map, List.map_map]
      rfl
    rw [h.outgoing i hi, ok_bind, edgesFrom, List.map_map, List.mapM_map]
    refine (mapM_eq_map fun p hp =>
      htarget p (List.mem_of_mem_filter hp)).trans (congrArg _ ?_)
    rw [hout, ← List.zipIdx_map_fst 0 b.edgeInfo, List.filter_map,
      List.map_map, List.map_map, List.zipIdx_map_fst]
    rfl
  · rw [h.inDegree i hi]
    refine congrArg _ ((length_edgesOn b false i).trans ?_)
    rw [CroCOS.Graph.Digraph.inDegree, digraph, List.countP_map]
    rfl

-- ==== a decorated graph

/-- Labelled and decorated directed multigraphs, all hashes colliding. -/
def decoratedTraits : Traits Nat Nat where
  vertexLabeled := true
  vertexColored := true
  edgeLabeled := true
  edgeWeighted := true
  is_directed := true
  is_simple_graph := false
  vertexHasher := fun _ => 0
  edgeHasher := fun _ => 0

/-- Two vertices, two edges between them and a self-loop. -/
def decoratedCalls : List (Call Nat Nat Nat Nat) :=
  [.addVertex, .setVertexLabel 0 7, .setVertexColor 0 1,
    .addVertex, .setVertexLabel 1 5, .setVertexColor 1 2,
    .addEdge 0 1, .setEdgeLabel 0 10, .setEdgeWeight 0 3,
    .addEdge 0 1, .setEdgeLabel 1 11, .setEdgeWeight 1 4,
    .addEdge 1 1, .setEdgeLabel 2 12, .setEdgeWeight 2 5]

/-- The multigraph is built, and is what was put in. -/
theorem buildGraph_embeds_decorated : ∃ b oks g vid eid,
      run (step decoratedTraits) .empty decoratedCalls = .ok (b, oks)
      ∧ buildGraph decoratedTraits b (fun _ => true) = .ok (some g)
      ∧ Embeds decoratedTraits b g vid eid := by
  have hreach : Returns (fun p : Builder Nat Nat Nat Nat × List Bool =>
      p.1.vertexInfo.length < 2 ^ 31 ∧ p.1.edgeInfo.length < 2 ^ 31
      ∧ Returns (fun built => built.isSome = true)
          (buildGraph decoratedTraits p.1 fun _ => true))
      (run (step decoratedTraits) .empty decoratedCalls) := by
    decide +kernel
  obtain ⟨⟨b, oks⟩, hrun, hV, hE, hbuilt⟩ := hreach.exists_ok
  obtain ⟨built, hb, hsome⟩ := hbuilt.exists_ok
  obtain ⟨g, rfl⟩ := Option.isSome_iff_exists.mp hsome
  obtain ⟨built', hb', hembeds⟩ := buildGraph_embeds (t := decoratedTraits)
    rfl (fun _ => true) hrun hV hE
  rw [hb] at hb'
  cases hb'
  obtain ⟨vid, eid, h⟩ := hembeds g rfl
  exact ⟨b, oks, g, vid, eid, hrun, hb, h⟩

-- ==== two thousand millions

/-- Undecorated directed multigraphs. -/
def multigraphTraits : Traits Unit Unit where
  vertexLabeled := false
  vertexColored := false
  edgeLabeled := false
  edgeWeighted := false
  is_directed := true
  is_simple_graph := false
  vertexHasher := fun _ => 0
  edgeHasher := fun _ => 0

/-- A vertex with `n` self-loops. -/
def selfLoops (n : Nat) : List (Call Unit Unit Unit Unit) :=
  .addVertex :: List.replicate n (.addEdge 0 0)

theorem run_selfLoops (n : Nat) :
    ∃ b oks, run (step multigraphTraits) .empty (selfLoops n)
        = .ok (b, oks)
      ∧ b.vertexInfo.length = 1 ∧ b.edgeInfo.length = n := by
  have hloops : ∀ (n : Nat) (b : Builder Unit Unit Unit Unit),
      b.vertexInfo.length = 1 → ∃ b' oks, run (step multigraphTraits) b
          (List.replicate n (.addEdge 0 0)) = .ok (b', oks)
        ∧ b'.vertexInfo.length = 1
        ∧ b'.edgeInfo.length = b.edgeInfo.length + n := by
    intro n
    induction n with
    | zero => exact fun b hb => ⟨b, [], rfl, hb, rfl⟩
    | succ n ih =>
      intro b hb
      obtain ⟨v, hv⟩ : ∃ v, b.vertexInfo[0]? = some v :=
        ⟨_, List.getElem?_eq_getElem (by omega)⟩
      obtain ⟨b₁, index, hb₁⟩ : ∃ b₁ index,
          b.createEdge multigraphTraits 0 0 = .ok (b₁, index) := by
        simp [Builder.createEdge, hv, multigraphTraits]
      obtain ⟨_, _, e, _, _, _, _, hedges, next, hverts⟩ :=
        createEdge_inv hb₁
      obtain ⟨b', oks, hrun, hV, hE⟩ := ih b₁ (by
        rw [hverts, List.length_modify, List.length_modify, hb])
      refine ⟨b', true :: oks, ?_, hV, ?_⟩
      · have hstep : step multigraphTraits b (.addEdge 0 0)
            = .ok (b₁, true) := by
          simp only [step, hb₁]
          rfl
        rw [List.replicate_succ, run_cons_ok _ hstep, hrun]
      · rw [hE, hedges, List.length_append, List.length_singleton]
        omega
  obtain ⟨b, oks, hrun, hV, hE⟩ := hloops n Builder.empty.createVertex rfl
  refine ⟨b, true :: oks, ?_, hV, hE.trans (Nat.zero_add n)⟩
  have hstep : step multigraphTraits
      (.empty : Builder Unit Unit Unit Unit) .addVertex
      = .ok (Builder.empty.createVertex, true) := rfl
  rw [selfLoops, run_cons_ok _ hstep, hrun]

/-- The loops of `assemble` up to the incidence list, on 2^31
self-loops: the span of the only vertex takes 2^32 places, and
`currentIncidenceOffset` comes back to zero. -/
theorem laySpan_selfLoops {outgoing incoming : List Nat}
    (hout : outgoing[0]? = some (2 ^ 31))
    (hin : incoming[0]? = some (2 ^ 31)) :
    [0].foldlM (laySpan multigraphTraits outgoing incoming)
        (List.replicate 1 none, 0)
      = .ok ([some (.directed 0 (2 ^ 31) (2 ^ 31))], 0) := by
  rw [List.foldlM_cons, laySpan, load_of_getElem? hout, load_of_getElem? hin]
  rfl

/-- The first self-loop has no place in the empty list. -/
theorem fillEdge_empty {e : PartialEdgeInfo Unit Unit}
    (hsource : e.fromVertexId = 0) (htarget : e.toVertexId = 0)
    (rest : List (Nat × PartialEdgeInfo Unit Unit)) :
    ((0, e) :: rest).foldlM (fillEdge multigraphTraits [0]
        [some (.directed 0 (2 ^ 31) (2 ^ 31))])
        { incidenceLists := List.replicate 0 none
          outgoingOffsets := List.replicate 1 0
          incomingOffsets := List.replicate 1 0 }
      = .error .outOfBounds := by
  rw [List.foldlM_cons, fillEdge, hsource, htarget]
  rfl

/-- A vertex with 2^31 self-loops: `buildGraph` stores past the end of
the incidence list. -/
theorem buildGraph_overflows :
    ∃ b oks, run (step multigraphTraits) .empty (selfLoops (2 ^ 31))
        = .ok (b, oks)
      ∧ buildGraph multigraphTraits b (fun _ => true)
        = .error .outOfBounds := by
  obtain ⟨b, oks, hrun, hV, hE⟩ := run_selfLoops (2 ^ 31)
  refine ⟨b, oks, hrun, ?_⟩
  have hc : Counted b := run_fitting hrun (by omega)
  -- every edge is a self-loop of vertex 0
  have hsource : ∀ e ∈ b.edgeInfo, e.fromVertexId = 0 := fun e he => by
    have := hc.source_lt e he
    omega
  have htarget : ∀ e ∈ b.edgeInfo, e.toVertexId = 0 := fun e he => by
    have := hc.target_lt e he
    omega
  have hfirst : ∀ {i : Nat} {v : PartialVertexInfo Unit Unit},
      b.vertexInfo[i]? = some v → i = 0 := by
    intro i v hv
    have := (List.getElem?_eq_some_iff.mp hv).1
    omega
  have hvids : vertexIds multigraphTraits b ⟨none, 0⟩ = .ok ([0], 1) := by
    rw [vertexIds, hV]
    rfl
  have heids : edgeIds multigraphTraits b ⟨none, 0⟩
      = .ok (List.range b.edgeInfo.length, b.edgeInfo.length) := by
    rw [edgeIds, if_neg (by simp [multigraphTraits]), if_pos (by omega)]
  have hvids_length : [0].length = b.vertexInfo.length := hV.symm
  have hbelow : ∀ id ∈ [0], id < 1 := by simp
  obtain ⟨endpoints, hendpoints, -⟩ := storeEndpoints_spec hc
    hvids_length (List.length_range)
    List.nodup_range (fun _ hid => List.mem_range.mp hid)
  obtain ⟨outgoing, houtgoing, hout⟩ := storeCounts_spec (b := b)
    (·.outgoingEdgeCount) (fun _ => 2 ^ 31) (fun i v hv => by
      rw [hc.outgoing hv, hfirst hv,
        List.countP_eq_length.mpr (by simpa using hsource), hE]
      rfl)
    hvids_length (by simp) hbelow
  obtain ⟨incoming, hincoming, hin⟩ := storeCounts_spec (b := b)
    (·.incomingEdgeCount) (fun _ => 2 ^ 31) (fun i v hv => by
      rw [hc.incoming hv, hfirst hv,
        List.countP_eq_length.mpr (by simpa using htarget), hE]
      rfl)
    hvids_length (by simp) hbelow
  have hspans := laySpan_selfLoops (hout 0 0 rfl) (hin 0 0 rfl)
  have hfill : ((List.range b.edgeInfo.length).zip b.edgeInfo).foldlM
      (fillEdge multigraphTraits [0] [some (.directed 0 (2 ^ 31) (2 ^ 31))])
      { incidenceLists := List.replicate 0 none
        outgoingOffsets := List.replicate 1 0
        incomingOffsets := List.replicate 1 0 }
      = .error .outOfBounds := by
    cases hedges : b.edgeInfo with
    | nil =>
      rw [hedges] at hE
      simp at hE
    | cons e rest =>
      rw [List.length_cons, List.range_succ_eq_map]
      exact fillEdge_empty (hsource e (by rw [hedges]; simp))
        (htarget e (by rw [hedges]; simp)) _
  have hcomplete : complete multigraphTraits b = true := by
    simp [complete, PartialVertexInfo.fullyPopulated,
      PartialEdgeInfo.fullyPopulated, multigraphTraits]
  have hassemble : assemble multigraphTraits b ⟨none, 0⟩ ⟨none, 0⟩
      = .error .outOfBounds := by
    have hweights : decorate multigraphTraits.edgeWeighted
        b.edgeInfo.length (List.range b.edgeInfo.length)
        (b.edgeInfo.map (·.weight)) = .ok [] := rfl
    have hcolors : decorate multigraphTraits.vertexColored 1 [0]
        (b.vertexInfo.map (·.color)) = .ok [] := rfl
    simp only [assemble, hvids, heids, hweights, hcolors, hendpoints,
      houtgoing, hincoming, hspans, hfill, ok_bind, error_bind]
  have hv : labelSetIf multigraphTraits.vertexLabeled
      multigraphTraits.vertexHasher (b.vertexInfo.filterMap (·.label))
      = .ok (some ⟨none, 0⟩) := rfl
  have he : labelSetIf multigraphTraits.edgeLabeled
      multigraphTraits.edgeHasher (b.edgeInfo.filterMap (·.label))
      = .ok (some ⟨none, 0⟩) := rfl
  simp only [buildGraph, hcomplete, if_true, hv, he, hassemble]

end CroCOS.GraphBuilder
