/-
The pool built from the ranges of a domain.

The big pages of the pool are the big pages of the merged ranges, in
order (`bases`). A subrange knows where its own begin, so the search over
the subranges finds the page of an address by its place in `bases`
(`find_subrangesOf`).

`Stocked` is what holds of a pool until something is allocated from it:
which small pages are available decides which big pages are in
`freeBigPages` and which are in `paPages`.
-/
import CroCOS.Proofs.NumaPool.BigPage
import CroCOS.Proofs.AtomicBitPool.Calls

namespace CroCOS

variable {ranges : List PhysMemoryRange} {merged : List TempMergedRange}
variable {mr : TempMergedRange} {pool : NUMAPool} {bases : List Nat}
variable {A : Nat → Prop} {a b k : Nat}

-- ==== the bases

/-- The big pages of a merged range. -/
def TempMergedRange.bigPages (mr : TempMergedRange) : List Nat :=
  (List.range mr.bigPageCount).map fun bpIdx => mr.start + bpIdx * bigPageSize

theorem Merged.endAddr_eq (h : Merged mr) :
    mr.endAddr = mr.start + mr.bigPageCount * bigPageSize := by
  have hlt := h.lt
  have hfits := h.fits
  have hsub : usub mr.endAddr mr.start = mr.endAddr - mr.start :=
    usub_eq (Nat.le_of_lt hlt) (by unfold bigPageSize at hfits; omega)
  obtain ⟨q, hq⟩ := h.start_dvd
  obtain ⟨q', hq'⟩ := h.end_dvd
  unfold TempMergedRange.bigPageCount
  unfold bigPageSize at *
  omega

theorem Merged.mem_bigPages (h : Merged mr) :
    b ∈ mr.bigPages ↔ bigPageSize ∣ b ∧ mr.start ≤ b ∧ b < mr.endAddr := by
  have hend := h.endAddr_eq
  obtain ⟨q, hq⟩ := h.start_dvd
  unfold TempMergedRange.bigPages
  rw [List.mem_map]
  constructor
  · rintro ⟨i, hi, rfl⟩
    have hi' := List.mem_range.mp hi
    refine ⟨Nat.dvd_add h.start_dvd (Nat.dvd_mul_left ..), by omega, ?_⟩
    unfold bigPageSize at *
    omega
  · rintro ⟨⟨q', rfl⟩, hlo, hhi⟩
    refine ⟨q' - q, List.mem_range.mpr ?_, ?_⟩
    · unfold bigPageSize at *
      omega
    · unfold bigPageSize at *
      omega

theorem mem_bases (h : ∀ mr ∈ merged, Merged mr) :
    b ∈ merged.flatMap TempMergedRange.bigPages
      ↔ bigPageSize ∣ b ∧ ∃ mr ∈ merged, mr.start ≤ b ∧ b < mr.endAddr := by
  rw [List.mem_flatMap]
  constructor
  · rintro ⟨mr, hmr, hb⟩
    have := (h mr hmr).mem_bigPages.mp hb
    exact ⟨this.1, mr, hmr, this.2⟩
  · rintro ⟨hdvd, mr, hmr, hb⟩
    exact ⟨mr, hmr, (h mr hmr).mem_bigPages.mpr ⟨hdvd, hb⟩⟩

/-- No big page is built twice. -/
theorem bases_pairwise (h : ∀ mr ∈ merged, Merged mr) (hapart : Apart merged) :
    (merged.flatMap TempMergedRange.bigPages).Pairwise (· < ·) := by
  rw [List.pairwise_flatMap]
  constructor
  · intro mr _
    refine List.pairwise_map.mpr (List.pairwise_lt_range.imp fun hlt => ?_)
    unfold bigPageSize
    omega
  · refine hapart.imp_of_mem fun hx hy hle b hb b' hb' => ?_
    have := (h _ hx).mem_bigPages.mp hb
    have := (h _ hy).mem_bigPages.mp hb'
    omega

/-- Big pages below `2 ^ 64` are few enough for a bit pool. -/
theorem bases_length_le (hpair : bases.Pairwise (· < ·))
    (hlt : ∀ b ∈ bases, bigPageSize ∣ b ∧ b < 2 ^ 64) :
    bases.length ≤ 2 ^ 43 := by
  have hnodup : bases.Nodup := hpair.imp fun h => Nat.ne_of_lt h
  have hsub : bases.toFinset
      ⊆ (Finset.range (2 ^ 43)).image (· * bigPageSize) := by
    intro b hb
    obtain ⟨⟨q, rfl⟩, hb⟩ := hlt b (List.mem_toFinset.mp hb)
    refine Finset.mem_image.mpr ⟨q, Finset.mem_range.mpr ?_, Nat.mul_comm ..⟩
    unfold bigPageSize at hb
    omega
  calc bases.length = bases.toFinset.card :=
        (List.toFinset_card_of_nodup hnodup).symm
    _ ≤ _ := Finset.card_le_card hsub
    _ ≤ (Finset.range (2 ^ 43)).card := Finset.card_image_le
    _ = 2 ^ 43 := Finset.card_range _

-- ==== the subranges

/-- The subranges of the merged ranges, the metadata of the first at the
index `metaIdx`. -/
def subrangesOf : Nat → List TempMergedRange → List SubrangeInfo
  | _, [] => []
  | metaIdx, mr :: rest =>
    { rangeStart := mr.start
      rangeEnd := mr.endAddr
      metadataBase := metaIdx }
      :: subrangesOf (metaIdx + mr.bigPageCount) rest

theorem mem_subrangesOf {sr : SubrangeInfo} :
    ∀ {merged : List TempMergedRange} {k : Nat}, sr ∈ subrangesOf k merged →
      ∃ mr ∈ merged, sr.rangeStart = mr.start ∧ sr.rangeEnd = mr.endAddr := by
  intro merged
  induction merged with
  | nil =>
    intro k h
    cases h
  | cons mr rest ih =>
    intro k h
    rcases List.mem_cons.mp h with rfl | h
    · exact ⟨mr, List.mem_cons_self, rfl, rfl⟩
    · obtain ⟨mr', hmr', h⟩ := ih h
      exact ⟨mr', List.mem_cons_of_mem mr hmr', h⟩

theorem exists_mem_subrangesOf :
    ∀ {merged : List TempMergedRange} {k : Nat}, mr ∈ merged →
      ∃ sr ∈ subrangesOf k merged,
        sr.rangeStart = mr.start ∧ sr.rangeEnd = mr.endAddr := by
  intro merged
  induction merged with
  | nil =>
    intro k h
    cases h
  | cons mr' rest ih =>
    intro k h
    rcases List.mem_cons.mp h with rfl | h
    · exact ⟨_, List.mem_cons_self, rfl, rfl⟩
    · obtain ⟨sr, hsr, h⟩ := ih h
      exact ⟨sr, List.mem_cons_of_mem _ hsr, h⟩

theorem subrangesOf_pairwise :
    ∀ {merged : List TempMergedRange} {k : Nat}, Apart merged →
      (subrangesOf k merged).Pairwise fun x y => x.rangeEnd ≤ y.rangeStart := by
  intro merged
  induction merged with
  | nil => exact fun _ => .nil
  | cons mr rest ih =>
    intro k h
    obtain ⟨hfirst, hrest⟩ := List.pairwise_cons.mp h
    refine List.pairwise_cons.mpr ⟨fun sr hsr => ?_, ih hrest⟩
    obtain ⟨mr', hmr', hstart, -⟩ := mem_subrangesOf hsr
    rw [hstart]
    exact hfirst mr' hmr'

/-- The search of `findMetadata`, for the big page at `b`. -/
def findIn (subranges : List SubrangeInfo) (b : Nat) : Option Nat :=
  (subranges.find? fun sr => b ≥ sr.rangeStart && b < sr.rangeEnd).map
    fun sr => sr.metadataBase + (b - sr.rangeStart) / bigPageSize

theorem findMetadata_eq (a : Nat) :
    pool.findMetadata a = findIn pool.subrangeInfo (bigPageBase a) := rfl

theorem Merged.getElem_bigPages (h : Merged mr) (hb : bigPageSize ∣ b)
    (hlo : mr.start ≤ b) (hhi : b < mr.endAddr) :
    mr.bigPages[(b - mr.start) / bigPageSize]? = some b := by
  have hend := h.endAddr_eq
  obtain ⟨q, hq⟩ := h.start_dvd
  obtain ⟨q', rfl⟩ := hb
  have hdiv : (bigPageSize * q' - mr.start) / bigPageSize < mr.bigPageCount := by
    unfold bigPageSize at *
    omega
  unfold TempMergedRange.bigPages
  rw [List.getElem?_map, List.getElem?_range hdiv, Option.map_some]
  refine congrArg some ?_
  unfold bigPageSize at *
  omega

/-- The search answers the place of the big page. -/
theorem find_subrangesOf (hb : bigPageSize ∣ b) :
    ∀ {merged : List TempMergedRange} {k : Nat}, (∀ mr ∈ merged, Merged mr) →
      (∃ mr ∈ merged, mr.start ≤ b ∧ b < mr.endAddr) →
      ∃ j, findIn (subrangesOf k merged) b = some (k + j)
        ∧ (merged.flatMap TempMergedRange.bigPages)[j]? = some b := by
  intro merged
  induction merged with
  | nil =>
    rintro k _ ⟨mr, hmr, -⟩
    cases hmr
  | cons mr rest ih =>
    intro k h hex
    have hmr := h mr List.mem_cons_self
    have hlen : mr.bigPages.length = mr.bigPageCount := by
      unfold TempMergedRange.bigPages
      rw [List.length_map, List.length_range]
    unfold findIn subrangesOf
    rw [List.find?_cons]
    by_cases hin : mr.start ≤ b ∧ b < mr.endAddr
    · have hget := hmr.getElem_bigPages hb hin.1 hin.2
      refine ⟨(b - mr.start) / bigPageSize, ?_, ?_⟩
      · simp [hin]
      · rw [List.flatMap_cons, List.getElem?_append_left, hget]
        exact (List.getElem?_eq_some_iff.mp hget).1
    · have hrest : ∃ mr' ∈ rest, mr'.start ≤ b ∧ b < mr'.endAddr := by
        obtain ⟨mr', hmr', hx⟩ := hex
        rcases List.mem_cons.mp hmr' with rfl | hmr'
        · exact absurd hx hin
        · exact ⟨mr', hmr', hx⟩
      obtain ⟨j, hfind, hj⟩ := ih (k := k + mr.bigPageCount)
        (fun q hq => h q (List.mem_cons_of_mem mr hq)) hrest
      refine ⟨mr.bigPageCount + j, ?_, ?_⟩
      · rw [← Nat.add_assoc, ← hfind]
        have hno : (decide (b ≥ mr.start) && decide (b < mr.endAddr))
            = false := by
          simp only [Bool.and_eq_false_iff, decide_eq_false_iff_not]
          omega
        rw [hno]
        rfl
      · rw [List.flatMap_cons, List.getElem?_append_right (by omega), hlen,
          Nat.add_sub_cancel_left, hj]

/-- Outside the subranges it answers nothing. -/
theorem find_subrangesOf_none
    (h : ¬ ∃ mr ∈ merged, mr.start ≤ b ∧ b < mr.endAddr) :
    findIn (subrangesOf k merged) b = none := by
  unfold findIn
  rw [Option.map_eq_none_iff, List.find?_eq_none]
  intro sr hsr hin
  obtain ⟨mr, hmr, hstart, hend⟩ := mem_subrangesOf hsr
  refine h ⟨mr, hmr, ?_⟩
  rw [hstart, hend] at hin
  simpa using hin

-- ==== the pages

/-- A new big page of a domain. -/
def NewPage (ranges : List PhysMemoryRange) (b : Nat) (m : BigPageMetadata) :
    Prop :=
  m.Fresh b fun s => Covered ranges (pageAddr b s)

theorem createBigPages_spec (h : MergedFrom ranges merged) (hmr : mr ∈ merged) :
    ∃ pages, createBigPages mr = .ok pages
      ∧ List.Forall₂ (NewPage ranges) mr.bigPages pages := by
  have hm := h.each mr hmr
  have hpage : ∀ i ∈ List.range mr.bigPageCount, ∃ m,
      createBigPage mr.origs (mr.start + i * bigPageSize) = .ok m
        ∧ NewPage ranges (mr.start + i * bigPageSize) m := by
    intro i hi
    have hb : mr.start + i * bigPageSize ∈ mr.bigPages :=
      List.mem_map.mpr ⟨i, hi, rfl⟩
    obtain ⟨hdvd, hlo, hhi⟩ := hm.mem_bigPages.mp hb
    have hend := add_bigPageSize_le hdvd hm.end_dvd hhi
    have hfits := hm.fits
    obtain ⟨m, hcreate, hfresh⟩ := createBigPage_spec hdvd
      (by unfold bigPageSize at *; omega) hm.usable hm.byStart
    refine ⟨m, hcreate, hfresh.congr fun s hs => ?_⟩
    have hin := pageAddr_lt (mr.start + i * bigPageSize) hs
    have hle : mr.start + i * bigPageSize ≤ pageAddr _ s :=
      Nat.le_add_right ..
    exact h.covered_origs_iff hmr (by omega) (by omega)
  obtain ⟨pages, hpages, hall⟩ := Lib.mapM_rel hpage
  exact ⟨pages, hpages, List.forall₂_map_left_iff.mpr hall⟩

theorem createSubranges_spec (h : MergedFrom ranges merged) :
    ∀ {rest : List TempMergedRange} {k : Nat}, (∀ mr ∈ rest, mr ∈ merged) →
      ∃ pages, createSubranges k rest = .ok (pages, subrangesOf k rest)
        ∧ List.Forall₂ (NewPage ranges)
          (rest.flatMap TempMergedRange.bigPages) pages := by
  intro rest
  induction rest with
  | nil => exact fun _ => ⟨[], rfl, .nil⟩
  | cons mr rest ih =>
    intro k hmem
    obtain ⟨pages, hpages, hnew⟩ :=
      createBigPages_spec h (hmem mr List.mem_cons_self)
    obtain ⟨more, hmore, hnew'⟩ := ih (k := k + mr.bigPageCount)
      fun q hq => hmem q (List.mem_cons_of_mem mr hq)
    refine ⟨pages ++ more, ?_, ?_⟩
    · rw [createSubranges, hpages, hmore]
      rfl
    · rw [List.flatMap_cons]
      exact List.rel_append hnew hnew'

-- ==== the pool

/-- A pool that nothing has been allocated from: its big pages are at
`bases`, and of them the small pages at the addresses `A` are available.
The bit pool has the shape of `p`. -/
structure NUMAPool.Stocked (pool : NUMAPool) (p : AtomicBitPool)
    (bases : List Nat) (A : Nat → Prop) : Prop where
  count : pool.bigPageCount = bases.length
  page : ∀ i b, bases[i]? = some b →
    (pool.bigPageMetadataBuffer i).Fresh b fun s => A (pageAddr b s)
  free : pool.freeBigPages = (List.range bases.length).filter fun i =>
    !(pool.bigPageMetadataBuffer i).hasReservedSubpages
  sized : p.Sized
  room : bases.length ≤ p.capacity
  paPages : ∃ st s, pool.paPages = p.on st ∧ p.Holds st s
    ∧ ∀ i, i ∈ s ↔ i < bases.length
      ∧ (pool.bigPageMetadataBuffer i).hasReservedSubpages = true
      ∧ (pool.bigPageMetadataBuffer i).isFull = false

/-- A loop that adds indexes to an empty bit pool. -/
theorem addAll_spec {cap stride : Nat} (indexes : List Nat)
    (hs : AtomicBitPool.Sized (.create cap stride))
    (hlt : ∀ i ∈ indexes, i < cap) :
    ∃ st s, indexes.foldlM (fun q i => (q.add i).map Prod.fst)
          (AtomicBitPool.create cap stride)
        = .ok (AtomicBitPool.on (.create cap stride) st)
      ∧ AtomicBitPool.Holds (.create cap stride) st s
      ∧ ∀ i, i ∈ s ↔ i ∈ indexes := by
  have hcap : cap ≤ (AtomicBitPool.create cap stride).capacity :=
    le_two_pow_log2ceil cap
  have hturn : ∀ done, ∀ i ∈ indexes, ∀ q,
      (∃ st s, q = AtomicBitPool.on (.create cap stride) st
        ∧ AtomicBitPool.Holds (.create cap stride) st s
        ∧ ∀ i, i ∈ s ↔ i ∈ done) →
      ∃ q', (q.add i).map Prod.fst = .ok q'
        ∧ ∃ st s, q' = AtomicBitPool.on (.create cap stride) st
          ∧ AtomicBitPool.Holds (.create cap stride) st s
          ∧ ∀ j, j ∈ s ↔ j ∈ done ++ [i] := by
    rintro done i hi _ ⟨st, s, rfl, h, hmem⟩
    obtain ⟨st', hadd, h'⟩ := AtomicBitPool.add_spec hs h
      (Nat.lt_of_lt_of_le (hlt i hi) hcap)
    refine ⟨_, by rw [hadd]; rfl, st', insert i s, rfl, h', fun j => ?_⟩
    rw [Finset.mem_insert, List.mem_append, List.mem_singleton, hmem j]
    exact or_comm
  obtain ⟨q, hq, st, s, rfl, h, hmem⟩ :=
    Lib.foldlM_tracks hturn ⟨_, ∅, rfl, AtomicBitPool.holds_create,
      fun i => by simp⟩
  exact ⟨st, s, hq, h, hmem⟩

theorem NUMAPool.create_spec {metadata : List BigPageMetadata}
    (subranges : List SubrangeInfo) (domain : Nat)
    (hpages : List.Forall₂ (fun b m => m.Fresh b fun s => A (pageAddr b s))
      bases metadata)
    (h2 : 2 ≤ bases.length) (hmax : bases.length ≤ 2 ^ 43)
    (hsome : ∀ b ∈ bases, ∃ s < smallPagesPerBigPage, A (pageAddr b s)) :
    ∃ pool, NUMAPool.create metadata subranges domain = .ok pool
      ∧ pool.subrangeInfo = subranges ∧ pool.associatedDomain = domain
      ∧ pool.Stocked (.create bases.length cacheLineSize) bases A := by
  have hlen := hpages.length_eq
  have hs : AtomicBitPool.Sized (.create metadata.length cacheLineSize) :=
    AtomicBitPool.sized_create _ (by omega)
      (Nat.le_trans (by omega) (Nat.pow_le_pow_right (by decide)
        (show 43 ≤ 6 * AtomicBitPool.maxLevelCount by decide))) (by decide)
  obtain ⟨reserved, hreserved⟩ : ∃ reserved : Nat → Bool, reserved = fun i =>
      ((metadata[i]?).map BigPageMetadata.hasReservedSubpages).getD false :=
    ⟨_, rfl⟩
  obtain ⟨page, hpage⟩ : ∃ page : Nat → BigPageMetadata, page = fun i =>
      (metadata[i]?).getD { bookkeeper := LibAlloc.SlabBookkeeper.create _
                            baseAddr := 0
                            allocHolder := none } := ⟨_, rfl⟩
  -- below the page count the constructor reads the metadata itself
  have hbuilt : ∀ i b, bases[i]? = some b →
      (page i).Fresh b fun s => A (pageAddr b s) := by
    intro i b hb
    obtain ⟨hi, hb⟩ := List.getElem?_eq_some_iff.mp hb
    rw [hpage]
    simp only [List.getElem?_eq_getElem (hlen ▸ hi), ← hb]
    exact List.forall₂_iff_get.mp hpages |>.2 i hi (hlen ▸ hi)
  have hsame : ∀ i < bases.length,
      reserved i = (page i).hasReservedSubpages := by
    intro i hi
    rw [hreserved, hpage]
    simp only [List.getElem?_eq_getElem (hlen ▸ hi), Option.map_some,
      Option.getD_some]
  have hnotFull : ∀ i < bases.length, (page i).isFull = false := by
    intro i hi
    obtain ⟨b, hb⟩ : ∃ b, bases[i]? = some b :=
      ⟨_, List.getElem?_eq_getElem hi⟩
    obtain ⟨s, hs, hA⟩ := hsome b (List.mem_of_getElem? hb)
    rw [Bool.eq_false_iff]
    exact fun hfull => (hbuilt i b hb).isFull_iff.mp hfull s hs hA
  unfold NUMAPool.create
  rw [← hreserved]
  dsimp only
  rw [← hpage]
  obtain ⟨st, s, hq, hholds, hmem⟩ := addAll_spec
    ((List.range metadata.length).filter reserved)
    hs fun i hi => List.mem_range.mp (List.mem_of_mem_filter hi)
  refine ⟨_, (congrArg (· >>= _) hq).trans rfl, rfl, rfl, hlen.symm, hbuilt,
    ?_, hlen ▸ hs, le_two_pow_log2ceil _, st, s, hlen ▸ rfl, hlen ▸ hholds,
    fun i => ?_⟩
  · show (List.range metadata.length).filter (fun i => !reserved i) = _
    rw [← hlen]
    refine List.filter_congr fun i hi => ?_
    rw [hsame i (List.mem_range.mp hi)]
  · rw [hmem, List.mem_filter, List.mem_range, ← hlen]
    constructor
    · rintro ⟨hi, hr⟩
      exact ⟨hi, hsame i hi ▸ hr, hnotFull i hi⟩
    · rintro ⟨hi, hr, -⟩
      exact ⟨hi, (hsame i hi).trans hr⟩

end CroCOS
