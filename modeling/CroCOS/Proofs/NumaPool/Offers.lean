/-
What a pool has to give, in addresses.

A pool that nothing has been allocated from offers the small pages `A`
when the search by address finds them available, when the big pages that
are wholly in `A` are in `freeBigPages`, each once, and when those that
are partly in it are in `paPages` (`Offers`). A stocked pool whose big
pages are found by address offers what it is stocked with
(`Stocked.offers`), and a new pool is stocked with what the ranges of its
domain cover.
-/
import CroCOS.Proofs.NumaPool.Create

namespace CroCOS

variable {ranges : List PhysMemoryRange} {merged : List TempMergedRange}
variable {pool : NUMAPool} {bases : List Nat} {A : Nat → Prop} {a b : Nat}

-- ==== in addresses

/-- The small page at `a` can be handed out. -/
def NUMAPool.isAvailable (pool : NUMAPool) (a : Nat) : Bool :=
  (pool.findMetadata a).any fun i =>
    (pool.bigPageMetadataBuffer i).bookkeeper.isSlotFree (smallPageIndex a)

/-- `A` does not tell the bytes of a small page apart. -/
def ByPage (A : Nat → Prop) : Prop :=
  ∀ a, A a ↔ A (roundDownToNearestMultiple a smallPageSize)

theorem pageAddr_smallPageIndex (a : Nat) :
    pageAddr (bigPageBase a) (smallPageIndex a)
      = roundDownToNearestMultiple a smallPageSize := by
  have h512 : smallPagesPerBigPage = 512 := rfl
  unfold pageAddr bigPageBase smallPageIndex roundDownToNearestMultiple
  rw [h512]
  unfold bigPageSize smallPageSize
  omega

theorem smallPageIndex_lt (a : Nat) : smallPageIndex a < smallPagesPerBigPage :=
  Nat.mod_lt _ (by decide)

theorem ByPage.not (h : ByPage A) : ByPage fun a => ¬ A a :=
  fun a => not_congr (h a)

/-- A property of all bytes of a big page, by its small pages. -/
theorem ByPage.forall_iff (h : ByPage A) (hb : bigPageSize ∣ b) :
    (∀ s < smallPagesPerBigPage, A (pageAddr b s))
      ↔ ∀ a, b ≤ a → a < b + bigPageSize → A a := by
  constructor
  · intro hall a hlo hhi
    have := hall (smallPageIndex a) (smallPageIndex_lt a)
    rw [← bigPageBase_eq hb hlo hhi, pageAddr_smallPageIndex] at this
    exact (h a).mpr this
  · intro hall s hs
    exact hall _ (Nat.le_add_right ..) (pageAddr_lt b hs)

theorem ByPage.exists_iff (h : ByPage A) (hb : bigPageSize ∣ b) :
    (∃ s < smallPagesPerBigPage, A (pageAddr b s))
      ↔ ∃ a, b ≤ a ∧ a < b + bigPageSize ∧ A a := by
  have := not_congr (h.not.forall_iff hb)
  push Not at this
  exact this

/-- Ranges that are page aligned cover whole pages. -/
theorem byPage_covered (hok : ∀ r ∈ ranges, r.Usable) :
    ByPage (Covered ranges) := by
  intro a
  have hround : ∀ r ∈ ranges, (r.start ≤ a ∧ a < r.endAddr
      ↔ r.start ≤ roundDownToNearestMultiple a smallPageSize
        ∧ roundDownToNearestMultiple a smallPageSize < r.endAddr) := by
    intro r hr
    obtain ⟨q, hq⟩ := (hok r hr).start_dvd
    obtain ⟨q', hq'⟩ := (hok r hr).end_dvd
    unfold roundDownToNearestMultiple
    unfold smallPageSize at *
    omega
  exact exists_congr fun r => and_congr_right fun hr => hround r hr

/-- Where the big pages of a pool are found. -/
structure NUMAPool.Located (pool : NUMAPool) (bases : List Nat) : Prop where
  dvd : ∀ b ∈ bases, bigPageSize ∣ b
  fits : ∀ b ∈ bases, b + bigPageSize < 2 ^ 64
  increasing : bases.Pairwise (· < ·)
  found : ∀ a, bigPageBase a ∈ bases → ∃ i, pool.findMetadata a = some i
    ∧ bases[i]? = some (bigPageBase a)
  missing : ∀ a, bigPageBase a ∉ bases → pool.findMetadata a = none

/-- Which pages a pool has to give, in addresses: the small pages, the
whole big pages in `freeBigPages` and the others in `paPages`. -/
structure NUMAPool.Offers (pool : NUMAPool) (A : Nat → Prop) : Prop where
  available : ∀ a, pool.isAvailable a = true ↔ A a
  free_nodup : (pool.freeBigPages.map fun i =>
    (pool.bigPageMetadataBuffer i).baseAddr).Nodup
  free : ∀ b, b ∈ pool.freeBigPages.map (fun i =>
      (pool.bigPageMetadataBuffer i).baseAddr)
    ↔ bigPageSize ∣ b ∧ ∀ a, b ≤ a → a < b + bigPageSize → A a
  paPages : ∃ s, pool.paPages.Consistent s
    ∧ (∀ i ∈ s, i < pool.bigPageCount ∧ i < pool.paPages.capacity)
    ∧ ∀ b, (∃ i ∈ s, (pool.bigPageMetadataBuffer i).baseAddr = b)
      ↔ bigPageSize ∣ b ∧ (∃ a, b ≤ a ∧ a < b + bigPageSize ∧ A a)
        ∧ ∃ a, b ≤ a ∧ a < b + bigPageSize ∧ ¬ A a

section

variable {p : AtomicBitPool} (h : pool.Stocked p bases A) (hl : pool.Located bases)

include h in
theorem NUMAPool.Stocked.exists_page {i : Nat} (hi : i < bases.length) :
    ∃ b ∈ bases, bases[i]? = some b
      ∧ (pool.bigPageMetadataBuffer i).Fresh b fun s => A (pageAddr b s) :=
  have hget := List.getElem?_eq_getElem hi
  ⟨_, List.getElem_mem hi, hget, h.page i _ hget⟩

include h hl in
theorem NUMAPool.Stocked.isAvailable_iff (hA : ByPage A)
    (hin : ∀ a, A a → bigPageBase a ∈ bases) :
    pool.isAvailable a = true ↔ A a := by
  unfold NUMAPool.isAvailable
  by_cases hmem : bigPageBase a ∈ bases
  · obtain ⟨i, hfind, hi⟩ := hl.found a hmem
    rw [hfind, Option.any_some, (h.page i _ hi).isSlotFree_iff,
      pageAddr_smallPageIndex, ← hA a]
    exact and_iff_right (smallPageIndex_lt a)
  · rw [hl.missing a hmem]
    constructor
    · intro hx
      cases hx
    · exact fun hx => absurd (hin a hx) hmem

include h hl in
theorem NUMAPool.Stocked.free_iff (hA : ByPage A)
    (hin : ∀ a, A a → bigPageBase a ∈ bases) :
    b ∈ pool.freeBigPages.map (fun i =>
        (pool.bigPageMetadataBuffer i).baseAddr)
      ↔ bigPageSize ∣ b ∧ ∀ a, b ≤ a → a < b + bigPageSize → A a := by
  rw [List.mem_map, h.free]
  constructor
  · rintro ⟨i, hi, rfl⟩
    obtain ⟨hlt, hno⟩ := List.mem_filter.mp hi
    obtain ⟨b, hb, -, hf⟩ := h.exists_page (List.mem_range.mp hlt)
    rw [hf.baseAddr]
    refine ⟨hl.dvd b hb, (hA.forall_iff (hl.dvd b hb)).mp fun s hs => ?_⟩
    by_contra hns
    rw [hf.hasReservedSubpages_iff.mpr ⟨s, hs, hns⟩] at hno
    cases hno
  · rintro ⟨hdvd, hall⟩
    have hbase : bigPageBase b = b :=
      bigPageBase_eq hdvd (Nat.le_refl b) (Nat.lt_add_of_pos_right (by decide))
    have hmem := hin b (hall b (Nat.le_refl b)
      (Nat.lt_add_of_pos_right (by decide)))
    rw [hbase] at hmem
    obtain ⟨i, hi⟩ := List.getElem?_of_mem hmem
    have hf := h.page i b hi
    refine ⟨i, List.mem_filter.mpr ⟨List.mem_range.mpr
      (List.getElem?_eq_some_iff.mp hi).1, ?_⟩, hf.baseAddr⟩
    rw [Bool.not_eq_true', Bool.eq_false_iff]
    intro hr
    obtain ⟨s, hs, hno⟩ := hf.hasReservedSubpages_iff.mp hr
    exact hno ((hA.forall_iff hdvd).mpr hall s hs)

include h hl in
theorem NUMAPool.Stocked.free_nodup : (pool.freeBigPages.map fun i =>
      (pool.bigPageMetadataBuffer i).baseAddr).Nodup := by
  rw [h.free]
  refine List.Nodup.map_on ?_ (List.nodup_range.filter _)
  intro i hi j hj heq
  have hi' := List.mem_range.mp (List.mem_filter.mp hi).1
  have hj' := List.mem_range.mp (List.mem_filter.mp hj).1
  obtain ⟨b, -, hb, hf⟩ := h.exists_page hi'
  obtain ⟨b', -, hb', hf'⟩ := h.exists_page hj'
  rw [hf.baseAddr, hf'.baseAddr] at heq
  have hnodup : bases.Nodup := hl.increasing.imp Nat.ne_of_lt
  exact (List.getElem?_inj hi' hnodup).mp (by rw [hb, hb', heq])

include h hl in
theorem NUMAPool.Stocked.paPages_iff (hA : ByPage A)
    (hin : ∀ a, A a → bigPageBase a ∈ bases) {s : Finset Nat}
    (hs : ∀ i, i ∈ s ↔ i < bases.length
      ∧ (pool.bigPageMetadataBuffer i).hasReservedSubpages = true
      ∧ (pool.bigPageMetadataBuffer i).isFull = false) :
    (∃ i ∈ s, (pool.bigPageMetadataBuffer i).baseAddr = b)
      ↔ bigPageSize ∣ b ∧ (∃ a, b ≤ a ∧ a < b + bigPageSize ∧ A a)
        ∧ ∃ a, b ≤ a ∧ a < b + bigPageSize ∧ ¬ A a := by
  constructor
  · rintro ⟨i, hi, rfl⟩
    obtain ⟨hlt, hres, hfull⟩ := (hs i).mp hi
    obtain ⟨b, hb, -, hf⟩ := h.exists_page hlt
    have hdvd := hl.dvd b hb
    rw [hf.baseAddr]
    rw [Bool.eq_false_iff, ne_eq, hf.isFull_iff] at hfull
    push Not at hfull
    exact ⟨hdvd, (hA.exists_iff hdvd).mp hfull, (hA.not.exists_iff hdvd).mp
      (hf.hasReservedSubpages_iff.mp hres)⟩
  · rintro ⟨hdvd, hsome, hnot⟩
    obtain ⟨a, hlo, hhi, hAa⟩ := hsome
    have hmem := hin a hAa
    rw [bigPageBase_eq hdvd hlo hhi] at hmem
    obtain ⟨i, hi⟩ := List.getElem?_of_mem hmem
    have hf := h.page i b hi
    refine ⟨i, (hs i).mpr ⟨(List.getElem?_eq_some_iff.mp hi).1,
      hf.hasReservedSubpages_iff.mpr ((hA.not.exists_iff hdvd).mpr hnot),
      ?_⟩, hf.baseAddr⟩
    rw [Bool.eq_false_iff, ne_eq, hf.isFull_iff]
    push Not
    exact (hA.exists_iff hdvd).mpr ⟨a, hlo, hhi, hAa⟩

include h hl in
theorem NUMAPool.Stocked.offers (hA : ByPage A)
    (hin : ∀ a, A a → bigPageBase a ∈ bases) : pool.Offers A := by
  obtain ⟨st, s, hp, hholds, hmem⟩ := h.paPages
  refine ⟨fun a => h.isAvailable_iff hl hA hin, h.free_nodup hl,
    fun b => h.free_iff hl hA hin, s, ?_, fun i hi => ?_,
    fun b => h.paPages_iff hl hA hin hmem⟩
  · rw [hp]
    exact hholds.consistent h.sized
  · rw [hp]
    refine ⟨?_, hholds.range i hi⟩
    rw [h.count]
    exact ((hmem i).mp hi).1

end

-- ==== a new pool

/-- The subranges of a pool, and what it offers, for the ranges that it
was built from. -/
structure BuiltFrom (ranges : List PhysMemoryRange) (pool : NUMAPool) :
    Prop where
  aligned : ∀ sr ∈ pool.subrangeInfo, bigPageSize ∣ sr.rangeStart
    ∧ bigPageSize ∣ sr.rangeEnd ∧ sr.rangeStart < sr.rangeEnd
  apart : pool.subrangeInfo.Pairwise fun x y => x.rangeEnd ≤ y.rangeStart
  covers : ∀ r ∈ ranges, ∃ sr ∈ pool.subrangeInfo,
    sr.rangeStart ≤ r.start ∧ r.endAddr ≤ sr.rangeEnd
  found : ∀ a, (∃ sr ∈ pool.subrangeInfo, sr.rangeStart ≤ a ∧ a < sr.rangeEnd) →
    ∃ i < pool.bigPageCount, pool.findMetadata a = some i
      ∧ (pool.bigPageMetadataBuffer i).baseAddr = bigPageBase a
  missing : ∀ a, (¬ ∃ sr ∈ pool.subrangeInfo,
      sr.rangeStart ≤ a ∧ a < sr.rangeEnd) → pool.findMetadata a = none
  offers : pool.Offers (Covered ranges)

/-- The ranges reach into more than one big page. -/
def TwoBigPages (ranges : List PhysMemoryRange) : Prop :=
  ∃ a b, Covered ranges a ∧ Covered ranges b ∧ bigPageBase a ≠ bigPageBase b

theorem MergedFrom.bigPageBase_mem (h : MergedFrom ranges merged)
    (hc : Covered ranges a) :
    bigPageBase a ∈ merged.flatMap TempMergedRange.bigPages := by
  obtain ⟨r, hr, hlo, hhi⟩ := hc
  obtain ⟨mr, hmr, hr'⟩ := (h.origs r).mp hr
  have hm := h.each mr hmr
  have hw := hm.within r hr'
  refine (mem_bases h.each).mpr ⟨bigPageBase_dvd a, mr, hmr,
    le_bigPageBase hm.start_dvd (by omega), ?_⟩
  have := bigPageBase_le a
  omega

theorem bigPageBase_mem_iff (hm : ∀ mr ∈ merged, Merged mr) :
    bigPageBase a ∈ merged.flatMap TempMergedRange.bigPages
      ↔ ∃ mr ∈ merged, mr.start ≤ a ∧ a < mr.endAddr := by
  rw [mem_bases hm, and_iff_right (bigPageBase_dvd a)]
  refine exists_congr fun mr => and_congr_right fun hmr => ?_
  have h := hm mr hmr
  have hle := bigPageBase_le a
  have hlt := lt_bigPageBase a
  constructor
  · rintro ⟨hlo, hhi⟩
    have := add_bigPageSize_le (bigPageBase_dvd a) h.end_dvd hhi
    exact ⟨by omega, by omega⟩
  · rintro ⟨hlo, hhi⟩
    exact ⟨le_bigPageBase h.start_dvd hlo, by omega⟩

theorem bases_lt (h : ∀ mr ∈ merged, Merged mr)
    (hb : b ∈ merged.flatMap TempMergedRange.bigPages) :
    b + bigPageSize < 2 ^ 64 := by
  obtain ⟨hdvd, mr, hmr, -, hhi⟩ := (mem_bases h).mp hb
  have hfits := (h mr hmr).fits
  omega

theorem located_of_subranges (h : MergedFrom ranges merged)
    (hsub : pool.subrangeInfo = subrangesOf 0 merged) :
    pool.Located (merged.flatMap TempMergedRange.bigPages) := by
  refine ⟨fun b hb => ((mem_bases h.each).mp hb).1,
    fun b hb => bases_lt h.each hb, bases_pairwise h.each h.apart,
    fun a ha => ?_, fun a ha => ?_⟩
  · obtain ⟨-, hex⟩ := (mem_bases h.each).mp ha
    obtain ⟨j, hfind, hj⟩ := find_subrangesOf (k := 0) (bigPageBase_dvd a)
      h.each hex
    rw [Nat.zero_add] at hfind
    exact ⟨j, by rw [findMetadata_eq, hsub, hfind], hj⟩
  · rw [findMetadata_eq, hsub]
    refine find_subrangesOf_none fun hex => ha ?_
    exact (mem_bases h.each).mpr ⟨bigPageBase_dvd a, hex⟩

theorem bigPageCount_sum (merged : List TempMergedRange) :
    (merged.map TempMergedRange.bigPageCount).sum
      = (merged.flatMap TempMergedRange.bigPages).length := by
  rw [List.length_flatMap]
  refine congrArg List.sum (List.map_congr_left fun mr _ => ?_)
  unfold TempMergedRange.bigPages
  rw [List.length_map, List.length_range]

/-- A new pool is stocked with what its ranges cover. -/
theorem createNumaPool_spec {domain : Nat}
    (hlen : ranges.length ≤ maxRangesPerDomain)
    (hok : ∀ r ∈ ranges, r.Usable) (h2 : TwoBigPages ranges) :
    ∃ merged p pool, createNumaPool ranges domain = .ok pool
      ∧ MergedFrom ranges merged
      ∧ pool.subrangeInfo = subrangesOf 0 merged
      ∧ pool.associatedDomain = domain
      ∧ pool.Stocked p (merged.flatMap TempMergedRange.bigPages)
        (Covered ranges) := by
  obtain ⟨a, b, ha, hb, hab⟩ := h2
  have hne : ranges ≠ [] := by
    rintro rfl
    obtain ⟨r, hr, -⟩ := ha
    cases hr
  obtain ⟨merged, hmerged, -, h⟩ := computeMergedRanges_spec hne hlen hok
  obtain ⟨metadata, hmeta, hpages⟩ := createSubranges_spec h (k := 0)
    (show ∀ mr ∈ merged, mr ∈ merged from fun _ hmr => hmr)
  have htwo : 2 ≤ (merged.flatMap TempMergedRange.bigPages).length := by
    obtain ⟨i, hi⟩ := List.getElem?_of_mem (h.bigPageBase_mem ha)
    obtain ⟨j, hj⟩ := List.getElem?_of_mem (h.bigPageBase_mem hb)
    have hij : i ≠ j := by
      rintro rfl
      exact hab (Option.some.inj (hi.symm.trans hj))
    have := (List.getElem?_eq_some_iff.mp hi).1
    have := (List.getElem?_eq_some_iff.mp hj).1
    omega
  have hsome : ∀ b ∈ merged.flatMap TempMergedRange.bigPages,
      ∃ s < smallPagesPerBigPage, Covered ranges (pageAddr b s) := by
    intro b hb
    obtain ⟨hdvd, mr, hmr, hlo, hhi⟩ := (mem_bases h.each).mp hb
    rw [(byPage_covered hok).exists_iff hdvd]
    obtain ⟨r, hr, hstart, hend⟩ := (h.each mr hmr).touched b hdvd hlo hhi
    have hnonempty := ((h.each mr hmr).usable r hr).nonempty
    have hpos : 0 < bigPageSize := by decide
    refine ⟨max b r.start, Nat.le_max_left .., by omega, r,
      (h.origs r).mpr ⟨mr, hmr, hr⟩, Nat.le_max_right .., by omega⟩
  have hmax : (merged.flatMap TempMergedRange.bigPages).length ≤ 2 ^ 43 :=
    bases_length_le (bases_pairwise h.each h.apart) fun b hb =>
      ⟨((mem_bases h.each).mp hb).1, by
        have := bases_lt h.each hb
        omega⟩
  obtain ⟨pool, hpool, hsub, hdomain, hstocked⟩ := NUMAPool.create_spec
    (subrangesOf 0 merged) domain hpages htwo hmax hsome
  refine ⟨merged, _, pool, ?_, h, hsub, hdomain, hstocked⟩
  unfold createNumaPool
  rw [hmerged, ok_bind, if_neg (by rw [bigPageCount_sum]; omega), hmeta]
  exact hpool

/-- Every pool is built from its ranges: the subranges are what the ranges
touch, every address of them finds its big page, and exactly what the
ranges cover can be handed out. -/
theorem createNumaPool_builtFrom (ranges : List PhysMemoryRange)
    (domain : Nat) (hlen : ranges.length ≤ maxRangesPerDomain)
    (hok : ∀ r ∈ ranges, r.Usable) (h2 : TwoBigPages ranges) :
    ∃ pool, createNumaPool ranges domain = .ok pool
      ∧ BuiltFrom ranges pool := by
  obtain ⟨merged, p, pool, hcreate, h, hsub, -, hstocked⟩ :=
    createNumaPool_spec hlen hok h2
  have hl := located_of_subranges h hsub
  have hin : ∀ a, (∃ sr ∈ pool.subrangeInfo,
      sr.rangeStart ≤ a ∧ a < sr.rangeEnd) ↔ bigPageBase a
        ∈ merged.flatMap TempMergedRange.bigPages := by
    intro a
    rw [bigPageBase_mem_iff h.each, hsub]
    constructor
    · rintro ⟨sr, hsr, hx⟩
      obtain ⟨mr, hmr, hstart, hend⟩ := mem_subrangesOf hsr
      exact ⟨mr, hmr, by rw [← hstart, ← hend]; exact hx⟩
    · rintro ⟨mr, hmr, hx⟩
      obtain ⟨sr, hsr, hstart, hend⟩ := exists_mem_subrangesOf hmr
      exact ⟨sr, hsr, by rw [hstart, hend]; exact hx⟩
  refine ⟨pool, hcreate, fun sr hsr => ?_, ?_, fun r hr => ?_,
    fun a ha => ?_, fun a ha => hl.missing a fun hx => ha ((hin a).mpr hx),
    hstocked.offers hl (byPage_covered hok) fun a => h.bigPageBase_mem⟩
  · rw [hsub] at hsr
    obtain ⟨mr, hmr, hstart, hend⟩ := mem_subrangesOf hsr
    have hm := h.each mr hmr
    rw [hstart, hend]
    exact ⟨hm.start_dvd, hm.end_dvd, hm.lt⟩
  · rw [hsub]
    exact subrangesOf_pairwise h.apart
  · obtain ⟨mr, hmr, hr'⟩ := (h.origs r).mp hr
    obtain ⟨sr, hsr, hstart, hend⟩ := exists_mem_subrangesOf (k := 0) hmr
    refine ⟨sr, hsub ▸ hsr, ?_⟩
    rw [hstart, hend]
    exact (h.each mr hmr).within r hr'
  · obtain ⟨i, hfind, hi⟩ := hl.found a ((hin a).mp ha)
    exact ⟨i, hstocked.count ▸ (List.getElem?_eq_some_iff.mp hi).1, hfind,
      (hstocked.page i _ hi).baseAddr⟩

/-- Two ranges that overlap and one that spans big pages, in no order. -/
def scatteredRanges : List PhysMemoryRange :=
  [⟨0x1ff000, 0x401000⟩, ⟨0x1000, 0x3000⟩, ⟨0x2000, 0x5000⟩]

theorem usable_scatteredRanges : ∀ r ∈ scatteredRanges, r.Usable := by
  intro r hr
  simp only [scatteredRanges, List.mem_cons, List.not_mem_nil, or_false] at hr
  rcases hr with rfl | rfl | rfl <;>
    exact ⟨by decide, by decide, by decide, by decide⟩

theorem twoBigPages_scatteredRanges : TwoBigPages scatteredRanges :=
  ⟨0x1000, 0x200000, ⟨_, List.mem_cons_of_mem _ List.mem_cons_self, by decide⟩,
    ⟨_, List.mem_cons_self, by decide⟩, by decide⟩

theorem createNumaPool_builtFrom_scattered :
    ∃ pool, createNumaPool scatteredRanges 1 = .ok pool
      ∧ BuiltFrom scatteredRanges pool :=
  createNumaPool_builtFrom scatteredRanges 1 (by decide)
    usable_scatteredRanges twoBigPages_scatteredRanges

/-- A range that ends in the last big page of the address space. -/
def topRange : PhysMemoryRange := ⟨2 ^ 64 - 2 ^ 22, 2 ^ 64 - 2 ^ 12⟩

theorem createNumaPool_topRange :
    Lib.Returns (fun pool => pool.findMetadata topRange.start = none
        ∧ pool.isAvailable topRange.start = false)
      (createNumaPool [topRange] 0) := by
  decide +kernel

/-- The end of such a range rounds up to 0, and no address is found in
the subrange. -/
theorem createNumaPool_wraps : ∃ pool, createNumaPool [topRange] 0 = .ok pool
      ∧ topRange.start < topRange.endAddr
      ∧ smallPageSize ∣ topRange.start ∧ smallPageSize ∣ topRange.endAddr
      ∧ TwoBigPages [topRange]
      ∧ Covered [topRange] topRange.start
      ∧ pool.findMetadata topRange.start = none
      ∧ pool.isAvailable topRange.start = false := by
  obtain ⟨pool, hpool, hnone, hno⟩ := createNumaPool_topRange.exists_ok
  have hstart : Covered [topRange] topRange.start :=
    ⟨topRange, List.mem_singleton_self _, by decide⟩
  refine ⟨pool, hpool, by decide, by decide, by decide,
    ⟨topRange.start, 2 ^ 64 - 2 ^ 21, hstart,
      ⟨topRange, List.mem_singleton_self _, by decide⟩, by decide⟩, hstart,
    hnone, hno⟩

end CroCOS
