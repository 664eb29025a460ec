/-
Reserving memory of a pool that nothing has been allocated from.

A call goes over the big pages, reserves the small pages that the range
touches, and then fills `freeBigPages` again and patches `paPages` from
the metadata. It leaves a stocked pool (`reserveRange_spec`), so the calls
can be repeated: after any of them the pool is stocked with what no range
touched. The two structures are read off the metadata, and the metadata
off the available pages, so nothing but the touched pages matters.

A range touches a page when they overlap. A range without a byte touches
the page that its bounds are inside of.
-/
import CroCOS.Proofs.NumaPool.Offers

namespace CroCOS

open Function Lib

variable {m : BigPageMetadata} {base : Nat} {A : Nat → Prop}
variable {pool : NUMAPool} {p : AtomicBitPool} {bases : List Nat} {a : Nat}

-- ==== touched pages

/-- The range overlaps the small page of the byte at `a`. -/
def PhysMemoryRange.Touches (r : PhysMemoryRange) (a : Nat) : Prop :=
  roundDownToNearestMultiple a smallPageSize < r.endAddr
    ∧ r.start < roundDownToNearestMultiple a smallPageSize + smallPageSize

/-- One of the ranges does. -/
def Touched (ranges : List PhysMemoryRange) (a : Nat) : Prop :=
  ∃ r ∈ ranges, r.Touches a

instance (r : PhysMemoryRange) (a : Nat) : Decidable (r.Touches a) :=
  inferInstanceAs (Decidable (_ ∧ _))

theorem roundDown_idem (a : Nat) :
    roundDownToNearestMultiple (roundDownToNearestMultiple a smallPageSize)
      smallPageSize = roundDownToNearestMultiple a smallPageSize := by
  unfold roundDownToNearestMultiple
  rw [Nat.mul_div_cancel _ (by decide)]

theorem byPage_touched (ranges : List PhysMemoryRange) :
    ByPage (Touched ranges) := by
  intro a
  unfold Touched PhysMemoryRange.Touches
  rw [roundDown_idem]

theorem roundDown_pageAddr (hbase : bigPageSize ∣ base) (s : Nat) :
    roundDownToNearestMultiple (pageAddr base s) smallPageSize
      = pageAddr base s := by
  obtain ⟨q, rfl⟩ := hbase
  unfold roundDownToNearestMultiple pageAddr bigPageSize smallPageSize
  omega

/-- Ranges with bytes touch the pages that one of their bytes is in. -/
theorem touched_iff_covered {ranges : List PhysMemoryRange}
    (hne : ∀ r ∈ ranges, r.start < r.endAddr) :
    Touched ranges a ↔ ∃ x, roundDownToNearestMultiple x smallPageSize
        = roundDownToNearestMultiple a smallPageSize ∧ Covered ranges x := by
  constructor
  · rintro ⟨r, hr, hend, hstart⟩
    have hnonempty := hne r hr
    refine ⟨max r.start (roundDownToNearestMultiple a smallPageSize), ?_,
      r, hr, Nat.le_max_left .., by omega⟩
    unfold roundDownToNearestMultiple smallPageSize at *
    omega
  · rintro ⟨x, hx, r, hr, hlo, hhi⟩
    refine ⟨r, hr, ?_⟩
    unfold PhysMemoryRange.Touches
    rw [← hx]
    unfold roundDownToNearestMultiple smallPageSize
    omega

-- ==== one big page

theorem BigPageMetadata.reserveRange_spec (h : m.Fresh base A)
    (hbase : bigPageSize ∣ base) (hfits : base + bigPageSize < 2 ^ 64)
    (r : PhysMemoryRange) :
    ∃ m', m.reserveRange r = .ok m'
      ∧ m'.Fresh base fun s => A s ∧ ¬ r.Touches (pageAddr base s) := by
  obtain ⟨lo, hlo⟩ : ∃ lo, lo = roundDownToNearestMultiple
      (max r.start base) smallPageSize := ⟨_, rfl⟩
  obtain ⟨hi, hhi⟩ : ∃ hi, hi = roundUpToNearestMultiple
      (min r.endAddr (base + bigPageSize)) smallPageSize := ⟨_, rfl⟩
  have hend : bigPageEndOf base = base + bigPageSize :=
    Nat.mod_eq_of_lt hfits
  unfold BigPageMetadata.reserveRange
  dsimp only
  rw [h.baseAddr, hend, ← hlo, ← hhi]
  -- the bounds of the touched pages, rounded outwards
  have htouch : ∀ s < smallPagesPerBigPage,
      r.Touches (pageAddr base s) ↔ lo ≤ pageAddr base s
        ∧ pageAddr base s < hi := by
    intro s hs
    have hin := pageAddr_lt base hs
    unfold PhysMemoryRange.Touches
    unfold roundUpToNearestMultiple divideAndRoundUp
      roundDownToNearestMultiple pageAddr bigPageSize smallPageSize at *
    omega
  have hout : ¬ (r.endAddr ≤ base ∨ r.start ≥ base + bigPageSize) ∨
      ∀ s < smallPagesPerBigPage, ¬ r.Touches (pageAddr base s) := by
    rw [or_iff_not_imp_left]
    rintro hoff s hs ⟨hend, hstart⟩
    have hin := pageAddr_lt base hs
    rw [roundDown_pageAddr hbase] at hend hstart
    unfold pageAddr bigPageSize smallPageSize at *
    omega
  by_cases hoff : r.endAddr ≤ base ∨ r.start ≥ base + bigPageSize
  · rw [if_pos hoff]
    refine ⟨m, rfl, h.congr fun s hs => (and_iff_left ?_).symm⟩
    exact hout.resolve_left (not_not.mpr hoff) s hs
  · rw [if_neg hoff]
    by_cases hle : lo ≤ hi
    · obtain ⟨m', hm', h'⟩ := reserveBetween_spec h hbase
        (hlo ▸ Nat.dvd_mul_left ..) (hhi ▸ Nat.dvd_mul_left ..) (by
          rw [hlo]
          obtain ⟨q, rfl⟩ := hbase
          unfold roundDownToNearestMultiple bigPageSize smallPageSize
          omega) hle (by
          rw [hhi]
          obtain ⟨q, rfl⟩ := hbase
          unfold roundUpToNearestMultiple divideAndRoundUp bigPageSize
            smallPageSize
          omega)
      exact ⟨m', hm', h'.congr fun s hs =>
        and_congr_right fun _ => not_congr (htouch s hs).symm⟩
    · -- a range whose end is before its start can leave nothing to do
      rw [show hi - lo = 0 by omega]
      refine ⟨m, rfl, h.congr fun s hs => (and_iff_left fun ht => ?_).symm⟩
      have := (htouch s hs).mp ht
      omega

-- ==== one call

/-- The loop over the big pages. -/
theorem reservePages_spec (h : pool.Stocked p bases A)
    (hl : pool.Located bases) (r : PhysMemoryRange) :
    ∃ page, (List.range pool.bigPageCount).foldlM (fun (pool : NUMAPool) i =>
            ((pool.bigPageMetadataBuffer i).reserveRange r).map
              (pool.setPage i)) pool
        = .ok { pool with bigPageMetadataBuffer := page }
      ∧ ∀ i b, bases[i]? = some b → (page i).Fresh b fun s =>
        A (pageAddr b s) ∧ ¬ r.Touches (pageAddr b s) := by
  have hturn : ∀ done, ∀ i ∈ List.range pool.bigPageCount, ∀ q : NUMAPool,
      (∃ page, q = { pool with bigPageMetadataBuffer := page }
        ∧ ∀ i b, bases[i]? = some b → (page i).Fresh b fun s =>
          A (pageAddr b s) ∧ (i ∈ done → ¬ r.Touches (pageAddr b s))) →
      ∃ q', ((q.bigPageMetadataBuffer i).reserveRange r).map (q.setPage i)
          = .ok q'
        ∧ ∃ page, q' = { pool with bigPageMetadataBuffer := page }
          ∧ ∀ j b, bases[j]? = some b → (page j).Fresh b fun s =>
            A (pageAddr b s)
              ∧ (j ∈ done ++ [i] → ¬ r.Touches (pageAddr b s)) := by
    rintro done i hi _ ⟨page, rfl, hpage⟩
    have hi' : i < bases.length := h.count ▸ List.mem_range.mp hi
    have hget := List.getElem?_eq_getElem hi'
    have hmem := List.getElem_mem hi'
    obtain ⟨m', hm', hf⟩ := BigPageMetadata.reserveRange_spec
      (hpage i _ hget) (hl.dvd _ hmem) (hl.fits _ hmem) r
    refine ⟨_, by rw [hm']; rfl, update page i m', rfl,
      fun j b hj => ?_⟩
    by_cases hji : j = i
    · subst hji
      rw [hget] at hj
      cases hj
      rw [update_self]
      refine hf.congr fun s _ => ?_
      simp only [List.mem_append, List.mem_singleton, or_true]
      tauto
    · rw [update_of_ne hji]
      refine (hpage j b hj).congr fun s _ => ?_
      simp only [List.mem_append, List.mem_singleton, hji, or_false]
  obtain ⟨q, hq, page, rfl, hpage⟩ := foldlM_tracks hturn
    ⟨pool.bigPageMetadataBuffer, rfl, fun i b hb =>
      (h.page i b hb).congr fun s _ => by simp⟩
  refine ⟨page, hq, fun i b hb => (hpage i b hb).congr fun s _ => ?_⟩
  have hi : i ∈ List.range pool.bigPageCount :=
    List.mem_range.mpr (h.count ▸ (List.getElem?_eq_some_iff.mp hb).1)
  simp only [hi, true_implies]

/-- The patch of `paPages`: what it held of the pages with nothing
reserved stays. -/
theorem fixupPages_spec (pool : NUMAPool) (indexes : List Nat)
    (hs : p.Sized) {st : Nat → AtomicBitPool.Entry} {s : Finset Nat}
    (hp : pool.paPages = p.on st) (hholds : p.Holds st s)
    (hlt : ∀ i ∈ indexes, i < p.capacity) :
    ∃ st' s', indexes.foldlM NUMAPool.fixupPage pool
        = .ok { pool with paPages := p.on st' }
      ∧ p.Holds st' s'
      ∧ ∀ i, i ∈ s' ↔
        if i ∈ indexes
          ∧ (pool.bigPageMetadataBuffer i).hasReservedSubpages = true
        then (pool.bigPageMetadataBuffer i).isFull = false else i ∈ s := by
  have hturn : ∀ done, ∀ i ∈ indexes, ∀ q : NUMAPool,
      (∃ st' s', q = { pool with paPages := p.on st' } ∧ p.Holds st' s'
        ∧ ∀ i, i ∈ s' ↔
          if i ∈ done
            ∧ (pool.bigPageMetadataBuffer i).hasReservedSubpages = true
          then (pool.bigPageMetadataBuffer i).isFull = false else i ∈ s) →
      ∃ q', q.fixupPage i = .ok q'
        ∧ ∃ st' s', q' = { pool with paPages := p.on st' } ∧ p.Holds st' s'
          ∧ ∀ j, j ∈ s' ↔
            if j ∈ done ++ [i]
              ∧ (pool.bigPageMetadataBuffer j).hasReservedSubpages = true
            then (pool.bigPageMetadataBuffer j).isFull = false
            else j ∈ s := by
    rintro done i hi _ ⟨st', s', rfl, h', hmem⟩
    unfold NUMAPool.fixupPage
    by_cases hres : (pool.bigPageMetadataBuffer i).hasReservedSubpages = true
    · rw [if_neg (by rw [hres]; decide)]
      by_cases hfull : (pool.bigPageMetadataBuffer i).isFull = true
      · obtain ⟨st₁, hrem, h₁⟩ := AtomicBitPool.remove_spec hs h' (hlt i hi)
        rw [if_neg (by rw [hfull]; decide), hrem]
        refine ⟨_, rfl, st₁, s'.erase i, rfl, h₁, fun j => ?_⟩
        by_cases hji : j = i
        · subst hji
          simp [hres, hfull]
        · simp [hji, hmem j]
      · obtain ⟨st₁, hadd, h₁⟩ := AtomicBitPool.add_spec hs h' (hlt i hi)
        rw [if_pos (by simp [hfull])]
        unfold NUMAPool.addPAPage
        rw [hadd]
        refine ⟨_, rfl, st₁, insert i s', rfl, h₁, fun j => ?_⟩
        by_cases hji : j = i
        · subst hji
          simp [hres, hfull]
        · simp [hji, hmem j]
    · rw [if_pos (by simp [hres])]
      refine ⟨_, rfl, st', s', rfl, h', fun j => ?_⟩
      by_cases hji : j = i
      · subst hji
        rw [hmem j, if_neg (fun hx => hres hx.2), if_neg (fun hx => hres hx.2)]
      · simp [hji, hmem j]
  obtain ⟨q, hq, st', s', rfl, h', hmem⟩ := foldlM_tracks hturn
    ⟨st, s, by rw [← hp], hholds, fun i => by simp⟩
  exact ⟨st', s', hq, h', hmem⟩

theorem NUMAPool.Located.congr (hl : pool.Located bases) {pool' : NUMAPool}
    (hsub : pool'.subrangeInfo = pool.subrangeInfo) :
    pool'.Located bases := by
  have hfind : ∀ a, pool'.findMetadata a = pool.findMetadata a := by
    intro a
    rw [findMetadata_eq, findMetadata_eq, hsub]
  refine ⟨hl.dvd, hl.fits, hl.increasing, fun a ha => ?_, fun a ha => ?_⟩
  · rw [hfind]
    exact hl.found a ha
  · rw [hfind]
    exact hl.missing a ha

section

variable (h : pool.Stocked p bases A)
include h

/-- The rebuilt structures fit the metadata, if a page that has nothing
reserved now had nothing reserved before. -/
theorem NUMAPool.Stocked.fixup {A' : Nat → Prop}
    {page : Nat → BigPageMetadata} (hsub : ∀ a, A' a → A a)
    (hpage : ∀ i b, bases[i]? = some b →
      (page i).Fresh b fun s => A' (pageAddr b s)) :
    ∃ pool', NUMAPool.fixupAfterReserveRange
          { pool with bigPageMetadataBuffer := page } = .ok pool'
      ∧ pool'.subrangeInfo = pool.subrangeInfo
      ∧ pool'.Stocked p bases A' := by
  obtain ⟨st, s, hp, hholds, hmem⟩ := h.paPages
  have hdrained : pool.freeBigPages.drop pool.bigPageCount = [] := by
    rw [List.drop_eq_nil_iff, h.free, h.count]
    exact (List.length_filter_le ..).trans (by rw [List.length_range])
  obtain ⟨st', s', hfold, hholds', hmem'⟩ := fixupPages_spec { pool with
      bigPageMetadataBuffer := page
      freeBigPages := [] } (List.range pool.bigPageCount) h.sized hp hholds
    fun i hi => Nat.lt_of_lt_of_le (List.mem_range.mp hi) (h.count ▸ h.room)
  unfold NUMAPool.fixupAfterReserveRange NUMAPool.takeFreeBigPages
  dsimp only
  rw [hdrained, hfold, ok_bind]
  unfold NUMAPool.writeFreeBigPages
  rw [if_neg (by
    rw [List.length_nil, Nat.sub_zero, Nat.not_lt]
    exact (List.length_filter_le ..).trans (by rw [List.length_range]))]
  refine ⟨_, rfl, rfl, h.count, hpage, ?_, h.sized, h.room, st', s', rfl,
    hholds', fun i => ?_⟩
  · rw [List.nil_append, ← h.count]
  · -- a page with nothing reserved now was not in `paPages`
    simp only [hmem' i, h.count]
    by_cases hi : i < bases.length
    · obtain ⟨b, -, hb, hf⟩ := h.exists_page hi
      have hold : (page i).hasReservedSubpages = false → i ∉ s := by
        intro hnone hin
        obtain ⟨-, hres, -⟩ := (hmem i).mp hin
        obtain ⟨slot, hslot, hno⟩ := hf.hasReservedSubpages_iff.mp hres
        rw [Bool.eq_false_iff] at hnone
        exact hnone ((hpage i b hb).hasReservedSubpages_iff.mpr
          ⟨slot, hslot, fun hx => hno (hsub _ hx)⟩)
      cases hres : (page i).hasReservedSubpages with
      | true => simp [hi]
      | false => simp [hold hres]
    · have hno : i ∉ s := fun hin => hi ((hmem i).mp hin).1
      simp [hi, hno]

/-- A call reserves what the range touches. -/
theorem NUMAPool.reserveRange_spec (hl : pool.Located bases)
    (r : PhysMemoryRange) : ∃ pool', pool.reserveRange r = .ok pool'
      ∧ pool'.subrangeInfo = pool.subrangeInfo
      ∧ pool'.Stocked p bases fun a => A a ∧ ¬ r.Touches a := by
  obtain ⟨page, hloop, hpage⟩ := reservePages_spec h hl r
  obtain ⟨pool', hfixup, hsub, h'⟩ := h.fixup
    (show ∀ a, A a ∧ ¬ r.Touches a → A a from fun a ha => ha.1) hpage
  refine ⟨pool', ?_, hsub, h'⟩
  exact (congrArg (· >>= _) hloop).trans hfixup

-- ==== many calls

theorem reserveRanges_spec (hl : pool.Located bases)
    (reserved : List PhysMemoryRange) :
    ∃ pool', reserved.foldlM NUMAPool.reserveRange pool = .ok pool'
      ∧ pool'.subrangeInfo = pool.subrangeInfo
      ∧ pool'.Stocked p bases fun a => A a ∧ ¬ Touched reserved a := by
  have hturn : ∀ done, ∀ r ∈ reserved, ∀ q : NUMAPool,
      (q.subrangeInfo = pool.subrangeInfo
        ∧ q.Stocked p bases fun a => A a ∧ ¬ Touched done a) →
      ∃ q', q.reserveRange r = .ok q'
        ∧ q'.subrangeInfo = pool.subrangeInfo
        ∧ q'.Stocked p bases fun a => A a ∧ ¬ Touched (done ++ [r]) a := by
    rintro done r - q ⟨hsub, hq⟩
    obtain ⟨q', hq', hsub', h'⟩ := NUMAPool.reserveRange_spec hq
      (hl.congr hsub) r
    have heq : (fun a => (A a ∧ ¬ Touched done a) ∧ ¬ r.Touches a)
        = fun a => A a ∧ ¬ Touched (done ++ [r]) a := by
      funext a
      simp [Touched, and_assoc]
    exact ⟨q', hq', hsub'.trans hsub, heq ▸ h'⟩
  have hstart : pool.Stocked p bases fun a => A a ∧ ¬ Touched [] a := by
    have heq : (fun a => A a ∧ ¬ Touched [] a) = A := by
      funext a
      simp [Touched]
    rw [heq]
    exact h
  exact foldlM_tracks hturn ⟨rfl, hstart⟩

/-- A stocked pool is what its available pages make it. -/
theorem NUMAPool.Stocked.agree {pool' : NUMAPool}
    (h' : pool'.Stocked p bases A) :
    pool.freeBigPages = pool'.freeBigPages ∧ pool.paPages = pool'.paPages := by
  have hres : ∀ i < bases.length,
      (pool.bigPageMetadataBuffer i).hasReservedSubpages
        = (pool'.bigPageMetadataBuffer i).hasReservedSubpages := by
    intro i hi
    obtain ⟨b, -, hb, hf⟩ := h.exists_page hi
    rw [Bool.eq_iff_iff, hf.hasReservedSubpages_iff,
      (h'.page i b hb).hasReservedSubpages_iff]
  have hfull : ∀ i < bases.length, (pool.bigPageMetadataBuffer i).isFull
      = (pool'.bigPageMetadataBuffer i).isFull := by
    intro i hi
    obtain ⟨b, -, hb, hf⟩ := h.exists_page hi
    rw [Bool.eq_iff_iff, hf.isFull_iff, (h'.page i b hb).isFull_iff]
  constructor
  · rw [h.free, h'.free]
    refine List.filter_congr fun i hi => ?_
    rw [hres i (List.mem_range.mp hi)]
  · obtain ⟨st, s, hp, hholds, hmem⟩ := h.paPages
    obtain ⟨st', s', hp', hholds', hmem'⟩ := h'.paPages
    have hs : s = s' := by
      ext i
      rw [hmem, hmem']
      refine and_congr_right fun hi => ?_
      rw [hres i hi, hfull i hi]
    subst hs
    rw [hp, hp', hholds.encodes.unique h.sized hholds'.encodes]

/-- What the calls leave of `pool`. -/
structure ReservedFrom (pool : NUMAPool) (reserved : List PhysMemoryRange)
    (pool' : NUMAPool) : Prop where
  available : ∀ a, pool'.isAvailable a = true
    ↔ pool.isAvailable a = true ∧ ¬ Touched reserved a
  free_nodup : pool'.freeBigPages.Nodup
  free : ∀ i, i ∈ pool'.freeBigPages ↔ i < pool'.bigPageCount
    ∧ (pool'.bigPageMetadataBuffer i).hasReservedSubpages = false
  paPages : ∃ s, pool'.paPages.Consistent s
    ∧ (∀ i ∈ s, i < pool'.paPages.capacity)
    ∧ ∀ i, i ∈ s ↔ i < pool'.bigPageCount
      ∧ (pool'.bigPageMetadataBuffer i).hasReservedSubpages = true
      ∧ ∃ slot, (pool'.bigPageMetadataBuffer i).bookkeeper.isSlotFree slot
        = true

theorem NUMAPool.Stocked.paPages_available {i : Nat} (hi : i < bases.length) :
    (pool.bigPageMetadataBuffer i).isFull = false
      ↔ ∃ slot, (pool.bigPageMetadataBuffer i).bookkeeper.isSlotFree slot
        = true := by
  obtain ⟨b, -, -, hf⟩ := h.exists_page hi
  rw [Bool.eq_false_iff, ne_eq, hf.isFull_iff]
  simp only [hf.isSlotFree_iff]
  push Not
  exact Iff.rfl

end

/-- Any calls on a new pool reserve what they touch, and which calls they
were does not matter beyond that; ranges with bytes touch the same pages
when they have the same bytes. -/
theorem reserveRange_touched (ranges : List PhysMemoryRange) (domain : Nat)
    (hlen : ranges.length ≤ maxRangesPerDomain)
    (hok : ∀ r ∈ ranges, r.Usable) (h2 : TwoBigPages ranges) :
    ∃ pool, createNumaPool ranges domain = .ok pool
      ∧ ∀ reserved, ∃ pool',
        reserved.foldlM NUMAPool.reserveRange pool = .ok pool'
        ∧ ReservedFrom pool reserved pool'
        ∧ (∀ reserved', (∀ a, Touched reserved a ↔ Touched reserved' a) →
          ∃ pool'', reserved'.foldlM NUMAPool.reserveRange pool = .ok pool''
            ∧ (∀ a, pool''.isAvailable a = pool'.isAvailable a)
            ∧ pool''.freeBigPages = pool'.freeBigPages
            ∧ pool''.paPages = pool'.paPages)
        ∧ ∀ reserved', (∀ r ∈ reserved ++ reserved', r.start < r.endAddr) →
          (∀ a, Covered reserved a ↔ Covered reserved' a) →
          ∀ a, Touched reserved a ↔ Touched reserved' a := by
  obtain ⟨merged, p, pool, hcreate, h, hsub, -, hstocked⟩ :=
    createNumaPool_spec hlen hok h2
  have hl := located_of_subranges h hsub
  have hin : ∀ reserved a, Covered ranges a ∧ ¬ Touched reserved a →
      bigPageBase a ∈ merged.flatMap TempMergedRange.bigPages :=
    fun reserved a ha => h.bigPageBase_mem ha.1
  have hA : ∀ reserved, ByPage fun a =>
      Covered ranges a ∧ ¬ Touched reserved a := fun reserved a =>
    and_congr (byPage_covered hok a) (not_congr (byPage_touched reserved a))
  refine ⟨pool, hcreate, fun reserved => ?_⟩
  obtain ⟨pool', hrun, hsub', h'⟩ := reserveRanges_spec hstocked hl reserved
  have hl' := hl.congr hsub'
  have havail : ∀ a, pool'.isAvailable a = true
      ↔ pool.isAvailable a = true ∧ ¬ Touched reserved a := by
    intro a
    rw [h'.isAvailable_iff hl' (hA reserved) (hin reserved),
      hstocked.isAvailable_iff hl (byPage_covered hok)
        fun a => h.bigPageBase_mem]
  refine ⟨pool', hrun, ⟨havail, ?_, fun i => ?_, ?_⟩, ?_, ?_⟩
  · rw [h'.free]
    exact List.nodup_range.filter _
  · rw [h'.free, List.mem_filter, List.mem_range, h'.count, Bool.not_eq_true']
  · obtain ⟨st, s, hp, hholds, hmem⟩ := h'.paPages
    refine ⟨s, hp ▸ hholds.consistent h'.sized, hp ▸ hholds.range,
      fun i => ?_⟩
    rw [hmem i, h'.count]
    refine and_congr_right fun hi => and_congr_right fun _ => ?_
    exact h'.paPages_available hi
  · intro reserved' hsame
    obtain ⟨pool'', hrun', hsub'', h''⟩ :=
      reserveRanges_spec hstocked hl reserved'
    have heq : (fun a => Covered ranges a ∧ ¬ Touched reserved' a)
        = fun a => Covered ranges a ∧ ¬ Touched reserved a := by
      funext a
      rw [hsame a]
    rw [heq] at h''
    refine ⟨pool'', hrun', fun a => ?_, h''.agree h'⟩
    rw [Bool.eq_iff_iff, h''.isAvailable_iff (hl.congr hsub'') (hA reserved)
      (hin reserved), h'.isAvailable_iff hl' (hA reserved) (hin reserved)]
  · intro reserved' hne hsame a
    rw [touched_iff_covered fun r hr => hne r (List.mem_append_left _ hr),
      touched_iff_covered fun r hr => hne r (List.mem_append_right _ hr)]
    simp only [hsame]

theorem reserveRange_touched_scattered :
    ∃ pool, createNumaPool scatteredRanges 1 = .ok pool
      ∧ ∃ pool', [⟨0x1234, 0x2345⟩, ⟨0x3fffff, 0x400001⟩].foldlM
          NUMAPool.reserveRange pool = .ok pool'
        ∧ ReservedFrom pool [⟨0x1234, 0x2345⟩, ⟨0x3fffff, 0x400001⟩]
          pool' := by
  obtain ⟨pool, hcreate, h⟩ := reserveRange_touched scatteredRanges 1
    (by decide) usable_scatteredRanges twoBigPages_scatteredRanges
  obtain ⟨pool', hrun, hreserved, -⟩ := h _
  exact ⟨pool, hcreate, pool', hrun, hreserved⟩

/-- A range without a byte, inside a small page. -/
def emptyRange : PhysMemoryRange := ⟨0x1008, 0x1008⟩

theorem reserveRange_emptyRange :
    Returns (fun pool => pool.isAvailable 0x1000 = true
        ∧ Returns (fun pool' => pool'.isAvailable 0x1000 = false)
          (pool.reserveRange emptyRange))
      (createNumaPool scatteredRanges 1) := by
  decide +kernel

/-- A range without a byte takes the page around it out of the pool, and
in the last big page of the address space nothing is ever reserved: its
end is 0. -/
theorem reserveRange_beyond_bytes :
    (∃ pool pool', createNumaPool scatteredRanges 1 = .ok pool
        ∧ pool.reserveRange emptyRange = .ok pool'
        ∧ (∀ x, ¬ Covered [emptyRange] x)
        ∧ pool.isAvailable 0x1000 = true ∧ pool'.isAvailable 0x1000 = false)
      ∧ ∃ pool pool', createNumaPool [topRange] 0 = .ok pool
        ∧ pool.reserveRange topRange = .ok pool'
        ∧ (pool'.bigPageMetadataBuffer 1).baseAddr = 2 ^ 64 - 2 ^ 21
        ∧ (pool'.bigPageMetadataBuffer 1).bookkeeper.isSlotFree 0 = true
        ∧ topRange.Touches (2 ^ 64 - 2 ^ 21) := by
  obtain ⟨pool, hpool, hyes, h⟩ := reserveRange_emptyRange.exists_ok
  obtain ⟨pool', hpool', hno⟩ := h.exists_ok
  refine ⟨⟨pool, pool', hpool, hpool', ?_, hyes, hno⟩, by decide +kernel⟩
  rintro x ⟨r, hr, hlo, hhi⟩
  rw [List.mem_singleton.mp hr] at hlo hhi
  exact absurd (Nat.lt_of_le_of_lt hlo hhi) (Nat.lt_irrefl _)

end CroCOS
