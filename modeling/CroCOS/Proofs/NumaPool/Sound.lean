/-
What every call on a pool keeps: its big pages stay where they are, and
every index it has in `freeBigPages` or `paPages` is one of theirs. So a
pool only hands out its own pages (`allocatePages_own`), whatever is
freed to it.

The rules are about calls that return: nothing is assumed about the
pages that are freed, and a free of the wrong pages may fault.
-/
import CroCOS.Lib.Ensures
import CroCOS.Proofs.NumaPool.Reserve

namespace CroCOS

open Lib (Ensures)

variable {bases : List Nat} {subranges : List SubrangeInfo}
variable {i : Nat}

-- ==== one big page

namespace BigPageMetadata

variable {m : BigPageMetadata}

/-- The slots that are claimed are slots of the bitmap. -/
theorem claimSlots_lt {n : Nat} (count : Nat) (b : SplitBitmap n) :
    ∀ slot ∈ (LibAlloc.SlabBookkeeper.claimSlots count b).1, slot < 64 * n := by
  have hscan : ∀ (v : BitVec (64 * n)) (lo : Nat) {i : Nat},
      Lib.Bitmap.scanFrom v lo = some i → i < 64 * n := fun v lo i h =>
    List.mem_range.mp (List.mem_of_find?_eq_some h)
  have hnoDrain : ∀ (b : SplitBitmap n) {i : Nat},
      b.tryClaimBitNoDrain.1 = some i → i < 64 * n := by
    intro b i h
    unfold SplitBitmap.tryClaimBitNoDrain at h
    split at h
    · cases h
    · rename_i bit hbit
      cases h
      exact hscan _ _ hbit
  have hclaim : ∀ (b : SplitBitmap n) {i : Nat},
      b.claimBit.1 = some i → i < 64 * n := by
    intro b i h
    unfold SplitBitmap.claimBit at h
    dsimp only at h
    split at h
    · exact hnoDrain b h
    · split at h
      · exact hnoDrain _ h
      · cases h
  induction count generalizing b with
  | zero =>
    intro slot h
    cases h
  | succ count ih =>
    intro slot h
    unfold LibAlloc.SlabBookkeeper.claimSlots at h
    rcases hb : b.claimBit with ⟨_ | bit, b'⟩
    · rw [hb] at h
      cases h
    · rw [hb] at h
      rcases List.mem_cons.mp h with rfl | h
      · exact hclaim b (by rw [hb])
      · exact ih b' slot h

/-- A page handed out lies in its big page. -/
def Within (m : BigPageMetadata) (page : PageRef) : Prop :=
  bigPageSize ∣ m.baseAddr → bigPageBase page.addr = m.baseAddr

theorem within_fromPageIndex {slot : Nat} (h : slot < smallPagesPerBigPage) :
    m.Within (m.fromPageIndex slot) := fun hdvd =>
  bigPageBase_eq hdvd (Nat.le_add_right ..) (pageAddr_lt m.baseAddr h)

/-- Pages of the big page, which stays at its address. -/
def Gives (m : BigPageMetadata) (pages : List PageRef)
    (m' : BigPageMetadata) : Prop :=
  m'.baseAddr = m.baseAddr ∧ ∀ page ∈ pages, m.Within page

theorem alloc_gives (count : Nat) :
    m.Gives (m.alloc count).1 (m.alloc count).2.2 := by
  refine ⟨rfl, fun page hpage => ?_⟩
  obtain ⟨slot, hslot, rfl⟩ := List.mem_map.mp hpage
  exact within_fromPageIndex (claimSlots_lt count _ slot hslot)

theorem allocateLoop_gives :
    ∀ (fuel wanted : Nat) (t : OccupancyTransition) (m : BigPageMetadata),
      Ensures (fun r => m.Gives r.1 r.2.2) (allocateLoop fuel wanted t m) := by
  intro fuel
  induction fuel with
  | zero => exact fun _ _ _ => .error _
  | succ fuel ih =>
    intro wanted t m
    refine .ite (fun _ => .ok ⟨rfl, by simp⟩) fun _ => ?_
    obtain ⟨hbase, hpages⟩ := m.alloc_gives wanted
    refine .ite (fun _ => .ok ⟨hbase, hpages⟩) fun _ => ?_
    refine (ih _ _ _).bind fun r hr => .ok ⟨hr.1.trans hbase, ?_⟩
    intro page hpage
    rcases List.mem_append.mp hpage with hpage | hpage
    · exact hpages page hpage
    · exact hr.2 page hpage

theorem allocatePages_gives (pid count : Nat) :
    Ensures (fun r => m.Gives r.1 r.2.2) (m.allocatePages pid count) := by
  exact .ite (fun _ => .error _) fun _ => .ite (fun _ => .error _) fun _ =>
    allocateLoop_gives _ _ _ _

theorem allocAll_baseAddr :
    Ensures (fun m' => m'.baseAddr = m.baseAddr) m.allocAll := by
  exact .ite (fun _ => .error _) fun _ => .ok rfl

theorem freeAll_baseAddr :
    Ensures (fun m' => m'.baseAddr = m.baseAddr) m.freeAll := by
  unfold freeAll
  split
  · exact .error _
  · exact Ensures.bind (P := fun _ => True) (fun _ _ => trivial)
      fun _ _ => .ok rfl

theorem markAllocHolder_baseAddr (pid : Nat) :
    Ensures (fun m' => m'.baseAddr = m.baseAddr) (m.markAllocHolder pid) := by
  exact .ite (fun _ => .ok rfl) fun _ => .error _

theorem freePages_baseAddr (pages : List PageRef) :
    Ensures (fun r => r.2.baseAddr = m.baseAddr) (m.freePages pages) := by
  exact Ensures.bind (P := fun _ => True) (fun _ _ => trivial) fun _ _ =>
    Ensures.bind (P := fun _ => True) (fun _ _ => trivial) fun _ _ => .ok rfl

end BigPageMetadata

-- ==== the pool

namespace NUMAPool

/-- The big pages at `bases` are found through `subranges`. -/
structure Layout (bases : List Nat) (subranges : List SubrangeInfo) : Prop where
  dvd : ∀ b ∈ bases, bigPageSize ∣ b
  found : ∀ a, bigPageBase a ∈ bases →
    ∃ i, findIn subranges (bigPageBase a) = some i
      ∧ bases[i]? = some (bigPageBase a)
  missing : ∀ a, bigPageBase a ∉ bases → findIn subranges (bigPageBase a) = none
  aligned : ∀ sr ∈ subranges, bigPageSize ∣ sr.rangeStart
    ∧ bigPageSize ∣ sr.rangeEnd
  apart : subranges.Pairwise fun x y => x.rangeEnd ≤ y.rangeStart

/-- The big pages of the pool are those at `bases`, and every index it
has to give is one of theirs. -/
structure Sound (pool : NUMAPool) (bases : List Nat)
    (subranges : List SubrangeInfo) : Prop where
  layout : Layout bases subranges
  count : pool.bigPageCount = bases.length
  subranges : pool.subrangeInfo = subranges
  base : ∀ i b, bases[i]? = some b → (pool.bigPageMetadataBuffer i).baseAddr = b
  free : ∀ i ∈ pool.freeBigPages, i < bases.length
  paPages : ∃ (p : AtomicBitPool) (st : _) (s : _), p.Sized ∧ bases.length ≤ p.capacity
    ∧ pool.paPages = p.on st ∧ p.Holds st s ∧ ∀ i ∈ s, i < bases.length

variable {pool : NUMAPool}

namespace Sound

section

variable (h : pool.Sound bases subranges)
include h

theorem setPage (i : Nat) {m : BigPageMetadata}
    (hm : m.baseAddr = (pool.bigPageMetadataBuffer i).baseAddr) :
    (pool.setPage i m).Sound bases subranges := by
  refine ⟨h.layout, h.count, h.subranges, fun j b hj => ?_, h.free, h.paPages⟩
  unfold NUMAPool.setPage
  dsimp only
  by_cases hij : j = i
  · subst hij
    rw [Function.update_self, hm]
    exact h.base j b hj
  · rw [Function.update_of_ne hij]
    exact h.base j b hj

theorem baseAddr_mem (hi : i < bases.length) :
    (pool.bigPageMetadataBuffer i).baseAddr ∈ bases := by
  rw [h.base i _ (List.getElem?_eq_getElem hi)]
  exact List.getElem_mem hi

theorem write {indexes : List Nat} (hlt : ∀ i ∈ indexes, i < bases.length) :
    Sound { pool with freeBigPages := pool.freeBigPages ++ indexes }
      bases subranges :=
  ⟨h.layout, h.count, h.subranges, h.base, fun i hi =>
    (List.mem_append.mp hi).elim (h.free i) (hlt i), h.paPages⟩

theorem writeFreeBigPages {indexes : List Nat}
    (hlt : ∀ i ∈ indexes, i < bases.length) :
    (pool.writeFreeBigPages indexes).Sound bases subranges := by
  unfold NUMAPool.writeFreeBigPages
  split
  · exact h
  · exact h.write hlt

theorem takeFreeBigPages (count : Nat) :
    (∀ i ∈ (pool.takeFreeBigPages count).1, i < bases.length)
      ∧ (pool.takeFreeBigPages count).2.Sound bases subranges :=
  ⟨fun i hi => h.free i (List.mem_of_mem_take hi),
    h.layout, h.count, h.subranges, h.base,
    fun i hi => h.free i (List.mem_of_mem_drop hi), h.paPages⟩

theorem addPAPage (hi : i < bases.length) :
    Ensures (·.Sound bases subranges) (pool.addPAPage i) := by
  obtain ⟨p, st, s, hs, hroom, hp, hholds, hlt⟩ := h.paPages
  obtain ⟨st', hadd, hholds'⟩ := AtomicBitPool.add_spec hs hholds
    (Nat.lt_of_lt_of_le hi hroom)
  unfold NUMAPool.addPAPage
  rw [hp, hadd]
  refine .ok ⟨h.layout, h.count, h.subranges, h.base, h.free, p, st', _, hs, hroom, rfl,
    hholds', fun j hj => ?_⟩
  rcases Finset.mem_insert.mp hj with rfl | hj
  · exact hi
  · exact hlt j hj

theorem removePAPage (hi : i < bases.length) :
    Ensures (fun r => Sound { pool with paPages := r.1 } bases subranges)
      (pool.paPages.remove i) := by
  obtain ⟨p, st, s, hs, hroom, hp, hholds, hlt⟩ := h.paPages
  obtain ⟨st', hremove, hholds'⟩ := AtomicBitPool.remove_spec hs hholds
    (Nat.lt_of_lt_of_le hi hroom)
  rw [hp, hremove]
  exact .ok ⟨h.layout, h.count, h.subranges, h.base, h.free, p, st', _, hs, hroom, rfl,
    hholds', fun j hj => hlt j (Finset.mem_of_mem_erase hj)⟩

theorem getAny (threadId : BitVec 64) (maxRetries : Nat) :
    Ensures (fun r => Sound { pool with paPages := r.1 } bases subranges
        ∧ ∀ i, r.2 = .success i → i < bases.length)
      (pool.paPages.getAny threadId maxRetries) := by
  obtain ⟨p, st, s, hs, hroom, hp, hholds, hlt⟩ := h.paPages
  rw [hp]
  rcases AtomicBitPool.getAny_spec hs hholds threadId maxRetries with
    ⟨-, hget⟩ | ⟨st', j, hget, hj, hholds'⟩
  · rw [hget]
    refine .ok ⟨⟨h.layout, h.count, h.subranges, h.base, h.free, p, st, s, hs, hroom,
      rfl, hholds, hlt⟩, fun i hi => by cases hi⟩
  · rw [hget]
    refine .ok ⟨⟨h.layout, h.count, h.subranges, h.base, h.free, p, st', _, hs, hroom,
      rfl, hholds', fun i hi => hlt i (Finset.mem_of_mem_erase hi)⟩,
      fun i hi => ?_⟩
    cases hi
    exact hlt j hj

theorem returnBigPage (hi : i < bases.length) (evictedAsFull : Bool) :
    Ensures (·.Sound bases subranges) (pool.returnBigPage i evictedAsFull) := by
  have h' := h.setPage i (m := ((pool.bigPageMetadataBuffer i).flushAllocBitmap
    ).releaseAllocHolder) rfl
  refine .ite (fun _ => .ok h') fun _ => .ite (fun _ => .ok ?_) fun _ => ?_
  · exact h'.writeFreeBigPages fun j hj => List.mem_singleton.mp hj ▸ hi
  · exact h'.addPAPage hi

end

end Sound

-- ==== allocate

/-- Pages of the big pages at `bases`. -/
def PagesOf (bases : List Nat) (pages : List PageRef) : Prop :=
  ∀ page ∈ pages, bigPageBase page.addr ∈ bases

theorem PagesOf.append {pages more : List PageRef}
    (h : PagesOf bases pages) (h' : PagesOf bases more) :
    PagesOf bases (pages ++ more) := fun page hpage =>
  (List.mem_append.mp hpage).elim (h page) (h' page)

theorem Sound.pagesOf (h : pool.Sound bases subranges)
    (hi : i < bases.length) {pages : List PageRef} {m : BigPageMetadata}
    (hm : m.baseAddr = (pool.bigPageMetadataBuffer i).baseAddr)
    (hpages : ∀ page ∈ pages, m.Within page) : PagesOf bases pages := by
  intro page hpage
  have hmem := h.baseAddr_mem hi
  rw [hpages page hpage (hm ▸ h.layout.dvd _ hmem), hm]
  exact hmem

theorem handOutBigPages_own (mustBeEmpty : Bool) :
    ∀ (indexes : List Nat) (pool : NUMAPool), pool.Sound bases subranges →
      (∀ i ∈ indexes, i < bases.length) →
      Ensures (fun r => r.1.Sound bases subranges ∧ PagesOf bases r.2)
        (handOutBigPages mustBeEmpty indexes pool) := by
  intro indexes
  induction indexes with
  | nil => exact fun pool h _ => .ok ⟨h, by simp [PagesOf]⟩
  | cons i indexes ih =>
    intro pool h hlt
    have hi := hlt i List.mem_cons_self
    unfold handOutBigPages
    dsimp only
    split
    · exact .error _
    · refine BigPageMetadata.allocAll_baseAddr.bind fun m hm => ?_
      refine (ih _ (h.setPage i hm) fun j hj =>
        hlt j (List.mem_cons_of_mem i hj)).bind fun r hr => .ok ⟨hr.1, ?_⟩
      have hfirst : PagesOf bases [⟨m.baseAddr, .big⟩] :=
        h.pagesOf hi rfl fun page hpage hdvd => by
          rw [List.mem_singleton.mp hpage]
          exact bigPageBase_eq hdvd (hm ▸ le_rfl)
            (hm ▸ Nat.lt_add_of_pos_right (by decide))
      exact hfirst.append hr.2

/-- What an allocation under way has to do with the pool. -/
structure Progress.Sound (pr : Progress) (bases : List Nat)
    (subranges : List SubrangeInfo) : Prop where
  pool : pr.pool.Sound bases subranges
  handedOut : PagesOf bases pr.handedOut
  remaining : ∀ i, pr.paPageRemaining = some i → i < bases.length

theorem allocateFromPage_own (pid i : Nat) (hi : i < bases.length) :
    ∀ (fuel : Nat) (pr : Progress), pr.Sound bases subranges →
      Ensures (·.Sound bases subranges) (allocateFromPage pid i fuel pr) := by
  intro fuel
  induction fuel with
  | zero => exact fun _ _ => .error _
  | succ fuel ih =>
    intro pr h
    refine (BigPageMetadata.allocatePages_gives _ _).bind fun r hr => ?_
    obtain ⟨pages, stateChange, m⟩ := r
    obtain ⟨hm, hpages⟩ := hr
    have hout := h.handedOut.append (h.pool.pagesOf hi rfl hpages)
    dsimp only
    split
    · exact .error _
    · have hset := h.pool.setPage i hm
      have hrel := hset.setPage i (m := m.releaseAllocHolder)
        (by simp [NUMAPool.setPage, BigPageMetadata.releaseAllocHolder])
      refine .ite (fun _ => .ok ⟨hrel, hout, h.remaining⟩) fun _ =>
        .ite (fun _ => .ok ⟨hrel, hout, ?_⟩) fun _ =>
          ih _ ⟨hset, hout, h.remaining⟩
      intro j hj
      cases hj
      exact hi

theorem allocateFromPAPages_own (pid maxRetries : Nat) :
    ∀ (fuel : Nat) (pr : Progress), pr.Sound bases subranges →
      Ensures (·.Sound bases subranges)
        (allocateFromPAPages pid maxRetries fuel pr) := by
  intro fuel
  induction fuel with
  | zero => exact fun _ _ => .error _
  | succ fuel ih =>
    intro pr h
    refine .ite (fun _ => .ok h) fun _ => ?_
    refine (h.pool.getAny _ _).bind fun r hr => ?_
    obtain ⟨paPages, result⟩ := r
    cases result with
    | success i =>
      have hi := hr.2 i rfl
      refine (BigPageMetadata.markAllocHolder_baseAddr pid).bind
        fun m hm => ?_
      refine (allocateFromPage_own pid i hi _ _ ?_).bind ih
      exact ⟨hr.1.setPage i hm, h.handedOut, h.remaining⟩
    | empty | contended => exact .ok ⟨hr.1, h.handedOut, h.remaining⟩

theorem allocateFromFreeBigPages_own (pid : Nat) :
    ∀ (fuel : Nat) (pr : Progress), pr.Sound bases subranges →
      Ensures (·.1.Sound bases subranges)
        (allocateFromFreeBigPages pid fuel pr) := by
  intro fuel
  induction fuel with
  | zero => exact fun _ _ => .error _
  | succ fuel ih =>
    intro pr h
    refine .ite (fun _ => .ok h) fun _ => ?_
    obtain ⟨hlt, htaken⟩ := h.pool.takeFreeBigPages
      (divideAndRoundUp pr.smallPageCount smallPagesPerBigPage)
    dsimp only
    split
    · exact .ok h
    · rename_i first rest hgrabbed
      have hfirst := hlt first (hgrabbed ▸ List.mem_cons_self)
      have hrest : ∀ i ∈ rest, i < bases.length := fun i hi =>
        hlt i (hgrabbed ▸ List.mem_cons_of_mem first hi)
      refine .ite (fun _ => ?_) fun _ => ?_
      · refine (handOutBigPages_own true _ _ htaken hlt).bind fun r hr => ?_
        exact ih _ ⟨hr.1, h.handedOut.append hr.2, h.remaining⟩
      · split
        · exact .error _
        · refine (handOutBigPages_own true _ _ htaken hrest).bind
            fun r hr => ?_
          have hout := h.handedOut.append hr.2
          refine .ite (fun _ => ?_) fun _ => ?_
          · refine (handOutBigPages_own false [first] _ hr.1 fun i hi =>
              List.mem_singleton.mp hi ▸ hfirst).bind fun q hq => ?_
            exact ih _ ⟨hq.1, hout.append hq.2, fun i hi => by cases hi⟩
          · refine (BigPageMetadata.markAllocHolder_baseAddr pid).bind
              fun m hm => ?_
            refine (BigPageMetadata.allocatePages_gives _ _).bind
              fun q hq => ?_
            obtain ⟨pages, t, m'⟩ := q
            split
            · exact .error _
            · refine .ok ⟨hr.1.setPage first (hq.1.trans hm),
                hout.append (hr.1.pagesOf hfirst hm hq.2), fun i hi => ?_⟩
              cases hi
              exact hfirst

/-- A pool hands out its own pages. -/
theorem allocatePages_own (h : pool.Sound bases subranges)
    (pid count : Nat) (flags : AllocFlags) :
    Ensures (·.Sound bases subranges) (pool.allocatePages pid count flags) := by
  obtain ⟨hlt, htaken⟩ := h.takeFreeBigPages (if flags.bigPageOnly then
      divideAndRoundUp count smallPagesPerBigPage
    else count / smallPagesPerBigPage)
  refine (handOutBigPages_own false _ _ htaken hlt).bind fun r hr => ?_
  have hpr : ∀ pr : Progress, pr.pool = r.1 → pr.handedOut = r.2 →
      pr.paPageRemaining = none → pr.Sound bases subranges := by
    intro pr hpool hout hrem
    refine ⟨hpool ▸ hr.1, hout ▸ hr.2, fun i hi => ?_⟩
    rw [hrem] at hi
    cases hi
  refine .ite (fun _ => .ok (hpr _ rfl rfl rfl)) fun _ => ?_
  refine (allocateFromPAPages_own pid _ _ _ (hpr _ rfl rfl rfl)).bind
    fun pr h' => ?_
  refine (allocateFromFreeBigPages_own pid _ pr h').bind fun q hq => ?_
  obtain ⟨pr', served⟩ := q
  exact .ite (fun _ => .ok hq) fun _ => allocateFromPAPages_own pid _ _ pr' hq

end NUMAPool

end CroCOS
