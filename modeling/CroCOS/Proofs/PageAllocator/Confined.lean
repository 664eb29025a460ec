/-
What the calls on a page allocator leave alone.

`Setup` is what no call changes: which pools there are and where their
big pages lie, the policy, and each CPU's nearest pool. `Confined` says
of an allocator in the middle of a call that its pools are sound, that
only the pools in `only` have changed since the call started, and that
the calling CPU caches no page of another pool. An unrestricted call is
confined to all pools, so the lemma of a step serves both kinds of calls.

`small` is whether the call looks at the CPU's local pool at all.
-/
import CroCOS.PageAllocator
import CroCOS.Proofs.NumaPool.Freed

namespace CroCOS

open Function
open Lib (Ensures)

variable {lp : LocalPool}

-- ==== a dry pool

namespace NUMAPool

variable {bases : List Nat} {subranges : List SubrangeInfo}
variable {pool : NUMAPool}

/-- A pool with nothing to give. -/
structure Dry (pool : NUMAPool) : Prop where
  free : pool.freeBigPages = []
  paPages : pool.paPages.Consistent ∅

theorem Dry.getAny (hd : pool.Dry) (h : pool.Sound bases subranges)
    (threadId : BitVec 64) (maxRetries : Nat) :
    pool.paPages.getAny threadId maxRetries = .ok (pool.paPages, .empty) := by
  obtain ⟨p, st, s, hs, -, hp, hholds, -⟩ := h.paPages
  have hempty : s = ∅ := by
    refine Finset.eq_empty_of_forall_notMem fun i hi => ?_
    have hlt := hholds.range i hi
    have hbit := (hholds.consistent hs).members i hlt
    have hdry := hd.paPages.members i (by rw [hp]; exact hlt)
    rw [hp] at hdry
    rw [hdry] at hbit
    simp [hi] at hbit
  subst hempty
  rw [hp]
  rcases AtomicBitPool.getAny_spec hs hholds threadId maxRetries with
    ⟨-, hget⟩ | ⟨st', j, -, hj, -⟩
  · exact hget
  · cases hj

/-- It is asked in vain, and stays as it is. -/
theorem Dry.allocatePages (hd : pool.Dry) (h : pool.Sound bases subranges)
    (pid count : Nat) (flags : AllocFlags) :
    Ensures (fun pr => pr.pool = pool ∧ pr.handedOut = []
        ∧ pr.paPageRemaining = none)
      (pool.allocatePages pid count flags) := by
  have htake : ∀ n, pool.takeFreeBigPages n = ([], pool) := by
    intro n
    unfold takeFreeBigPages
    rw [hd.free, List.take_nil, List.drop_nil, ← hd.free]
  have hpa : ∀ (retries fuel : Nat) (pr : Progress), pr.pool = pool →
      Ensures (fun pr' => pr' = pr)
        (allocateFromPAPages pid retries fuel pr) := by
    intro retries fuel pr hpool
    cases fuel with
    | zero => exact .error _
    | succ fuel =>
      refine .ite (fun _ => .ok rfl) fun _ => ?_
      rw [hpool, hd.getAny h]
      refine .ok ?_
      rw [← hpool]
  have hbig : ∀ (fuel : Nat) (pr : Progress), pr.pool = pool →
      Ensures (fun q => q = (pr, false))
        (allocateFromFreeBigPages pid fuel pr) := by
    intro fuel pr hpool
    cases fuel with
    | zero => exact .error _
    | succ fuel =>
      refine .ite (fun _ => .ok rfl) fun _ => ?_
      simp only [hpool, htake]
      exact .ok rfl
  unfold NUMAPool.allocatePages
  simp only [htake]
  unfold handOutBigPages
  refine .ite (fun _ => .ok ⟨rfl, rfl, rfl⟩) fun _ => ?_
  refine (hpa _ _ _ rfl).bind ?_
  rintro _ rfl
  refine (hbig _ _ rfl).bind ?_
  rintro _ rfl
  refine .ite (fun _ => .ok ⟨rfl, rfl, rfl⟩) fun _ => ?_
  refine (hpa _ _ _ rfl).imp ?_
  rintro _ rfl
  exact ⟨rfl, rfl, rfl⟩

/-- A request for big pages leaves no page over. -/
theorem allocatePages_bigPageOnly {flags : AllocFlags}
    (hflags : flags.bigPageOnly = true) (pid count : Nat) :
    Ensures (fun pr => pr.paPageRemaining = none)
      (pool.allocatePages pid count flags) := by
  refine Ensures.bind (P := fun _ => True) (fun _ _ => trivial) fun r _ => ?_
  dsimp only
  rw [if_pos hflags]
  exact .ok rfl

end NUMAPool

-- ==== the allocator

/-- The pages a local pool holds. -/
def LocalPool.cached (lp : LocalPool) : List PageId :=
  lp.paPage1.toList ++ lp.paPage2.toList

namespace PageAllocatorImpl

/-- What no call changes: the allocator it started as, and the big pages
and subranges of its pools. -/
structure Setup where
  impl : PageAllocatorImpl
  bases : PoolId → List Nat
  subranges : PoolId → List SubrangeInfo

structure Confined (S : Setup) (cpu : Nat) (small : Prop)
    (only : PoolId → Prop) (start a : PageAllocatorImpl) : Prop where
  pool : ∀ id pool, a.pools id = some pool →
    pool.Sound (S.bases id) (S.subranges id)
  present : ∀ id, (a.pools id).isSome = (S.impl.pools id).isSome
  cached : ∀ cpu, ∀ id ∈ (a.localPools cpu).cached,
    id.index < (S.bases id.pool).length
  policy : a.numaPolicy = S.impl.numaPolicy
  nearest : a.cpuNearestPool = S.impl.cpuNearestPool
  others : ∀ id, ¬ only id → a.pools id = start.pools id
  own : small → ∀ id ∈ (a.localPools cpu).cached, only id.pool

/-- The page lies in one of the pools in `only`. -/
def Setup.Serves (S : Setup) (only : PoolId → Prop) (page : PageRef) : Prop :=
  ∃ id, only id ∧ (S.impl.pools id).isSome = true
    ∧ bigPageBase page.addr ∈ S.bases id

variable {S : Setup} {cpu : Nat} {small : Prop} {only : PoolId → Prop}
variable {start a : PageAllocatorImpl}

theorem ensures_pool (h : Confined S cpu small only start a) (id : PoolId) :
    Ensures (fun pool => a.pools id = some pool
        ∧ pool.Sound (S.bases id) (S.subranges id)) (a.pool id) := by
  unfold PageAllocatorImpl.pool
  cases hp : a.pools id with
  | none => exact .error _
  | some pool => exact .ok ⟨rfl, h.pool id pool hp⟩

namespace Confined

section

variable (h : Confined S cpu small only start a)
include h

theorem setPool {id : PoolId} {pool pool' : NUMAPool}
    (hp : a.pools id = some pool)
    (hs : pool'.Sound (S.bases id) (S.subranges id))
    (hid : only id ∨ pool' = pool) :
    Confined S cpu small only start (a.setPool id pool') := by
  refine ⟨fun id' q hq => ?_, fun id' => ?_, h.cached, h.policy, h.nearest,
    fun id' hno => ?_, h.own⟩
  all_goals unfold PageAllocatorImpl.setPool at *
  all_goals by_cases hid' : id' = id
  · subst hid'
    simp only [update_self] at hq
    cases hq
    exact hs
  · simp only [update_of_ne hid'] at hq
    exact h.pool id' q hq
  · subst hid'
    simp only [update_self]
    rw [← h.present, hp]
    rfl
  · simp only [update_of_ne hid']
    exact h.present id'
  · subst hid'
    simp only [update_self]
    rw [← h.others id' hno, hp, hid.resolve_left hno]
  · simp only [update_of_ne hid']
    exact h.others id' hno

theorem setLocalPool
    (hlp : ∀ id ∈ lp.cached, id.index < (S.bases id.pool).length
      ∧ (small → only id.pool)) :
    Confined S cpu small only start (a.setLocalPool cpu lp) := by
  refine ⟨h.pool, h.present, fun cpu' => ?_, h.policy, h.nearest, h.others,
    fun hsmall id hid => ?_⟩
  · unfold PageAllocatorImpl.setLocalPool
    by_cases hc : cpu' = cpu
    · subst hc
      simp only [update_self]
      exact fun id hid => (hlp id hid).1
    · simp only [update_of_ne hc]
      exact h.cached cpu'
  · simp only [PageAllocatorImpl.setLocalPool, update_self] at hid
    exact (hlp id hid).2 hsmall

theorem setPage {id : PageId} (hid : only id.pool) {m : BigPageMetadata}
    (hm : ∀ pool, a.pools id.pool = some pool →
      m.baseAddr = (pool.bigPageMetadataBuffer id.index).baseAddr) :
    Ensures (Confined S cpu small only start) (a.setPage id m) := by
  refine (ensures_pool h id.pool).bind fun pool hp => .ok ?_
  exact h.setPool hp.1 (hp.2.setPage _ (hm pool hp.1)) (.inl hid)

theorem returnPage {id : PageId} (hid : only id.pool)
    (hlt : id.index < (S.bases id.pool).length) (evictedAsFull : Bool) :
    Ensures (Confined S cpu small only start)
      (a.returnPage id evictedAsFull) := by
  refine (ensures_pool h id.pool).bind fun pool hp => ?_
  exact (hp.2.returnBigPage hlt evictedAsFull).bind fun pool' hp' =>
    .ok (h.setPool hp.1 hp' (.inl hid))

/-- The metadata of a page, where it is. -/
theorem page (id : PageId) :
    Ensures (fun m => ∀ pool, a.pools id.pool = some pool →
      m = pool.bigPageMetadataBuffer id.index) (a.page id) := by
  refine (ensures_pool h id.pool).bind fun pool hp => .ok fun pool' hp' => ?_
  rw [hp.1] at hp'
  cases hp'
  rfl

theorem markAllocHolder {id : PageId} (hid : only id.pool) (pid : Nat) :
    Ensures (Confined S cpu small only start) (a.markAllocHolder id pid) := by
  refine (h.page id).bind fun m hm => ?_
  refine (BigPageMetadata.markAllocHolder_baseAddr pid).bind fun m' hm' => ?_
  exact h.setPage hid fun pool hp => by rw [hm', hm pool hp]

end

end Confined

-- ==== local pools

/-- The allocator and the pages it has handed out so far. -/
def Served (S : Setup) (cpu : Nat) (small : Prop) (only : PoolId → Prop)
    (start a : PageAllocatorImpl) (pages : List PageRef) : Prop :=
  Confined S cpu small only start a ∧ ∀ page ∈ pages, S.Serves only page

/-- Pages of a big page that the allocator still has. -/
theorem Confined.serves (h : Confined S cpu small only start a) {id : PageId}
    (hid : only id.pool) (hlt : id.index < (S.bases id.pool).length)
    {pool : NUMAPool} (hp : a.pools id.pool = some pool)
    {pages : List PageRef} {m : BigPageMetadata}
    (hm : m.baseAddr = (pool.bigPageMetadataBuffer id.index).baseAddr)
    (hpages : ∀ page ∈ pages, m.Within page) :
    ∀ page ∈ pages, S.Serves only page := fun page hpage =>
  ⟨id.pool, hid, by rw [← h.present, hp]; rfl,
    (h.pool _ _ hp).pagesOf hlt hm hpages page hpage⟩

theorem Confined.allocFromPAPage (h : Confined S cpu small only start a)
    {id : PageId} (hid : only id.pool)
    (hlt : id.index < (S.bases id.pool).length) (lp : LocalPool)
    (count : Nat) :
    Ensures (fun r => Served S cpu small only start r.1 r.2.1)
      (a.allocFromPAPage lp id count) := by
  unfold PageAllocatorImpl.allocFromPAPage
  cases hp : a.pools id.pool with
  | none =>
    unfold PageAllocatorImpl.page PageAllocatorImpl.pool
    rw [hp]
    exact .error _
  | some pool =>
    refine (h.page id).bind fun m hm => ?_
    have hm' := hm pool hp
    refine .ite (fun _ => ?_) fun _ => ?_
    · exact (h.returnPage hid hlt false).bind fun a' h' =>
        .ok ⟨h', by simp⟩
    · refine (BigPageMetadata.allocatePages_gives _ _).bind fun r hr => ?_
      have hpages := h.serves hid hlt hp (congrArg _ hm') hr.2
      refine (h.setPage hid fun q hq => by rw [hr.1, hm q hq]).bind
        fun a' h' => ?_
      refine .ite (fun _ => ?_) fun _ => .ok ⟨h', hpages⟩
      exact (h'.returnPage hid hlt true).bind fun a'' h'' =>
        .ok ⟨h'', hpages⟩

theorem mem_cached_iff {id : PageId} :
    id ∈ lp.cached ↔ lp.paPage1 = some id ∨ lp.paPage2 = some id := by
  simp [LocalPool.cached]

/-- What is left after the page in the first slot is gone. -/
theorem cached_of_gone {lp' : LocalPool} {gone : Bool}
    (hlp : lp'.cached ⊆ lp.cached) {id : PageId}
    (h : id ∈ (if gone then lp' else lp).cached) : id ∈ lp.cached := by
  cases gone with
  | true => exact hlp h
  | false => exact h

theorem Confined.allocateLocal (h : Confined S cpu small only start a)
    (count : Nat) (flags : AllocFlags)
    (hflags : flags.bigPageOnly = false → small) :
    Ensures (fun r => Served S cpu small only start r.1 r.2)
      (a.allocateLocal cpu count flags) := by
  refine .ite (fun _ => .ok ⟨h, by simp⟩) fun hbig => ?_
  have hsmall := hflags (Bool.eq_false_iff.mpr hbig)
  have hmem : ∀ id ∈ (a.localPools cpu).cached,
      id.index < (S.bases id.pool).length ∧ only id.pool := fun id hid =>
    ⟨h.cached cpu id hid, h.own hsmall id hid⟩
  dsimp only
  cases h1 : (a.localPools cpu).paPage1 with
  | none => exact .ok ⟨h, by simp⟩
  | some page1 =>
    obtain ⟨hlt1, hid1⟩ := hmem page1 (mem_cached_iff.mpr (.inl h1))
    refine (h.allocFromPAPage hid1 hlt1 _ _).bind fun r hr => ?_
    obtain ⟨a', pages, gone⟩ := r
    obtain ⟨h', hpages⟩ := hr
    have hkept : ∀ id, id ∈ (if gone then
        { a.localPools cpu with
          paPage1 := (a.localPools cpu).paPage2
          paPage2 := none }
        else a.localPools cpu).cached → id ∈ (a.localPools cpu).cached :=
      fun id hid => cached_of_gone (by simp [LocalPool.cached]) hid
    have hset := h'.setLocalPool fun id hid =>
      ⟨(hmem id (hkept id hid)).1, fun _ => (hmem id (hkept id hid)).2⟩
    refine .ite (fun _ => .ok ⟨hset, hpages⟩) fun _ => ?_
    generalize hlp : (if gone then
        { a.localPools cpu with
          paPage1 := (a.localPools cpu).paPage2
          paPage2 := none }
        else a.localPools cpu) = lp at *
    cases h2 : lp.paPage1 with
    | none => exact .ok ⟨hset, hpages⟩
    | some page2 =>
      obtain ⟨hlt2, hid2⟩ := hmem page2
        (hkept page2 (mem_cached_iff.mpr (.inl h2)))
      refine (hset.allocFromPAPage hid2 hlt2 _ _).bind fun r hr => ?_
      obtain ⟨h'', hmore⟩ := hr
      refine .ok ⟨h''.setLocalPool fun id hid => ?_, fun page hpage =>
        (List.mem_append.mp hpage).elim (hpages page) (hmore page)⟩
      have hin : id ∈ lp.cached :=
        cached_of_gone (by simp [LocalPool.cached]) hid
      exact ⟨(hmem id (hkept id hin)).1, fun _ =>
        (hmem id (hkept id hin)).2⟩

/-- A page that the calling CPU may cache. -/
def MayCache (S : Setup) (small : Prop) (only : PoolId → Prop)
    (id : PageId) : Prop :=
  id.index < (S.bases id.pool).length ∧ (small → only id.pool)

theorem Confined.mayCache (h : Confined S cpu small only start a)
    {id : PageId} (hid : id ∈ (a.localPools cpu).cached) :
    MayCache S small only id :=
  ⟨h.cached cpu id hid, fun hsmall => h.own hsmall id hid⟩

theorem Confined.cachePage (h : Confined S cpu small only start a)
    {id : PageId} (hid : only id.pool) {paPage1 paPage2 : Option PageId}
    (h1 : ∀ x, paPage1 = some x → MayCache S small only x)
    (h2 : ∀ x, paPage2 = some x → MayCache S small only x) :
    Ensures (Confined S cpu small only start)
      (a.cachePage cpu id paPage1 paPage2) := by
  refine (h.markAllocHolder hid _).bind fun a' h' => .ok ?_
  refine h'.setLocalPool fun x hx => ?_
  exact (mem_cached_iff.mp hx).elim (h1 x) (h2 x)

section give

variable (h : Confined S cpu small only start a) (hsmall : small)
variable {id : PageId} (hid : only id.pool)
variable (hlt : id.index < (S.bases id.pool).length)
include h hsmall hid hlt

theorem Confined.tryGiveByDistance (topology : Numa.NUMATopology) :
    Ensures (Confined S cpu small only start)
      (a.tryGiveByDistance cpu topology id) := by
  have hany : ∀ page, Ensures (fun _ => True)
      (a.distanceTo topology (a.localPools cpu).pid page) :=
    fun _ _ _ => trivial
  have hnew : ∀ x, some id = some x → MayCache S small only x := fun x hx =>
    Option.some.inj hx ▸ ⟨hlt, fun _ => hid⟩
  have h2 : ∀ x, (a.localPools cpu).paPage2 = some x →
      MayCache S small only x := fun x hx =>
    h.mayCache (mem_cached_iff.mpr (.inr hx))
  refine (hany id).bind fun dNew _ => ?_
  cases hp1 : (a.localPools cpu).paPage1 with
  | none => exact h.cachePage hid hnew h2
  | some page1 =>
    have h1 : ∀ x, some page1 = some x → MayCache S small only x :=
      fun x hx => h.mayCache (mem_cached_iff.mpr (.inl (hp1.trans hx)))
    refine (hany page1).bind fun d1 _ => ?_
    cases hp2 : (a.localPools cpu).paPage2 with
    | none =>
      exact .ite (fun _ => h.cachePage hid hnew h1)
        fun _ => h.cachePage hid h1 hnew
    | some page2 =>
      obtain ⟨hlt2, hid2⟩ := h2 page2 hp2
      refine (hany page2).bind fun d2 _ => ?_
      refine .ite (fun _ => h.returnPage hid hlt false) fun _ => ?_
      refine .ite (fun _ => ?_) fun _ => ?_
      · exact (h.cachePage hid hnew h1).bind fun a' h' =>
          h'.returnPage (hid2 hsmall) hlt2 false
      · exact (h.cachePage hid h1 hnew).bind fun a' h' =>
          h'.returnPage (hid2 hsmall) hlt2 false

theorem Confined.tryGivePAPage :
    Ensures (Confined S cpu small only start) (a.tryGivePAPage cpu id) := by
  have hnew : ∀ x, some id = some x → MayCache S small only x := fun x hx =>
    Option.some.inj hx ▸ ⟨hlt, fun _ => hid⟩
  have h1 : ∀ x, (a.localPools cpu).paPage1 = some x →
      MayCache S small only x := fun x hx =>
    h.mayCache (mem_cached_iff.mpr (.inl hx))
  have h2 : ∀ x, (a.localPools cpu).paPage2 = some x →
      MayCache S small only x := fun x hx =>
    h.mayCache (mem_cached_iff.mpr (.inr hx))
  refine (h.page id).bind fun m _ => ?_
  refine .ite (fun _ => h.returnPage hid hlt false) fun _ => ?_
  dsimp only
  cases hp1 : (a.localPools cpu).paPage1 with
  | none =>
    refine Ensures.bind (.ok rfl) ?_
    rintro _ rfl
    cases (a.localPools cpu).topology with
    | some topology => exact h.tryGiveByDistance hsmall hid hlt topology
    | none => exact h.cachePage hid hnew h2
  | some page1 =>
    obtain ⟨hlt1, hid1⟩ := h1 page1 hp1
    refine (h.page page1).bind fun m1 _ => ?_
    refine Ensures.bind (P := fun _ => True) (fun _ _ => trivial)
      fun released _ => .ite (fun _ => ?_) fun _ => ?_
    · exact (h.returnPage (hid1 hsmall) hlt1 false).bind fun a' h' =>
        h'.cachePage hid hnew h2
    · cases (a.localPools cpu).topology with
      | some topology => exact h.tryGiveByDistance hsmall hid hlt topology
      | none =>
        exact .ite (fun _ => h.cachePage hid hnew h2) fun _ =>
          .ite (fun _ => h.cachePage hid (hp1 ▸ h1) hnew) fun _ =>
            h.returnPage hid hlt false

end give

end PageAllocatorImpl

end CroCOS
