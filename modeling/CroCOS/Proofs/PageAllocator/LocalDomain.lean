/-
Where the pages of a request come from.

A request only asks pools that it is confined to, or that have nothing
to give (`Asks`), so every page it hands out is of a pool it is confined
to. For a LOCAL_DOMAIN_ONLY request that is the pool of the caller's
nearest domain, or of the target domain, under two conditions that the
code does not see to: the unowned pool, which is asked at the end of
every request, has nothing to give, and the calling CPU has not cached a
page of another pool in an earlier request.
-/
import CroCOS.Proofs.PageAllocator.Confined

namespace CroCOS.PageAllocatorImpl

open Lib


variable {S : Setup} {cpu : Nat} {small : Prop} {only : PoolId → Prop}
variable {start a : PageAllocatorImpl}
variable {id : PoolId}

-- ==== requests

/-- A pool that a request may ask. -/
def Asks (only : PoolId → Prop) (start : PageAllocatorImpl) (id : PoolId) :
    Prop :=
  only id ∨ ∀ pool, start.pools id = some pool → pool.Dry

/-- A request under way that is confined to its pools. -/
def Request.Ok (S : Setup) (cpu : Nat) (small : Prop) (only : PoolId → Prop)
    (start : PageAllocatorImpl) (r : Request) : Prop :=
  Served S cpu small only start r.impl r.handedOut

variable {r : Request} {flags : AllocFlags}

theorem Served.append {pages more : List PageRef} {a' : PageAllocatorImpl}
    (h : Served S cpu small only start a pages)
    (h' : Served S cpu small only start a' more) :
    Served S cpu small only start a' (pages ++ more) :=
  ⟨h'.1, fun page hpage =>
    (List.mem_append.mp hpage).elim (h.2 page) (h'.2 page)⟩

theorem Request.Ok.fromPool (h : r.Ok S cpu small only start) (pid : Nat)
    (hid : Asks only start id) (count : Nat)
    {extras : PageAllocatorImpl → PageId → Except Fault PageAllocatorImpl}
    (hextras : flags.bigPageOnly = false → ∀ a index,
      Confined S cpu small only start a → only id →
      index < (S.bases id).length →
      Ensures (Confined S cpu small only start) (extras a ⟨id, index⟩)) :
    Ensures (Request.Ok S cpu small only start)
      (r.fromPool pid id count flags extras) := by
  refine (ensures_pool h.1 id).bind fun pool hp => ?_
  obtain ⟨hp, hs⟩ := hp
  by_cases hin : only id
  · refine ((NUMAPool.allocatePages_own hs pid count flags).and
      (Q := fun pr => flags.bigPageOnly = true → pr.paPageRemaining = none)
      fun pr hpr hbig => NUMAPool.allocatePages_bigPageOnly hbig pid count pr
        hpr).bind fun pr hpr => ?_
    have hset := h.1.setPool hp hpr.1.pool (.inl hin)
    have hout : ∀ page ∈ r.handedOut ++ pr.handedOut, S.Serves only page := by
      intro page hpage
      rcases List.mem_append.mp hpage with hpage | hpage
      · exact h.2 page hpage
      · exact ⟨id, hin, by rw [← h.1.present, hp]; rfl,
          hpr.1.handedOut page hpage⟩
    cases hrem : pr.paPageRemaining with
    | none => exact .ok ⟨hset, hout⟩
    | some index =>
      have hbig : flags.bigPageOnly = false := by
        rw [Bool.eq_false_iff]
        intro hbig
        rw [hpr.2 hbig] at hrem
        cases hrem
      exact (hextras hbig _ index hset hin (hpr.1.remaining index hrem)).bind
        fun a' h' => .ok ⟨h', hout⟩
  · -- a pool outside is as dry as it was
    have hdry := hid.resolve_left hin pool (h.1.others id hin ▸ hp)
    refine (hdry.allocatePages hs pid count flags).bind fun pr hpr => ?_
    obtain ⟨hpool, hout, hrem⟩ := hpr
    rw [hrem]
    refine .ok ⟨h.1.setPool hp (hpool ▸ hs) (.inr hpool), ?_⟩
    rw [hout, List.append_nil]
    exact h.2

theorem Request.Ok.fromNumaPool (h : r.Ok S cpu small only start)
    (hid : Asks only start id) (count : Nat)
    (hflags : flags.bigPageOnly = false → small) :
    Ensures (Request.Ok S cpu small only start)
      (r.fromNumaPool cpu id count flags) :=
  h.fromPool cpu hid count fun hbig _ _ h' hin hlt =>
    h'.tryGivePAPage (hflags hbig) hin hlt

theorem Request.Ok.fromLocalPool (h : r.Ok S cpu small only start)
    (count : Nat) (hflags : flags.bigPageOnly = false → small) :
    Ensures (Request.Ok S cpu small only start)
      (r.fromLocalPool cpu count flags) := by
  exact (h.1.allocateLocal count flags hflags).bind fun q hq =>
    .ok (Served.append h hq)

theorem Request.Ok.fromTarget (h : r.Ok S cpu small only start) (pid : Nat)
    (hid : Asks only start id) : Ensures (Request.Ok S cpu small only start)
      (r.fromTarget pid id flags) := by
  exact .ite (fun _ => .ok h) fun _ => h.fromPool pid hid _
    fun _ _ _ h' hin hlt => h'.returnPage hin hlt false

theorem Request.Ok.fromDomains {ask : Request → PoolId → Except Fault Request}
    (hask : ∀ r id, r.Ok S cpu small only start → Asks only start id →
      Ensures (Request.Ok S cpu small only start) (ask r id)) :
    ∀ (domains : List Nat) (r : Request), r.Ok S cpu small only start →
      (∀ d ∈ domains, Asks only start (.domain d)) →
      Ensures (Request.Ok S cpu small only start)
        (r.fromDomains ask domains) := by
  intro domains
  induction domains with
  | nil => exact fun r h _ => .ok h
  | cons d domains ih =>
    intro r h hd
    have hrest : ∀ d ∈ domains, Asks only start (.domain d) :=
      fun d' hd' => hd d' (List.mem_cons_of_mem d hd')
    refine .ite (fun _ => .ok h) fun _ => .ite (fun _ => ?_) fun _ => ?_
    · exact (hask r _ h (hd d List.mem_cons_self)).bind fun r' h' =>
        ih r' h' hrest
    · exact ih r h hrest

theorem Request.Ok.finish (h : r.Ok S cpu small only start) :
    Ensures (Request.Ok S cpu small only start) (r.finish flags) := by
  exact .ite (fun _ => .error _) fun _ => .ok h

-- ==== the calls

section calls

/-- The pools that an untargeted request asks. -/
structure AsksUntargeted (S : Setup) (cpu : Nat) (small : Prop)
    (only : PoolId → Prop) (start : PageAllocatorImpl)
    (flags : AllocFlags) : Prop where
  cache : flags.bigPageOnly = false → small
  nearest : ∀ a, Confined S cpu small only start a →
    Ensures (Asks only start) (a.nearestPool cpu)
  unowned : Asks only start .unowned
  domains : flags.localDomainOnly = false → ∀ d, Asks only start (.domain d)

variable (hq : AsksUntargeted S cpu small only start flags)
include hq

theorem Request.Ok.fallbackPools (h : r.Ok S cpu small only start) :
    Ensures (Request.Ok S cpu small only start)
      (r.fallbackPools cpu flags) := by
  have hnearest : Ensures (Request.Ok S cpu small only start)
      (r.impl.nearestPool cpu >>= fun nearest =>
        r.fromNumaPool cpu nearest r.smallPageCount flags) :=
    (hq.nearest _ h.1).bind fun id hid => h.fromNumaPool hid _ hq.cache
  unfold Request.fallbackPools
  cases r.impl.numaPolicy with
  | none => exact hnearest
  | some policy =>
    cases hlocal : flags.localDomainOnly with
    | true => exact hnearest
    | false =>
      exact fromDomains (fun r id h hid => h.fromNumaPool hid _ hq.cache)
        _ r h fun d _ => hq.domains hlocal d

theorem Confined.allocateFallback (h : Confined S cpu small only start a)
    (count : Nat) :
    Ensures (Request.Ok S cpu small only start)
      (a.allocateFallback cpu count flags) := by
  have htail : ∀ r : Request, r.Ok S cpu small only start →
      Ensures (Request.Ok S cpu small only start) (if r.impl.hasUnownedPool
        then r.fromNumaPool cpu .unowned r.smallPageCount flags >>= fun r =>
          r.finish flags else r.finish flags) := fun r h =>
    .ite (fun _ => (h.fromNumaPool hq.unowned _ hq.cache).bind
      fun r' h' => h'.finish) fun _ => h.finish
  have hrest : ∀ r : Request, r.Ok S cpu small only start →
      Ensures (Request.Ok S cpu small only start)
        (if r.smallPageCount = 0 then pure r else do
          let r ← r.fallbackPools cpu flags
          if r.smallPageCount = 0 && a.walksDomains flags then return r
          let r ← if flags.bigPageOnly then pure r
            else r.fromLocalPool cpu r.smallPageCount flags
          let r ← if r.impl.hasUnownedPool then
            r.fromNumaPool cpu .unowned r.smallPageCount flags else pure r
          r.finish flags) := by
    intro r h
    refine .ite (fun _ => .ok h) fun _ => ?_
    refine (h.fallbackPools hq).bind fun r' h' => ?_
    refine .ite (fun _ => .ok h') fun _ => .ite (fun _ => htail r' h')
      fun _ => ?_
    exact (h'.fromLocalPool _ hq.cache).bind htail
  have hstart : Request.Ok S cpu small only start
      { impl := a
        smallPageCount := count
        allocatedPages := 0
        handedOut := [] } := ⟨h, by simp⟩
  refine .ite (fun _ => hrest _ hstart) fun hbig => ?_
  refine (hq.nearest _ h).bind fun id hid => ?_
  refine (hstart.fromNumaPool hid _ fun hb => by cases hb).bind fun r h' => ?_
  exact (h'.fromLocalPool _ hq.cache).bind hrest

theorem Confined.allocatePages (h : Confined S cpu small only start a)
    (count : Nat) :
    Ensures (fun q => Served S cpu small only start q.1 q.2.1)
      (a.allocatePages cpu count flags) := by
  have hfast : Ensures (fun q => Served S cpu small only start q.1 q.2)
      (a.allocateFast cpu count flags) := by
    exact .ite (fun _ => h.allocateLocal _ _ hq.cache) fun _ =>
      .ok ⟨h, by simp⟩
  refine hfast.bind fun q hserved => .ite (fun _ => .ok hserved) fun _ => ?_
  exact (hserved.1.allocateFallback hq _).bind fun r hr =>
    .ok (hserved.append hr)

end calls

theorem Confined.allocatePagesFrom (h : Confined S cpu small only start a)
    {policy : Numa.NUMAPolicy} (hpolicy : S.impl.numaPolicy = some policy)
    (pid count targetDomain : Nat)
    (htarget : ∀ d, flags.localDomainOnly = false ∨ d = targetDomain →
      Asks only start (.domain d))
    (hunowned : Asks only start .unowned) :
    Ensures (fun q => Served S cpu small only start q.1 q.2.1)
      (a.allocatePagesFrom pid count targetDomain flags) := by
  have hstart : Request.Ok S cpu small only start
      { impl := a
        smallPageCount := count
        allocatedPages := 0
        handedOut := [] } := ⟨h, by simp⟩
  unfold PageAllocatorImpl.allocatePagesFrom
  rw [h.policy, hpolicy]
  refine (Request.Ok.fromDomains (fun r id h hid => h.fromTarget pid hid)
    _ _ hstart fun d hd => htarget d ?_).bind fun r hr => ?_
  · have hd := List.mem_of_mem_filter hd
    cases hlocal : flags.localDomainOnly with
    | false => exact .inl rfl
    | true =>
      rw [hlocal] at hd
      exact .inr (List.mem_singleton.mp hd)
  · refine .ite (fun _ => ?_) fun _ => hr.finish.bind fun r' hr' => .ok hr'
    exact (hr.fromTarget pid hunowned).bind fun r' hr' =>
      hr'.finish.bind fun r'' hr'' => .ok hr''

-- ==== frees

theorem Confined.freeWalk {all : PoolId → Prop} (hall : ∀ id, all id) :
    ∀ (pages : List PageRef) (table : List NUMADomainEntry)
      (runPool : Option PoolId) (run : List PageRef) (a : PageAllocatorImpl),
      Confined S cpu small all start a → NUMAPool.Sorted (run ++ pages) →
      Ensures (Confined S cpu small all start)
        (PageAllocatorImpl.freeWalk pages table runPool run a) := by
  have hflush : ∀ (runPool : Option PoolId) (run : List PageRef)
      (a : PageAllocatorImpl), Confined S cpu small all start a →
      NUMAPool.Sorted run →
      Ensures (Confined S cpu small all start) (a.flushRun runPool run) := by
    intro runPool run a h hrun
    cases runPool with
    | none => exact .ok h
    | some id =>
      refine (ensures_pool h id).bind fun pool hp => ?_
      exact (hp.2.freePages hrun).bind fun pool' hp' =>
        .ok (h.setPool hp.1 hp' (.inl (hall id)))
  intro pages
  induction pages with
  | nil =>
    intro table runPool run a h hsorted
    exact hflush runPool run a h (by rwa [List.append_nil] at hsorted)
  | cons page pages ih =>
    intro table runPool run a h hsorted
    refine .ite (fun _ => ?_) fun _ => ih _ _ _ a h (by
      rwa [List.append_assoc])
    exact (hflush runPool run a h (List.pairwise_append.mp hsorted).1).bind
      fun a' h' => ih _ _ [page] a' h' (List.pairwise_append.mp hsorted).2.1

theorem sorted_sortPages (pages : List PageRef) :
    NUMAPool.Sorted (sortPages pages) := by
  exact List.pairwise_insertionSort _ _

theorem Confined.freePages {all : PoolId → Prop} (hall : ∀ id, all id)
    (h : Confined S cpu small all start a) (pages : List PageRef) :
    Ensures (Confined S cpu small all start) (a.freePages pages) := by
  refine .ite (fun _ => .error _) fun _ => ?_
  exact Confined.freeWalk hall _ _ none [] a h (sorted_sortPages pages)

-- ==== runs

/-- The pool was built from usable ranges of more than one big page, and
parts of it may have been reserved before anything was allocated. -/
def Built (pool : NUMAPool) : Prop :=
  ∃ (ranges reserved : List PhysMemoryRange) (domain : Nat)
    (new : NUMAPool), ranges.length ≤ maxRangesPerDomain
    ∧ (∀ r ∈ ranges, r.Usable) ∧ TwoBigPages ranges
    ∧ createNumaPool ranges domain = .ok new
    ∧ reserved.foldlM NUMAPool.reserveRange new = .ok pool

theorem Built.sound {pool : NUMAPool} (h : Built pool) :
    ∃ bases subranges, pool.Sound bases subranges := by
  obtain ⟨ranges, reserved, domain, new, hlen, hok, h2, hnew, hreserved⟩ := h
  obtain ⟨merged, p, pool₀, hcreate, hmerged, hsub, -, hstocked⟩ :=
    @createNumaPool_spec ranges domain hlen hok h2
  rw [hcreate] at hnew
  cases hnew
  have hl := located_of_subranges hmerged hsub
  obtain ⟨pool', hpool', hsub', hs⟩ := reserveRanges_spec hstocked hl reserved
  rw [hreserved] at hpool'
  cases hpool'
  obtain ⟨st, s, hp, hholds, hmem⟩ := hs.paPages
  refine ⟨_, subrangesOf 0 merged, ⟨hl.dvd, fun a ha => ?_, fun a ha => ?_,
    fun sr hsr => ?_, subrangesOf_pairwise hmerged.apart⟩, hs.count,
    hsub'.trans hsub, fun i b hb => (hs.page i b hb).baseAddr, fun i hi => ?_,
    p, st, s, hs.sized, hs.room, hp, hholds, fun i hi => ((hmem i).mp hi).1⟩
  · rw [← hsub]
    exact hl.found a ha
  · rw [← hsub]
    exact hl.missing a ha
  · obtain ⟨mr, hmr, hstart, hend⟩ := mem_subrangesOf hsr
    have hm := hmerged.each mr hmr
    rw [hstart, hend]
    exact ⟨hm.start_dvd, hm.end_dvd⟩
  · rw [hs.free] at hi
    exact List.mem_range.mp (List.mem_of_mem_filter hi)

/-- The allocator between two calls. -/
def Sound (S : Setup) (a : PageAllocatorImpl) : Prop :=
  Confined S 0 False (fun _ => True) a a

theorem Confined.sound (h : Confined S cpu small only start a) : Sound S a :=
  ⟨h.pool, h.present, h.cached, h.policy, h.nearest, fun _ _ => rfl,
    fun hf => hf.elim⟩

theorem Sound.confined (h : Sound S a)
    (hown : small → ∀ id ∈ (a.localPools cpu).cached, only id.pool) :
    Confined S cpu small only a a :=
  ⟨h.pool, h.present, h.cached, h.policy, h.nearest, fun _ _ => rfl, hown⟩

/-- An unrestricted request may ask every pool. -/
theorem asksUntargeted_all :
    AsksUntargeted S cpu True (fun _ => True) start flags :=
  ⟨fun _ => trivial, fun _ _ _ _ => .inl trivial, .inl trivial,
    fun _ _ => .inl trivial⟩

section runs

variable {policy : Numa.NUMAPolicy} (hpolicy : S.impl.numaPolicy = some policy)
include hpolicy

theorem step_sound (m : Machine) (h : Sound S m.impl) (c : Call) :
    Ensures (fun q => Sound S q.1.impl) (step m c) := by
  cases c with
  | allocatePages pid count flags =>
    have hstart : Confined S pid True (fun _ => True) m.impl m.impl :=
      h.confined fun _ _ _ => trivial
    refine Ensures.map ?_
    exact (hstart.allocatePages asksUntargeted_all count).imp fun q hq =>
      hq.1.sound
  | allocatePagesFrom pid count targetDomain flags =>
    refine Ensures.map ?_
    exact (Confined.allocatePagesFrom h hpolicy pid count targetDomain
      (fun _ _ => .inl trivial) (.inl trivial)).imp fun q hq => hq.1.sound
  | allocatePagesFor pid count targetProc flags =>
    refine Ensures.map ?_
    exact (Confined.allocatePagesFrom h hpolicy pid count _
      (fun _ _ => .inl trivial) (.inl trivial)).imp fun q hq => hq.1.sound
  | freePages pages =>
    refine Ensures.map ?_
    exact (Confined.freePages (fun _ => trivial) h pages).imp fun q hq =>
      hq.sound

end runs

-- ==== the restricted calls

def Call.localDomainOnly : Call → Bool
  | .allocatePages _ _ flags => flags.localDomainOnly
  | .allocatePagesFrom _ _ _ flags => flags.localDomainOnly
  | .allocatePagesFor _ _ _ flags => flags.localDomainOnly
  | .freePages _ => false

/-- The pool a LOCAL_DOMAIN_ONLY call is restricted to: that of the
calling CPU's nearest domain, or of the target domain. -/
def localPool (a : PageAllocatorImpl) : Call → Option PoolId
  | .allocatePages pid _ _ => (a.cpuNearestPool pid).map .domain
  | .allocatePagesFrom _ _ targetDomain _ => some (.domain targetDomain)
  | .allocatePagesFor _ _ targetProc _ =>
    a.numaPolicy.map fun policy => .domain (policy.homeDomain targetProc)
  | .freePages _ => none

/-- The page is one of the pool's: its metadata is found there. -/
def owns (a : PageAllocatorImpl) (id : PoolId) (page : PageRef) : Bool :=
  (a.pools id).any fun pool => (pool.findMetadata page.addr).isSome

/-- The unowned pool has nothing to give, and the calling CPU has cached
no page of another pool than the call's own. -/
structure Call.Contained (a : PageAllocatorImpl) (c : Call) : Prop where
  unowned : ∀ pool, a.pools .unowned = some pool → pool.Dry
  cached : ∀ pid count flags, c = .allocatePages pid count flags →
    flags.bigPageOnly = false →
    ∀ id ∈ (a.localPools pid).cached, a.localPool c = some id.pool

theorem step_localDomainOnly {policy : Numa.NUMAPolicy}
    (hpolicy : S.impl.numaPolicy = some policy) (m : Machine)
    (h : Sound S m.impl) {c : Call} (hlocal : c.localDomainOnly = true)
    (hc : c.Contained m.impl) :
    Ensures (fun q => ∀ page ∈ q.2.1,
      S.Serves (fun id => S.impl.localPool c = some id) page) (step m c) := by
  have htarget : ∀ pid count targetDomain (flags : AllocFlags),
      flags.localDomainOnly = true →
      S.impl.localPool c = some (.domain targetDomain) →
      Ensures (fun q => ∀ page ∈ q.2.1,
        S.Serves (fun id => S.impl.localPool c = some id) page)
        (m.impl.allocatePagesFrom pid count targetDomain flags) := by
    intro pid count targetDomain flags hflags hpool
    have hstart : Confined S pid False (fun id => S.impl.localPool c = some id)
        m.impl m.impl := h.confined fun hf => hf.elim
    refine (hstart.allocatePagesFrom hpolicy pid count targetDomain
      (fun d hd => .inl ?_) (.inr hc.unowned)).imp fun q hq => hq.2
    rw [hflags] at hd
    rw [hpool, hd.resolve_left (by simp)]
  cases c with
  | allocatePages pid count flags =>
    have hnearest : m.impl.localPool (.allocatePages pid count flags)
        = S.impl.localPool (.allocatePages pid count flags) := by
      unfold localPool
      rw [h.nearest]
    have hstart : Confined S pid (flags.bigPageOnly = false)
        (fun id => S.impl.localPool (.allocatePages pid count flags)
          = some id) m.impl m.impl := h.confined fun hbig id hid => by
      rw [← hnearest]
      exact hc.cached pid count flags rfl hbig id hid
    have hasks : AsksUntargeted S pid (flags.bigPageOnly = false)
        (fun id => S.impl.localPool (.allocatePages pid count flags)
          = some id) m.impl flags := by
      refine ⟨id, fun a ha => ?_, .inr hc.unowned, fun hf => ?_⟩
      · unfold nearestPool
        rw [ha.nearest]
        cases hd : S.impl.cpuNearestPool pid with
        | none =>
          exact .ite (fun _ => .ok (.inr hc.unowned)) fun _ => .error _
        | some d => exact .ok (.inl (by simp [localPool, hd]))
      · rw [show flags.localDomainOnly = true from hlocal] at hf
        cases hf
    exact Ensures.map ((hstart.allocatePages hasks count).imp
      fun q hq => hq.2)
  | allocatePagesFrom pid count targetDomain flags =>
    exact Ensures.map (htarget pid count targetDomain flags hlocal rfl)
  | allocatePagesFor pid count targetProc flags =>
    refine Ensures.map ?_
    unfold allocatePagesFor
    rw [h.policy]
    exact htarget pid count _ flags hlocal (by simp [localPool, hpolicy])
  | freePages pages => cases hlocal

/-- No two pools share a big page. -/
def PoolsApart (a : PageAllocatorImpl) : Prop :=
  ∀ id id' page, a.owns id page = true → a.owns id' page = true → id = id'

/-- In every state that allocations and frees from any CPU lead to, a
LOCAL_DOMAIN_ONLY call that finds the unowned pool dry and no foreign
page in the CPU's cache hands out pages of its own pool only. -/
theorem localDomainOnly_own {numaPools : List (Option NUMAPool)}
    {localPools : Nat → LocalPool} {processorCount : Nat}
    {unownedPool : Option NUMAPool} {policy : Numa.NUMAPolicy}
    {a : PageAllocatorImpl}
    (hbuilt : ∀ pool, some pool ∈ numaPools ∨ unownedPool = some pool →
      Built pool)
    (hfresh : ∀ cpu, ∃ topology homePool,
      localPools cpu = createLocalPool topology homePool cpu)
    (hcreate : createPageAllocator numaPools localPools processorCount
      unownedPool (some policy) = .ok a)
    {calls : List Call} {m : Machine} {answers : List Answer}
    (hrun : run step ⟨a, ∅⟩ calls = .ok (m, answers))
    {c : Call} (hlocal : c.localDomainOnly = true)
    (hc : c.Contained m.impl) {m' : Machine} {refs : List PageRef}
    {count : Nat} (hstep : step m c = .ok (m', (refs, count))) :
    ∀ page ∈ refs, ∃ id, a.localPool c = some id ∧ a.owns id page = true
      ∧ (a.PoolsApart → ∀ id', a.owns id' page = true → id' = id) := by
  have ha : a.numaPolicy = some policy ∧ a.localPools = localPools
      ∧ a.pools = namePools numaPools unownedPool := by
    unfold createPageAllocator at hcreate
    dsimp only at hcreate
    split at hcreate
    · cases hcreate
    · cases hcreate
      exact ⟨rfl, rfl, rfl⟩
  obtain ⟨hpolicy, hlp, hpools⟩ := ha
  have hpool : ∀ id pool, a.pools id = some pool → Built pool := by
    intro id pool hp
    rw [hpools] at hp
    cases id with
    | unowned => exact hbuilt pool (.inr hp)
    | domain d =>
      refine hbuilt pool (.inl ?_)
      exact List.mem_of_getElem? (Option.join_eq_some_iff.mp hp)
  have hshape : ∀ id, ∃ bases subranges, ∀ pool, a.pools id = some pool →
      pool.Sound bases subranges := by
    intro id
    cases hp : a.pools id with
    | none => exact ⟨[], [], fun pool hx => by cases hx⟩
    | some pool =>
      obtain ⟨bases, subranges, hs⟩ := (hpool id pool hp).sound
      exact ⟨bases, subranges, fun pool' hx => by cases hx; exact hs⟩
  choose bases subranges hshape using hshape
  have hstart : Sound ⟨a, bases, subranges⟩ a := by
    refine ⟨hshape, fun _ => rfl, fun cpu id hid => ?_, rfl, rfl,
      fun _ _ => rfl, fun hf => hf.elim⟩
    obtain ⟨topology, homePool, hnew⟩ := hfresh cpu
    rw [hlp, hnew] at hid
    cases hid
  have hreached : Sound ⟨a, bases, subranges⟩ m.impl :=
    run_invariant (I := fun m : Machine => Sound ⟨a, bases, subranges⟩
      m.impl) (Q := fun _ => True)
      (fun s c s' r hs _ hstep => step_sound hpolicy s hs c _ hstep)
      hstart (fun _ _ => trivial) hrun
  intro page hpage
  obtain ⟨id, hid, hsome, hmem⟩ := step_localDomainOnly hpolicy m hreached
    hlocal hc _ hstep page hpage
  obtain ⟨pool, hp⟩ := Option.isSome_iff_exists.mp hsome
  have howns : a.owns id page = true := by
    have hs := hshape id pool hp
    obtain ⟨i, hi, -⟩ := hs.layout.found page.addr hmem
    unfold owns
    rw [hp, Option.any_some, findMetadata_eq, hs.subranges, hi]
    rfl
  exact ⟨id, hid, howns, fun hapart id' howns' => hapart id' id page howns' howns⟩

-- ==== two pools

/-- Every CPU is at home in the domain 0. -/
def homeAtZero : Numa.NUMAPolicy :=
  { homeDomain := fun _ => 0
    domainOrder := fun _ => [0, 1] }

/-- The range of two big pages from the big page `first` on. -/
def twoBigPages (first : Nat) : PhysMemoryRange :=
  ⟨first * bigPageSize, (first + 2) * bigPageSize⟩

/-- Two big pages in the domain 0, and two more in the domain 1 or
unowned; one CPU. -/
def createTwoPools (secondOwned : Bool) : Except Fault PageAllocatorImpl := do
  let first ← createNumaPool [twoBigPages 2] 0
  let second ← createNumaPool [twoBigPages 8] 1
  createPageAllocator
    (if secondOwned then [some first, some second] else [some first])
    (createLocalPool none (some (.domain 0))) 1
    (if secondOwned then none else some second) (some homeAtZero)

theorem built_twoBigPages {first domain : Nat} (h : first < 100)
    {pool : NUMAPool}
    (hpool : createNumaPool [twoBigPages first] domain = .ok pool) :
    Built pool := by
  have husable : (twoBigPages first).Usable := by
    refine ⟨?_, ?_, ?_, ?_⟩
    all_goals simp only [twoBigPages, smallPageSize, bigPageSize]
    all_goals omega
  have hcovered : ∀ i < 2, Covered [twoBigPages first]
      ((first + i) * bigPageSize) := by
    intro i hi
    refine ⟨_, List.mem_singleton_self _, ?_⟩
    simp only [twoBigPages, bigPageSize]
    omega
  refine ⟨[twoBigPages first], [], domain, pool, Nat.le_of_ble_eq_true rfl,
    fun r hr => List.mem_singleton.mp hr ▸ husable,
    ⟨_, _, hcovered 0 (by decide), hcovered 1 (by decide), ?_⟩, hpool, rfl⟩
  unfold bigPageBase roundDownToNearestMultiple bigPageSize
  omega

/-- An allocator after a run, and one more call. -/
def runThen (secondOwned : Bool) (calls : List Call) (c : Call) :
    Except Fault (PageAllocatorImpl × Machine × Machine × Answer) := do
  let a ← createTwoPools secondOwned
  let (m, _) ← run step ⟨a, ∅⟩ calls
  let (m', answer) ← step m c
  return (a, m, m', answer)

theorem runThen_inv {secondOwned : Bool} {calls : List Call} {c : Call}
    {q : PageAllocatorImpl × Machine × Machine × Answer}
    (h : runThen secondOwned calls c = .ok q) :
    createTwoPools secondOwned = .ok q.1
      ∧ (∃ answers, run step ⟨q.1, ∅⟩ calls = .ok (q.2.1, answers))
      ∧ step q.2.1 c = .ok (q.2.2.1, q.2.2.2) := by
  obtain ⟨a, ha, h⟩ := bind_inv h
  obtain ⟨⟨m, answers⟩, hrun, h⟩ := bind_inv h
  obtain ⟨⟨m', answer⟩, hstep, h⟩ := bind_inv h
  cases h
  exact ⟨ha, ⟨answers, hrun⟩, hstep⟩

/-- One small page of the CPU's own domain. -/
def smallLocal : Call :=
  .allocatePages 0 1
    { bigPageOnly := false
      localDomainOnly := true
      gracefulOom := false }

/-- Three big pages of the CPU's own domain, which has two. -/
def bigLocal : Call :=
  .allocatePages 0 1536
    { bigPageOnly := true
      localDomainOnly := true
      gracefulOom := false }

theorem smallLocal_returns :
    Returns (fun q : PageAllocatorImpl × Machine × Machine × Answer =>
      (q.2.1.impl.pools .unowned).isNone = true
      ∧ (∀ id ∈ (q.2.1.impl.localPools 0).cached,
        q.2.1.impl.localPool smallLocal = some id.pool)
      ∧ q.2.2.2.1.length = 1)
      (runThen true [.allocatePages 0 1 {}] smallLocal) := by
  decide +kernel

theorem localDomainOnly_own_secondPage :
    ∃ a m m' refs count answers, createTwoPools true = .ok a
      ∧ run step ⟨a, ∅⟩ [.allocatePages 0 1 {}] = .ok (m, answers)
      ∧ step m smallLocal = .ok (m', (refs, count)) ∧ refs.length = 1
      ∧ ∀ page ∈ refs, ∃ id, a.localPool smallLocal = some id
        ∧ a.owns id page = true
        ∧ (a.PoolsApart → ∀ id', a.owns id' page = true → id' = id) := by
  obtain ⟨⟨a, m, m', refs, count⟩, hreturns, hnone, hcached, hlen⟩ :=
    smallLocal_returns.exists_ok
  obtain ⟨ha, ⟨answers, hrun⟩, hstep⟩ := runThen_inv hreturns
  obtain ⟨first, hfirst, hrest⟩ := bind_inv ha
  obtain ⟨second, hsecond, hcreate⟩ := bind_inv hrest
  refine ⟨a, m, m', refs, count, answers, ha, hrun, hstep, hlen, ?_⟩
  refine localDomainOnly_own (fun pool hpool => ?_)
    (fun cpu => ⟨none, some (.domain 0), rfl⟩) hcreate hrun rfl
    ⟨fun pool hp => ?_, fun pid n flags heq _ => ?_⟩ hstep
  · have hpool : pool = first ∨ pool = second := by
      simpa [eq_comm] using hpool
    rcases hpool with rfl | rfl
    · exact built_twoBigPages (by decide) hfirst
    · exact built_twoBigPages (by decide) hsecond
  · rw [hp] at hnone
    cases hnone
  · cases heq
    exact hcached

/-- A LOCAL_DOMAIN_ONLY request gets a big page of the unowned pool when
its domain runs out, and a page of the domain 1 that an earlier request
left in the CPU's cache. -/
theorem localDomainOnly_foreign :
    (∃ a m m' refs count answers, createTwoPools false = .ok a
      ∧ run step ⟨a, ∅⟩ [] = .ok (m, answers)
      ∧ step m bigLocal = .ok (m', (refs, count))
      ∧ a.localPool bigLocal = some (.domain 0)
      ∧ ∃ page ∈ refs, a.owns .unowned page = true
        ∧ a.owns (.domain 0) page = false)
    ∧ ∃ a m m' refs count answers, createTwoPools true = .ok a
      ∧ run step ⟨a, ∅⟩ [.allocatePages 0 1025 {}] = .ok (m, answers)
      ∧ step m smallLocal = .ok (m', (refs, count))
      ∧ a.localPool smallLocal = some (.domain 0)
      ∧ ∃ page ∈ refs, a.owns (.domain 1) page = true
        ∧ a.owns (.domain 0) page = false := by
  have hforeign : ∀ (secondOwned : Bool) (calls : List Call) (c : Call)
      (id : PoolId), Returns (fun q : PageAllocatorImpl × Machine
        × Machine × Answer => q.1.localPool c = some (.domain 0)
          ∧ ∃ page ∈ q.2.2.2.1, q.1.owns id page = true
            ∧ q.1.owns (.domain 0) page = false)
        (runThen secondOwned calls c) →
      ∃ a m m' refs count answers, createTwoPools secondOwned = .ok a
        ∧ run step ⟨a, ∅⟩ calls = .ok (m, answers)
        ∧ step m c = .ok (m', (refs, count))
        ∧ a.localPool c = some (.domain 0)
        ∧ ∃ page ∈ refs, a.owns id page = true
          ∧ a.owns (.domain 0) page = false := by
    intro secondOwned calls c id h
    obtain ⟨⟨a, m, m', refs, count⟩, hreturns, hpool, hpage⟩ := h.exists_ok
    obtain ⟨ha, ⟨answers, hrun⟩, hstep⟩ := runThen_inv hreturns
    exact ⟨a, m, m', refs, count, answers, ha, hrun, hstep, hpool, hpage⟩
  exact ⟨hforeign _ _ _ _ (by decide +kernel),
    hforeign _ _ _ _ (by decide +kernel)⟩

end CroCOS.PageAllocatorImpl
