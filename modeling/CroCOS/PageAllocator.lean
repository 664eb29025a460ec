/-
The page allocator (mm/PageAllocator.cpp): the pools of the NUMA
domains, the CPUs' local pools of partly used big pages, and the calls
that allocate and free pages through them.

# Reading the model against the source

- The pools are reached by name instead of by pointer: a domain's pool,
  or the pool of unowned memory. A big page is named by its pool and
  its index there. `numaPools` past `numDomains` is the zeroed static
  storage of the source, so those names have no pool.
- The `localPools` of the CPUs are given by their ids.
- `cpuNearestPool` is `none` for the null domain id.
- Sorting no pages at all reads past the end of their array.
-/
import CroCOS.NumaPoolCreate

namespace CroCOS

inductive PoolId
  | domain (id : Nat)
  | unowned
  deriving DecidableEq, Repr

structure PageId where
  pool : PoolId
  index : Nat
  deriving DecidableEq, Repr

structure LocalPool where
  paPage1 : Option PageId
  paPage2 : Option PageId
  topology : Option Numa.NUMATopology
  homePool : Option PoolId
  pid : Nat

structure NUMADomainEntry where
  rangeStart : Nat
  rangeEnd : Nat
  pool : PoolId
  deriving DecidableEq, Repr

structure PageAllocatorImpl where
  pools : PoolId → Option NUMAPool
  numDomains : Nat
  localPools : Nat → LocalPool
  domainTable : List NUMADomainEntry
  numaPolicy : Option Numa.NUMAPolicy
  cpuNearestPool : Nat → Option Nat

namespace PageAllocatorImpl

variable (a : PageAllocatorImpl)

/-- `unownedPool != nullptr`. -/
def hasUnownedPool : Bool := (a.pools .unowned).isSome

/-- Dereference a pool. -/
def pool (id : PoolId) : Except Fault NUMAPool :=
  match a.pools id with
  | some pool => .ok pool
  | none => .error .nullDeref

def setPool (id : PoolId) (pool : NUMAPool) : PageAllocatorImpl :=
  { a with pools := Function.update a.pools id (some pool) }

def setLocalPool (cpu : Nat) (lp : LocalPool) : PageAllocatorImpl :=
  { a with localPools := Function.update a.localPools cpu lp }

def page (id : PageId) : Except Fault BigPageMetadata := do
  let pool ← a.pool id.pool
  return pool.bigPageMetadataBuffer id.index

def setPage (id : PageId) (m : BigPageMetadata) :
    Except Fault PageAllocatorImpl := do
  let pool ← a.pool id.pool
  return a.setPool id.pool (pool.setPage id.index m)

/-- `BigPageMetadata::returnPage`. -/
def returnPage (id : PageId) (evictedAsFull : Bool) :
    Except Fault PageAllocatorImpl := do
  let pool ← a.pool id.pool
  let pool ← pool.returnBigPage id.index evictedAsFull
  return a.setPool id.pool pool

def markAllocHolder (id : PageId) (pid : Nat) :
    Except Fault PageAllocatorImpl := do
  let m ← a.page id
  let m ← m.markAllocHolder pid
  a.setPage id m

-- ==== local pools

/-- `allocFromPAPage`: the answer says whether the page left the local
pool. -/
def allocFromPAPage (lp : LocalPool) (id : PageId) (smallPageCount : Nat) :
    Except Fault (PageAllocatorImpl × List PageRef × Bool) := do
  let m ← a.page id
  if m.isEmpty && !(lp.paPage2 = none && lp.homePool = some id.pool) then
    let a ← a.returnPage id false
    return (a, [], true)
  let (pages, transition, m) ← m.allocatePages lp.pid smallPageCount
  let a ← a.setPage id m
  if transition.becameFull then
    let a ← a.returnPage id true
    return (a, pages, true)
  return (a, pages, false)

/-- `LocalPool::allocatePages` of the CPU `cpu`. -/
def allocateLocal (cpu smallPageCount : Nat) (flags : AllocFlags) :
    Except Fault (PageAllocatorImpl × List PageRef) := do
  if flags.bigPageOnly then return (a, [])
  let lp := a.localPools cpu
  match lp.paPage1 with
  | none => return (a, [])
  | some page1 =>
    let (a, pages, gone) ← a.allocFromPAPage lp page1 smallPageCount
    let lp := if gone then
      { lp with paPage1 := lp.paPage2, paPage2 := none } else lp
    let a := a.setLocalPool cpu lp
    let smallPageCount := smallPageCount - pages.length
    if smallPageCount = 0 then return (a, pages)
    match lp.paPage1 with
    | none => return (a, pages)
    | some page1 =>
      let (a, more, gone) ← a.allocFromPAPage lp page1 smallPageCount
      let lp := if gone then { lp with paPage1 := none } else lp
      return (a.setLocalPool cpu lp, pages ++ more)

/-- The latency from the CPU's domain to the page's, all ones when it
is not known. -/
def distanceTo (topology : Numa.NUMATopology) (pid : Nat) (id : PageId) :
    Except Fault Nat := do
  let pool ← a.pool id.pool
  return (topology.latencyBetween (topology.domainForCpu pid)
    pool.associatedDomain).getD (2 ^ 64 - 1)

/-- Cache a page in the first slot, and perhaps the page that was there
in the second. -/
def cachePage (cpu : Nat) (id : PageId) (paPage1 paPage2 : Option PageId) :
    Except Fault PageAllocatorImpl := do
  let lp := a.localPools cpu
  let a ← a.markAllocHolder id lp.pid
  return a.setLocalPool cpu { lp with paPage1, paPage2 }

/-- The placement by distance, when both slots may be taken. -/
def tryGiveByDistance (cpu : Nat) (topology : Numa.NUMATopology)
    (id : PageId) : Except Fault PageAllocatorImpl := do
  let lp := a.localPools cpu
  let dNew ← a.distanceTo topology lp.pid id
  match lp.paPage1 with
  | none => a.cachePage cpu id (some id) lp.paPage2
  | some page1 =>
    let d1 ← a.distanceTo topology lp.pid page1
    match lp.paPage2 with
    | none =>
      if dNew ≤ d1 then a.cachePage cpu id (some id) (some page1)
      else a.cachePage cpu id (some page1) (some id)
    | some page2 =>
      let d2 ← a.distanceTo topology lp.pid page2
      if dNew ≥ d2 then a.returnPage id false
      else
        let a ← if dNew ≤ d1 then
          a.cachePage cpu id (some id) (some page1)
        else a.cachePage cpu id (some page1) (some id)
        a.returnPage page2 false

/-- `LocalPool::tryGivePAPage` of the CPU `cpu`. -/
def tryGivePAPage (cpu : Nat) (id : PageId) :
    Except Fault PageAllocatorImpl := do
  let lp := a.localPools cpu
  let m ← a.page id
  if m.isEmpty then a.returnPage id false
  else
    -- an empty page held back in the first slot makes room
    let released ← match lp.paPage1 with
      | none => pure false
      | some page1 => do
        let m1 ← a.page page1
        pure (m1.isEmpty && lp.paPage2 = none
          && lp.homePool = some page1.pool && lp.homePool = some id.pool)
    if released then
      let a ← match lp.paPage1 with
        | none => pure a
        | some page1 => a.returnPage page1 false
      a.cachePage cpu id (some id) lp.paPage2
    else
      match lp.topology with
      | none =>
        if lp.paPage1 = none then a.cachePage cpu id (some id) lp.paPage2
        else if lp.paPage2 = none then
          a.cachePage cpu id lp.paPage1 (some id)
        else a.returnPage id false
      | some topology => a.tryGiveByDistance cpu topology id

-- ==== allocate

/-- A request under way: what is still wanted and what was handed
out. -/
structure Request where
  impl : PageAllocatorImpl
  smallPageCount : Nat
  allocatedPages : Nat
  handedOut : List PageRef

/-- The pool named by `nearestPool`. -/
def nearestPool (cpu : Nat) : Except Fault PoolId :=
  match a.cpuNearestPool cpu with
  | some d => .ok (.domain d)
  | none =>
    if a.hasUnownedPool then .ok .unowned
    else .error (.assertion "no NUMAPool found for CPU")

/-- Ask a pool for `count` small pages; what to do with the page that
has some left is up to the caller. -/
def Request.fromPool (r : Request) (pid : Nat) (id : PoolId) (count : Nat)
    (flags : AllocFlags)
    (extras : PageAllocatorImpl → PageId → Except Fault PageAllocatorImpl) :
    Except Fault Request := do
  let pool ← r.impl.pool id
  let pr ← pool.allocatePages pid count flags
  let impl := r.impl.setPool id pr.pool
  let impl ← match pr.paPageRemaining with
    | none => pure impl
    | some index => extras impl { pool := id, index := index }
  return {
    impl := impl
    smallPageCount := r.smallPageCount
      - min pr.allocatedPages r.smallPageCount
    allocatedPages := r.allocatedPages + pr.allocatedPages
    handedOut := r.handedOut ++ pr.handedOut }

/-- `allocFromNumaPool` of `allocateFallback`: the rest of the page goes
to the local pool. -/
def Request.fromNumaPool (r : Request) (pid : Nat) (id : PoolId)
    (count : Nat) (flags : AllocFlags) : Except Fault Request :=
  r.fromPool pid id count flags fun a page => a.tryGivePAPage pid page

/-- `allocFromLocalPool` of `allocateFallback`. -/
def Request.fromLocalPool (r : Request) (pid count : Nat)
    (flags : AllocFlags) : Except Fault Request := do
  let (impl, pages) ← r.impl.allocateLocal pid count flags
  return {
    impl := impl
    smallPageCount := r.smallPageCount - pages.length
    allocatedPages := r.allocatedPages + pages.length
    handedOut := r.handedOut ++ pages }

/-- Ask the pools of the domains in order until the request is
served. -/
def Request.fromDomains (r : Request) (ask : Request → PoolId →
    Except Fault Request) : List Nat → Except Fault Request
  | [] => .ok r
  | d :: rest =>
    if r.smallPageCount = 0 then .ok r
    else do
      let r ← if (r.impl.pools (.domain d)).isSome then ask r (.domain d)
        else pure r
      r.fromDomains ask rest

/-- The check at the end of an allocation. -/
def Request.finish (r : Request) (flags : AllocFlags) : Except Fault Request :=
  if !flags.gracefulOom && r.smallPageCount ≠ 0 then
    .error (.assertion "Panic!!! Page allocator is out of memory")
  else .ok r

/-- The pools of `allocateFallback` after the nearest one was asked for
big pages and the local pool for small ones. -/
def Request.fallbackPools (r : Request) (pid : Nat) (flags : AllocFlags) :
    Except Fault Request := do
  match r.impl.numaPolicy with
  | some policy =>
    if flags.localDomainOnly then
      let nearest ← r.impl.nearestPool pid
      r.fromNumaPool pid nearest r.smallPageCount flags
    else
      r.fromDomains (fun r id =>
        r.fromNumaPool pid id r.smallPageCount flags)
        (policy.domainOrder (policy.homeDomain pid))
  | none =>
    let nearest ← r.impl.nearestPool pid
    r.fromNumaPool pid nearest r.smallPageCount flags

/-- The walk over the domains returns as soon as the request is
served; the other ways on do not look. -/
def walksDomains (flags : AllocFlags) : Bool :=
  a.numaPolicy.isSome && !flags.localDomainOnly

def allocateFallback (pid smallPageCount : Nat) (flags : AllocFlags) :
    Except Fault Request := do
  let r : Request :=
    { impl := a
      smallPageCount := smallPageCount
      allocatedPages := 0
      handedOut := [] }
  let r ← if flags.bigPageOnly then pure r
    else do
      let nearest ← r.impl.nearestPool pid
      let r ← r.fromNumaPool pid nearest
        (roundDownToNearestMultiple smallPageCount smallPagesPerBigPage)
        { flags with bigPageOnly := true }
      r.fromLocalPool pid r.smallPageCount
        { flags with localDomainOnly := true }
  if r.smallPageCount = 0 then return r
  let r ← r.fallbackPools pid flags
  if r.smallPageCount = 0 && a.walksDomains flags then return r
  let r ← if flags.bigPageOnly then pure r
    else r.fromLocalPool pid r.smallPageCount flags
  let r ← if r.impl.hasUnownedPool then
    r.fromNumaPool pid .unowned r.smallPageCount flags else pure r
  r.finish flags

def allocateFast (pid smallPageCount : Nat) (flags : AllocFlags) :
    Except Fault (PageAllocatorImpl × List PageRef) :=
  if !flags.bigPageOnly && smallPageCount < smallPagesPerBigPage then
    a.allocateLocal pid smallPageCount { flags with localDomainOnly := true }
  else .ok (a, [])

/-- `allocatePages` on the CPU `pid`: the pages handed out and the
count returned. -/
def allocatePages (pid smallPageCount : Nat) (flags : AllocFlags) :
    Except Fault (PageAllocatorImpl × List PageRef × Nat) := do
  let (a, pages) ← a.allocateFast pid smallPageCount flags
  if pages.length = smallPageCount then return (a, pages, pages.length)
  let r ← a.allocateFallback pid (smallPageCount - pages.length) flags
  return (r.impl, pages ++ r.handedOut, pages.length + r.allocatedPages)

/-- `allocFromPool` of the targeted forms: the rest of the page goes
back to its pool. -/
def Request.fromTarget (r : Request) (pid : Nat) (id : PoolId)
    (flags : AllocFlags) : Except Fault Request :=
  if r.smallPageCount = 0 then .ok r
  else r.fromPool pid id r.smallPageCount flags fun a page =>
    a.returnPage page false

/-- `allocatePages` for a domain. -/
def allocatePagesFrom (pid smallPageCount targetDomain : Nat)
    (flags : AllocFlags) :
    Except Fault (PageAllocatorImpl × List PageRef × Nat) := do
  let r : Request :=
    { impl := a
      smallPageCount := smallPageCount
      allocatedPages := 0
      handedOut := [] }
  let r ← match a.numaPolicy with
    | some policy =>
      let domains := if flags.localDomainOnly then [targetDomain]
        else policy.domainOrder targetDomain
      r.fromDomains (fun r id => r.fromTarget pid id flags)
        (domains.filter fun d => d < a.numDomains)
    | none => do
      let nearest ← a.nearestPool 0
      r.fromTarget pid nearest flags
  let r ← if r.smallPageCount > 0 && r.impl.hasUnownedPool then
    r.fromTarget pid .unowned flags else pure r
  let r ← r.finish flags
  return (r.impl, r.handedOut, r.allocatedPages)

/-- `allocatePages` for a processor's home domain. -/
def allocatePagesFor (pid smallPageCount targetProc : Nat)
    (flags : AllocFlags) :
    Except Fault (PageAllocatorImpl × List PageRef × Nat) :=
  let targetDomain := match a.numaPolicy with
    | some policy => policy.homeDomain targetProc
    | none => (a.cpuNearestPool targetProc).getD (2 ^ 16 - 1)
  a.allocatePagesFrom pid smallPageCount targetDomain flags

-- ==== free

def sortPages (pages : List PageRef) : List PageRef :=
  pages.insertionSort fun p q => p.addr ≤ q.addr

/-- The table cursor moves past the entries that end before an
address. -/
def advanceTable (addr : Nat) : List NUMADomainEntry → List NUMADomainEntry
  | [] => []
  | e :: rest =>
    if addr ≥ e.rangeEnd then advanceTable addr rest else e :: rest

/-- The pool the table's cursor names for an address. -/
def poolAt (addr : Nat) : List NUMADomainEntry → Option PoolId
  | [] => none
  | e :: _ => if addr ≥ e.rangeStart then some e.pool else none

/-- Give a run of pages back to the pool that owns it; pages outside
all known ranges are dropped. -/
def flushRun (runPool : Option PoolId) (run : List PageRef) :
    Except Fault PageAllocatorImpl :=
  match runPool with
  | none => .ok a
  | some id => do
    let pool ← a.pool id
    let pool ← pool.freePages run
    return a.setPool id pool

/-- The walk over the sorted pages, with the run of one pool so far. -/
def freeWalk : List PageRef → List NUMADomainEntry → Option PoolId →
    List PageRef → PageAllocatorImpl → Except Fault PageAllocatorImpl
  | [], _, runPool, run, a => a.flushRun runPool run
  | page :: pages, table, runPool, run, a =>
    let table := advanceTable page.addr table
    let pagePool := poolAt page.addr table
    if pagePool ≠ runPool then do
      let a ← a.flushRun runPool run
      freeWalk pages table pagePool [page] a
    else freeWalk pages table runPool (run ++ [page]) a

def freePages (pages : List PageRef) : Except Fault PageAllocatorImpl :=
  if pages = [] then .error .outOfBounds
  else freeWalk (sortPages pages) a.domainTable none [] a

-- ==== creation

/-- The domain table before it is sorted: one entry for each subrange of
each domain's pool. -/
def tableEntries (numaPools : List (Option NUMAPool)) : List NUMADomainEntry :=
  (numaPools.zipIdx).flatMap fun (pool, d) =>
    match pool with
    | none => []
    | some pool => pool.subrangeInfo.map fun sr =>
      { rangeStart := sr.rangeStart
        rangeEnd := sr.rangeEnd
        pool := .domain d }

/-- The pools by name. -/
def namePools (numaPools : List (Option NUMAPool))
    (unownedPool : Option NUMAPool) : PoolId → Option NUMAPool
  | .domain d => numaPools[d]?.join
  | .unowned => unownedPool

/-- The one pool of a machine without a policy. -/
def singleDomain (numaPools : List (Option NUMAPool)) : Except Fault Nat :=
  match (List.range numaPools.length).filter fun d =>
      (numaPools[d]?.join).isSome with
  | [] => .error (.assertion
      "createPageAllocator: no NUMAPool provided with null numaPolicy")
  | [d] => .ok d
  | _ => .error (.assertion "createPageAllocator: more than one NUMAPool provided with null numaPolicy")

def createPageAllocator (numaPools : List (Option NUMAPool))
    (localPools : Nat → LocalPool) (processorCount : Nat)
    (unownedPool : Option NUMAPool) (numaPolicy : Option Numa.NUMAPolicy) :
    Except Fault PageAllocatorImpl := do
  let entries := tableEntries numaPools
  if entries.length > 512 then
    throw (.assertion "Domain table overflow")
  let present := fun d => (numaPools[d]?.join).isSome
  let cpuNearestPool ← match numaPolicy with
    | some policy =>
      pure fun p => if p < processorCount then
        (policy.domainOrder (policy.homeDomain p)).find? present else none
    | none => do
      if unownedPool.isSome then
        throw (.assertion "createPageAllocator: unownedPool must be null when numaPolicy is null")
      let d ← singleDomain numaPools
      pure fun p => if p < processorCount then some d else none
  return {
    pools := namePools numaPools unownedPool
    numDomains := numaPools.length
    localPools := localPools
    domainTable := entries.insertionSort fun e f =>
      e.rangeStart ≤ f.rangeStart
    numaPolicy := numaPolicy
    cpuNearestPool := cpuNearestPool }

/-- `createLocalPool`. -/
def createLocalPool (topology : Option Numa.NUMATopology)
    (homePool : Option PoolId) (pid : Nat) : LocalPool :=
  { paPage1 := none
    paPage2 := none
    topology := topology
    homePool := homePool
    pid := pid }

-- ==== the runs

/-- The small pages a ref covers, by number. -/
def framesOf (ref : PageRef) : Finset Nat :=
  match ref.size with
  | .small => {ref.addr / smallPageSize}
  | .big => Finset.Ico (ref.addr / smallPageSize)
      (ref.addr / smallPageSize + smallPagesPerBigPage)

/-- The small pages of a list of refs. -/
def frames (refs : List PageRef) : Finset Nat :=
  refs.foldr (fun ref held => framesOf ref ∪ held) ∅

/-- The calls on a page allocator, each on the CPU `pid`. -/
inductive Call
  | allocatePages (pid count : Nat) (flags : AllocFlags)
  | allocatePagesFrom (pid count targetDomain : Nat) (flags : AllocFlags)
  | allocatePagesFor (pid count targetProc : Nat) (flags : AllocFlags)
  | freePages (pages : List PageRef)
  deriving DecidableEq, Repr

/-- The allocator together with the small pages its clients hold. -/
structure Machine where
  impl : PageAllocatorImpl
  held : Finset Nat

/-- The pages and the count an allocation answers with. -/
abbrev Answer := List PageRef × Nat

/-- One call; the clients come to hold what an allocation hands out and
give up what they free. -/
def step (s : Machine) : Call → Except Fault (Machine × Answer)
  | .allocatePages pid count flags =>
    (s.impl.allocatePages pid count flags).map fun (impl, refs, n) =>
      ({ impl := impl, held := s.held ∪ frames refs }, (refs, n))
  | .allocatePagesFrom pid count targetDomain flags =>
    (s.impl.allocatePagesFrom pid count targetDomain flags).map
      fun (impl, refs, n) =>
        ({ impl := impl, held := s.held ∪ frames refs }, (refs, n))
  | .allocatePagesFor pid count targetProc flags =>
    (s.impl.allocatePagesFor pid count targetProc flags).map
      fun (impl, refs, n) =>
        ({ impl := impl, held := s.held ∪ frames refs }, (refs, n))
  | .freePages pages =>
    (s.impl.freePages pages).map fun impl =>
      ({ impl := impl, held := s.held \ frames pages }, ([], 0))

end PageAllocatorImpl

end CroCOS
