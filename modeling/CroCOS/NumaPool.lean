/-
Big pages and the pool of one NUMA domain (mm/PageAllocator.cpp): the
small pages of a big page are the slots of a bookkeeper, the pool keeps
its empty big pages in a ring buffer and its partly used ones in a bit
pool.

# Reading the model against the source

- A `PageRef` is its address and its size, which the source packs into
  one word. Base addresses are multiples of the big page size, so the
  alignment asserts of `PageRef::small` and `PageRef::big` hold.
- The pages passed to the allocation callback are the returned list, in
  order. The callback itself does not call the allocator.
- A pointer into `bigPageMetadataBuffer` is an index. The owner of a
  page is the pool whose buffer it is in.
- `freeBigPages` is a queue of indexes: with one call at a time, a read
  finds everything that was written. A write that finds too little room
  does nothing, as in the source, which ignores its answer.
- `allocHolder` is `none` for `SIZE_MAX`.
- `algorithm::sort` is not stable. Nothing here depends on the order of
  ranges that start at one address; the refs freed in one call are at
  different addresses.
- A loop that needs no bound in the source carries fuel; running out of
  it is the fault `diverges`.
-/
import CroCOS.AtomicBitPool
import CroCOS.SlabBookkeeper
import CroCOS.Numa

namespace CroCOS

-- ==== pages

inductive PageSize
  | small
  | big
  deriving DecidableEq, Repr

structure PageRef where
  addr : Nat
  size : PageSize
  deriving DecidableEq, Repr

structure AllocFlags where
  bigPageOnly : Bool := false
  localDomainOnly : Bool := false
  gracefulOom : Bool := false
  deriving DecidableEq, Repr

/-- `addr & ~(bigPageSize - 1)`. -/
def bigPageBase (addr : Nat) : Nat :=
  roundDownToNearestMultiple addr bigPageSize

/-- The place of a small page in its big page. -/
def smallPageIndex (addr : Nat) : Nat :=
  addr / smallPageSize % smallPagesPerBigPage

structure BigPageMetadata where
  bookkeeper : LibAlloc.SlabBookkeeper smallPagesPerBigPage
  baseAddr : Nat
  allocHolder : Option Nat
  deriving DecidableEq, Repr

namespace BigPageMetadata

def create (baseAddr : Nat) : Except Fault BigPageMetadata := do
  let bookkeeper ← (LibAlloc.SlabBookkeeper.create _).seedAllAvailable
  return { bookkeeper, baseAddr, allocHolder := none }

variable (m : BigPageMetadata)

def isFull : Bool := m.bookkeeper.isFull

def isEmpty : Bool := m.bookkeeper.isEmpty

def hasReservedSubpages : Bool := m.bookkeeper.hasReservedSlots

def hasAllocHolder : Bool := m.allocHolder.isSome

def allocAll : Except Fault BigPageMetadata :=
  if m.hasReservedSubpages then
    .error (.assertion "Can't allocate all from page with reserved subpages")
  else .ok { m with bookkeeper := m.bookkeeper.seedAllUsed }

def freeAll : Except Fault BigPageMetadata := do
  if m.hasReservedSubpages then
    throw (.assertion "Can't free all from page with reserved subpages")
  let bookkeeper ← m.bookkeeper.seedAllAvailable
  return { m with bookkeeper }

def flushAllocBitmap : BigPageMetadata :=
  { m with bookkeeper := m.bookkeeper.flushAllocSide }

def markAllocHolder (pid : Nat) : Except Fault BigPageMetadata :=
  if m.allocHolder = none then .ok { m with allocHolder := some pid }
  else .error (.assertion
    "markAllocHolder: page already held for allocation by another CPU")

def releaseAllocHolder : BigPageMetadata := { m with allocHolder := none }

def reservePage (addr : Nat) : Except Fault BigPageMetadata := do
  if addr % smallPageSize ≠ 0 then
    throw (.assertion "Address must be page aligned")
  let bookkeeper ← m.bookkeeper.reserveSlot (smallPageIndex addr)
  return { m with bookkeeper }

def fromPageIndex (index : Nat) : PageRef :=
  { addr := m.baseAddr + index * smallPageSize, size := .small }

def alloc (count : Nat) :
    List PageRef × OccupancyTransition × BigPageMetadata :=
  let (slots, transition, bookkeeper) := m.bookkeeper.allocSlots count
  (slots.map m.fromPageIndex, transition, { m with bookkeeper })

/-- `alloc` until the request is served or the page is full. A page
with nothing left that was full before never says that it became
full. -/
def allocateLoop : Nat → Nat → OccupancyTransition → BigPageMetadata →
    Except Fault (List PageRef × OccupancyTransition × BigPageMetadata)
  | 0, _, _, _ => .error .diverges
  | fuel + 1, wanted, transition, m =>
    if wanted = 0 then .ok ([], transition, m)
    else
      let (pages, transition, m) := m.alloc wanted
      if transition.becameFull then .ok (pages, transition, m)
      else do
        let (rest, transition, m) ←
          allocateLoop fuel (wanted - pages.length) transition m
        return (pages ++ rest, transition, m)

/-- `allocatePages` on the CPU `pid`. -/
def allocatePages (pid smallPageCount : Nat) :
    Except Fault (List PageRef × OccupancyTransition × BigPageMetadata) :=
  if m.allocHolder = none then
    .error (.assertion "Allocating from big page without setting alloc holder")
  else if m.allocHolder ≠ some pid then
    .error (.assertion "Two CPUs allocating from same page simultaneously")
  else allocateLoop (smallPageCount + 1) smallPageCount ⟨.empty, .empty⟩ m

/-- The slots of the pages, collected for one release. -/
def pendingSlots (pages : List PageRef) :
    Except Fault (BitVec (64 * ((smallPagesPerBigPage + 63) / 64))) :=
  pages.foldlM (fun pending page =>
    if bigPageBase page.addr ≠ m.baseAddr then
      .error (.assertion
        "Tried to free small page in wrong small page allocator")
    else .ok (pending ||| Lib.Bitmap.mask _ (smallPageIndex page.addr))) 0#_

def freePages (pages : List PageRef) :
    Except Fault (OccupancyTransition × BigPageMetadata) := do
  let pending ← m.pendingSlots pages
  let (transition, bookkeeper) ←
    m.bookkeeper.freeSlotsBulk pending pages.length
  return (transition, { m with bookkeeper })

end BigPageMetadata

-- ==== pools

structure SubrangeInfo where
  rangeStart : Nat
  rangeEnd : Nat
  metadataBase : Nat
  deriving DecidableEq, Repr

structure NUMAPool where
  bigPageMetadataBuffer : Nat → BigPageMetadata
  freeBigPages : List Nat
  paPages : AtomicBitPool
  associatedDomain : Nat
  subrangeInfo : List SubrangeInfo
  bigPageCount : Nat

namespace NUMAPool

variable (pool : NUMAPool)

def setPage (index : Nat) (m : BigPageMetadata) : NUMAPool :=
  { pool with
    bigPageMetadataBuffer :=
      Function.update pool.bigPageMetadataBuffer index m }

/-- `freeBigPages.bulkWrite` of pages that need no work. -/
def writeFreeBigPages (indexes : List Nat) : NUMAPool :=
  if indexes.length > pool.bigPageCount - pool.freeBigPages.length then pool
  else { pool with freeBigPages := pool.freeBigPages ++ indexes }

def addPAPage (index : Nat) : Except Fault NUMAPool := do
  let (paPages, _) ← pool.paPages.add index
  return { pool with paPages }

def findMetadata (addr : Nat) : Option Nat :=
  let addrAligned := bigPageBase addr
  (pool.subrangeInfo.find? fun sr =>
    addrAligned ≥ sr.rangeStart && addrAligned < sr.rangeEnd).map fun sr =>
      sr.metadataBase + (addrAligned - sr.rangeStart) / bigPageSize

def returnPage (index : Nat) (evictedAsFull : Bool) : Except Fault NUMAPool :=
  let m := pool.bigPageMetadataBuffer index
  if evictedAsFull || m.isFull then .ok pool
  else if m.isEmpty then .ok (pool.writeFreeBigPages [index])
  else pool.addPAPage index

/-- `BigPageMetadata::returnPage`, on the page's owner. -/
def returnBigPage (index : Nat) (evictedAsFull : Bool) :
    Except Fault NUMAPool :=
  let m := pool.bigPageMetadataBuffer index
  (pool.setPage index m.flushAllocBitmap.releaseAllocHolder).returnPage
    index evictedAsFull

-- ==== allocate

/-- The big pages at `indexes` are handed out whole. One of the callers
asserts that they are empty. -/
def handOutBigPages (mustBeEmpty : Bool) : List Nat → NUMAPool →
    Except Fault (NUMAPool × List PageRef)
  | [], pool => .ok (pool, [])
  | index :: indexes, pool => do
    let m := pool.bigPageMetadataBuffer index
    if mustBeEmpty && !m.isEmpty then
      throw (.assertion "Big pages in the free pool should be FREE")
    let m ← m.allocAll
    let (pool, refs) ←
      handOutBigPages mustBeEmpty indexes (pool.setPage index m)
    return (pool, { addr := m.baseAddr, size := .big } :: refs)

/-- `freeBigPages.bulkReadBestEffort`. -/
def takeFreeBigPages (count : Nat) : List Nat × NUMAPool :=
  (pool.freeBigPages.take count,
    { pool with freeBigPages := pool.freeBigPages.drop count })

/-- What an allocation has handed out, what is still wanted, and the
page it has small pages left in. -/
structure Progress where
  pool : NUMAPool
  handedOut : List PageRef
  allocatedPages : Nat
  smallPageCount : Nat
  paPageRemaining : Option Nat

/-- The inner loop of `allocateFromPAPages`, on the page `index` whose
holder is `pid`. -/
def allocateFromPage (pid index : Nat) : Nat → Progress → Except Fault Progress
  | 0, _ => .error .diverges
  | fuel + 1, pr => do
    let (pages, stateChange, m) ←
      (pr.pool.bigPageMetadataBuffer index).allocatePages pid pr.smallPageCount
    if pages.length = 0 then
      throw (.assertion "A page in the PAPage bitmap should never be full")
    let pr := { pr with
      pool := pr.pool.setPage index m
      handedOut := pr.handedOut ++ pages
      allocatedPages := pr.allocatedPages + pages.length
      smallPageCount := pr.smallPageCount - pages.length }
    if stateChange.becameFull then
      return { pr with pool := pr.pool.setPage index m.releaseAllocHolder }
    else if pr.smallPageCount = 0 then
      return { pr with
        pool := pr.pool.setPage index m.releaseAllocHolder
        paPageRemaining := some index }
    else allocateFromPage pid index fuel pr

/-- A page leaves the bit pool for each turn of the loop. -/
def allocateFromPAPages (pid maxRetries : Nat) :
    Nat → Progress → Except Fault Progress
  | 0, _ => .error .diverges
  | fuel + 1, pr =>
    if pr.smallPageCount = 0 then .ok pr
    else do
      let (paPages, result) ←
        pr.pool.paPages.getAny (BitVec.ofNat 64 pid) maxRetries
      let pr := { pr with pool := { pr.pool with paPages } }
      match result with
      | .success paIndex =>
        let m ← (pr.pool.bigPageMetadataBuffer paIndex).markAllocHolder pid
        let pr ← allocateFromPage pid paIndex (pr.smallPageCount + 1)
          { pr with pool := pr.pool.setPage paIndex m }
        allocateFromPAPages pid maxRetries fuel pr
      | .empty => return pr
      | .contended => return pr

/-- The loop over `freeBigPages`: whole big pages while the request
covers them, small pages of one of them for what is left. The answer
says whether the request was served that way. -/
def allocateFromFreeBigPages (pid : Nat) :
    Nat → Progress → Except Fault (Progress × Bool)
  | 0, _ => .error .diverges
  | fuel + 1, pr =>
    if pr.smallPageCount = 0 then .ok (pr, false)
    else
      let requiredPages :=
        divideAndRoundUp pr.smallPageCount smallPagesPerBigPage
      let (grabbed, pool) := pr.pool.takeFreeBigPages requiredPages
      match grabbed with
      | [] => .ok (pr, false)
      | first :: rest => do
        if pr.smallPageCount % smallPagesPerBigPage = 0 then
          let (pool, refs) ← handOutBigPages true grabbed pool
          allocateFromFreeBigPages pid fuel { pr with
            pool := pool
            handedOut := pr.handedOut ++ refs
            allocatedPages := pr.allocatedPages
              + grabbed.length * smallPagesPerBigPage
            smallPageCount := pr.smallPageCount
              - grabbed.length * smallPagesPerBigPage }
        else
          if !(pool.bigPageMetadataBuffer first).isEmpty then
            throw (.assertion
              "Big pages in the free pool should be FREE")
          let (pool, refs) ← handOutBigPages true rest pool
          if grabbed.length < requiredPages then
            let (pool, last) ← handOutBigPages false [first] pool
            allocateFromFreeBigPages pid fuel { pr with
              pool := pool
              handedOut := pr.handedOut ++ refs ++ last
              allocatedPages := pr.allocatedPages
                + grabbed.length * smallPagesPerBigPage
              smallPageCount := pr.smallPageCount
                - grabbed.length * smallPagesPerBigPage
              paPageRemaining := none }
          else
            let wanted := pr.smallPageCount
              - (grabbed.length - 1) * smallPagesPerBigPage
            let m ← (pool.bigPageMetadataBuffer first).markAllocHolder pid
            let (pages, _, m) ← m.allocatePages pid wanted
            if wanted - pages.length ≠ 0 then
              throw (.assertion "OK, we should only be here if we need less than a full big page, and yet the allocation wasn't totally fulfilled")
            return ({ pr with
              pool := pool.setPage first m.releaseAllocHolder
              handedOut := pr.handedOut ++ refs ++ pages
              allocatedPages := pr.allocatedPages
                + (grabbed.length - 1) * smallPagesPerBigPage
                + pages.length
              smallPageCount := wanted - pages.length
              paPageRemaining := some first }, true)

def paBitpoolRelaxedRetries : Nat := 16
def paBitpoolDeterminedRetries : Nat := 1000000

/-- `allocatePages` on the CPU `pid`. -/
def allocatePages (pid smallPageCount : Nat) (flags : AllocFlags) :
    Except Fault Progress := do
  let start : Progress :=
    { pool := pool
      handedOut := []
      allocatedPages := 0
      smallPageCount := smallPageCount
      paPageRemaining := none }
  let numBigPages :=
    if flags.bigPageOnly then
      divideAndRoundUp smallPageCount smallPagesPerBigPage
    else smallPageCount / smallPagesPerBigPage
  let (grabbed, pool) := pool.takeFreeBigPages numBigPages
  let (pool, refs) ← handOutBigPages false grabbed pool
  let pr := { start with
    pool := pool
    handedOut := refs
    allocatedPages := grabbed.length * smallPagesPerBigPage }
  if flags.bigPageOnly then return pr
  let pr := { pr with
    smallPageCount := smallPageCount - pr.allocatedPages }
  let pr ← allocateFromPAPages pid paBitpoolRelaxedRetries
    (pool.bigPageCount + 2) pr
  let (pr, served) ← allocateFromFreeBigPages pid (pool.bigPageCount + 2) pr
  if served then return pr
  allocateFromPAPages pid paBitpoolDeterminedRetries (pool.bigPageCount + 2) pr

-- ==== free

/-- `freeBigPageRun`: the big pages at `runStart`, all of one subrange,
whose first has the index `firstMetadata`. A ring buffer without room
for them takes none. -/
def freeBigPageRun (firstMetadata : Nat) (runStart : List PageRef) :
    Except Fault NUMAPool :=
  if runStart.length > pool.bigPageCount - pool.freeBigPages.length then
    .ok pool
  else do
    let firstAddr := (runStart.head?.map PageRef.addr).getD 0
    let (pool, entries) ← runStart.foldlM (fun (pool, entries) page => do
      let index := firstMetadata + (page.addr - firstAddr) / bigPageSize
      let m := pool.bigPageMetadataBuffer index
      if !m.isFull then
        throw (.assertion "We should only take this path when freeing totally occupied big pages")
      let m ← m.freeAll
      return (pool.setPage index m, entries ++ [index])) (pool, [])
    return { pool with freeBigPages := pool.freeBigPages ++ entries }

/-- `freeSmallPageRun`: small pages of the big page `superpage`. -/
def freeSmallPageRun (superpage : Nat) (runStart : List PageRef) :
    Except Fault NUMAPool := do
  let (transition, m) ←
    (pool.bigPageMetadataBuffer superpage).freePages runStart
  let pool := pool.setPage superpage m
  if transition.becameEmpty then
    if m.hasAllocHolder then return pool
    else if transition.before = .partly then
      let (paPages, result) ← pool.paPages.remove superpage
      let pool := { pool with paPages }
      if result ≠ .notPresent then
        if !m.isEmpty then pool.addPAPage superpage
        else return pool.writeFreeBigPages [superpage]
      else return pool
    else return pool.writeFreeBigPages [superpage]
  else if transition.becameAvailable then
    if m.hasAllocHolder then
      throw (.assertion "stuck waiting for alloc holder to release hold")
    pool.addPAPage superpage
  else return pool

/-- The subrange cursor moves past the subranges that end before an
address. -/
def advanceCursor (addr : Nat) : List SubrangeInfo → List SubrangeInfo
  | [] => []
  | sr :: rest =>
    if addr ≥ sr.rangeEnd then advanceCursor addr rest else sr :: rest

/-- The loop over the pages, which are sorted by address; each turn
takes a run off their front. The cursor is the subranges from
`subrangeIdx` on. -/
def freePagesLoop : Nat → List SubrangeInfo → List PageRef → NUMAPool →
    Except Fault NUMAPool
  | _, _, [], pool => .ok pool
  | 0, _, _ :: _, _ => .error .diverges
  | fuel + 1, cursor, page :: pages, pool =>
    match page.size with
    | .big => do
      match advanceCursor page.addr cursor with
      | [] => throw (.assertion
          "NUMAPool::freePages: big page address outside all subranges")
      | sr :: cursor =>
        let inRun := fun p : PageRef =>
          decide (p.size = .big) && decide (p.addr < sr.rangeEnd)
        let run := (page :: pages).takeWhile inRun
        match pool.findMetadata page.addr with
        | none => throw .nullDeref
        | some firstMetadata =>
          let pool ← pool.freeBigPageRun firstMetadata run
          freePagesLoop fuel (sr :: cursor)
            ((page :: pages).dropWhile inRun) pool
    | .small => do
      let inRun := fun p : PageRef =>
        decide (p.size = .small)
          && decide (bigPageBase p.addr = bigPageBase page.addr)
      let run := (page :: pages).takeWhile inRun
      match pool.findMetadata page.addr with
      | none => throw .nullDeref
      | some superpage =>
        let pool ← pool.freeSmallPageRun superpage run
        freePagesLoop fuel cursor ((page :: pages).dropWhile inRun) pool

def freePages (pages : List PageRef) : Except Fault NUMAPool :=
  freePagesLoop pages.length pool.subrangeInfo pages pool

end NUMAPool

end CroCOS
