/-
An allocation keeps the bookkeeping of the slab allocator.

With no slab to allocate from, a new one is put on the free list
(`addNewSlab_spec`). The slot comes from the head of the top bucket;
the slab it came from then goes to the full list (`fill_spec`), up to
the bucket of its occupancy (`moveUp_spec`), or stays. When the slab
has left the top bucket for the full list, the downward search finds
the new top (`isTop_search`).
-/
import CroCOS.Proofs.SlabAllocator.Invariant

namespace CroCOS.LibAlloc.SlabAllocator

open Function
open Lib.Links (Listed)

variable {a : SlabAllocator} {lists : Bucket → List Nat} {x : Nat}
variable {a' : SlabAllocator} {i : Nat} {s' : Slab} {top : Bucket}

/-- A partial bucket with a slab is one of the six. -/
theorem Shelved.lt_of_mem (h : Shelved a lists)
    (hx : x ∈ lists (.partiallyFull i)) : i < slabAllocatorBucketCount := by
  by_contra hge
  rw [h.range i (Nat.not_lt.mp hge)] at hx
  exact List.not_mem_nil hx

/-- With no slab to allocate from, every list but the full one is
empty. -/
theorem Invariant.lists_eq_nil (h : Invariant a lists)
    (hz : a.numNonFullSlabs = 0) {b : Bucket} (hb : b ≠ .fullSlabs) :
    lists b = [] := by
  by_contra hne
  obtain ⟨y, hy⟩ := List.exists_mem_of_ne_nil _ hne
  have hmem : b ∈ nonFullBuckets := by
    cases b with
    | fullSlabs => exact absurd rfl hb
    | freeSlabs => exact freeSlabs_mem
    | partiallyFull i => exact partiallyFull_mem (h.lt_of_mem hy)
  have hpos := nonFullTotal_pos hmem hy
  rw [← h.numNonFull_eq] at hpos
  omega

-- ==== alloc

/-- The lists with `x` alone on the free list. -/
theorem mem_fresh {b : Bucket} {y : Nat} (hfree : lists .freeSlabs = []) :
    y ∈ update lists .freeSlabs [x] b ↔
      (y = x ∧ b = .freeSlabs) ∨ y ∈ lists b := by
  rw [update_apply]
  by_cases hb : b = .freeSlabs
  · rw [hb, hfree]
    simp
  · simp [hb]

/-- Threading a new slab onto the empty free list. -/
theorem Threaded.fresh (h : Threaded a lists)
    (hfree : lists .freeSlabs = []) (hnew : ∀ b, x ∉ lists b)
    (hlinks : a'.links
      = (a.links.setNext (some x) none).setPrev (some x) none)
    (hheads : ∀ b, a'.headOf b
      = if b = .freeSlabs then some x else a.headOf b) :
    Threaded a' (update lists .freeSlabs [x]) := by
  -- what the new slab held before is on no list
  have hcleared : Threaded { a with links := a.links.setPrev (some x) none }
      lists := by
    refine ⟨fun b => (h.listed b).frame fun y hy => ?_, h.disjoint⟩
    refine ⟨rfl, update_of_ne ?_ _ _⟩
    rintro rfl
    exact hnew b hy
  have hpushed := hcleared.insert (b := .freeSlabs) hnew (update_self ..)
  rw [hfree] at hpushed
  have hhead : a.freeSlabs = none := h.headOf_eq_none_iff.mpr hfree
  refine hpushed.congr ?_ (funext fun b => ?_)
  · show a'.links = ((a.links.setPrev (some x) none).push a.freeSlabs x).1
    rw [hlinks, hhead]
    rfl
  · rw [hheads, insertSlabAtBucketHead, headOf_setHead]
    rfl

/-- A new empty slab is shelved on the empty free list. -/
theorem Shelved.fresh (h : Shelved a lists) (hfree : lists .freeSlabs = [])
    (hx : x ∉ a.slabTree) {s : Slab} (hs : Sound s)
    (hempty : s.freeCount = s.numSlots)
    (hthread : Threaded a' (update lists .freeSlabs [x]))
    (hslabs : a'.slabs = update a.slabs x s)
    (hindex : a'.bucketIndex = update a.bucketIndex x .free)
    (htree : a'.slabTree = insert x a.slabTree) :
    Shelved a' (update lists .freeSlabs [x]) := by
  refine .of_placed hthread ?_ ?_ ?_
  · intro y
    rw [htree, Finset.mem_insert, h.tree]
    simp only [mem_fresh hfree, exists_or, exists_and_left, exists_eq, and_true]
  · intro i hi
    exact h.range i hi
  · intro b y hy
    rcases (mem_fresh hfree).mp hy with ⟨rfl, rfl⟩ | hold
    · refine ⟨?_, ?_, ?_⟩
      · rw [hindex, update_self]
        rfl
      · rw [hslabs, update_self]
        exact hs
      · rw [hslabs, update_self]
        exact hempty
    · have hyx : y ≠ x := by
        rintro rfl
        exact hx ((h.tree y).mpr ⟨b, hold⟩)
      apply (h.placed hold).congr
      · rw [hslabs, update_of_ne hyx]
      · rw [hindex, update_of_ne hyx]

/-- A new slab goes on the free list. -/
theorem addNewSlab_spec (h : Invariant a lists)
    (hz : a.numNonFullSlabs = 0) (hx : x ∉ a.slabTree)
    (hfits : Slab.Fits a.slotSize (x + sizeofSlab)
      ((2 ^ 64 + a.desiredSlabSize - sizeofSlab) % 2 ^ 64)) :
    ∃ a', a.addNewSlab a.desiredSlabSize (some x) = .ok a'
      ∧ Invariant a' (update lists .freeSlabs [x])
      ∧ 0 < a'.numNonFullSlabs := by
  obtain ⟨s, hs, hok, hempty, hslots⟩ := Slab.create_spec hfits
  have hfree : lists .freeSlabs = [] := h.lists_eq_nil hz (by decide)
  have hhead : a.freeSlabs = none := h.threaded.headOf_eq_none_iff.mpr hfree
  unfold addNewSlab initializeSlab
  simp only [hs]
  refine ⟨_, rfl, ⟨?_, ?_, ?_, ?_, ?_⟩, Nat.succ_pos _⟩
  · refine h.toShelved.fresh hfree hx ⟨hslots, _, _, hok⟩ hempty ?_ rfl rfl
      rfl
    refine h.threaded.fresh hfree
      (fun b hb => hx ((h.tree x).mpr ⟨b, hb⟩)) ?_ ?_
    · rw [hhead]
    · intro b
      cases b with
      | fullSlabs | freeSlabs | partiallyFull i => rfl
  · show a.numFreeSlabs + 1 = _
    rw [h.numFree_eq, hfree]
    rfl
  · show a.numNonFullSlabs + 1 = _
    have htotal := nonFullTotal_update lists .freeSlabs [x]
    rw [hfree, ← h.numNonFull_eq] at htotal
    exact htotal.symm
  · intro _
    refine ⟨.freeSlabs, ?_, ?_, Or.inr ⟨rfl, ?_⟩⟩
    · show (if a.topOccupiedBucket = none then some Bucket.freeSlabs
        else a.topOccupiedBucket) = some .freeSlabs
      rcases h.idle hz with htop | htop
      · rw [if_pos htop]
      · rw [htop]
        rfl
    · rw [update_self]
      exact List.cons_ne_nil _ _
    · intro j
      exact h.lists_eq_nil hz (by simp)
  · intro hzero
    exact absurd hzero (Nat.succ_ne_zero _)

/-- After an allocation, the slab may sit in the bucket the upper table
gives. -/
theorem Filed.after_alloc {s : Slab} (hshape : Slab.SameShape s s')
    (hcount : s'.freeCount + 1 = s.freeCount)
    (hle : s.freeCount ≤ s.numSlots) (hpos : 0 < s'.freeCount) :
    Filed s' (.partiallyFull
      (getBucketIndexForOccupancyInAlloc s'.getOccupancyPercent)) := by
  have hn := hshape.numSlots
  refine ⟨hpos, by omega, lower_le_upper _, Or.inr ?_⟩
  exact upper_mono (occupancy_anti (Nat.sub_le _ _))

/-- A downward search over `n` partial buckets from `low` on finds the
highest one with a slab. -/
theorem highestBetween_spec (h : Threaded a lists) (low n : Nat) :
    (∃ i, low ≤ i ∧ i < low + n
      ∧ a.highestBetween low n = some (.partiallyFull i)
      ∧ lists (.partiallyFull i) ≠ []
      ∧ ∀ j, i < j → j < low + n → lists (.partiallyFull j) = [])
    ∨ (a.highestBetween low n = none
      ∧ ∀ j, low ≤ j → j < low + n → lists (.partiallyFull j) = []) := by
  induction n with
  | zero => exact Or.inr ⟨rfl, fun j hj hlt => by omega⟩
  | succ n ih =>
    have hiff : a.partiallyFullBuckets (low + n) = none
        ↔ lists (.partiallyFull (low + n)) = [] :=
      h.headOf_eq_none_iff (b := .partiallyFull (low + n))
    unfold highestBetween
    by_cases hn : lists (.partiallyFull (low + n)) = []
    · rw [if_neg (not_not.mpr (hiff.mpr hn))]
      -- the last bucket is empty, so the rest of the range decides
      have hlast : ∀ j, j < low + (n + 1) → ¬ j < low + n →
          lists (.partiallyFull j) = [] := by
        intro j hj hge
        rw [show j = low + n by omega]
        exact hn
      rcases ih with ⟨i, hlow, hi, hfind, hne, habove⟩ | ⟨hfind, hall⟩
      · refine Or.inl ⟨i, hlow, by omega, hfind, hne, ?_⟩
        intro j hij hj
        by_cases hlt : j < low + n
        · exact habove j hij hlt
        · exact hlast j hj hlt
      · refine Or.inr ⟨hfind, ?_⟩
        intro j hlow hj
        by_cases hlt : j < low + n
        · exact hall j hlow hlt
        · exact hlast j hj hlt
    · rw [if_pos fun hz => hn (hiff.mp hz)]
      exact Or.inl ⟨low + n, by omega, by omega, rfl, hn,
        fun j hij hj => by omega⟩

/-- The search of `alloc` is the one of `free` over all buckets. -/
theorem highestPartial_eq (n : Nat) :
    a.highestPartial n = a.highestBetween 0 n := by
  induction n with
  | zero => rfl
  | succ n ih =>
    unfold highestPartial highestBetween
    rw [ih, Nat.zero_add]

/-- What the search answers, or else the free list, is the top of a
shelf with a slab to allocate from. -/
theorem isTop_search (h : Shelved a lists) (hpos : 0 < nonFullTotal lists) :
    IsTop lists (some ((a.highestPartial slabAllocatorBucketCount).getD
      .freeSlabs)) := by
  rw [highestPartial_eq]
  rcases highestBetween_spec h.threaded 0 slabAllocatorBucketCount with
    ⟨i, -, hi, hfind, hne, habove⟩ | ⟨hfind, hall⟩
  · rw [hfind]
    refine ⟨.partiallyFull i, rfl, hne, Or.inl ⟨i, rfl, ?_⟩⟩
    intro j hij
    rcases Nat.lt_or_ge j slabAllocatorBucketCount with hlt | hge
    · exact habove j hij (by omega)
    · exact h.range j hge
  · rw [hfind]
    have hnone : ∀ j, lists (.partiallyFull j) = [] := by
      intro j
      rcases Nat.lt_or_ge j slabAllocatorBucketCount with hlt | hge
      · exact hall j (Nat.zero_le j) (by omega)
      · exact h.range j hge
    refine ⟨.freeSlabs, rfl, ?_, Or.inr ⟨rfl, hnone⟩⟩
    obtain ⟨b, hb, hne⟩ := exists_of_nonFullTotal_pos hpos
    cases b with
    | fullSlabs => exact absurd hb fullSlabs_not_mem
    | freeSlabs => exact hne
    | partiallyFull i => exact absurd (hnone i) hne

/-- The top bucket is one of those that are not full. -/
theorem Shelved.top_mem (h : Shelved a lists)
    (htop : IsTop lists (some top)) : top ∈ nonFullBuckets := by
  obtain ⟨b, hb, hne, hkind⟩ := htop
  cases hb
  rcases hkind with ⟨i, rfl, -⟩ | ⟨rfl, -⟩
  · obtain ⟨y, hy⟩ := List.exists_mem_of_ne_nil _ hne
    exact partiallyFull_mem (h.lt_of_mem hy)
  · exact freeSlabs_mem

/-- Nothing is filed above the top bucket. -/
theorem IsTop.above {j : Nat} (h : IsTop lists (some (.partiallyFull i)))
    (hij : i < j) : lists (.partiallyFull j) = [] := by
  obtain ⟨b, hb, -, hkind⟩ := h
  cases hb
  rcases hkind with ⟨k, hk, habove⟩ | ⟨hk, -⟩
  · cases hk
    exact habove j hij
  · cases hk

theorem IsTop.no_partial (h : IsTop lists (some .freeSlabs)) (j : Nat) :
    lists (.partiallyFull j) = [] := by
  obtain ⟨b, hb, -, hkind⟩ := h
  cases hb
  rcases hkind with ⟨k, hk, -⟩ | ⟨-, hnone⟩
  · cases hk
  · exact hnone j

/-- A slab that gave its last slot goes to the full list. -/
theorem fill_spec (h : Invariant a lists) (htop : IsTop lists (some top))
    (hx : x ∈ lists top) (hs : Sound s')
    (hshape : Slab.SameShape (a.slabs x) s')
    (hcount : s'.freeCount + 1 = (a.slabs x).freeCount)
    (hz : s'.freeCount = 0) {a₁ : SlabAllocator}
    (ha₁ : a₁ = a.refile x s' top .fullSlabs)
    (ha' : a' = { a₁ with numNonFullSlabs := a₁.numNonFullSlabs - 1 }) :
    Shelved a' (moved lists x top .fullSlabs)
      ∧ a'.numFreeSlabs = (moved lists x top .fullSlabs .freeSlabs).length
      ∧ a'.numNonFullSlabs
        = nonFullTotal (moved lists x top .fullSlabs) := by
  have hmem := h.top_mem htop
  have hne : top ≠ .fullSlabs := by
    intro heq
    rw [heq] at hmem
    exact fullSlabs_not_mem hmem
  have hfiled : Filed s' .fullSlabs := by
    show _ < s'.getOccupancyPercent
    rw [getOccupancyPercent_eq, hz, occupancy_zero hs.1]
    decide
  have hshelf := h.toShelved.refile hx hne hs hfiled List.mem_cons_self
  obtain ⟨-, -, -, hfree, hnon⟩ := refile_frame a x s' top .fullSlabs
  subst ha' ha₁
  refine ⟨hshelf.congr rfl rfl rfl rfl rfl, ?_, ?_⟩
  · have hnot : Bucket.freeSlabs ≠ top := by
      intro heq
      have hfull : (a.slabs x).freeCount = (a.slabs x).numSlots := by
        rw [← heq] at hx
        exact h.filed .freeSlabs x hx
      have hn := hshape.numSlots
      have hmany := hs.1
      omega
    rw [moved_of_ne hnot (by decide), ← h.numFree_eq]
    exact hfree
  · have hmoved := nonFullTotal_moved hx hne
    rw [if_pos hmem, if_neg fullSlabs_not_mem, ← h.numNonFull_eq] at hmoved
    show _ - 1 = _
    omega

/-- A slab with slots left moves up to the bucket of its occupancy. -/
theorem moveUp_spec (h : Invariant a lists)
    (hIsTop : IsTop lists (some top)) (hx : x ∈ lists top) (hs : Sound s')
    (hshape : Slab.SameShape (a.slabs x) s')
    (hcount : s'.freeCount + 1 = (a.slabs x).freeCount)
    (hle : (a.slabs x).freeCount ≤ (a.slabs x).numSlots)
    (hpos : 0 < s'.freeCount)
    (hi : i = getBucketIndexForOccupancyInAlloc s'.getOccupancyPercent)
    (hne : top ≠ .partiallyFull i) {a₁ : SlabAllocator}
    (ha₁ : a₁ = if top = .freeSlabs then
      { a.setSlab x s' with
        numFreeSlabs := (a.setSlab x s').numFreeSlabs - 1 }
      else a.setSlab x s')
    (ha' : a' = { (((a₁.removeSlabFromBucket x top).setBucketIndex x
      (.partly i)).insertSlabAtBucketHead x (.partiallyFull i)) with
        topOccupiedBucket := some (.partiallyFull i) }) :
    Invariant a' (moved lists x top (.partiallyFull i)) := by
  have hmem := h.top_mem hIsTop
  have hlt : i < slabAllocatorBucketCount := by
    rw [hi]
    exact upper_lt _
  have hmoved := nonFullTotal_moved hx hne
  rw [if_pos hmem, if_pos (partiallyFull_mem hlt), ← h.numNonFull_eq]
    at hmoved
  have hfiled : Filed s' (.partiallyFull i) := by
    rw [hi]
    exact Filed.after_alloc hshape hcount hle hpos
  have hshelf := h.toShelved.refile hx hne hs hfiled
    (List.mem_cons_of_mem _ (partiallyFull_mem hlt))
  obtain ⟨-, -, -, hfree, hnon⟩ :=
    refile_frame a x s' top (.partiallyFull i)
  -- `moveUp` does what `refile` does, apart from the counter and the top
  have hsame : Shelved a' (moved lists x top (.partiallyFull i))
      ∧ a'.numNonFullSlabs = a.numNonFullSlabs
      ∧ a'.numFreeSlabs
        = if top = .freeSlabs then a.numFreeSlabs - 1 else a.numFreeSlabs := by
    rw [ha', ha₁]
    split
    · rename_i htop
      subst htop
      exact ⟨hshelf.congr rfl rfl rfl rfl rfl, hnon, rfl⟩
    · exact ⟨hshelf.congr rfl rfl rfl rfl rfl, hnon, hfree⟩
  obtain ⟨hshelf', hnum, hnumFree⟩ := hsame
  refine ⟨hshelf', ?_, ?_, ?_, ?_⟩
  · rw [hnumFree]
    by_cases htop : top = .freeSlabs
    · rw [if_pos htop, htop]
      unfold moved
      rw [htop] at hx
      rw [update_of_ne (by simp), update_self,
        List.length_erase_of_mem hx, ← h.numFree_eq]
    · rw [if_neg htop, moved_of_ne (Ne.symm htop) (by simp)]
      exact h.numFree_eq
  · rw [hnum]
    omega
  · intro _
    refine ⟨.partiallyFull i, by rw [ha'], moved_ne_nil, Or.inl ⟨i, rfl, ?_⟩⟩
    intro j hij
    apply moved_eq_nil _ (fun heq => by cases heq; omega)
    cases top with
    | fullSlabs => exact absurd hmem fullSlabs_not_mem
    | freeSlabs => exact hIsTop.no_partial j
    | partiallyFull k =>
      -- the slab was filed below what this allocation asks for
      obtain ⟨-, -, -, hone | hup⟩ := h.filed _ x hx
      · omega
      · apply hIsTop.above (i := k)
        have hn := hshape.numSlots
        rw [← hn, show (a.slabs x).freeCount - 1 = s'.freeCount by omega,
          ← getOccupancyPercent_eq] at hup
        omega
  · intro hzero
    have := nonFullTotal_pos hmem hx
    rw [← h.numNonFull_eq] at this
    omega

/-- Filing the slab an allocation was taken from. -/
theorem rebucketAfterAlloc_spec (h : Invariant a lists)
    (htop : a.topOccupiedBucket = some top) (hpos : 0 < a.numNonFullSlabs)
    (hx : x ∈ lists top) (hs : Sound s')
    (hshape : Slab.SameShape (a.slabs x) s')
    (hcount : s'.freeCount + 1 = (a.slabs x).freeCount)
    (hle : (a.slabs x).freeCount ≤ (a.slabs x).numSlots) :
    ∃ lists', Invariant ((a.setSlab x s').rebucketAfterAlloc x top)
      lists' := by
  have hslab : (a.setSlab x s').slabs x = s' := update_self ..
  have hIsTop := h.top hpos
  rw [htop] at hIsTop
  unfold rebucketAfterAlloc
  simp only [hslab]
  by_cases hfull : s'.isFull = true
  · rw [if_pos hfull]
    have hz : s'.freeCount = 0 := by simpa [Slab.isFull] using hfull
    obtain ⟨hshelf, hfree, htotal⟩ :=
      fill_spec h hIsTop hx hs hshape hcount hz rfl rfl
    refine ⟨moved lists x top .fullSlabs, ?_⟩
    split
    · rename_i hnone
      exact ⟨hshelf.congr rfl rfl rfl rfl rfl, hfree, htotal,
        fun hp => absurd hnone (Nat.ne_of_gt hp), fun _ => Or.inl rfl⟩
    · rename_i hsome
      refine ⟨hshelf.congr rfl rfl rfl rfl rfl, hfree, htotal, ?_,
        fun hnone => absurd hnone hsome⟩
      intro _
      apply isTop_search hshelf
      rw [← htotal]
      exact Nat.pos_of_ne_zero hsome
  · have hsome : 0 < s'.freeCount := by
      apply Nat.pos_of_ne_zero
      simpa [Slab.isFull] using hfull
    rw [if_neg hfull]
    split
    · rename_i hmove
      refine ⟨_, moveUp_spec h hIsTop hx hs hshape hcount hle hsome rfl ?_
        rfl rfl⟩
      intro heq
      rcases hmove with htopFree | hindex
      · rw [heq] at htopFree
        cases htopFree
      · apply hindex
        rw [show (a.setSlab x s').bucketIndex x = top.index from
          h.index_eq top x hx, heq]
        rfl
    · rename_i hstay
      obtain ⟨hnotFree, hindex⟩ := not_or.mp hstay
      have hplace : top = .partiallyFull
          (getBucketIndexForOccupancyInAlloc s'.getOccupancyPercent) := by
        apply Bucket.index_inj
        rw [← h.index_eq top x hx]
        exact not_not.mp hindex
      refine ⟨lists, ⟨h.toShelved.stay hx hs ?_, h.numFree_eq,
        h.numNonFull_eq, h.top, h.idle⟩⟩
      rw [hplace]
      exact Filed.after_alloc hshape hcount hle hsome

/-- An allocation from a slab that has a slot. -/
theorem allocTop_spec (h : Invariant a lists) (hpos : 0 < a.numNonFullSlabs) :
    ∃ top x s toReturn, a.topOccupiedBucket = some top
      ∧ a.headOf top = some x ∧ (a.slabs x).alloc = .ok (s, toReturn)
      ∧ ∃ lists', Invariant ((a.setSlab x s).rebucketAfterAlloc x top)
        lists' := by
  have hIsTop := h.top hpos
  obtain ⟨top, htop, hne, -⟩ := hIsTop
  obtain ⟨x, xs, hlist⟩ := List.exists_cons_of_ne_nil hne
  have hx : x ∈ lists top := by
    rw [hlist]
    exact List.mem_cons_self
  have hhead : a.headOf top = some x := by
    rw [(h.threaded.listed top).head_eq, hlist]
    rfl
  obtain ⟨hmany, hz, c, hok⟩ := h.sound x ((h.tree x).mpr ⟨top, hx⟩)
  have hle := hok.freeCount_le
  have hfree : 0 < (a.slabs x).freeCount := by
    have hmem := h.top_mem (show IsTop lists (some top) by
      rw [← htop]
      exact h.top hpos)
    have hfiled := h.filed top x hx
    cases top with
    | fullSlabs => exact absurd hmem fullSlabs_not_mem
    | freeSlabs =>
      have hall : (a.slabs x).freeCount = (a.slabs x).numSlots := hfiled
      omega
    | partiallyFull i => exact hfiled.1
  obtain ⟨s, i, h', c', halloc, -, -, hok', hshape, hcount, -⟩ :=
    Slab.alloc_spec hok hfree
  refine ⟨top, x, s, _, htop, hhead, halloc, ?_⟩
  apply rebucketAfterAlloc_spec h htop hpos hx ?_ hshape hcount hle
  exact ⟨by rw [hshape.numSlots]; exact hmany, h', c', hok'⟩

/-- `alloc` succeeds and keeps the invariant, if the backing allocator
answers when it is asked. -/
theorem alloc_spec (h : Invariant a lists) {backingBuffer : Option Nat}
    (hbacking : a.numNonFullSlabs = 0 → ∃ newSlab,
      backingBuffer = some newSlab ∧ newSlab ∉ a.slabTree
        ∧ Slab.Fits a.slotSize (newSlab + sizeofSlab)
            ((2 ^ 64 + a.desiredSlabSize - sizeofSlab) % 2 ^ 64)) :
    ∃ a' ptr lists', a.alloc backingBuffer = .ok (a', ptr)
      ∧ Invariant a' lists' := by
  have hready : ∃ a₁ lists₁, (if a.numNonFullSlabs = 0 then
      a.addNewSlab a.desiredSlabSize backingBuffer else .ok a) = .ok a₁
        ∧ Invariant a₁ lists₁ ∧ 0 < a₁.numNonFullSlabs := by
    by_cases hz : a.numNonFullSlabs = 0
    · obtain ⟨newSlab, hback, hnew, hfits⟩ := hbacking hz
      obtain ⟨a₁, ha₁, hinv, hpos⟩ := addNewSlab_spec h hz hnew hfits
      rw [if_pos hz, hback]
      exact ⟨a₁, _, ha₁, hinv, hpos⟩
    · rw [if_neg hz]
      exact ⟨a, lists, rfl, h, Nat.pos_of_ne_zero hz⟩
  obtain ⟨a₁, lists₁, ha₁, hinv, hpos⟩ := hready
  obtain ⟨top, x, s, toReturn, htop, hhead, halloc, lists', hinv'⟩ :=
    allocTop_spec hinv hpos
  refine ⟨_, toReturn, lists', ?_, hinv'⟩
  unfold alloc
  simp only [ha₁, htop, hhead, halloc]

end CroCOS.LibAlloc.SlabAllocator
