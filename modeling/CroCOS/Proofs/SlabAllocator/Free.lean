/-
A free keeps the bookkeeping of the slab allocator, unless it drains
the top bucket above other partial slabs.

# Where the bookkeeping breaks

When a free empties a slab, the source looks at the top bucket; finding
it empty, it concludes that there is no partial slab left and points
`topOccupiedBucket` at the free list. The conclusion is wrong when a
lower bucket still holds one. `Drains` is that situation, as a
condition on the state the free finds.

# The three ways a free refiles a slab

A slab on the full list comes back to the highest partial bucket once
its occupancy is under the threshold (`reintroduce_spec`). A slab whose
last slot comes back goes to the free list, whose surplus is released
(`retire_spec`). A slab whose occupancy fell into a lower bucket moves
down (`demote_spec`), and the search between the two buckets finds the
new top if the old one drained.
-/
import CroCOS.Proofs.SlabAllocator.Alloc

namespace CroCOS.LibAlloc.SlabAllocator

open Function Lib
open Lib.Links (Listed Seg)

variable {a : SlabAllocator} {lists : Bucket → List Nat} {x : Nat}
variable {i : Nat} {s s' : Slab}

/-- A free of a slot of `parentSlab` would empty the only slab of the
top bucket while a lower partial bucket has one. -/
def Drains (a : SlabAllocator) (parentSlab : Nat) : Prop :=
  ∃ i, a.bucketIndex parentSlab = .partly i
    ∧ (a.slabs parentSlab).freeCount + 1 = (a.slabs parentSlab).numSlots
    ∧ a.topOccupiedBucket = some (.partiallyFull i)
    ∧ a.partiallyFullBuckets i = some parentSlab
    ∧ a.links.next parentSlab = none
    ∧ ∃ j < i, a.partiallyFullBuckets j ≠ none

-- ==== release

/-- Slabs may be dropped off the free list. -/
theorem Shelved.dropFree (h : Shelved a lists) {l : List Nat}
    (hl : l ⊆ lists .freeSlabs) {a' : SlabAllocator}
    (hthread : Threaded a' (update lists .freeSlabs l))
    (hslabs : a'.slabs = a.slabs)
    (hindex : a'.bucketIndex = a.bucketIndex)
    (htree : ∀ y, y ∈ a'.slabTree
      ↔ y ∈ a.slabTree ∧ (y ∈ lists .freeSlabs → y ∈ l)) :
    Shelved a' (update lists .freeSlabs l) := by
  have hsub : ∀ {b : Bucket} {y : Nat},
      y ∈ update lists .freeSlabs l b → y ∈ lists b :=
    mem_of_mem_update hl
  refine .of_placed hthread ?_ ?_ ?_
  · intro y
    rw [htree, h.tree]
    constructor
    · rintro ⟨⟨b, hb⟩, hkept⟩
      refine ⟨b, ?_⟩
      rw [update_apply]
      split
      · rename_i hfree
        rw [hfree] at hb
        exact hkept hb
      · exact hb
    · rintro ⟨b, hb⟩
      refine ⟨⟨b, hsub hb⟩, ?_⟩
      intro hfree
      rw [h.threaded.disjoint b .freeSlabs y (hsub hb) hfree] at hb
      exact hb
  · intro i hi
    exact h.range i hi
  · intro b y hy
    exact (h.placed (hsub hy)).congr (by rw [hslabs]) (by rw [hindex])

/-- What is left of the free list keeps the counters and the top. -/
theorem Invariant.dropFree (h : Invariant a lists) {l : List Nat}
    (hl : l ⊆ lists .freeSlabs) {a' : SlabAllocator}
    (hlisted : ∀ b, Listed a'.links (a'.headOf b)
      (update lists .freeSlabs l b))
    (hslabs : a'.slabs = a.slabs) (hindex : a'.bucketIndex = a.bucketIndex)
    (htree : ∀ y, y ∈ a'.slabTree
      ↔ y ∈ a.slabTree ∧ (y ∈ lists .freeSlabs → y ∈ l))
    (htop : a'.topOccupiedBucket = a.topOccupiedBucket)
    (hfree : a'.numFreeSlabs = l.length)
    (hnon : a'.numNonFullSlabs + (lists .freeSlabs).length
      = a.numNonFullSlabs + l.length) :
    Invariant a' (update lists .freeSlabs l) := by
  have htotal := nonFullTotal_update lists .freeSlabs l
  rw [if_pos freeSlabs_mem, if_pos freeSlabs_mem, ← h.numNonFull_eq] at htotal
  have hthread : Threaded a' (update lists .freeSlabs l) :=
    ⟨hlisted, fun b b' z hz hz' => h.threaded.disjoint b b' z
      (mem_of_mem_update hl hz) (mem_of_mem_update hl hz')⟩
  have hpartly : ∀ j, update lists .freeSlabs l (.partiallyFull j)
      = lists (.partiallyFull j) := fun j => update_of_ne (by simp) ..
  refine ⟨h.toShelved.dropFree hl hthread hslabs hindex htree, ?_, by omega,
    ?_, ?_⟩
  · rw [hfree, update_self]
  · intro hpos
    have hnd := (hlisted .freeSlabs).nodup
    rw [update_self] at hnd
    have hle := (List.subperm_of_subset hnd hl).length_le
    obtain ⟨b, hb, hne, hkind⟩ := h.top (by omega)
    refine ⟨b, htop.trans hb, ?_⟩
    rcases hkind with ⟨i, rfl, habove⟩ | ⟨rfl, hnone⟩
    · refine ⟨by rw [hpartly]; exact hne, Or.inl ⟨i, rfl, fun j hij => ?_⟩⟩
      exact habove j hij
    · refine ⟨?_, Or.inr ⟨rfl, fun j => by rw [hpartly]; exact hnone j⟩⟩
      -- every slab that is not full is free
      obtain ⟨c, hc, hcne⟩ := exists_of_nonFullTotal_pos
        (show 0 < nonFullTotal (update lists .freeSlabs l) by omega)
      cases c with
      | fullSlabs => exact absurd hc fullSlabs_not_mem
      | freeSlabs => exact hcne
      | partiallyFull i =>
        exact absurd (hnone i) hcne
  · intro hzero
    rw [htop]
    by_cases hnone : a.numNonFullSlabs = 0
    · exact h.idle hnone
    · obtain ⟨b, hb, hne, hkind⟩ := h.top (Nat.pos_of_ne_zero hnone)
      rcases hkind with ⟨i, rfl, -⟩ | ⟨rfl, -⟩
      · exfalso
        obtain ⟨y, hy⟩ := List.exists_mem_of_ne_nil _ hne
        have hmem := partiallyFull_mem (h.lt_of_mem hy)
        rw [← hpartly i] at hy
        have := nonFullTotal_pos hmem hy
        omega
      · exact Or.inr hb

/-- Threading past the first free slab. -/
theorem Threaded.popFree (h : Threaded a lists) {y : Nat} {rest : List Nat}
    (hfree : lists .freeSlabs = x :: y :: rest) {a' : SlabAllocator}
    (hlinks : a'.links = a.links.setPrev (some y) none)
    (hheads : ∀ b, a'.headOf b
      = if b = .freeSlabs then some y else a.headOf b) (b : Bucket) :
    Listed a'.links (a'.headOf b) (update lists .freeSlabs (y :: rest) b) := by
  have hlist := h.listed .freeSlabs
  rw [hfree] at hlist
  have hnext : a.links.next x = some y := hlist.seg.2.2.1
  have hhead : a.headOf .freeSlabs = some x := hlist.head_eq
  rw [hlinks, hheads]
  by_cases hb : b = .freeSlabs
  · rw [hb, ← hnext]
    rw [hhead] at hlist
    apply hlist.tail
    · intro z hz
      cases hz
      rw [Links.setPrev_prev, hnext, if_pos rfl]
    · intro z hz
      rw [hnext, Links.setPrev_prev]
      refine ⟨rfl, fun hne => if_neg ?_⟩
      exact fun heq => hne heq.symm
  · rw [if_neg hb, update_of_ne hb]
    apply (h.listed b).frame
    intro z hz
    have hzy : some y ≠ some z := by
      intro heq
      cases heq
      apply hb
      apply h.disjoint b .freeSlabs y hz
      rw [hfree]
      exact List.mem_cons_of_mem _ List.mem_cons_self
    rw [Links.setPrev_prev, if_neg hzy]
    exact ⟨rfl, rfl⟩

/-- One turn of the release loop, while more than one slab is free. -/
theorem popFree_spec (h : Invariant a lists) {y : Nat} {rest : List Nat}
    (hfree : lists .freeSlabs = x :: y :: rest) :
    Invariant { a with
        freeSlabs := some y
        slabTree := a.slabTree.erase x
        links := a.links.setPrev (some y) none
        numFreeSlabs := a.numFreeSlabs - 1
        numNonFullSlabs := a.numNonFullSlabs - 1 }
      (update lists .freeSlabs (y :: rest)) := by
  have hnd := (h.threaded.listed .freeSlabs).nodup
  rw [hfree] at hnd
  have hx : x ∉ y :: rest := (List.nodup_cons.mp hnd).1
  have hpos : 0 < a.numNonFullSlabs := by
    rw [h.numNonFull_eq]
    exact nonFullTotal_pos freeSlabs_mem (hfree ▸ List.mem_cons_self)
  refine h.dropFree ?_ (h.threaded.popFree hfree rfl fun b => ?_) rfl rfl ?_
    rfl ?_ ?_
  · rw [hfree]
    exact List.subset_cons_self ..
  · cases b with
    | fullSlabs | freeSlabs | partiallyFull i => rfl
  · intro z
    rw [Finset.mem_erase, hfree, and_comm]
    apply and_congr_right
    intro _
    constructor
    · intro hzx hz
      exact (List.mem_cons.mp hz).resolve_left hzx
    · intro hkept hzx
      apply hx
      rw [hzx] at hkept
      exact hkept List.mem_cons_self
  · show a.numFreeSlabs - 1 = _
    rw [h.numFree_eq, hfree]
    rfl
  · show a.numNonFullSlabs - 1 + _ = _
    rw [hfree, List.length_cons]
    omega

/-- The release loop leaves a free slab. -/
theorem releaseLoop_spec (fuel : Nat) : ∀ {a : SlabAllocator}
    {lists : Bucket → List Nat}, Invariant a lists →
      lists .freeSlabs ≠ [] → (lists .freeSlabs).length ≤ fuel →
      ∃ a' lists', releaseLoop fuel a = .ok a' ∧ Invariant a' lists'
        ∧ lists' .freeSlabs ≠ [] := by
  induction fuel with
  | zero =>
    intro a lists h hne hlen
    exact absurd (List.length_eq_zero_iff.mp (Nat.le_zero.mp hlen)) hne
  | succ fuel ih =>
    intro a lists h hne hlen
    unfold releaseLoop
    by_cases hmany : a.numFreeSlabs > freeBucketRetainLimit
    · rw [if_pos hmany]
      rw [h.numFree_eq] at hmany
      -- more than the limit: the list has a second slab
      rcases hfree : lists .freeSlabs with - | ⟨x, - | ⟨y, rest⟩⟩
      · exact absurd hfree hne
      · rw [hfree] at hmany
        cases hmany with
        | step hle => cases hle
      · have hlist := h.threaded.listed .freeSlabs
        rw [hfree] at hlist
        have hhead : a.freeSlabs = some x := hlist.head_eq
        have hnext : a.links.next x = some y := hlist.seg.2.2.1
        simp only [hhead, hnext]
        apply ih (popFree_spec h hfree)
        · rw [update_self]
          exact List.cons_ne_nil _ _
        · rw [update_self]
          rw [hfree, List.length_cons] at hlen
          omega
    · rw [if_neg hmany]
      exact ⟨a, lists, rfl, h, hne⟩

/-- Releasing the surplus keeps the invariant. -/
theorem releaseFreeSlabsIfNecessary_spec (h : Invariant a lists)
    (hne : lists .freeSlabs ≠ []) :
    ∃ a' lists', a.releaseFreeSlabsIfNecessary = .ok a'
      ∧ Invariant a' lists' := by
  have hrel : ∃ a₁ lists₁, (if a.numFreeSlabs > freeBucketReleaseThreshold
      then releaseLoop a.numFreeSlabs a else .ok a) = .ok a₁
        ∧ Invariant a₁ lists₁ ∧ lists₁ .freeSlabs ≠ [] := by
    split
    · exact releaseLoop_spec _ h hne (Nat.le_of_eq h.numFree_eq.symm)
    · exact ⟨a, lists, rfl, h, hne⟩
  obtain ⟨a₁, lists₁, ha₁, hinv, hne₁⟩ := hrel
  refine ⟨a₁, lists₁, ?_, hinv⟩
  unfold releaseFreeSlabsIfNecessary
  rw [ha₁]
  apply if_neg
  intro hboth
  exact hne₁ (hinv.threaded.headOf_eq_none_iff.mp hboth.1)

/-- Releasing every free slab walks the list to its end. -/
theorem releaseAllLoop_eq {b : Option Nat} {xs : List Nat} :
    ∀ {a : SlabAllocator}, Seg a.links b a.freeSlabs xs none →
      releaseAllLoop xs.length a = .ok { a with
          slabTree := a.slabTree \ xs.toFinset
          freeSlabs := none
          numNonFullSlabs := a.numNonFullSlabs - xs.length
          numFreeSlabs := a.numFreeSlabs - xs.length } := by
  induction xs generalizing b with
  | nil =>
    intro a hseg
    have hnone : a.freeSlabs = none := hseg
    rw [List.length_nil, releaseAllLoop, if_pos hnone, List.toFinset_nil,
      Finset.sdiff_empty, ← hnone]
    rfl
  | cons x xs ih =>
    intro a hseg
    obtain ⟨hx, -, hrest⟩ := hseg
    have hset : a.slabTree \ (x :: xs).toFinset
        = (a.slabTree.erase x) \ xs.toFinset := by
      rw [List.toFinset_cons, Finset.sdiff_insert, Finset.erase_sdiff_comm]
    rw [List.length_cons, releaseAllLoop]
    simp only [hx]
    rw [ih hrest, hset, Nat.sub_sub, Nat.sub_sub, Nat.add_comm 1]

/-- `releaseAllFreeSlabs` empties the free list. -/
theorem releaseAllFreeSlabs_spec (h : Invariant a lists) :
    ∃ a', a.releaseAllFreeSlabs = .ok a'
      ∧ Invariant a' (update lists .freeSlabs []) := by
  have hle := nonFullTotal_update lists .freeSlabs []
  rw [if_pos freeSlabs_mem, if_pos freeSlabs_mem, List.length_nil,
    ← h.numNonFull_eq] at hle
  unfold releaseAllFreeSlabs
  rw [h.numFree_eq, releaseAllLoop_eq (h.threaded.listed .freeSlabs).seg]
  refine ⟨_, rfl, h.dropFree (List.nil_subset _) (fun b => ?_) rfl rfl
    (fun z => ?_) rfl ?_ ?_⟩
  · cases b with
    | fullSlabs => exact h.threaded.listed .fullSlabs
    | freeSlabs => exact Links.listed_nil
    | partiallyFull i => exact h.threaded.listed (.partiallyFull i)
  · show z ∈ a.slabTree \ (lists .freeSlabs).toFinset ↔ _
    rw [Finset.mem_sdiff, List.mem_toFinset]
    simp only [List.not_mem_nil]
  · show a.numFreeSlabs - (lists .freeSlabs).length = _
    rw [h.numFree_eq, Nat.sub_self, List.length_nil]
  · show a.numNonFullSlabs - (lists .freeSlabs).length + _ = _
    rw [List.length_nil]
    omega

-- ==== free

/-- After a free, the slab may sit in the bucket the lower table gives. -/
theorem Filed.after_free (hcount : s'.freeCount = s.freeCount + 1)
    (hlt : s'.freeCount < s'.numSlots) : Filed s' (.partiallyFull
      (getBucketIndexForOccupancyInFree s'.getOccupancyPercent)) := by
  refine ⟨by omega, hlt, le_rfl, Or.inr ?_⟩
  calc getBucketIndexForOccupancyInFree s'.getOccupancyPercent
      ≤ getBucketIndexForOccupancyInFree
          (occupancy s'.numSlots (s'.freeCount - 1)) :=
        lower_mono (occupancy_anti (Nat.sub_le _ _))
    _ ≤ _ := lower_le_upper _

/-- A free does not raise the bucket of a slab. -/
theorem Filed.lower_le (hfiled : Filed s (.partiallyFull i))
    (hshape : Slab.SameShape s s') (hcount : s'.freeCount = s.freeCount + 1) :
    getBucketIndexForOccupancyInFree s'.getOccupancyPercent ≤ i := by
  refine Nat.le_trans (lower_mono ?_) hfiled.2.2.1
  rw [getOccupancyPercent_eq, hshape.numSlots, hcount]
  exact occupancy_anti (Nat.le_succ _)

/-- A slab that fell under the threshold may sit in the top bucket. -/
theorem Filed.reintroduced (hmany : 1 < s.numSlots)
    (hfiled : Filed s .fullSlabs) (hle : s'.freeCount ≤ s'.numSlots)
    (hshape : Slab.SameShape s s') (hcount : s'.freeCount = s.freeCount + 1) :
    Filed s' (.partiallyFull (slabAllocatorBucketCount - 1)) := by
  have hn := hshape.numSlots
  have hocc : fullBucketReintroductionOccupancyThreshold
      < occupancy s.numSlots s.freeCount := hfiled
  refine ⟨by omega, ?_, ?_, Or.inr ?_⟩
  · -- a slab with one slot handed out was not over the threshold
    apply Nat.lt_of_le_of_ne hle
    intro heq
    have hlow := occupancy_pred_le hmany
    rw [show s.numSlots - 1 = s.freeCount by omega] at hlow
    omega
  · exact Nat.le_pred_of_lt (lower_lt _)
  · rw [hn, show s'.freeCount - 1 = s.freeCount by omega,
      upper_of_gt_threshold hocc]

/-- A slab comes back from the full list. -/
theorem reintroduce_spec (h : Invariant a lists) (hx : x ∈ lists .fullSlabs)
    (hs : Sound s')
    (hfiled : Filed s' (.partiallyFull (slabAllocatorBucketCount - 1))) :
    Invariant ((a.setSlab x s').reintroduce x) (moved lists x .fullSlabs
        (.partiallyFull (slabAllocatorBucketCount - 1))) := by
  have hne : Bucket.fullSlabs
      ≠ .partiallyFull (slabAllocatorBucketCount - 1) := by simp
  have hlt : slabAllocatorBucketCount - 1 < slabAllocatorBucketCount := by
    decide
  have hshelf := h.toShelved.refile hx hne hs hfiled
    (List.mem_cons_of_mem _ (partiallyFull_mem hlt))
  have htotal := nonFullTotal_moved hx hne
  rw [← h.numNonFull_eq] at htotal
  refine ⟨hshelf.congr rfl rfl rfl rfl rfl, ?_, ?_, ?_, ?_⟩
  · rw [moved_of_ne (by simp) (by simp)]
    exact h.numFree_eq
  · exact htotal.symm
  · intro _
    refine ⟨_, rfl, moved_ne_nil, Or.inl ⟨_, rfl, ?_⟩⟩
    intro j hj
    apply moved_eq_nil (h.range j (by omega))
    intro heq
    cases heq
    exact Nat.lt_irrefl _ hj
  · intro hzero
    exact absurd hzero (Nat.succ_ne_zero _)

/-- A slab in a partial bucket is at or below the top, which is a
partial bucket too. -/
theorem Invariant.top_partial (h : Invariant a lists)
    (hx : x ∈ lists (.partiallyFull i)) : 0 < a.numNonFullSlabs ∧ ∃ k, i ≤ k
      ∧ a.topOccupiedBucket = some (.partiallyFull k)
      ∧ lists (.partiallyFull k) ≠ []
      ∧ ∀ j, k < j → lists (.partiallyFull j) = [] := by
  have hpos : 0 < a.numNonFullSlabs := by
    rw [h.numNonFull_eq]
    exact nonFullTotal_pos (partiallyFull_mem (h.lt_of_mem hx)) hx
  refine ⟨hpos, ?_⟩
  obtain ⟨b, hb, hne, hkind⟩ := h.top hpos
  rcases hkind with ⟨k, hk, habove⟩ | ⟨-, hnone⟩
  · refine ⟨k, ?_, by rw [← hk]; exact hb, by rw [← hk]; exact hne, habove⟩
    by_contra hlt
    rw [habove i (Nat.not_le.mp hlt)] at hx
    exact List.not_mem_nil hx
  · rw [hnone i] at hx
    exact absurd hx List.not_mem_nil

/-- If the top bucket is empty once `x` left its partial bucket, that
bucket was the top and held only `x`. -/
theorem only_of_moved_eq_nil {b' : Bucket} {k : Nat}
    (hne : lists (.partiallyFull k) ≠ [])
    (hnil : moved lists x (.partiallyFull i) b' (.partiallyFull k) = [])
    (hx : x ∈ lists (.partiallyFull i)) :
    k = i ∧ lists (.partiallyFull i) = [x] := by
  have hb' : Bucket.partiallyFull k ≠ b' := by
    intro heq
    rw [heq] at hnil
    exact moved_ne_nil hnil
  have hki : k = i := by
    by_contra hki
    rw [moved_of_ne (by simpa using hki) hb'] at hnil
    exact hne hnil
  refine ⟨hki, ?_⟩
  rw [hki] at hnil hb'
  unfold moved at hnil
  rw [update_of_ne hb', update_self] at hnil
  have hlen := List.length_erase_of_mem hx
  rw [hnil, List.length_nil] at hlen
  have hpos := List.length_pos_of_mem hx
  obtain ⟨y, hy⟩ := List.length_eq_one_iff.mp
    (show (lists (.partiallyFull i)).length = 1 by omega)
  rw [hy] at hx ⊢
  rw [List.mem_singleton.mp hx]

/-- A free that takes the only slab of the top bucket, and does not
drain, leaves no partial slab. -/
theorem Invariant.lower_nil_of_not_drains (h : Invariant a lists) {j : Nat}
    (hx : x ∈ lists (.partiallyFull i))
    (honly : lists (.partiallyFull i) = [x])
    (htop : a.topOccupiedBucket = some (.partiallyFull i))
    (hlast : (a.slabs x).freeCount + 1 = (a.slabs x).numSlots)
    (hdrain : ¬ a.Drains x) (hj : j < i) :
    lists (.partiallyFull j) = [] := by
  have hlist := h.threaded.listed (.partiallyFull i)
  rw [honly] at hlist
  have hhead : a.partiallyFullBuckets i = some x := hlist.head_eq
  have hnext : a.links.next x = none := hlist.seg.2.2
  by_contra hne
  apply hdrain
  refine ⟨i, h.index_eq _ x hx, hlast, htop, hhead, hnext, j, hj, ?_⟩
  intro hnone
  exact hne (h.threaded.headOf_eq_none_iff.mp hnone)

/-- The state `retire` has built when it looks at the top. -/
theorem retire_shelved (h : Invariant a lists)
    (hx : x ∈ lists (.partiallyFull i)) (hs : Sound s')
    (hempty : s'.freeCount = s'.numSlots) {a₁ a₂ a₃ : SlabAllocator}
    (ha₁ : a₁ = ((a.setSlab x s').removeSlabFromBucket x
      (.partiallyFull i)).insertSlabAtBucketHead x .freeSlabs)
    (ha₂ : a₂ = { a₁ with numFreeSlabs := a₁.numFreeSlabs + 1 })
    (ha₃ : a₃ = a₂.setBucketIndex x .free) :
    Shelved a₃ (moved lists x (.partiallyFull i) .freeSlabs)
      ∧ a₃.numFreeSlabs
        = (moved lists x (.partiallyFull i) .freeSlabs .freeSlabs).length
      ∧ a₃.numNonFullSlabs
        = nonFullTotal (moved lists x (.partiallyFull i) .freeSlabs)
      ∧ a₃.topOccupiedBucket = a.topOccupiedBucket := by
  have hne : Bucket.partiallyFull i ≠ .freeSlabs := by simp
  have hshelf := h.toShelved.refile hx hne hs hempty
    (List.mem_cons_of_mem _ freeSlabs_mem)
  have htotal := nonFullTotal_moved hx hne
  rw [if_pos (partiallyFull_mem (h.lt_of_mem hx)), ← h.numNonFull_eq] at htotal
  subst ha₃ ha₂ ha₁
  refine ⟨hshelf.congr rfl rfl rfl rfl rfl, ?_, ?_, rfl⟩
  · unfold moved
    rw [update_self, List.length_cons, ← h.numFree_eq]
    rfl
  · exact (Nat.add_right_cancel htotal).symm

/-- A slab whose last slot came back goes to the free list. -/
theorem retire_spec (h : Invariant a lists)
    (hx : x ∈ lists (.partiallyFull i)) (hs : Sound s')
    (hempty : s'.freeCount = s'.numSlots)
    (hshape : Slab.SameShape (a.slabs x) s')
    (hcount : s'.freeCount = (a.slabs x).freeCount + 1)
    (hdrain : ¬ a.Drains x) :
    ∃ a' lists', (a.setSlab x s').retire x i = .ok a'
      ∧ Invariant a' lists' := by
  obtain ⟨hshelf, hfree, htotal, htopSame⟩ :=
    retire_shelved h hx hs hempty rfl rfl rfl
  obtain ⟨hpos, k, hik, htop, hne, habove⟩ := h.top_partial hx
  have hsome : 0 < nonFullTotal (moved lists x (.partiallyFull i) .freeSlabs) :=
    nonFullTotal_pos freeSlabs_mem
      (List.mem_of_mem_head? (by unfold moved; rw [update_self]; rfl))
  rw [htop] at htopSame
  unfold retire
  simp only [htopSame]
  have habove' : ∀ j, k < j →
      moved lists x (.partiallyFull i) .freeSlabs (.partiallyFull j) = [] :=
    fun j hj => moved_eq_nil (habove j hj) (by simp)
  refine releaseFreeSlabsIfNecessary_spec ?_
    (moved_ne_nil : moved lists x (.partiallyFull i) .freeSlabs _ ≠ [])
  split
  · rename_i hnone
    have hnil := hshelf.threaded.headOf_eq_none_iff.mp hnone
    obtain ⟨rfl, honly⟩ := only_of_moved_eq_nil hne hnil hx
    refine ⟨hshelf.congr rfl rfl rfl rfl rfl, hfree, htotal, ?_,
      fun _ => Or.inr rfl⟩
    intro _
    refine ⟨.freeSlabs, rfl, moved_ne_nil, Or.inr ⟨rfl, ?_⟩⟩
    intro j
    rcases Nat.lt_trichotomy j k with hjk | rfl | hkj
    · apply moved_eq_nil _ (by simp)
      exact h.lower_nil_of_not_drains hx honly htop
        (by rw [← hcount, hempty, hshape.numSlots]) hdrain hjk
    · exact hnil
    · exact habove' j hkj
  · rename_i hhead
    refine ⟨hshelf, hfree, htotal, ?_, ?_⟩
    · intro _
      refine ⟨.partiallyFull k, htopSame, ?_, Or.inl ⟨k, rfl, habove'⟩⟩
      exact fun hnil => hhead (hshelf.threaded.headOf_eq_none_iff.mpr hnil)
    · intro hzero
      omega

/-- A slab with slots still handed out moves down. -/
theorem demote_spec (h : Invariant a lists) {i' : Nat}
    (hx : x ∈ lists (.partiallyFull i)) (hs : Sound s')
    (hfiled : Filed s' (.partiallyFull i')) (hlt : i' < i) :
    ∃ a' lists', (a.setSlab x s').demote x i i' = .ok a'
      ∧ Invariant a' lists' := by
  have hne : Bucket.partiallyFull i ≠ .partiallyFull i' := by
    intro heq
    cases heq
    exact Nat.lt_irrefl _ hlt
  have hmem := partiallyFull_mem (h.lt_of_mem hx)
  have hmem' : Bucket.partiallyFull i' ∈ nonFullBuckets :=
    partiallyFull_mem (Nat.lt_trans hlt (h.lt_of_mem hx))
  have hshelf := h.toShelved.refile hx hne hs hfiled
    (List.mem_cons_of_mem _ hmem')
  have htotal := nonFullTotal_moved hx hne
  rw [if_pos hmem, if_pos hmem', ← h.numNonFull_eq] at htotal
  have htotal' := (Nat.add_right_cancel htotal).symm
  have hfree : a.numFreeSlabs
      = (moved lists x (.partiallyFull i) (.partiallyFull i')
          .freeSlabs).length := by
    exact h.numFree_eq
  obtain ⟨hpos, k, hik, htop, hkne, habove⟩ := h.top_partial hx
  have habove' : ∀ j, k < j → moved lists x (.partiallyFull i)
      (.partiallyFull i') (.partiallyFull j) = [] := by
    intro j hj
    apply moved_eq_nil (habove j hj)
    intro heq
    cases heq
    omega
  unfold demote
  simp only [show ((((a.setSlab x s').removeSlabFromBucket x
    (.partiallyFull i)).setBucketIndex x (.partly i')).insertSlabAtBucketHead
      x (.partiallyFull i')).topOccupiedBucket = some (.partiallyFull k)
    from htop]
  split
  · rename_i hnone
    have hnil := hshelf.threaded.headOf_eq_none_iff.mp hnone
    obtain ⟨rfl, honly⟩ := only_of_moved_eq_nil hkne hnil hx
    refine ⟨_, _, rfl, hshelf.congr rfl rfl rfl rfl rfl, hfree, htotal', ?_,
      fun hzero => absurd hzero (Nat.ne_of_gt hpos)⟩
    intro _
    -- the slab itself is in the range searched
    rcases highestBetween_spec hshelf.threaded i' (k + 1 - i') with
      ⟨m, -, hm, hfind, hmne, hbetween⟩ | ⟨-, hall⟩
    · refine ⟨.partiallyFull m, congrArg (Option.or · _) hfind, hmne,
        Or.inl ⟨m, rfl, ?_⟩⟩
      intro j hmj
      by_cases hjk : j ≤ k
      · exact hbetween j hmj (by omega)
      · exact habove' j (by omega)
    · exact absurd (hall i' le_rfl (by omega)) moved_ne_nil
  · rename_i hhead
    refine ⟨_, _, rfl, hshelf, hfree, htotal', ?_,
      fun hzero => absurd hzero (Nat.ne_of_gt hpos)⟩
    intro _
    refine ⟨.partiallyFull k, htop, ?_, Or.inl ⟨k, rfl, habove'⟩⟩
    exact fun hnil => hhead (hshelf.threaded.headOf_eq_none_iff.mpr hnil)

/-- A slot that is handed out can be given back, unless that drains the
top bucket above a partial slab. -/
theorem free_spec (h : Invariant a lists) (hx : x ∈ a.slabTree)
    (hi : i < (a.slabs x).numSlots) (hbit : (a.slabs x).freeList i = false)
    (hdrain : ¬ a.Drains x) :
    ∃ a' lists', a.free ((a.slabs x).slotAddr i) x = .ok a'
      ∧ Invariant a' lists' := by
  obtain ⟨hmany, hz, c, hok⟩ := h.sound x hx
  obtain ⟨s', hfree, hok', hshape, hcount, -⟩ := Slab.free_spec hok hi hbit
  have hle := hok'.freeCount_le
  have hs : Sound s' :=
    ⟨by rw [hshape.numSlots]; exact hmany, hz, i :: c, hok'⟩
  obtain ⟨b, hb⟩ := (h.tree x).mp hx
  have hfiled := h.filed b x hb
  unfold free
  simp only [hfree]
  rw [show (a.setSlab x s').bucketIndex x = b.index from h.index_eq b x hb]
  cases b with
  | fullSlabs =>
    simp only [Bucket.index]
    split
    · exact ⟨_, _, rfl, reintroduce_spec h hb hs
        (Filed.reintroduced hmany hfiled hle hshape hcount)⟩
    · rename_i hover
      exact ⟨_, lists, rfl, h.toShelved.stay hb hs (Nat.not_le.mp hover),
        h.numFree_eq, h.numNonFull_eq, h.top, h.idle⟩
  | freeSlabs =>
    -- a free slab has no slot to give back
    have hall : (a.slabs x).freeCount = (a.slabs x).numSlots := hfiled
    rw [hshape.numSlots] at hle
    omega
  | partiallyFull j =>
    simp only [Bucket.index]
    by_cases hempty : s'.isEmpty = true
    · rw [if_pos hempty]
      exact retire_spec h hb hs (by simpa [Slab.isEmpty] using hempty)
        hshape hcount hdrain
    · rw [if_neg hempty]
      have hlt : s'.freeCount < s'.numSlots := by
        apply Nat.lt_of_le_of_ne hle
        simpa [Slab.isEmpty] using hempty
      have hafter := Filed.after_free hcount hlt
      split
      · rename_i hmove
        apply demote_spec h hb hs hafter
        exact Nat.lt_of_le_of_ne (Filed.lower_le hfiled hshape hcount)
          (Ne.symm hmove)
      · rename_i hstay
        rw [← not_not.mp hstay] at hafter
        exact ⟨_, lists, rfl, h.toShelved.stay hb hs hafter, h.numFree_eq,
          h.numNonFull_eq, h.top, h.idle⟩

end CroCOS.LibAlloc.SlabAllocator
