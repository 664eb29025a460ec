/-
The buckets of a slab allocator as lists, and the two tables that say
which bucket an occupancy belongs to.

# The lists

`Threaded a lists` says that every bucket head of `a` leads, through
the slabs' own pointers, along the list `lists` gives for it, and that
no slab is on two of them. Taking a slab out of one bucket and putting
it at the head of another are then operations on `lists`
(`Threaded.remove`, `Threaded.insert`, `Threaded.move`).

# The tables

An allocation files a slab by the upper table, a free by the lower one.
Both grow with the occupancy, the lower never exceeds the upper, and
above the reintroduction threshold the upper is the top bucket: these
are the facts that keep a slab from being filed against the direction
its occupancy moved.
-/
import CroCOS.Proofs.SlabAllocator.Slots

namespace CroCOS.LibAlloc

open Function
open Lib.Links (Listed)

variable {n o : Nat}

/-- The index a slab of a bucket carries. -/
def Bucket.index : Bucket → BucketIndex
  | .fullSlabs => .full
  | .freeSlabs => .free
  | .partiallyFull i => .partly i

theorem Bucket.index_inj {b b' : Bucket} (h : b.index = b'.index) : b = b' := by
  cases b with
  | fullSlabs =>
    cases b' with
    | fullSlabs => rfl
    | freeSlabs | partiallyFull j => cases h
  | freeSlabs =>
    cases b' with
    | fullSlabs => cases h
    | freeSlabs => rfl
    | partiallyFull j => cases h
  | partiallyFull i =>
    cases b' with
    | fullSlabs | freeSlabs => cases h
    | partiallyFull j => cases h; rfl

namespace SlabAllocator

-- ==== the tables

theorem upper_lt (o : Nat) : getBucketIndexForOccupancyInAlloc o < 6 := by
  unfold getBucketIndexForOccupancyInAlloc occupancyToBucketUpper
    slabAllocatorBucketCount
  simp only
  split
  · decide
  · exact Nat.lt_of_le_of_lt (Nat.min_le_right ..) (by decide)

theorem lower_lt (o : Nat) : getBucketIndexForOccupancyInFree o < 6 := by
  unfold getBucketIndexForOccupancyInFree occupancyToBucketLower
    slabAllocatorBucketCount
  simp only
  split
  · decide
  · exact Nat.lt_of_le_of_lt (Nat.min_le_right ..) (by decide)

theorem bucketPercentTableSize_eq : bucketPercentTableSize = 26 := by
  decide

theorem upper_mono {o' : Nat} (h : o ≤ o') : getBucketIndexForOccupancyInAlloc o
      ≤ getBucketIndexForOccupancyInAlloc o' := by
  have hdiv : o / 2 ^ slabFillPercentShift ≤ o' / 2 ^ slabFillPercentShift :=
    Nat.div_le_div_right h
  unfold getBucketIndexForOccupancyInAlloc occupancyToBucketUpper
  simp only [bucketPercentTableSize_eq, slabAllocatorBucketCount]
  split
  · rw [if_pos (by omega)]
  · split
    · omega
    · omega

theorem lower_mono {o' : Nat} (h : o ≤ o') : getBucketIndexForOccupancyInFree o
      ≤ getBucketIndexForOccupancyInFree o' := by
  have hdiv : o / 2 ^ slabFillPercentShift ≤ o' / 2 ^ slabFillPercentShift :=
    Nat.div_le_div_right h
  unfold getBucketIndexForOccupancyInFree occupancyToBucketLower
  simp only [bucketPercentTableSize_eq, slabAllocatorBucketCount]
  split
  · rw [if_pos (by omega)]
  · split
    · omega
    · omega

theorem lower_le_upper (o : Nat) : getBucketIndexForOccupancyInFree o
      ≤ getBucketIndexForOccupancyInAlloc o := by
  unfold getBucketIndexForOccupancyInFree getBucketIndexForOccupancyInAlloc
    occupancyToBucketLower occupancyToBucketUpper
  simp only [bucketPercentTableSize_eq, slabAllocatorBucketCount]
  split
  · exact le_rfl
  · omega

/-- Above the reintroduction threshold a slab belongs at the top. -/
theorem upper_of_gt_threshold
    (h : fullBucketReintroductionOccupancyThreshold < o) :
    getBucketIndexForOccupancyInAlloc o = slabAllocatorBucketCount - 1 := by
  unfold fullBucketReintroductionOccupancyThreshold at h
  unfold getBucketIndexForOccupancyInAlloc occupancyToBucketUpper
  simp only [bucketPercentTableSize_eq,
    slabAllocatorBucketCount, slabFillPercentShift]
  split
  · rfl
  · omega

/-- The occupancy of a slab of `n` slots with `f` of them free. -/
def occupancy (n f : Nat) : Nat := 100 - divideAndRoundUp (f * 100) n

theorem occupancy_anti {f f' : Nat} (h : f ≤ f') :
    occupancy n f' ≤ occupancy n f := by
  unfold occupancy divideAndRoundUp
  have : (f * 100 + (n - 1)) / n ≤ (f' * 100 + (n - 1)) / n :=
    Nat.div_le_div_right (by omega)
  omega

theorem getOccupancyPercent_eq (s : Slab) :
    s.getOccupancyPercent = occupancy s.numSlots s.freeCount := rfl

/-- A slab with one slot handed out is under the threshold. -/
theorem occupancy_pred_le (hn : 1 < n) :
    occupancy n (n - 1) ≤ fullBucketReintroductionOccupancyThreshold := by
  unfold occupancy divideAndRoundUp fullBucketReintroductionOccupancyThreshold
  have hhalf : 50 ≤ ((n - 1) * 100 + (n - 1)) / n := by
    rw [Nat.le_div_iff_mul_le (by omega)]
    omega
  omega

theorem occupancy_zero (hn : 1 < n) : occupancy n 0 = 100 := by
  unfold occupancy divideAndRoundUp
  rw [Nat.div_eq_of_lt (by omega)]

-- ==== the lists

/-- Every bucket leads along its list, and no slab is on two. -/
structure Threaded (a : SlabAllocator) (lists : Bucket → List Nat) : Prop where
  listed : ∀ b, Listed a.links (a.headOf b) (lists b)
  disjoint : ∀ b b' x, x ∈ lists b → x ∈ lists b' → b = b'

variable {a : SlabAllocator} {lists : Bucket → List Nat} {x : Nat}
variable {b b' : Bucket}

theorem headOf_setHead (head : Option Nat) : (a.setHead b head).headOf b'
      = if b' = b then head else a.headOf b' := by
  cases b with
  | fullSlabs | freeSlabs =>
    cases b' with
    | fullSlabs | freeSlabs | partiallyFull i => rfl
  | partiallyFull i =>
    cases b' with
    | fullSlabs | freeSlabs => rfl
    | partiallyFull j =>
      show update a.partiallyFullBuckets i head j = _
      rw [update_apply]
      simp only [Bucket.partiallyFull.injEq]
      rfl

theorem links_setHead (head : Option Nat) :
    (a.setHead b head).links = a.links := by
  cases b <;> rfl

-- What a change of bucket heads and links leaves alone.

@[simp] theorem remove_frame :
    (a.removeSlabFromBucket x b).slabTree = a.slabTree
      ∧ (a.removeSlabFromBucket x b).slabs = a.slabs
      ∧ (a.removeSlabFromBucket x b).bucketIndex = a.bucketIndex
      ∧ (a.removeSlabFromBucket x b).numFreeSlabs = a.numFreeSlabs
      ∧ (a.removeSlabFromBucket x b).numNonFullSlabs = a.numNonFullSlabs := by
  cases b <;> exact ⟨rfl, rfl, rfl, rfl, rfl⟩

@[simp] theorem insert_frame :
    (a.insertSlabAtBucketHead x b).slabTree = a.slabTree
      ∧ (a.insertSlabAtBucketHead x b).slabs = a.slabs
      ∧ (a.insertSlabAtBucketHead x b).bucketIndex = a.bucketIndex
      ∧ (a.insertSlabAtBucketHead x b).numFreeSlabs = a.numFreeSlabs
      ∧ (a.insertSlabAtBucketHead x b).numNonFullSlabs
        = a.numNonFullSlabs := by
  cases b <;> exact ⟨rfl, rfl, rfl, rfl, rfl⟩

/-- A bucket cut down to some of its slabs has no others. -/
theorem mem_of_mem_update {c : Bucket} {l : List Nat} {y : Nat}
    (hl : l ⊆ lists b) (hy : y ∈ update lists b l c) :
    y ∈ lists c := by
  rw [update_apply] at hy
  split at hy
  · rename_i hc
    rw [hc]
    exact hl hy
  · exact hy

/-- Taking a slab out of its bucket. -/
theorem Threaded.remove (h : Threaded a lists) (hx : x ∈ lists b) :
    Threaded (a.removeSlabFromBucket x b) (update lists b ((lists b).erase x))
      ∧ (a.removeSlabFromBucket x b).links.prev x = none := by
  obtain ⟨xs, ys, hsplit⟩ := List.append_of_mem hx
  have hb := h.listed b
  rw [hsplit] at hb
  have hxs : x ∉ xs := fun hmem =>
    (List.nodup_append.mp hb.nodup).2.2 x hmem x List.mem_cons_self rfl
  have herase : (lists b).erase x = xs ++ ys := by
    rw [hsplit, List.erase_append_right _ hxs, List.erase_cons_head]
  obtain ⟨hleft, hprev⟩ := Lib.Links.unlink_listed hb
  have hlinks : (a.removeSlabFromBucket x b).links
      = (a.links.unlink (a.headOf b) x).1 := links_setHead _
  refine ⟨⟨?_, ?_⟩, by rw [hlinks]; exact hprev⟩
  · intro b'
    rw [hlinks]
    unfold removeSlabFromBucket
    rw [headOf_setHead, update_apply]
    by_cases hbb : b' = b
    · rw [if_pos hbb, if_pos hbb, herase]
      exact hleft
    · rw [if_neg hbb, if_neg hbb]
      apply (h.listed b').frame
      intro y hy
      apply Lib.Links.unlink_frame hb
      rw [← hsplit]
      exact fun hmem => hbb (h.disjoint b' b y hy hmem)
  · intro c c' y hy hy'
    exact h.disjoint c c' y (mem_of_mem_update List.erase_subset hy)
      (mem_of_mem_update List.erase_subset hy')

/-- Putting a slab that is in no bucket at the head of one. -/
theorem Threaded.insert (h : Threaded a lists) (hx : ∀ c, x ∉ lists c)
    (hprev : a.links.prev x = none) :
    Threaded (a.insertSlabAtBucketHead x b)
      (update lists b (x :: lists b)) := by
  have hlinks : (a.insertSlabAtBucketHead x b).links
      = (a.links.push (a.headOf b) x).1 := links_setHead _
  refine ⟨?_, ?_⟩
  · intro b'
    rw [hlinks]
    unfold insertSlabAtBucketHead
    rw [headOf_setHead, update_apply]
    by_cases hbb : b' = b
    · rw [if_pos hbb, if_pos hbb]
      exact Lib.Links.push_listed (h.listed b) (hx b) hprev
    · rw [if_neg hbb, if_neg hbb]
      apply (h.listed b').frame
      intro y hy
      apply Lib.Links.push_frame
      · intro heq
        rw [heq] at hy
        exact hx b' hy
      · intro heq
        rw [(h.listed b).head_eq] at heq
        exact hbb (h.disjoint b' b y hy (List.mem_of_head? heq))
  · intro c c' y hy hy'
    rw [update_apply] at hy hy'
    have hcase : ∀ {d : Bucket}, y ∈ (if d = b then x :: lists b
        else lists d) → (y = x ∧ d = b) ∨ y ∈ lists d := by
      intro d hd
      split at hd
      · rename_i hdb
        rcases List.mem_cons.mp hd with rfl | hd
        · exact Or.inl ⟨rfl, hdb⟩
        · exact Or.inr (by rw [hdb]; exact hd)
      · exact Or.inr hd
    rcases hcase hy with ⟨rfl, hc⟩ | hy₁
    · rcases hcase hy' with ⟨-, hc'⟩ | hy₂
      · rw [hc, hc']
      · exact absurd hy₂ (hx c')
    · rcases hcase hy' with ⟨rfl, -⟩ | hy₂
      · exact absurd hy₁ (hx c)
      · exact h.disjoint c c' y hy₁ hy₂

/-- The lists after a slab moved from one bucket to the head of
another. -/
def moved (lists : Bucket → List Nat) (x : Nat) (b b' : Bucket) :
    Bucket → List Nat :=
  update (update lists b ((lists b).erase x)) b' (x :: lists b')

/-- Only links and heads matter. -/
theorem Threaded.congr (h : Threaded a lists) {t : SlabAllocator}
    (hlinks : t.links = a.links) (hheads : t.headOf = a.headOf) :
    Threaded t lists := by
  refine ⟨?_, h.disjoint⟩
  intro c
  rw [hlinks, hheads]
  exact h.listed c

/-- Moving a slab between buckets, whatever else changes on the way. -/
theorem Threaded.move (h : Threaded a lists) (hx : x ∈ lists b)
    (hbb : b ≠ b') {t : SlabAllocator}
    (hlinks : t.links = (a.removeSlabFromBucket x b).links)
    (hheads : t.headOf = (a.removeSlabFromBucket x b).headOf) :
    Threaded (t.insertSlabAtBucketHead x b') (moved lists x b b') := by
  obtain ⟨hrem, hprev⟩ := h.remove hx
  have ht := hrem.congr hlinks hheads
  have hout : ∀ c, x ∉ update lists b ((lists b).erase x) c := by
    intro c hc
    rw [update_apply] at hc
    split at hc
    · exact (List.Nodup.not_mem_erase (h.listed b).nodup) hc
    · rename_i hcb
      exact hcb (h.disjoint c b x hc hx)
  have hins := ht.insert (b := b') hout (by rw [hlinks]; exact hprev)
  rw [update_of_ne (Ne.symm hbb)] at hins
  exact hins

end SlabAllocator

end CroCOS.LibAlloc
