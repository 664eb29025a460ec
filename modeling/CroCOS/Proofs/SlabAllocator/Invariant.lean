/-
What holds of a slab allocator between calls.

`WellBucketed` is the bookkeeping a client relies on: every slab is on
exactly the list its `bucketIndex` names, the two counters are the
lengths they stand for, and `topOccupiedBucket` is the highest partial
bucket with a slab in it, or the free list when there is none.

`Invariant` adds what the calls need to keep it so: the slots of every
slab are in order, and a slab is filed where its occupancy allows
(`Filed`). A partial slab sits at or above the bucket a free would give
it, and at or below the bucket the next allocation would give it unless
that allocation fills it. So an allocation never moves a slab down and
a free never moves one up.
-/
import CroCOS.Proofs.SlabAllocator.Buckets

namespace CroCOS.LibAlloc.SlabAllocator

open Function

variable {c : Bucket}

/-- The buckets of slabs that are not full. -/
def nonFullBuckets : List Bucket :=
  .freeSlabs :: (List.range slabAllocatorBucketCount).map .partiallyFull

/-- The number of slabs on the lists that are not full. -/
def nonFullTotal (lists : Bucket → List Nat) : Nat :=
  (nonFullBuckets.map fun b => (lists b).length).sum

/-- `top` is the highest partial bucket with a slab, or the free list
when every partial bucket is empty; it is not empty itself. -/
def IsTop (lists : Bucket → List Nat) (top : Option Bucket) : Prop :=
  ∃ b, top = some b ∧ lists b ≠ []
    ∧ ((∃ i, b = .partiallyFull i
        ∧ ∀ j, i < j → lists (.partiallyFull j) = [])
      ∨ (b = .freeSlabs ∧ ∀ j, lists (.partiallyFull j) = []))

structure WellBucketed (a : SlabAllocator) (lists : Bucket → List Nat) :
    Prop where
  threaded : Threaded a lists
  index_eq : ∀ b, ∀ x ∈ lists b, a.bucketIndex x = b.index
  tree : ∀ x, x ∈ a.slabTree ↔ ∃ b, x ∈ lists b
  range : ∀ i, slabAllocatorBucketCount ≤ i → lists (.partiallyFull i) = []
  numFree_eq : a.numFreeSlabs = (lists .freeSlabs).length
  numNonFull_eq : a.numNonFullSlabs = nonFullTotal lists
  top : 0 < a.numNonFullSlabs → IsTop lists a.topOccupiedBucket

/-- A slab may sit in a bucket. -/
def Filed (s : Slab) : Bucket → Prop
  | .fullSlabs =>
    fullBucketReintroductionOccupancyThreshold < s.getOccupancyPercent
  | .freeSlabs => s.freeCount = s.numSlots
  | .partiallyFull i =>
    0 < s.freeCount ∧ s.freeCount < s.numSlots
      ∧ getBucketIndexForOccupancyInFree s.getOccupancyPercent ≤ i
      ∧ (s.freeCount = 1 ∨ i ≤ getBucketIndexForOccupancyInAlloc
          (occupancy s.numSlots (s.freeCount - 1)))

/-- The slots of a slab are in order, and there is more than one. -/
def Sound (s : Slab) : Prop := 1 < s.numSlots ∧ ∃ h c, s.Ok h c

/-- The slabs are where they belong, whatever the counters and the top
say. -/
structure Shelved (a : SlabAllocator) (lists : Bucket → List Nat) : Prop where
  threaded : Threaded a lists
  index_eq : ∀ b, ∀ x ∈ lists b, a.bucketIndex x = b.index
  tree : ∀ x, x ∈ a.slabTree ↔ ∃ b, x ∈ lists b
  range : ∀ i, slabAllocatorBucketCount ≤ i → lists (.partiallyFull i) = []
  sound : ∀ x ∈ a.slabTree, Sound (a.slabs x)
  filed : ∀ b, ∀ x ∈ lists b, Filed (a.slabs x) b

structure Invariant (a : SlabAllocator) (lists : Bucket → List Nat) :
    Prop extends Shelved a lists where
  numFree_eq : a.numFreeSlabs = (lists .freeSlabs).length
  numNonFull_eq : a.numNonFullSlabs = nonFullTotal lists
  top : 0 < a.numNonFullSlabs → IsTop lists a.topOccupiedBucket
  idle : a.numNonFullSlabs = 0 →
    a.topOccupiedBucket = none ∨ a.topOccupiedBucket = some .freeSlabs

variable {a : SlabAllocator} {lists : Bucket → List Nat} {x : Nat}
variable {b b' : Bucket}

theorem Invariant.wellBucketed (h : Invariant a lists) : WellBucketed a lists :=
  ⟨h.threaded, h.index_eq, h.tree, h.range, h.numFree_eq, h.numNonFull_eq,
    h.top⟩

-- ==== counting

/-- A sum over distinct places changes by what one place changes. -/
theorem sum_map_update {β : Type} [DecidableEq β] (f : β → Nat) (c : β)
    (v : Nat) (bs : List β) (hnd : bs.Nodup) :
    (bs.map (update f c v)).sum + (if c ∈ bs then f c else 0)
      = (bs.map f).sum + (if c ∈ bs then v else 0) := by
  induction bs with
  | nil => rfl
  | cons d bs ih =>
    obtain ⟨hd, hnd⟩ := List.nodup_cons.mp hnd
    have ih := ih hnd
    rw [List.map_cons, List.sum_cons, List.map_cons, List.sum_cons,
      update_apply]
    by_cases hc : c = d
    · subst hc
      rw [if_neg hd, if_neg hd] at ih
      rw [if_pos rfl, if_pos List.mem_cons_self, if_pos List.mem_cons_self]
      omega
    · have hiff : c ∈ d :: bs ↔ c ∈ bs :=
        List.mem_cons.trans (or_iff_right hc)
      rw [if_neg (Ne.symm hc), if_congr hiff rfl rfl, if_congr hiff rfl rfl]
      omega

theorem nodup_nonFullBuckets : nonFullBuckets.Nodup := by decide

theorem nonFullTotal_update (lists : Bucket → List Nat) (b : Bucket)
    (l : List Nat) :
    nonFullTotal (update lists b l)
        + (if b ∈ nonFullBuckets then (lists b).length else 0)
      = nonFullTotal lists
        + (if b ∈ nonFullBuckets then l.length else 0) := by
  have hfun : (fun c => (update lists b l c).length)
      = update (fun c => (lists c).length) b l.length :=
    funext fun c => apply_update (fun _ => List.length) lists b l c
  unfold nonFullTotal
  rw [hfun]
  exact sum_map_update _ _ _ _ nodup_nonFullBuckets

/-- A move changes the total by where the slab came from and went. -/
theorem nonFullTotal_moved (hx : x ∈ lists b) (hbb : b ≠ b') :
    nonFullTotal (moved lists x b b')
        + (if b ∈ nonFullBuckets then 1 else 0)
      = nonFullTotal lists + (if b' ∈ nonFullBuckets then 1 else 0) := by
  have hlen := List.length_erase_of_mem hx
  have hpos := List.length_pos_of_mem hx
  have h₁ := nonFullTotal_update lists b ((lists b).erase x)
  have h₂ := nonFullTotal_update
    (update lists b ((lists b).erase x)) b' (x :: lists b')
  rw [update_of_ne (Ne.symm hbb), List.length_cons] at h₂
  unfold moved
  split_ifs at h₁ h₂ ⊢ <;> omega

theorem freeSlabs_mem : Bucket.freeSlabs ∈ nonFullBuckets := by decide

theorem fullSlabs_not_mem : Bucket.fullSlabs ∉ nonFullBuckets := by decide

theorem partiallyFull_mem {i : Nat} (hi : i < slabAllocatorBucketCount) :
    Bucket.partiallyFull i ∈ nonFullBuckets :=
  List.mem_cons_of_mem _ (List.mem_map_of_mem (List.mem_range.mpr hi))

/-- A slab in a bucket that is not full is counted. -/
theorem nonFullTotal_pos (hb : b ∈ nonFullBuckets) (hx : x ∈ lists b) :
    0 < nonFullTotal lists := by
  have hle : (lists b).length ≤ nonFullTotal lists :=
    List.le_sum_of_mem (List.mem_map_of_mem hb)
  have := List.length_pos_of_mem hx
  omega

/-- A counted slab is in some bucket that is not full. -/
theorem exists_of_nonFullTotal_pos (h : 0 < nonFullTotal lists) :
    ∃ b ∈ nonFullBuckets, lists b ≠ [] := by
  by_contra hno
  have hall : ∀ n ∈ nonFullBuckets.map fun b => (lists b).length, n = 0 := by
    intro n hn
    obtain ⟨b, hb, rfl⟩ := List.mem_map.mp hn
    by_contra hne
    exact hno ⟨b, hb, fun he => hne (by rw [he]; rfl)⟩
  have hz : nonFullTotal lists = 0 := List.sum_eq_zero_iff_forall_eq_nat.mpr hall
  omega

-- ==== moving

theorem mem_moved {y : Nat} (hnd : (lists b).Nodup) (hx : x ∈ lists b)
    (hbb : b ≠ b') : y ∈ moved lists x b b' c
      ↔ (y = x ∧ c = b') ∨ (y ∈ lists c ∧ ¬ (y = x ∧ c = b)) := by
  unfold moved
  rw [update_apply]
  by_cases hc' : c = b'
  · subst hc'
    rw [if_pos rfl, List.mem_cons]
    constructor
    · rintro (rfl | hy)
      · exact Or.inl ⟨rfl, rfl⟩
      · exact Or.inr ⟨hy, fun h => hbb h.2.symm⟩
    · rintro (⟨rfl, -⟩ | ⟨hy, -⟩)
      · exact Or.inl rfl
      · exact Or.inr hy
  · rw [if_neg hc', update_apply]
    by_cases hc : c = b
    · subst hc
      rw [if_pos rfl, hnd.mem_erase_iff]
      constructor
      · rintro ⟨hne, hy⟩
        exact Or.inr ⟨hy, fun h => hne h.1⟩
      · rintro (⟨-, h⟩ | ⟨hy, hne⟩)
        · exact absurd h hc'
        · exact ⟨fun h => hne ⟨h, rfl⟩, hy⟩
    · rw [if_neg hc]
      constructor
      · intro hy
        exact Or.inr ⟨hy, fun h => hc h.2⟩
      · rintro (⟨-, h⟩ | ⟨hy, -⟩)
        · exact absurd h hc'
        · exact hy

theorem moved_of_ne (hc : c ≠ b) (hc' : c ≠ b') :
    moved lists x b b' c = lists c := by
  unfold moved
  rw [update_of_ne hc', update_of_ne hc]

/-- A bucket that a move leaves empty was empty, or held only the slab
that left. -/
theorem moved_eq_nil (h : lists c = []) (hc : c ≠ b') :
    moved lists x b b' c = [] := by
  unfold moved
  rw [update_of_ne hc, update_apply]
  split
  · rename_i hcb
    rw [← hcb, h]
    rfl
  · exact h

theorem moved_ne_nil : moved lists x b b' b' ≠ [] := by
  unfold moved
  rw [update_self]
  exact List.cons_ne_nil _ _

/-- A slab is in order and carries the index of its bucket. -/
structure Placed (a : SlabAllocator) (b : Bucket) (x : Nat) : Prop where
  index_eq : a.bucketIndex x = b.index
  sound : Sound (a.slabs x)
  filed : Filed (a.slabs x) b

theorem Shelved.placed (h : Shelved a lists) (hx : x ∈ lists b) :
    Placed a b x :=
  ⟨h.index_eq b x hx, h.sound x ((h.tree x).mpr ⟨b, hx⟩), h.filed b x hx⟩

/-- The shelves are in order when every slab on them is. -/
theorem Shelved.of_placed (hthread : Threaded a lists)
    (htree : ∀ x, x ∈ a.slabTree ↔ ∃ b, x ∈ lists b)
    (hrange : ∀ i, slabAllocatorBucketCount ≤ i → lists (.partiallyFull i) = [])
    (hplaced : ∀ b, ∀ x ∈ lists b, Placed a b x) : Shelved a lists := by
  refine ⟨hthread, fun b x hx => (hplaced b x hx).index_eq, htree, hrange,
    ?_, fun b x hx => (hplaced b x hx).filed⟩
  intro x hx
  obtain ⟨b, hb⟩ := (htree x).mp hx
  exact (hplaced b x hb).sound

/-- Only the record and the index of a slab matter. -/
theorem Placed.congr (h : Placed a b x) {a' : SlabAllocator}
    (hslab : a'.slabs x = a.slabs x)
    (hindex : a'.bucketIndex x = a.bucketIndex x) : Placed a' b x :=
  ⟨hindex.trans h.index_eq, by rw [hslab]; exact h.sound,
    by rw [hslab]; exact h.filed⟩

/-- A slab moves to the head of another bucket with a new record. -/
def refile (a : SlabAllocator) (x : Nat) (s : Slab) (b b' : Bucket) :
    SlabAllocator :=
  (((a.setSlab x s).removeSlabFromBucket x b).insertSlabAtBucketHead x
    b').setBucketIndex x b'.index

theorem refile_frame (a : SlabAllocator) (x : Nat) (s : Slab)
    (b b' : Bucket) : (a.refile x s b b').slabs = update a.slabs x s
      ∧ (a.refile x s b b').bucketIndex = update a.bucketIndex x b'.index
      ∧ (a.refile x s b b').slabTree = a.slabTree
      ∧ (a.refile x s b b').numFreeSlabs = a.numFreeSlabs
      ∧ (a.refile x s b b').numNonFullSlabs = a.numNonFullSlabs := by
  simp [refile, setBucketIndex, setSlab]

/-- A slab whose new record fits its new bucket is shelved again. -/
theorem Shelved.refile (h : Shelved a lists) (hx : x ∈ lists b)
    (hbb : b ≠ b') {s' : Slab} (hs : Sound s') (hf : Filed s' b')
    (hb' : b' ∈ .fullSlabs :: nonFullBuckets) :
    Shelved (a.refile x s' b b') (moved lists x b b') := by
  have hmem := fun {c : Bucket} {y : Nat} =>
    mem_moved (c := c) (y := y) (h.threaded.listed b).nodup hx hbb
  obtain ⟨hslabs, hindex, htree, -⟩ := refile_frame a x s' b b'
  have hthread := (Threaded.congr (t := a.setSlab x s') h.threaded rfl
    rfl).move hx hbb rfl rfl
  refine .of_placed (hthread.congr rfl rfl) ?_ ?_ ?_
  · intro y
    rw [htree, h.tree]
    constructor
    · rintro ⟨c, hy⟩
      by_cases hyx : y = x ∧ c = b
      · exact ⟨b', hmem.mpr (Or.inl ⟨hyx.1, rfl⟩)⟩
      · exact ⟨c, hmem.mpr (Or.inr ⟨hy, hyx⟩)⟩
    · rintro ⟨c, hy⟩
      rcases hmem.mp hy with ⟨rfl, -⟩ | ⟨hy, -⟩
      · exact ⟨b, hx⟩
      · exact ⟨c, hy⟩
  · intro i hi
    apply moved_eq_nil (h.range i hi)
    rintro rfl
    unfold nonFullBuckets at hb'
    simp only [List.mem_cons, List.mem_map, List.mem_range, reduceCtorEq,
      false_or, Bucket.partiallyFull.injEq] at hb'
    omega
  · intro c y hy
    rcases hmem.mp hy with ⟨rfl, rfl⟩ | ⟨hold, hne⟩
    · refine ⟨?_, ?_, ?_⟩
      · rw [hindex, update_self]
      · rw [hslabs, update_self]
        exact hs
      · rw [hslabs, update_self]
        exact hf
    · -- a slab still in its old bucket is another one
      have hyx : y ≠ x := by
        rintro rfl
        exact hne ⟨rfl, h.threaded.disjoint c b y hold hx⟩
      apply (h.placed hold).congr
      · rw [hslabs, update_of_ne hyx]
      · rw [hindex, update_of_ne hyx]

/-- The counters and the top do not matter. -/
theorem Shelved.congr (h : Shelved a lists) {a' : SlabAllocator}
    (hlinks : a'.links = a.links) (hheads : a'.headOf = a.headOf)
    (hslabs : a'.slabs = a.slabs)
    (hindex : a'.bucketIndex = a.bucketIndex)
    (htree : a'.slabTree = a.slabTree) : Shelved a' lists := by
  refine ⟨h.threaded.congr hlinks hheads, ?_, ?_, h.range, ?_, ?_⟩
  · rw [hindex]
    exact h.index_eq
  · rw [htree]
    exact h.tree
  · rw [htree, hslabs]
    exact h.sound
  · rw [hslabs]
    exact h.filed

/-- A slab whose record changed but may stay where it is. -/
theorem Shelved.stay (h : Shelved a lists) (hx : x ∈ lists b) {s' : Slab}
    (hs : Sound s') (hf : Filed s' b) :
    Shelved (a.setSlab x s') lists := by
  refine .of_placed (h.threaded.congr rfl rfl) h.tree h.range ?_
  intro c y hy
  by_cases hyx : y = x
  · subst hyx
    have hslab : (a.setSlab y s').slabs y = s' := update_self ..
    rw [h.threaded.disjoint c b y hy hx]
    exact ⟨h.index_eq b y hx, by rw [hslab]; exact hs,
      by rw [hslab]; exact hf⟩
  · exact (h.placed hy).congr (update_of_ne hyx ..) rfl

/-- A bucket's head is null when its list is empty. -/
theorem Threaded.headOf_eq_none_iff (h : Threaded a lists) :
    a.headOf b = none ↔ lists b = [] := by
  rw [(h.listed b).head_eq]
  exact List.head?_eq_none_iff

end CroCOS.LibAlloc.SlabAllocator
