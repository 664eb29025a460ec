/-
Every run of a slab allocator whose calls find what they rely on keeps
its bookkeeping, and no call of it dereferences an empty bucket.

`Meets` collects what each call relies on: the backing allocator
answers when a slab is needed, with memory in which more than one slot
fits; a freed pointer is a slot its slab handed out; and the free does
not drain the top bucket above other partial slabs. `step_safe` shows
that a call meeting it returns and leaves the invariant, so every run
of such calls does (`slabAllocator_keeps_buckets`). The last condition
cannot be dropped: `drained_top_derefs_null` is a run over two slabs
that meets the other two and ends in a null dereference.
-/
import CroCOS.Proofs.SlabAllocator.Free

namespace CroCOS.LibAlloc.SlabAllocator

open Lib

/-- What a call relies on. -/
def Meets (a : SlabAllocator) : Call → Prop
  | .alloc backingBuffer =>
    a.numNonFullSlabs = 0 → ∃ newSlab, backingBuffer = some newSlab
      ∧ newSlab ∉ a.slabTree
      ∧ Slab.Fits a.slotSize (newSlab + sizeofSlab)
          ((2 ^ 64 + a.desiredSlabSize - sizeofSlab) % 2 ^ 64)
  | .free ptr parentSlab =>
    parentSlab ∈ a.slabTree
      ∧ (∃ i < (a.slabs parentSlab).numSlots,
          ptr = (a.slabs parentSlab).slotAddr i
            ∧ (a.slabs parentSlab).freeList i = false)
      ∧ ¬ a.Drains parentSlab
  | .releaseAllFreeSlabs => True

/-- An allocator with no slabs. -/
theorem create_invariant (slot_size desired_slab_size : Nat) :
    Invariant (create slot_size desired_slab_size) fun _ => [] := by
  have hnone : ∀ {P : Prop} {x : Nat}, x ∈ [] → P :=
    fun hx => absurd hx List.not_mem_nil
  refine ⟨.of_placed ⟨?_, fun b b' x hx => hnone hx⟩ ?_ (fun i _ => rfl)
    fun b x hx => hnone hx, rfl, rfl, ?_, fun _ => Or.inl rfl⟩
  · intro b
    cases b with
    | fullSlabs | freeSlabs | partiallyFull i => exact Links.listed_nil
  · intro x
    constructor
    · intro hx
      exact absurd hx (Finset.notMem_empty x)
    · rintro ⟨b, hb⟩
      exact hnone hb
  · intro hpos
    exact absurd hpos (Nat.lt_irrefl 0)

/-- A call that finds what it relies on returns and keeps the
invariant. -/
theorem step_safe (a : SlabAllocator) (call : Call)
    (h : ∃ lists, Invariant a lists) (hmeets : Meets a call) :
    ∃ a' r, step a call = .ok (a', r) ∧ ∃ lists, Invariant a' lists := by
  obtain ⟨lists, h⟩ := h
  cases call with
  | alloc backingBuffer =>
    obtain ⟨a', ptr, lists', halloc, h'⟩ := alloc_spec h hmeets
    refine ⟨a', some ptr, ?_, lists', h'⟩
    rw [step, halloc]
  | free ptr parentSlab =>
    obtain ⟨hx, ⟨i, hi, hptr, hbit⟩, hdrain⟩ := hmeets
    obtain ⟨a', lists', hfree, h'⟩ := free_spec h hx hi hbit hdrain
    refine ⟨a', none, ?_, lists', h'⟩
    rw [step, hptr, hfree]
  | releaseAllFreeSlabs =>
    obtain ⟨a', hrel, h'⟩ := releaseAllFreeSlabs_spec h
    refine ⟨a', none, ?_, _, h'⟩
    rw [step, hrel]

/-- After any number of calls of a run that finds what it relies on,
every slab is on the list its index names, the counters are right, and
the top bucket is the one to allocate from. -/
theorem slabAllocator_keeps_buckets (slot_size desired_slab_size : Nat)
    (calls : List Call)
    (hmeets : Along step Meets (create slot_size desired_slab_size)
      calls) (n : Nat) :
    ∃ a answers, run step (create slot_size desired_slab_size)
        (calls.take n) = .ok (a, answers)
      ∧ ∃ lists, WellBucketed a lists := by
  obtain ⟨a, answers, hrun, lists, h⟩ := run_safe step_safe
    ⟨_, create_invariant slot_size desired_slab_size⟩
    (Along_take hmeets n)
  exact ⟨a, answers, hrun, lists, h.wellBucketed⟩

/-- A slab is asked for, gives a slot, takes it back and is released. -/
theorem slabAllocator_keeps_buckets_one_slab :
    Along step Meets (create 256 2048)
        [.alloc (some 0x10000), .free 0x10100 0x10000, .releaseAllFreeSlabs]
      ∧ ∃ a answers, run step (create 256 2048)
          [.alloc (some 0x10000), .free 0x10100 0x10000,
            .releaseAllFreeSlabs] = .ok (a, answers)
        ∧ ∃ lists, WellBucketed a lists := by
  have hmeets : Along step Meets (create 256 2048)
      [.alloc (some 0x10000), .free 0x10100 0x10000, .releaseAllFreeSlabs] := by
    refine ⟨?_, ?_⟩
    · intro _
      exact ⟨0x10000, rfl, by decide, by decide, by decide +kernel⟩
    · intro a r ha
      cases ha
      refine ⟨⟨by decide +kernel, ⟨0, by decide +kernel, by decide +kernel, by decide +kernel⟩, ?_⟩, ?_⟩
      · intro hdrain
        obtain ⟨i, hi, -, -, -, -, j, hj, hne⟩ := hdrain
        cases hi
        have hzero : j = 0 := by
          have : j < 1 := hj
          omega
        apply hne
        rw [hzero]
        rfl
      · intro a' r' _
        exact ⟨trivial, fun _ _ _ => trivial⟩
  exact ⟨hmeets, slabAllocator_keeps_buckets 256 2048 _ hmeets 3⟩

/-- The first slab of 256-byte slots fills and empties again but for
its last slot; in between, the second slab gives one slot and takes it
back. -/
def drainingCalls : List Call :=
  .alloc (some 0x10000) :: List.replicate 6 (.alloc none)
    ++ [.alloc (some 0x20000)]
    ++ (List.range 6).map (fun i => .free (0x10100 + 0x100 * i) 0x10000)
    ++ [.free 0x20100 0x20000]

/-- The free of the second slab's only slot drains the top bucket, and
`topOccupiedBucket` moves to the free list past the first slab, which
is still in a partial bucket. Once the free slabs are released, the
next allocation dereferences the empty free list. -/
theorem drained_top_derefs_null :
    (run step (create 256 2048) drainingCalls).toOption.map
        (fun p => (p.1.topOccupiedBucket, p.1.partiallyFullBuckets 0,
          p.1.numNonFullSlabs))
      = some (some .freeSlabs, some 0x10000, 2)
    ∧ run step (create 256 2048)
        (drainingCalls ++ [.releaseAllFreeSlabs, .alloc none])
      = .error .nullDeref := by
  refine ⟨by decide +kernel, eq_error_of_faultOf ?_⟩
  decide +kernel

end CroCOS.LibAlloc.SlabAllocator
