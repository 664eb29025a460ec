/-
Runs of calls on a memory span.

`WellTiled` is what holds after every call: the blocks tile the buffer,
each of them aligned and of the minimum size at least, no two free ones
adjacent, and the trees, `freeSpace` and `largestFreeBlockSize` agree
with them.

# What a call relies on

- `freeBlock` takes any pointer: one that is not the data of an
  allocated block is turned down.
- `allocateBlock` relies on a size that does not wrap when it is padded,
  and on a free block that the request does not overrun. The padded size
  leaves room for the header and for the bytes asked for, but not for
  the minimum block size above a header that has been slid up to the
  alignment: a request of at most 16 bytes with a large alignment may be
  placed so high in its free block that the block it takes ends past it.

`spans_stay_tiled` is the run theorem; `small_request_overruns_block`
is a run that misses only the last condition.
-/
import CroCOS.Proofs.MemorySpan.Coalesce

namespace CroCOS.LibAlloc.InternalAllocator.MemorySpanHeader

open Function Lib
open Lib.Tile (Tiles starts total)

variable {s s' : MemorySpanHeader} {xs ys ts : List (Tile Use)}
variable {size align hint : Nat}
variable {h n : Nat}

-- ==== well tiled

/-- The blocks `ts` tile the buffer of `s`, and the trees and sums of
`s` are those of `ts`. -/
structure WellTiled (s : MemorySpanHeader) (ts : List (Tile Use)) : Prop where
  tiles : Tiles s.bufferStart (s.addr + s.spanSize) ts
  aligned : ∀ t ∈ ts, 16 ∣ t.addr
  minimum : ∀ t ∈ ts, minimumBlockSize ≤ t.size
  size_eq : ∀ t ∈ ts, s.blockSize t.addr = t.size
  allocated_eq : s.allocatedBlockTree = starts .allocated ts
  bySize_eq : s.unallocatedBlockTree = starts .free ts
  byAddress_eq : s.unallocatedBlocksByAddress = starts .free ts
  separated : Separated ts
  freeSpace_eq : s.freeSpace = total .free ts
  largest_eq : s.largestFreeBlockSize = s.unallocatedBlockTree.sup s.blockSize

/-- What a run keeps. -/
structure Invariant (s : MemorySpanHeader) (ts : List (Tile Use)) : Prop where
  tiled : Tiled s ts
  separated : Separated ts
  freeSpace_eq : s.freeSpace = total .free ts

theorem Invariant.wellTiled (h : Invariant s ts) : WellTiled s ts where
  tiles := h.tiled.tiles
  aligned := fun t ht => (h.tiled.fine t ht).1
  minimum := fun t ht => by
    rw [minimumBlockSize_eq]
    exact (h.tiled.fine t ht).2.2
  size_eq := fun _ ht => h.tiled.blockSize_eq ht
  allocated_eq := h.tiled.allocated_eq
  bySize_eq := h.tiled.bySize_eq
  byAddress_eq := h.tiled.byAddress_eq
  separated := h.separated
  freeSpace_eq := h.freeSpace_eq
  largest_eq := by
    rw [h.tiled.bySize_eq]
    exact h.tiled.largest_eq

/-- A new span is one free block. -/
theorem create_invariant {addr spanSize : Nat}
    (hshape : Shape (create addr spanSize)) :
    Invariant (create addr spanSize) [⟨addr + 144, spanSize - 144, .free⟩] := by
  have hstart : alignUp (addr + sizeofMemorySpanHeader) alignofBlockHeader
      = addr + 144 := hshape.bufferStart_eq
  have haddr : 16 ∣ addr := hshape.addr_dvd
  have hsize : 16 ∣ spanSize := hshape.size_dvd
  have hroom : 144 + minimumBlockSize ≤ spanSize := hshape.room
  have hsmall : spanSize < 2 ^ 32 := hshape.small
  rw [minimumBlockSize_eq] at hroom
  have hbuffer : usub (addr + spanSize) (addr + 144) = spanSize - 144 := by
    rw [usub_eq (by omega) (by omega)]
    omega
  have hwhole : (spanSize - 144) % 2 ^ 32 / 4 * 4 = spanSize - 144 := by
    omega
  have heq : create addr spanSize = (
       { addr := addr
         spanSize := spanSize
         allocatedBlockTree := ∅
         unallocatedBlockTree := ∅
         unallocatedBlocksByAddress := ∅
         freeSpace := spanSize - 144
         largestFreeBlockSize := 0
         sizeAndColor :=
           update (fun _ => 0) (addr + 144) (spanSize - 144)
         isAligned := fun _ => false
         dataBegin := fun _ => 0
         requestedSize := fun _ => 0 } : MemorySpanHeader).withFree
        {addr + 144} := by
    unfold create insertFreeBlock setSizeAndColor getBufferSize bufferStart
      withFree blockSize
    simp only [hstart, hbuffer, update_self, hwhole,
      Nat.lt_irrefl, Finset.sup_singleton]
    rfl
  have hone : ∀ {t : Tile Use},
      t ∈ [(⟨addr + 144, spanSize - 144, .free⟩ : Tile Use)] →
        t = ⟨addr + 144, spanSize - 144, .free⟩ := List.mem_singleton.mp
  refine ⟨⟨hshape, ?_, ?_, ?_, ?_, ?_, ?_⟩, List.IsChain.singleton _, ?_⟩
  · rw [hshape.bufferStart_eq]
    exact ⟨rfl, show addr + 144 + (spanSize - 144) = addr + spanSize by omega⟩
  · intro t ht
    rw [hone ht]
    dsimp only
    omega
  · intro t ht
    rw [hone ht, heq]
    show update (fun _ => 0) (addr + 144) (spanSize - 144) (addr + 144) = _
    rw [update_self]
  · rw [heq]
    exact (show starts Use.allocated
      [(⟨addr + 144, spanSize - 144, .free⟩ : Tile Use)] = ∅ from rfl).symm
  · rw [heq]
    rfl
  · intro t ht hkind
    rw [hone ht] at hkind
    cases hkind
  · rw [heq, Tile.total_cons]
    exact (Nat.add_zero _).symm

-- ==== free

/-- Taking an allocated block back, before it is merged. -/
theorem release_tiled (hT : Tiled s (xs ++ [⟨h, n, .allocated⟩] ++ ys)) :
    Tiled ({ s with allocatedBlockTree := s.allocatedBlockTree.erase h
        }.addFreeBlock h n) (xs ++ [⟨h, n, .free⟩] ++ ys) := by
  have hmem : (⟨h, n, .allocated⟩ : Tile Use)
      ∈ xs ++ [⟨h, n, .allocated⟩] ++ ys := by simp
  have hnot : h ∉ starts Use.free
      (xs ++ [(⟨h, n, .allocated⟩ : Tile Use)] ++ ys) := by
    intro hh
    obtain ⟨u, hu, hfree, hua⟩ := Tile.mem_starts.mp hh
    rw [hT.tiles.eq_of_addr_eq (fun t ht => hT.pos ht) hu hmem hua] at hfree
    cases hfree
  have heq : { s with allocatedBlockTree := s.allocatedBlockTree.erase h
      }.addFreeBlock h n
    = ({ s with allocatedBlockTree := s.allocatedBlockTree.erase h
      }.setSizeAndColor h n).withFree (insert h (starts Use.free
          (xs ++ [(⟨h, n, .allocated⟩ : Tile Use)] ++ ys))) := by
    rw [← addFreeBlock_withFree hnot]
    conv_lhs => rw [← hT.indexed]
    rfl
  rw [heq]
  refine hT.replace rfl rfl ?_ ?_ ?_ ?_ ?_ ?_ ?_
  · intro a b hab
    exact hab
  · intro t ht
    rw [List.mem_singleton.mp ht]
    exact hT.fine ⟨h, n, .allocated⟩ hmem
  · intro t ht
    rw [List.mem_singleton.mp ht]
    exact update_self ..
  · intro t ht
    refine ⟨update_of_ne ?_ _ _, rfl, rfl, rfl⟩
    obtain ⟨b, c, hbc, haround⟩ := hT.tiles.around fun t ht =>
      hT.pos (by simp [ht])
    obtain ⟨hb, hc⟩ := hbc
    have hpos := hT.pos hmem
    have := haround t ht
    dsimp only at hb hc hpos
    have hc' : b + n = c := hc
    omega
  · show s.allocatedBlockTree.erase h = _
    rw [show starts .allocated [(⟨h, n, .allocated⟩ : Tile Use)] = {h}
      from rfl, Finset.sdiff_singleton_eq_erase]
    exact (Finset.union_empty _).symm
  · rw [show starts .free [(⟨h, n, .allocated⟩ : Tile Use)] = ∅ from rfl,
      show starts .free [(⟨h, n, .free⟩ : Tile Use)] = {h} from rfl, Finset.union_comm,
      hT.bySize_eq]
    rfl
  · intro t ht hkind
    rw [List.mem_singleton.mp ht] at hkind
    cases hkind

/-- A validated header is that of an allocated block. -/
theorem getValidatedHeaderForPtr_mem {ptr : Nat}
    (hv : s.getValidatedHeaderForPtr ptr = some h) :
    h ∈ s.allocatedBlockTree ∧ s.dataOf h = ptr := by
  unfold getValidatedHeaderForPtr at hv
  cases hf : OrderedSet.floor s.allocatedBlockTree ptr with
  | none =>
    rw [hf] at hv
    cases hv
  | some b =>
    have hb := (OrderedSet.floor_eq_some_iff.mp hf).1
    rw [hf] at hv
    unfold dataOf
    simp only at hv
    split at hv
    · rename_i halign
      split at hv
      · cases hv
      · rename_i hdata
        cases hv
        rw [if_pos halign]
        exact ⟨hb, not_not.mp hdata⟩
    · rename_i halign
      split at hv
      · cases hv
      · rename_i hdata
        cases hv
        rw [if_neg halign]
        exact ⟨hb, not_not.mp hdata⟩

/-- `freeSpace` takes no part in the tiling. -/
theorem Tiled.setFreeSpace (hT : Tiled s ts) (v : Nat) :
    Tiled { s with freeSpace := v } ts := by
  obtain ⟨⟨h₁, h₂, h₃, h₄, h₅⟩, htiles, hfine, hsize, halloc, hindex, hdata⟩
    := hT
  refine ⟨⟨h₁, h₂, h₃, h₄, h₅⟩, htiles, hfine, hsize, halloc, ?_, ?_⟩
  · exact congrArg (fun u : MemorySpanHeader => { u with freeSpace := v })
      hindex
  · intro t ht hkind
    exact ⟨(hdata t ht hkind).header, (hdata t ht hkind).fits⟩

/-- What freeing the block `h` leaves. -/
structure Freed (s s' : MemorySpanHeader) (h : Nat) : Prop where
  addr : s'.addr = s.addr
  spanSize : s'.spanSize = s.spanSize
  allocatedBlockTree : s'.allocatedBlockTree = s.allocatedBlockTree.erase h
  dataOf : s'.dataOf = s.dataOf
  requestedSize : s'.requestedSize = s.requestedSize

theorem freeBlock_spec (hI : Invariant s ts) (stats : SpanStats) {ptr : Nat}
    (hv : s.getValidatedHeaderForPtr ptr = some h) :
    ∃ s' stats', s.freeBlock stats ptr = (s', stats', true)
      ∧ Freed s s' h ∧ ∃ ts', Invariant s' ts' := by
  obtain ⟨hT, hsep, hspace⟩ := hI
  have hmem := (getValidatedHeaderForPtr_mem hv).1
  rw [hT.allocated_eq] at hmem
  obtain ⟨⟨h', n, kind⟩, ht, hkind, haddr⟩ := Tile.mem_starts.mp hmem
  subst hkind haddr
  obtain ⟨xs, ys, rfl⟩ := List.append_of_mem ht
  obtain ⟨hxs, hys⟩ := separated_allocated.mp hsep
  have hsize : s.blockSize h' = n := hT.blockSize_eq ht
  rw [show xs ++ ⟨h', n, .allocated⟩ :: ys
    = xs ++ [⟨h', n, .allocated⟩] ++ ys by simp] at hT hspace
  have hrel := release_tiled hT
  have hle := hrel.tiles.total_le (k := .free)
  have htop := hrel.shape.below_top
  obtain ⟨ts', hT', hsep', htotal, hsame⟩ := coalesce_tiled hrel hxs hys
  unfold freeBlock
  rw [hv]
  simp only [hsize]
  refine ⟨_, _, rfl, ⟨hsame.addr, hsame.spanSize, hsame.allocatedBlockTree,
    ?_, hsame.requestedSize⟩, ts', hT'.setFreeSpace _, hsep', ?_⟩
  · funext b
    rw [hsame.isAligned, hsame.dataBegin]
    rfl
  · rw [htotal]
    rw [hsame.freeSpace]
    show (s.freeSpace + n) % 2 ^ 64 = _
    simp only [Tile.total_append, Tile.total_cons, if_true, reduceCtorEq, if_false] at hspace hle ⊢
    omega

-- ==== allocate

/-- The free block a request would be placed in is overrun by it. -/
def Overruns (s : MemorySpanHeader) (size align hint : Nat) : Prop :=
  ∃ b, s.mappedCeil (computeWorstCaseAlignedSize size align) hint = some b
    ∧ OverrunsBlock b (s.blockSize b) align

/-- What an allocation relies on. -/
structure Fair (s : MemorySpanHeader) (size align hint : Nat) : Prop where
  pow_two : ∃ k, align = 2 ^ k
  no_wrap : size + align + sizeofAlignedAllocatedMemoryBlockHeader < 2 ^ 64
  no_overrun : ¬ s.Overruns size align hint

theorem Fair.padded_pos (h : Fair s size align hint) :
    0 < computeWorstCaseAlignedSize size align := by
  have hwrap := h.no_wrap
  unfold computeWorstCaseAlignedSize
  unfold sizeofAlignedAllocatedMemoryBlockHeader at hwrap ⊢
  unfold sizeofAllocatedMemoryBlockHeader
  split
  · omega
  · omega

/-- The block that `mappedCeil` finds is free and covers the request. -/
theorem mappedCeil_covers (hT : Tiled s ts) (hpow : ∃ k, align = 2 ^ k)
    (hwrap : size + align + sizeofAlignedAllocatedMemoryBlockHeader < 2 ^ 64)
    {b : Nat}
    (hb : s.mappedCeil (computeWorstCaseAlignedSize size align) hint
      = some b) :
    ∃ xs ys n, ts = xs ++ [⟨b, n, .free⟩] ++ ys ∧ s.blockSize b = n
      ∧ Covers b n size align := by
  obtain ⟨hmem, hle⟩ := mappedCeil_mem hb
  rw [hT.bySize_eq] at hmem
  obtain ⟨⟨b', n, kind⟩, ht, hkind, haddr⟩ := Tile.mem_starts.mp hmem
  dsimp only at hkind haddr
  subst hkind haddr
  have hsize : s.blockSize b' = n := hT.blockSize_eq ht
  obtain ⟨h16, hn16, hmin⟩ := hT.fine _ ht
  have hin := hT.inside ht
  have htop := hT.shape.below_top
  dsimp only at h16 hn16 hmin hin
  obtain ⟨xs, ys, rfl⟩ := List.append_of_mem ht
  rw [hsize] at hle
  exact ⟨xs, ys, n, by simp, hsize, h16, hn16, by rwa [minimumBlockSize_eq],
    by omega, hpow, hwrap, hle⟩

/-- An allocation keeps the free blocks apart: its pieces are separated
by the allocated one. -/
theorem separated_pieces {base fin : Nat} {p : Placement}
    (hsep : Separated (xs ++ [⟨base, n, .free⟩] ++ ys)) :
    Separated (xs ++ pieces base fin p ++ ys) := by
  obtain ⟨⟨hxs, hlast⟩, hys, hhead⟩ := separated_free.mp hsep
  unfold pieces
  rw [show ∀ (us vs : List (Tile Use)) (t : Tile Use),
      xs ++ (us ++ t :: vs) ++ ys = (xs ++ us) ++ t :: (vs ++ ys) by simp]
  refine separated_allocated.mpr ⟨?_, ?_⟩
  · split
    · rw [← List.append_nil (xs ++ _)]
      exact separated_free.mpr ⟨⟨hxs, hlast⟩, List.IsChain.nil,
        fun u hu => by cases hu⟩
    · simpa using hxs
  · split
    · exact separated_free.mpr ⟨⟨List.IsChain.nil, fun u hu => by cases hu⟩,
        hys, hhead⟩
    · simpa using hys

theorem total_pieces {base : Nat} {p : Placement}
    (hp : Placed base n size align p) :
    total .free (pieces base (base + n) p)
      + (p.nextHeaderBaseAddr - p.headerBaseAddr) = n := by
  obtain ⟨-, -, hbelow, hmin, habove, -, -, -⟩ := hp
  have hopt : ∀ {c : Prop} [Decidable c] {a m : Nat},
      total .free (if c then [(⟨a, m, .free⟩ : Tile Use)] else [])
        = if c then m else 0 := by
    intro c _ a m
    split
    · rfl
    · rfl
  unfold pieces
  rw [Tile.total_append, Tile.total_cons, hopt, hopt]
  simp only [reduceCtorEq, if_false]
  split
  · split
    · omega
    · omega
  · split
    · omega
    · omega

theorem allocateBlock_spec (hI : Invariant s ts) (stats : SpanStats)
    (hfair : Fair s size align hint) :
    s.allocateBlock stats size align hint = .ok (s, stats, none)
      ∨ ∃ s' stats' p, s.allocateBlock stats size align hint
            = .ok (s', stats', some p.returnAddr)
          ∧ align ∣ p.returnAddr ∧ Allocated s s' p size
          ∧ ∃ ts', Invariant s' ts' := by
  obtain ⟨hT, hsep, hspace⟩ := hI
  unfold allocateBlock
  simp only
  split
  · exact Or.inl rfl
  · rename_i hlarge
    right
    -- the largest free block covers the request, so a block is found
    have hex : ∃ b, s.mappedCeil (computeWorstCaseAlignedSize size align)
        hint = some b := by
      have hsup := Nat.le_of_not_lt hlarge
      rw [hT.largest_eq, ← hT.bySize_eq, Finset.le_sup_iff] at hsup
      · obtain ⟨b, hb, hle⟩ := hsup
        exact exists_mappedCeil hb hle
      · exact hfair.padded_pos
    obtain ⟨b, hb⟩ := hex
    obtain ⟨xs, ys, n, rfl, hn, hcovers⟩ := mappedCeil_covers hT hfair.pow_two
      hfair.no_wrap hb
    have hover : ¬ OverrunsBlock b n align := by
      intro hover
      rw [← hn] at hover
      exact hfair.no_overrun ⟨b, hb, hover⟩
    have hp := place_spec hcovers hover
    obtain ⟨hT', hspace', hsize, hallocated⟩ := allocate_tiled hT hp rfl
    rw [hb]
    simp only [hn, Nat.mod_eq_of_lt hcovers.below_top]
    refine ⟨_, _, _, rfl, hp.align_dvd, hallocated, _, hT',
      separated_pieces hsep, ?_⟩
    have htotal := total_pieces hp
    have hle := hT.tiles.total_le (k := .free)
    have htop := hT.shape.below_top
    rw [hspace', hspace]
    simp only [Tile.total_append, Tile.total_cons,
      Tile.total_nil, if_true] at hle ⊢
    rw [usub_eq (by omega) (by omega)]
    omega

/-- Small alignments and larger requests overrun nothing. -/
theorem Tiled.fair (hT : Tiled s ts) (hpow : ∃ k, align = 2 ^ k)
    (hwrap : size + align + sizeofAlignedAllocatedMemoryBlockHeader < 2 ^ 64)
    (hsafe : align ≤ 64 ∨ 16 < size) : Fair s size align hint := by
  refine ⟨hpow, hwrap, ?_⟩
  intro hover
  obtain ⟨b, hb, hover⟩ := hover
  obtain ⟨xs, ys, n, -, hn, hcovers⟩ := mappedCeil_covers hT hpow hwrap hb
  rw [hn] at hover
  rcases hsafe with halign | hsize
  · exact not_overruns_of_align hcovers halign hover
  · exact not_overruns_of_size hcovers hsize hover

-- ==== runs

/-- What a call relies on. -/
def Meets (s : MemorySpanHeader × SpanStats) : Call → Prop
  | .allocateBlock size align hint => Fair s.1 size align hint
  | .freeBlock _ => True

/-- A call that finds what it relies on returns and keeps the
invariant. -/
theorem step_safe (s : MemorySpanHeader × SpanStats) (call : Call)
    (h : ∃ ts, Invariant s.1 ts) (hmeets : Meets s call) :
    ∃ s' r, step s call = .ok (s', r) ∧ ∃ ts, Invariant s'.1 ts := by
  obtain ⟨ts, hI⟩ := h
  cases call with
  | allocateBlock size align hint =>
    rcases allocateBlock_spec hI s.2 hmeets with hnone
      | ⟨s', stats', p, hsome, -, -, hI'⟩
    · refine ⟨(s.1, s.2), .block none, ?_, ts, hI⟩
      rw [step, hnone]
    · refine ⟨(s', stats'), .block (some p.returnAddr), ?_, hI'⟩
      rw [step, hsome]
  | freeBlock ptr =>
    cases hv : s.1.getValidatedHeaderForPtr ptr with
    | none =>
      refine ⟨(s.1, s.2), .freed false, ?_, ts, hI⟩
      rw [step, freeBlock, hv]
    | some h =>
      obtain ⟨s', stats', hfree, -, hI'⟩ := freeBlock_spec hI s.2 hv
      refine ⟨(s', stats'), .freed true, ?_, hI'⟩
      rw [step, hfree]

/-- After any number of calls of a run that finds what it relies on,
the blocks of a span tile its buffer. -/
theorem spans_stay_tiled (addr spanSize : Nat) (stats : SpanStats)
    (hshape : Shape (create addr spanSize)) (calls : List Call)
    (hmeets : Along step Meets (create addr spanSize, stats) calls)
    (n : Nat) :
    ∃ s answers, run step (create addr spanSize, stats) (calls.take n)
        = .ok (s, answers)
      ∧ ∃ ts, WellTiled s.1 ts := by
  obtain ⟨s, answers, hrun, ts, hI⟩ := run_safe step_safe
    ⟨_, create_invariant hshape⟩ (Along_take hmeets n)
  exact ⟨s, answers, hrun, ts, hI.wellTiled⟩

/-- A block is taken from a span of four pages and given back. -/
theorem spans_stay_tiled_four_pages : Shape (create 0x100000 0x4000)
      ∧ Along step Meets (create 0x100000 0x4000, ⟨0, 0⟩)
        [.allocateBlock 64 256 0, .freeBlock 0x100100]
      ∧ ∃ s answers, run step (create 0x100000 0x4000, ⟨0, 0⟩)
          [.allocateBlock 64 256 0, .freeBlock 0x100100] = .ok (s, answers)
        ∧ ∃ ts, WellTiled s.1 ts := by
  have hshape : Shape (create 0x100000 0x4000) := by
    refine ⟨?_, ?_, ?_, ?_, ?_⟩
    all_goals decide
  have hmeets : Along step Meets (create 0x100000 0x4000, ⟨0, 0⟩)
      [.allocateBlock 64 256 0, .freeBlock 0x100100] := by
    refine ⟨?_, fun s r _ => ⟨trivial, fun _ _ _ => trivial⟩⟩
    exact (create_invariant hshape).tiled.fair ⟨8, rfl⟩ (by decide)
      (Or.inr (by decide))
  exact ⟨hshape, hmeets, spans_stay_tiled _ _ _ hshape _ hmeets 2⟩

/-- Three blocks side by side, the middle one given back: the free
block it leaves has 192 bytes. A request of 16 bytes aligned to 128
comes to a padded size of 192, which that block covers. -/
def overrunningCalls : List Call :=
  [.allocateBlock 64 16 0, .allocateBlock 160 16 0, .allocateBlock 64 16 0,
    .freeBlock 0x100110, .allocateBlock 16 128 0]

/-- The header of the last request slides up by 112 bytes, the block it
takes has the minimum size, and the two end 16 bytes into the third
block. What is left above it is a free block of minus 16 bytes, which
`largestFreeBlockSize` takes for 4 GiB. -/
theorem small_request_overruns_block :
    (run step (create 0x100000 0x4000, ⟨0, 0⟩) overrunningCalls
      ).toOption.map (fun q =>
        (q.1.1.allocatedBlockTree.image fun b =>
            (b - 0x100000, q.1.1.blockSize b),
          q.1.1.unallocatedBlockTree.image fun b =>
            (b - 0x100000, q.1.1.blockSize b),
          q.1.1.largestFreeBlockSize))
      = some ({(144, 96), (352, 96), (432, 96)},
          {(240, 112), (448, 4294967280), (528, 15856)}, 4294967280)
    ∧ ¬ ∃ s answers, run step (create 0x100000 0x4000, ⟨0, 0⟩)
          overrunningCalls = .ok (s, answers) ∧ ∃ ts, WellTiled s.1 ts := by
  refine (fun hrun => ⟨hrun, ?_⟩) (by decide +kernel)
  rintro ⟨s, answers, hok, ts, hW⟩
  rw [hok] at hrun
  have himage := (Prod.mk.inj (Option.some.inj hrun)).1
  have hblock : ∀ {a n : Nat}, (a, n) ∈ ({(144, 96), (352, 96), (432, 96)}
      : Finset (Nat × Nat)) → ∃ t ∈ ts, t.addr - 0x100000 = a
        ∧ t.size = n := by
    intro a n han
    rw [← himage, Finset.mem_image] at han
    obtain ⟨b, hb, heq⟩ := han
    rw [hW.allocated_eq] at hb
    obtain ⟨t, ht, -, rfl⟩ := Tile.mem_starts.mp hb
    rw [hW.size_eq t ht] at heq
    exact ⟨t, ht, (Prod.mk.inj heq).1, (Prod.mk.inj heq).2⟩
  obtain ⟨t, ht, hta, htn⟩ := hblock (a := 352) (n := 96) (by decide)
  obtain ⟨u, hu, hua, hun⟩ := hblock (a := 432) (n := 96) (by decide)
  have hne : t ≠ u := by
    intro h
    rw [h] at hta
    omega
  have := hW.tiles.disjoint ht hu hne
  omega

end CroCOS.LibAlloc.InternalAllocator.MemorySpanHeader
