/-
Freeing a block and merging it with its free neighbours.

The neighbours are found in the tree by address: the predecessor of a
block is the last free block before it, which need not be the block
right before it, and the check that it ends where the block starts
tells the two apart (`adjacentBefore_eq_some_iff`).
A merge makes the later of two free blocks part of the earlier one
(`absorb_tiled`), and with no free neighbour left on either side no two
free blocks are adjacent.
-/
import CroCOS.Proofs.MemorySpan.Tiled

namespace CroCOS.LibAlloc.InternalAllocator.MemorySpanHeader

open Lib

open Lib.Tile (Tiles starts total)

variable {s s' : MemorySpanHeader} {xs ys ms ts : List (Tile Use)}
variable {a b h m n q : Nat}

-- ==== neighbours

/-- The blocks do not end with a free one. -/
def NoFreeLast (xs : List (Tile Use)) : Prop :=
  ∀ u, xs.getLast? = some u → u.kind ≠ .free

/-- The blocks do not start with a free one. -/
def NoFreeHead (ys : List (Tile Use)) : Prop :=
  ∀ u, ys.head? = some u → u.kind ≠ .free

theorem noFreeLast_or (xs : List (Tile Use)) :
    NoFreeLast xs ∨ ∃ xs' a m, xs = xs' ++ [⟨a, m, .free⟩] := by
  rcases List.eq_nil_or_concat xs with rfl | ⟨xs', u, hxs⟩
  · exact Or.inl fun u hu => by cases hu
  · rw [List.concat_eq_append] at hxs
    obtain ⟨a, m, kind⟩ := u
    cases kind with
    | free => exact Or.inr ⟨xs', a, m, hxs⟩
    | allocated =>
      left
      intro v hv
      rw [hxs, List.getLast?_concat] at hv
      cases hv
      simp

theorem noFreeHead_or (ys : List (Tile Use)) :
    NoFreeHead ys ∨ ∃ a m ys', ys = ⟨a, m, .free⟩ :: ys' := by
  cases ys with
  | nil => exact Or.inl fun u hu => by cases hu
  | cons u ys =>
    obtain ⟨a, m, kind⟩ := u
    cases kind with
    | free => exact Or.inr ⟨a, m, ys, rfl⟩
    | allocated =>
      left
      intro v hv
      cases hv
      simp

/-- A free block is separated from blocks that do not touch it with a
free one. -/
theorem separated_free : Separated (xs ++ [⟨a, m, .free⟩] ++ ys) ↔
      (Separated xs ∧ NoFreeLast xs) ∧ (Separated ys ∧ NoFreeHead ys) := by
  unfold Separated NoFreeLast NoFreeHead
  rw [List.append_assoc, List.isChain_append, List.singleton_append,
    List.isChain_cons]
  simp
  tauto

/-- An allocated block separates what is on either side of it. -/
theorem separated_allocated : Separated (xs ++ ⟨a, m, .allocated⟩ :: ys) ↔
      Separated xs ∧ Separated ys := by
  unfold Separated
  rw [List.isChain_append, List.isChain_cons]
  simp

/-- The space up to the next block, read off a header. -/
theorem Tiled.end_mod (hT : Tiled s ts) {t : Tile Use} (ht : t ∈ ts) :
    (t.addr + s.blockSize t.addr) % 2 ^ 64 = t.addr + t.size := by
  have hin := hT.inside ht
  have htop := hT.shape.below_top
  rw [hT.blockSize_eq ht]
  exact Nat.mod_eq_of_lt (by omega)

/-- The neighbour before an address is the free block that ends
there. -/
theorem adjacentBefore_eq_some_iff (hT : Tiled s ts) :
    s.adjacentBefore h = some a ↔
      ∃ u ∈ ts, u.kind = .free ∧ u.addr = a ∧ u.addr + u.size = h := by
  have hpred := OrderedSet.predecessor_eq_some_iff
    (s := s.unallocatedBlocksByAddress) (x := h) (y := a)
  rw [hT.byAddress_eq] at hpred
  unfold adjacentBefore
  rw [Option.filter_eq_some_iff, hT.byAddress_eq, hpred, decide_eq_true_eq]
  constructor
  · intro hfound
    obtain ⟨⟨ha, -, -⟩, hend⟩ := hfound
    obtain ⟨u, hu, hfree, rfl⟩ := Tile.mem_starts.mp ha
    rw [hT.end_mod hu] at hend
    exact ⟨u, hu, hfree, rfl, hend⟩
  · intro hthere
    obtain ⟨u, hu, hfree, rfl, hend⟩ := hthere
    have hupos := hT.pos hu
    refine ⟨⟨Tile.mem_starts.mpr ⟨u, hu, hfree, rfl⟩, by omega, ?_⟩, ?_⟩
    · intro z hz hlt
      obtain ⟨v, hv, -, rfl⟩ := Tile.mem_starts.mp hz
      by_cases hvu : v = u
      · rw [hvu]
      · have := hT.tiles.disjoint hv hu hvu
        omega
    · rw [hT.end_mod hu]
      exact hend

/-- The neighbour after a block is the free block that starts where it
ends. -/
theorem adjacentAfter_eq_some_iff (hT : Tiled s ts) {t : Tile Use}
    (ht : t ∈ ts) :
    s.adjacentAfter t.addr = some a ↔
      ∃ u ∈ ts, u.kind = .free ∧ u.addr = a ∧ t.addr + t.size = u.addr := by
  have hsucc := OrderedSet.successor_eq_some_iff
    (s := s.unallocatedBlocksByAddress) (x := t.addr) (y := a)
  rw [hT.byAddress_eq] at hsucc
  unfold adjacentAfter
  rw [Option.filter_eq_some_iff, hT.byAddress_eq, hsucc, decide_eq_true_eq,
    hT.end_mod ht]
  have htpos := hT.pos ht
  constructor
  · intro h
    obtain ⟨⟨ha, -, -⟩, hend⟩ := h
    obtain ⟨u, hu, hfree, rfl⟩ := Tile.mem_starts.mp ha
    exact ⟨u, hu, hfree, rfl, hend⟩
  · intro h
    obtain ⟨u, hu, hfree, rfl, hend⟩ := h
    refine ⟨⟨Tile.mem_starts.mpr ⟨u, hu, hfree, rfl⟩, by omega, ?_⟩, hend⟩
    intro z hz hlt
    obtain ⟨v, hv, -, rfl⟩ := Tile.mem_starts.mp hz
    by_cases hvt : v = t
    · rw [hvt] at hlt
      omega
    · have := hT.tiles.disjoint hv ht hvt
      omega

/-- With no free block right before it, a block has no neighbour
there. -/
theorem adjacentBefore_eq_none (hT : Tiled s (xs ++ [⟨h, n, .free⟩] ++ ys))
    (hlast : NoFreeLast xs) : s.adjacentBefore h = none := by
  cases hb : s.adjacentBefore h with
  | none => rfl
  | some a =>
    obtain ⟨u, hu, hfree, -, hend⟩ :=
      (adjacentBefore_eq_some_iff hT).mp hb
    have hupos := hT.pos hu
    have htiles := hT.tiles
    rw [List.append_assoc, List.singleton_append, Tile.tiles_mid]
      at htiles
    dsimp only at hend htiles
    have hu' : u ∈ xs := by
      simp only [List.mem_append, List.mem_singleton] at hu
      rcases hu with (hu | hu) | hu
      · exact hu
      · rw [hu] at hend hupos
        dsimp only at hend hupos
        omega
      · have := (htiles.2.bounds hu).1
        omega
    exact absurd hfree (hlast u (htiles.1.getLast?_eq
      (fun t ht => hT.pos (by simp [ht])) hu' hend))

/-- Nor one after it, with no free block there. -/
theorem adjacentAfter_eq_none (hT : Tiled s (xs ++ [⟨h, n, .free⟩] ++ ys))
    (hhead : NoFreeHead ys) : s.adjacentAfter h = none := by
  cases ha : s.adjacentAfter h with
  | none => rfl
  | some a =>
    have hmem : (⟨h, n, .free⟩ : Tile Use)
        ∈ xs ++ [⟨h, n, .free⟩] ++ ys := by simp
    obtain ⟨u, hu, hfree, -, hstart⟩ :=
      (adjacentAfter_eq_some_iff hT hmem).mp ha
    have hupos := hT.pos hu
    have htiles := hT.tiles
    rw [List.append_assoc, List.singleton_append, Tile.tiles_mid]
      at htiles
    have hu' : u ∈ ys := by
      simp only [List.mem_append, List.mem_singleton] at hu
      rcases hu with (hu | hu) | hu
      · have := (htiles.1.bounds hu).2
        omega
      · rw [hu] at hstart hupos
        dsimp only at hstart hupos
        omega
      · exact hu
    exact absurd hfree (hhead u (htiles.2.head?_eq
      (fun t ht => hT.pos (by simp [ht])) hu' hstart.symm))

/-- Two free blocks, one right after the other. -/
theorem Tiled.pair (hT : Tiled s (xs ++ [⟨a, m, .free⟩, ⟨b, n, .free⟩] ++ ys)) :
    (a ∈ s.unallocatedBlockTree ∧ b ∈ s.unallocatedBlockTree)
      ∧ 0 < m ∧ b = a + m := by
  obtain ⟨lo, hi, ⟨hlo, hab, -⟩, -⟩ := hT.tiles.around fun t ht =>
    hT.pos (by simp [ht])
  have hma : (⟨a, m, .free⟩ : Tile Use)
      ∈ xs ++ [⟨a, m, .free⟩, ⟨b, n, .free⟩] ++ ys := by simp
  have hmb : (⟨b, n, .free⟩ : Tile Use)
      ∈ xs ++ [⟨a, m, .free⟩, ⟨b, n, .free⟩] ++ ys := by simp
  rw [← hlo] at hab
  exact ⟨⟨hT.mem_free hma rfl, hT.mem_free hmb rfl⟩, hT.pos hma, hab⟩

/-- A free block right before a block is its neighbour there. -/
theorem adjacentBefore_eq_some
    (hT : Tiled s (xs ++ [⟨a, m, .free⟩, ⟨h, n, .free⟩] ++ ys)) :
    s.adjacentBefore h = some a :=
  (adjacentBefore_eq_some_iff hT).mpr
    ⟨⟨a, m, .free⟩, by simp, rfl, rfl, hT.pair.2.2.symm⟩

/-- So is a free block right after it. -/
theorem adjacentAfter_eq_some
    (hT : Tiled s (xs ++ [⟨h, n, .free⟩, ⟨b, q, .free⟩] ++ ys)) :
    s.adjacentAfter h = some b :=
  (adjacentAfter_eq_some_iff hT (t := ⟨h, n, .free⟩) (by simp)).mpr
    ⟨⟨b, q, .free⟩, by simp, rfl, rfl, hT.pair.2.2.symm⟩

-- ==== merging

/-- What a merge of free blocks leaves alone. -/
structure SameData (s s' : MemorySpanHeader) : Prop where
  addr : s'.addr = s.addr
  spanSize : s'.spanSize = s.spanSize
  allocatedBlockTree : s'.allocatedBlockTree = s.allocatedBlockTree
  freeSpace : s'.freeSpace = s.freeSpace
  isAligned : s'.isAligned = s.isAligned
  dataBegin : s'.dataBegin = s.dataBegin
  requestedSize : s'.requestedSize = s.requestedSize

/-- The free block at `b` becomes part of the one at `a`. -/
def absorb (s : MemorySpanHeader) (a b : Nat) : MemorySpanHeader :=
  (s.setSizeAndColor a ((s.sizeAndColor a + s.blockSize b) % 2 ^ 64)).withFree
    (s.unallocatedBlockTree.erase b)

theorem starts_free_pair :
    starts .free [(⟨a, m, .free⟩ : Tile Use), ⟨b, n, .free⟩] = {a, b} := by
  rw [Tile.starts_cons, Tile.starts_cons]
  rfl

theorem absorb_tiled
    (hT : Tiled s (xs ++ [⟨a, m, .free⟩, ⟨b, n, .free⟩] ++ ys)) :
    Tiled (s.absorb a b) (xs ++ [⟨a, m + n, .free⟩] ++ ys) := by
  have hma : (⟨a, m, .free⟩ : Tile Use)
      ∈ xs ++ [⟨a, m, .free⟩, ⟨b, n, .free⟩] ++ ys := by simp
  have hmb : (⟨b, n, .free⟩ : Tile Use)
      ∈ xs ++ [⟨a, m, .free⟩, ⟨b, n, .free⟩] ++ ys := by simp
  obtain ⟨lo, hi, ⟨hlo, hab, hhi⟩, haround⟩ := hT.tiles.around fun t ht =>
    hT.pos (by simp [ht])
  have hfa := hT.fine _ hma
  have hfb := hT.fine _ hmb
  have hin := hT.inside hmb
  have htop := hT.shape.below_top
  dsimp only [Tile.Tiles] at hlo hab hhi hfa hfb hin
  have hsize : (s.sizeAndColor a + s.blockSize b) % 2 ^ 64 = m + n := by
    rw [hT.size_eq _ hma, hT.blockSize_eq hmb]
    exact Nat.mod_eq_of_lt (by dsimp only; omega)
  refine hT.replace rfl rfl ?_ ?_ ?_ ?_ ?_ ?_ ?_
  · intro c d hcd
    obtain ⟨hc, -, hd⟩ := hcd
    exact ⟨hc, (Nat.add_assoc c m n).symm.trans hd⟩
  · intro t ht
    rw [List.mem_singleton.mp ht]
    dsimp only
    omega
  · intro t ht
    rw [List.mem_singleton.mp ht]
    exact (Function.update_self ..).trans hsize
  · intro t ht
    have := haround t ht
    exact ⟨Function.update_of_ne (by omega) _ _, rfl, rfl, rfl⟩
  · show s.allocatedBlockTree = _
    rw [show starts .allocated [(⟨a, m, .free⟩ : Tile Use), ⟨b, n, .free⟩]
      = ∅ from rfl, Finset.sdiff_empty]
    exact (Finset.union_empty _).symm
  · rw [starts_free_pair, Finset.sdiff_insert,
      Finset.sdiff_singleton_eq_erase, Finset.union_comm]
    show (s.absorb a b).withFree (insert a _) = _
    rw [Finset.insert_erase]
    · rfl
    · exact Finset.mem_erase.mpr ⟨by omega, hT.mem_free hma rfl⟩
  · intro t ht hkind
    rw [List.mem_singleton.mp ht] at hkind
    cases hkind

/-- Merging with the block before. -/
theorem coalesce_before
    (hT : Tiled s (xs ++ [⟨a, m, .free⟩, ⟨h, n, .free⟩] ++ ys))
    (hhead : NoFreeHead ys) :
    s.coalesceAdjacentFreeBlocks h = s.absorb a h := by
  obtain ⟨hmem, hmpos, hah⟩ := hT.pair
  have ha := Finset.mem_erase.mpr ⟨show a ≠ h by omega, hmem.1⟩
  have hafter : s.adjacentAfter h = none :=
    adjacentAfter_eq_none
      (show Tiled s ((xs ++ [⟨a, m, .free⟩]) ++ [⟨h, n, .free⟩] ++ ys) by
        simpa using hT) hhead
  unfold coalesceAdjacentFreeBlocks
  simp only [adjacentBefore_eq_some hT, hafter, Option.elim_some,
    Option.elim_none, Option.getD_some]
  rw [hT.removeFreeBlock_eq hmem.2, removeFreeBlock_withFree ha,
    setSizeAndColor_withFree (Finset.notMem_erase _ _),
    insertFreeBlock_withFree, Finset.insert_erase ha]
  rfl

/-- Merging with the block after. -/
theorem coalesce_after
    (hT : Tiled s (xs ++ [⟨h, n, .free⟩, ⟨b, q, .free⟩] ++ ys))
    (hlast : NoFreeLast xs) :
    s.coalesceAdjacentFreeBlocks h = s.absorb h b := by
  obtain ⟨hmem, hnpos, hhb⟩ := hT.pair
  have hne : b ≠ h := by omega
  have hbefore : s.adjacentBefore h = none :=
    adjacentBefore_eq_none
      (show Tiled s (xs ++ [⟨h, n, .free⟩] ++ ⟨b, q, .free⟩ :: ys) by
        simpa using hT) hlast
  unfold coalesceAdjacentFreeBlocks
  simp only [hbefore, adjacentAfter_eq_some hT, Option.elim_some,
    Option.elim_none, Option.getD_none]
  rw [hT.removeFreeBlock_eq hmem.1,
    removeFreeBlock_withFree (Finset.mem_erase.mpr ⟨hne, hmem.2⟩),
    setSizeAndColor_withFree (by simp), insertFreeBlock_withFree,
    Finset.erase_right_comm,
    Finset.insert_erase (Finset.mem_erase.mpr ⟨hne.symm, hmem.1⟩)]
  rfl

/-- Merging with both, one after the other. -/
theorem coalesce_both (hT : Tiled s (xs ++ [⟨a, m, .free⟩, ⟨h, n, .free⟩]
      ++ ⟨b, q, .free⟩ :: ys)) :
    s.coalesceAdjacentFreeBlocks h = (s.absorb a h).absorb a b := by
  have hT' : Tiled s ((xs ++ [⟨a, m, .free⟩])
      ++ [⟨h, n, .free⟩, ⟨b, q, .free⟩] ++ ys) := by simpa using hT
  obtain ⟨hmem, hmpos, hah⟩ := hT.pair
  obtain ⟨hmem', hnpos, hhb⟩ := hT'.pair
  have ha := Finset.mem_erase.mpr ⟨show a ≠ h by omega, hmem.1⟩
  have hb := Finset.mem_erase.mpr ⟨show b ≠ h by omega, hmem'.2⟩
  have hne : b ≠ a := by omega
  unfold coalesceAdjacentFreeBlocks
  simp only [adjacentBefore_eq_some hT, adjacentAfter_eq_some hT',
    Option.elim_some, Option.getD_some]
  rw [hT.removeFreeBlock_eq hmem.2, removeFreeBlock_withFree ha,
    removeFreeBlock_withFree (Finset.mem_erase.mpr ⟨hne, hb⟩),
    setSizeAndColor_withFree (by simp), setSizeAndColor_withFree (by simp),
    insertFreeBlock_withFree, Finset.erase_right_comm,
    Finset.insert_erase (Finset.mem_erase.mpr ⟨hne.symm, ha⟩)]
  rfl

/-- What `coalesceAdjacentFreeBlocks` leaves: the block merged with its
free neighbours, and no free block next to it. -/
theorem coalesce_tiled (hT : Tiled s (xs ++ [⟨h, n, .free⟩] ++ ys))
    (hxs : Separated xs) (hys : Separated ys) :
    ∃ ts, Tiled (s.coalesceAdjacentFreeBlocks h) ts ∧ Separated ts
      ∧ total .free ts = total .free (xs ++ [⟨h, n, .free⟩] ++ ys)
      ∧ SameData s (s.coalesceAdjacentFreeBlocks h) := by
  rcases noFreeLast_or xs with hlast | ⟨xs', a, m, rfl⟩
  · rcases noFreeHead_or ys with hhead | ⟨b, q, ys', rfl⟩
    · have hsame : s.coalesceAdjacentFreeBlocks h = s := by
        unfold coalesceAdjacentFreeBlocks
        rw [adjacentBefore_eq_none hT hlast, adjacentAfter_eq_none hT hhead]
        exact if_pos ⟨rfl, rfl⟩
      rw [hsame]
      exact ⟨_, hT, separated_free.mpr ⟨⟨hxs, hlast⟩, hys, hhead⟩, rfl, rfl,
        rfl, rfl, rfl, rfl, rfl, rfl⟩
    · have hT' : Tiled s (xs ++ [⟨h, n, .free⟩, ⟨b, q, .free⟩] ++ ys') := by
        simpa using hT
      obtain ⟨-, hys', hhead⟩ := separated_free.mp
        (show Separated ([] ++ [⟨b, q, .free⟩] ++ ys') from hys)
      rw [coalesce_after hT' hlast]
      refine ⟨_, absorb_tiled hT', separated_free.mpr
        ⟨⟨hxs, hlast⟩, hys', hhead⟩, ?_, rfl, rfl, rfl, rfl, rfl, rfl, rfl⟩
      simp only [Tile.total_append, Tile.total_cons, if_true]
      omega
  · obtain ⟨⟨hxs', hlast⟩, -⟩ := separated_free.mp
      (show Separated (xs' ++ [⟨a, m, .free⟩] ++ []) by simpa using hxs)
    have hT' : Tiled s (xs' ++ [⟨a, m, .free⟩, ⟨h, n, .free⟩] ++ ys) := by
      simpa using hT
    rcases noFreeHead_or ys with hhead | ⟨b, q, ys', rfl⟩
    · rw [coalesce_before hT' hhead]
      refine ⟨_, absorb_tiled hT', separated_free.mpr
        ⟨⟨hxs', hlast⟩, hys, hhead⟩, ?_, rfl, rfl, rfl, rfl, rfl, rfl, rfl⟩
      simp only [Tile.total_append, Tile.total_cons, Tile.total_nil, if_true]
      omega
    · obtain ⟨-, hys', hhead⟩ := separated_free.mp
        (show Separated ([] ++ [⟨b, q, .free⟩] ++ ys') from hys)
      have hboth : Tiled (s.absorb a h)
          (xs' ++ [⟨a, m + n, .free⟩, ⟨b, q, .free⟩] ++ ys') := by
        simpa using absorb_tiled hT'
      rw [coalesce_both hT']
      refine ⟨_, absorb_tiled hboth, separated_free.mpr
        ⟨⟨hxs', hlast⟩, hys', hhead⟩, ?_, rfl, rfl, rfl, rfl, rfl, rfl, rfl⟩
      simp only [Tile.total_append, Tile.total_cons, Tile.total_nil, if_true]
      omega

end CroCOS.LibAlloc.InternalAllocator.MemorySpanHeader
