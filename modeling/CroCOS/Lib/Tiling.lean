/-
Tilings of an interval of addresses by blocks of several kinds, as an
allocator keeps them: each block starts where the one before it ends.

# The representation

`Tiles lo hi ts` says that the blocks `ts`, in order, cover `[lo, hi)`
exactly. `starts k ts` is the set of the addresses of the blocks of
kind `k`, which is what an index of the blocks of one kind holds, and
`total k ts` the sum of their sizes.

# Replacing a run of blocks

Every operation of an allocator replaces a run of blocks by another
that covers the same interval: a free block by pieces of itself, a run
of free blocks by their union. `Tiles.replace` is that step for the
tiling and `starts_replace` for the indexes.
-/
import Mathlib

namespace CroCOS.Lib

/-- A block of kind `kind` at `[addr, addr + size)`. -/
structure Tile (κ : Type _) where
  addr : Nat
  size : Nat
  kind : κ
  deriving DecidableEq, Repr

namespace Tile

variable {κ : Type _}

/-- The blocks cover `[lo, hi)`, one after the other. -/
def Tiles (lo hi : Nat) : List (Tile κ) → Prop
  | [] => lo = hi
  | t :: ts => t.addr = lo ∧ Tiles (lo + t.size) hi ts

variable {lo hi mid : Nat} {t u : Tile κ} {xs ys ms ms' ts : List (Tile κ)}

theorem tiles_append :
    Tiles lo hi (xs ++ ys) ↔ ∃ mid, Tiles lo mid xs ∧ Tiles mid hi ys := by
  induction xs generalizing lo with
  | nil =>
    constructor
    · intro h
      exact ⟨lo, rfl, h⟩
    · intro h
      obtain ⟨m, hm, h⟩ := h
      cases hm
      exact h
  | cons t xs ih =>
    constructor
    · intro h
      obtain ⟨hlo, hrest⟩ := h
      obtain ⟨m, h₁, h₂⟩ := ih.mp hrest
      exact ⟨m, ⟨hlo, h₁⟩, h₂⟩
    · intro h
      obtain ⟨m, ⟨hlo, h₁⟩, h₂⟩ := h
      exact ⟨hlo, ih.mpr ⟨m, h₁, h₂⟩⟩

theorem Tiles.le (h : Tiles lo hi ts) : lo ≤ hi := by
  induction ts generalizing lo with
  | nil => exact Nat.le_of_eq h
  | cons t ts ih => exact Nat.le_trans (Nat.le_add_right ..) (ih h.2)

/-- Every block lies inside the interval. -/
theorem Tiles.bounds (h : Tiles lo hi ts) (ht : t ∈ ts) :
    lo ≤ t.addr ∧ t.addr + t.size ≤ hi := by
  induction ts generalizing lo with
  | nil => cases ht
  | cons u ts ih =>
    obtain ⟨hlo, hrest⟩ := h
    rcases List.mem_cons.mp ht with rfl | ht
    · have := hrest.le
      omega
    · have := ih hrest ht
      omega

/-- A block in the middle: what is before it ends where it starts, what
is after it starts where it ends. -/
theorem tiles_mid : Tiles lo hi (xs ++ t :: ys)
      ↔ Tiles lo t.addr xs ∧ Tiles (t.addr + t.size) hi ys := by
  rw [tiles_append]
  constructor
  · intro h
    obtain ⟨m, hxs, hm, hys⟩ := h
    rw [hm]
    exact ⟨hxs, hys⟩
  · intro h
    exact ⟨t.addr, h.1, rfl, h.2⟩

/-- A run of blocks may be replaced by another over the same
interval. -/
theorem Tiles.replace (h : Tiles lo hi (xs ++ ms ++ ys))
    (hms : ∀ {a b : Nat}, Tiles a b ms → Tiles a b ms') :
    Tiles lo hi (xs ++ ms' ++ ys) := by
  obtain ⟨b, hxm, hys⟩ := tiles_append.mp h
  obtain ⟨a, hxs, hm⟩ := tiles_append.mp hxm
  exact tiles_append.mpr ⟨b, tiles_append.mpr ⟨a, hxs, hms hm⟩, hys⟩

/-- The blocks around a run lie outside the interval it covers. -/
theorem Tiles.around (h : Tiles lo hi (xs ++ ms ++ ys))
    (hpos : ∀ t ∈ xs, 0 < t.size) :
    ∃ a b, Tiles a b ms ∧ ∀ t ∈ xs ++ ys, t.addr < a ∨ b ≤ t.addr := by
  obtain ⟨b, hxm, hys⟩ := tiles_append.mp h
  obtain ⟨a, hxs, hm⟩ := tiles_append.mp hxm
  refine ⟨a, b, hm, ?_⟩
  intro t ht
  rcases List.mem_append.mp ht with ht | ht
  · left
    have := hxs.bounds ht
    have := hpos t ht
    omega
  · right
    exact (hys.bounds ht).1

/-- Later blocks lie after earlier ones. -/
theorem Tiles.pairwise (h : Tiles lo hi ts) :
    ts.Pairwise fun t u => t.addr + t.size ≤ u.addr := by
  induction ts generalizing lo with
  | nil => exact .nil
  | cons t ts ih =>
    obtain ⟨hlo, hrest⟩ := h
    refine .cons ?_ (ih hrest)
    intro u hu
    rw [hlo]
    exact (hrest.bounds hu).1

/-- Different blocks do not overlap. -/
theorem Tiles.disjoint (h : Tiles lo hi ts) (ht : t ∈ ts) (hu : u ∈ ts)
    (hne : t ≠ u) :
    t.addr + t.size ≤ u.addr ∨ u.addr + u.size ≤ t.addr := by
  have hsymm : Std.Symm fun t u : Tile κ =>
      t.addr + t.size ≤ u.addr ∨ u.addr + u.size ≤ t.addr :=
    ⟨fun t u h => h.symm⟩
  have hpair : ts.Pairwise fun t u =>
      t.addr + t.size ≤ u.addr ∨ u.addr + u.size ≤ t.addr :=
    h.pairwise.imp .inl
  exact hpair.forall ht hu hne

/-- Blocks of a positive size at one address are one block. -/
theorem Tiles.eq_of_addr_eq (h : Tiles lo hi ts)
    (hpos : ∀ t ∈ ts, 0 < t.size) (ht : t ∈ ts) (hu : u ∈ ts)
    (haddr : t.addr = u.addr) : t = u := by
  by_contra hne
  have hapart := h.disjoint ht hu hne
  have ht := hpos t ht
  have hu := hpos u hu
  omega

/-- The blocks hold the addresses of the interval. -/
theorem Tiles.covers (h : Tiles lo hi ts) {a : Nat} :
    (∃ t ∈ ts, t.addr ≤ a ∧ a < t.addr + t.size) ↔ lo ≤ a ∧ a < hi := by
  induction ts generalizing lo with
  | nil =>
    have h : lo = hi := h
    simp only [List.not_mem_nil, false_and, exists_false, false_iff]
    omega
  | cons t ts ih =>
    obtain ⟨hlo, hrest⟩ := h
    have := hrest.le
    rw [List.exists_mem_cons_iff, ih hrest]
    omega

/-- The block that ends where the interval ends is the last one. -/
theorem Tiles.getLast?_eq (h : Tiles lo hi ts)
    (hpos : ∀ t ∈ ts, 0 < t.size) (ht : t ∈ ts)
    (hend : t.addr + t.size = hi) : ts.getLast? = some t := by
  obtain ⟨xs, ys, rfl⟩ := List.append_of_mem ht
  have hys := (tiles_mid.mp h).2
  cases ys with
  | nil => exact List.getLast?_concat
  | cons u ys =>
    have hu := hpos u (by simp)
    have := (hys.bounds List.mem_cons_self).2
    have hu' : u.addr = t.addr + t.size := hys.1
    omega

/-- The block that starts where the interval starts is the first one. -/
theorem Tiles.head?_eq (h : Tiles lo hi ts)
    (hpos : ∀ t ∈ ts, 0 < t.size) (ht : t ∈ ts)
    (hstart : t.addr = lo) : ts.head? = some t := by
  cases ts with
  | nil => cases ht
  | cons u ts =>
    have hu : u.addr = lo := h.1
    rw [h.eq_of_addr_eq hpos ht List.mem_cons_self (hstart.trans hu.symm)]
    rfl

-- ==== indexes

variable [DecidableEq κ] {k : κ}

/-- The addresses of the blocks of kind `k`. -/
def starts (k : κ) (ts : List (Tile κ)) : Finset Nat :=
  ((ts.filter fun t => t.kind = k).map Tile.addr).toFinset

/-- The space taken by the blocks of kind `k`. -/
def total (k : κ) (ts : List (Tile κ)) : Nat :=
  ((ts.filter fun t => t.kind = k).map Tile.size).sum

theorem mem_starts {a : Nat} :
    a ∈ starts k ts ↔ ∃ t ∈ ts, t.kind = k ∧ t.addr = a := by
  unfold starts
  simp only [List.mem_toFinset, List.mem_map, List.mem_filter,
    decide_eq_true_eq, and_assoc]

@[simp] theorem starts_nil : starts k ([] : List (Tile κ)) = ∅ := rfl

@[simp] theorem starts_cons : starts k (t :: ts)
      = if t.kind = k then insert t.addr (starts k ts) else starts k ts := by
  unfold starts
  by_cases h : t.kind = k
  · rw [List.filter_cons_of_pos (by simpa using h), if_pos h]
    simp
  · rw [List.filter_cons_of_neg (by simpa using h), if_neg h]

theorem starts_append : starts k (xs ++ ys) = starts k xs ∪ starts k ys := by
  unfold starts
  rw [List.filter_append, List.map_append, List.toFinset_append]

@[simp] theorem total_nil : total k ([] : List (Tile κ)) = 0 := rfl

@[simp] theorem total_cons : total k (t :: ts)
      = (if t.kind = k then t.size else 0) + total k ts := by
  unfold total
  by_cases h : t.kind = k
  · rw [List.filter_cons_of_pos (by simpa using h), if_pos h]
    rfl
  · rw [List.filter_cons_of_neg (by simpa using h), if_neg h]
    omega

theorem total_append : total k (xs ++ ys) = total k xs + total k ys := by
  unfold total
  rw [List.filter_append, List.map_append, List.sum_append]

/-- The blocks of one kind fit into the interval. -/
theorem Tiles.total_le (h : Tiles lo hi ts) : lo + total k ts ≤ hi := by
  induction ts generalizing lo with
  | nil => exact Nat.le_of_eq h
  | cons t ts ih =>
    have hrest := ih h.2
    rw [total_cons]
    split
    · omega
    · omega

/-- The index after a run of blocks was replaced. -/
theorem starts_replace (h : Tiles lo hi (xs ++ ms ++ ys))
    (hpos : ∀ t ∈ xs ++ ms ++ ys, 0 < t.size) :
    starts k (xs ++ ms' ++ ys)
      = (starts k (xs ++ ms ++ ys) \ starts k ms) ∪ starts k ms' := by
  obtain ⟨b, c, hm, haround⟩ :=
    h.around fun t ht => hpos t (by simp [ht])
  -- the blocks around the run are at other addresses
  have hout : ∀ {a : Nat}, a ∈ starts k xs ∪ starts k ys → a ∉ starts k ms := by
    intro a ha hms
    obtain ⟨u, hu, -, hua⟩ := mem_starts.mp hms
    rw [← starts_append] at ha
    obtain ⟨v, hv, -, hva⟩ := mem_starts.mp ha
    have hub := hm.bounds hu
    have hup := hpos u (by simp [hu])
    have := haround v hv
    omega
  rw [starts_append, starts_append, starts_append, starts_append]
  ext a
  simp only [Finset.mem_union, Finset.mem_sdiff]
  have := @hout a
  simp only [Finset.mem_union] at this
  tauto

end Tile

end CroCOS.Lib
