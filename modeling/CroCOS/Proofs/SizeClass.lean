/-
The size class found. The jump table never leads past the right class,
so what a lookup returns depends on two lengths alone, that of the
table and that of the array: a class past the table's length is not
found, and with fewer classes than table entries a size above all of
them is looked for past the array's end. `finds_least_class` says that
nothing else goes wrong.
-/
import CroCOS.SizeClass

namespace CroCOS.SizeClasses

variable {a : SizeClasses} {size size' left index : Nat}

/-- The class to find: the array is sorted, so the first class that is
large enough is the least. -/
def leastClass (a : SizeClasses) (size : Nat) : Option Nat :=
  a.array.findIdx? (size ≤ ·)

/-- Its index, the length of the array if there is none. -/
def rank (a : SizeClasses) (size : Nat) : Nat := a.array.findIdx (size ≤ ·)

theorem rank_le : a.rank size ≤ a.array.length := List.findIdx_le_length

theorem rank_mono (h : size ≤ size') : a.rank size ≤ a.rank size' := by
  refine List.findIdx_le_findIdx fun c _ hc => ?_
  rw [decide_eq_true_eq] at hc ⊢
  exact h.trans hc

theorem rank_lt (h : size ≤ a.last) : a.rank size < a.array.length :=
  List.findIdx_lt_length_of_exists
    ⟨_, List.getLast_mem a.ne_nil, decide_eq_true h⟩

theorem rank_zero : a.rank 0 = 0 := by
  refine Nat.eq_zero_of_not_pos fun h => ?_
  simpa using List.not_of_lt_findIdx h

theorem rank_of_last_lt (h : a.last < size) :
    a.rank size = a.array.length :=
  List.findIdx_eq_length.mpr fun _ hc =>
    decide_eq_false ((a.sorted.rel_getLast hc).trans_lt h).not_ge

theorem scan_eq (hle : index ≤ a.rank size) :
    a.scan size left index
      = if a.rank size < a.array.length then
          .ok (if a.rank size < index + left then some (a.rank size) else none)
        else if index + left ≤ a.array.length then .ok none
        else .error .outOfBounds := by
  have hlen : a.rank size ≤ a.array.length := rank_le
  induction left generalizing index with
  | zero =>
    rw [scan, if_neg (by omega : ¬ _ < index + 0), Nat.add_zero,
      if_pos (hle.trans hlen), ite_self]
  | succ left ih =>
    rw [scan]
    rcases hle.lt_or_eq with hlt | rfl
    · have hsmall := of_decide_eq_false (List.not_of_lt_findIdx hlt)
      simp only [List.getElem?_eq_getElem (hlt.trans_le hlen), if_neg hsmall,
        ih hlt, Nat.succ_add_eq_add_succ]
    · rcases hlen.lt_or_eq with hlt | heq
      · have hlarge : size ≤ a.array[a.rank size] :=
          of_decide_eq_true (List.findIdx_getElem (w := hlt))
        simp [hlt, hlarge]
      · simp [heq]

theorem foldlM_jumpTableEntry {k : Nat} (hk : k ≤ a.jumpTableSize) :
    ∃ index ≤ a.rank (2 ^ k),
      (List.range k).foldlM a.jumpTableEntry ([], 0)
        = .ok ((List.range k).map fun i => a.rank (2 ^ i), index) := by
  induction k with
  | zero => exact ⟨0, Nat.zero_le _, rfl⟩
  | succ k ih =>
    obtain ⟨index, hle, hfold⟩ := ih (by omega)
    have hpow : 2 ^ k ≤ a.last :=
      (Nat.le_log2 a.last_pos.ne').mp (Nat.le_of_succ_le_succ hk)
    have hlt := rank_lt hpow
    refine ⟨a.rank (2 ^ k), rank_mono ?_, ?_⟩
    · exact Nat.pow_le_pow_right (by decide) (Nat.le_succ k)
    · rw [List.range_succ, List.foldlM_append, hfold, List.map_append, ok_bind,
        List.foldlM_cons, jumpTableEntry, scan_eq hle, if_pos hlt,
        if_pos (by dsimp only; omega)]
      rfl

/-- What a lookup does, for every array and size. -/
theorem sizeClassIndex_eq (a : SizeClasses) (size : Nat) :
    a.sizeClassIndex size
      = if a.rank size < a.array.length then
          .ok (if a.rank size < a.jumpTableSize then some (a.rank size)
            else none)
        else if a.jumpTableSize ≤ a.array.length
          ∨ a.jumpTableSize ≤ log2floor size then .ok none
        else .error .outOfBounds := by
  obtain ⟨_, -, hfold⟩ := foldlM_jumpTableEntry (le_refl a.jumpTableSize)
  simp only [sizeClassIndex, makeSizeClassJumpTable, hfold, ok_bind, pure_bind,
    List.length_map, List.length_range, List.getElem_map, List.getElem_range]
  by_cases hzero : size = 0
  · have hlt := rank_lt a.last.zero_le
    have hpos : 0 < a.jumpTableSize := Nat.succ_pos _
    rw [rank_zero] at hlt
    rw [hzero, rank_zero, if_pos hlt]
    rfl
  rw [if_neg hzero]
  by_cases hlog : log2floor size < a.jumpTableSize
  · -- the scan starts inside the array, at or before the right class
    have hlt := rank_lt
      ((Nat.le_log2 a.last_pos.ne').mp (Nat.le_of_lt_succ hlog))
    have hle : a.rank (2 ^ log2floor size) ≤ a.rank size :=
      rank_mono (Nat.log2_self_le hzero)
    rw [dif_pos hlog, scan_eq hle]
    congr 2
    · congr 1
      exact propext ⟨by omega, by omega⟩
    · exact propext ⟨by omega, by omega⟩
  · have habove : a.last < size :=
      Nat.lt_log2_self.trans_le ((Nat.le_log2 hzero).mp (Nat.le_of_not_lt hlog))
    rw [dif_neg hlog, if_neg (rank_of_last_lt habove).not_lt,
      if_pos (.inr (Nat.le_of_not_lt hlog))]
    rfl

/-- The lookup is right just if the class to find is one of the first
`jumpTableSize`, and a size above every class meets the scan's bound, or
the first test, before the end of the array. -/
theorem finds_least_class (a : SizeClasses) (size : Nat) :
    a.sizeClassIndex size = .ok (a.leastClass size)
      ↔ (∀ i ∈ a.leastClass size, i < a.jumpTableSize)
        ∧ (a.leastClass size = none → a.jumpTableSize ≤ a.array.length
            ∨ a.jumpTableSize ≤ log2floor size) := by
  have hleast : a.leastClass size
      = if a.rank size < a.array.length then some (a.rank size) else none := by
    simp [leastClass, rank, List.findIdx?_eq_guard_findIdx_lt, Option.guard]
  rw [sizeClassIndex_eq]
  split <;> split <;> simp_all

/-- Four of seven classes are not found, and a size too large for the
slabs is compared with what follows their classes. -/
theorem scan_bounded_by_jump_table :
    SizeClasses.sizeClassIndex
        ⟨[1, 2, 3, 4, 5, 6, 7], by decide, by decide, by decide⟩ 5 = .ok none
      ∧ slabSizeClasses.sizeClassIndex 600 = .error .outOfBounds :=
  ⟨rfl, rfl⟩

end CroCOS.SizeClasses
