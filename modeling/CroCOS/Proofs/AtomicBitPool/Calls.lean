/-
The calls of the bit pool, against a finite set of indices.

# The walks

`add` raises the tally along its index's path from the leaves up,
`remove` lowers it from the top down, `getAny` lowers it along a path
it chooses as it goes. Each loop lemma says what the loop has done to
the tally so far: a `path` of the levels already visited. A back-out
adds the same path again, so the tally of a failed `remove` is the one
it found (`restoreCounts_spec`), and with it every byte.

# The purpose

`Spec` is the set a pool stands for: which answer each call may give
on a set, and the set it leaves. Only `getAny` leaves a choice. One
call of the pool is one step of `Spec` (`step_refines`); the run
theorem is the simulation rule applied to it.
-/
import CroCOS.Proofs.AtomicBitPool.Encode

namespace CroCOS.AtomicBitPool

open Function Lib


variable {p : AtomicBitPool} {st : Nat → Entry}
variable {leaf s : Finset Nat} {c : Tally Nat}
variable {i : Nat}

-- ==== the loops

/-- The loop of `add`: the tally grows by the path of the levels
visited, and the answer comes from the last one. -/
theorem addLoop_spec (hs : Sized p) (hi : i < p.capacity) {top : Nat}
    (htop : top + 2 = p.levelCount) :
    ∀ (n k : Nat) (st : Nat → Entry), k + n = top →
      Encodes p st leaf (c + path p.entryIndexForLevel i 0 k) →
      ∃ st', addLoop i (n + 1) k (p.on st)
          = .ok (p.on st',
            if c top (p.entryIndexForLevel i top) = 0
                ∧ ∀ e < p.entryCount top, c top e ≤ 0 then .addedToEmpty
            else .addedToNonempty)
        ∧ Encodes p st' leaf (c + path p.entryIndexForLevel i 0 (top + 1)) := by
  intro n
  induction n with
  | zero =>
    intro k st hk h
    obtain ⟨st', cr, hinc, h', hcr⟩ := incrementCount_spec hs h
      (k := k) (by omega) (entryIndex_lt hs hi k)
    have hkt : k = top := by omega
    subst hkt
    have hlevel : ∀ e, (c + path p.entryIndexForLevel i 0 k) k e
        = c k e := by
      intro e
      rw [Pi.add_apply, Pi.add_apply, path, if_neg (by omega)]
      exact Int.add_zero _
    rw [add_assoc, ← path_succ (Nat.zero_le k)] at h'
    refine ⟨st', ?_, h'⟩
    have hans := hcr htop
    simp only [hlevel] at hans
    simp only [addLoop, on_entryIndexForLevel, hinc, hans]
    rw [if_pos (by omega)]
    by_cases hz : c k (p.entryIndexForLevel i k) = 0
        ∧ ∀ e < p.entryCount k, c k e ≤ 0
    · rw [if_pos hz, if_pos (decide_eq_true hz)]
    · rw [if_neg hz, if_neg (by rw [decide_eq_true_eq]; exact hz)]
  | succ n ih =>
    intro k st hk h
    obtain ⟨st', cr, hinc, h', -⟩ := incrementCount_spec hs h
      (k := k) (by omega) (entryIndex_lt hs hi k)
    rw [add_assoc, ← path_succ (Nat.zero_le k)] at h'
    obtain ⟨st'', hrest, h''⟩ := ih (k + 1) st' (by omega) h'
    refine ⟨st'', ?_, h''⟩
    rw [addLoop]
    simp only [on_entryIndexForLevel, hinc]
    rw [if_neg (by omega)]
    exact hrest

/-- The back-out loops put a path's counts back. -/
theorem restoreCounts_spec (hs : Sized p) (hi : i < p.capacity) :
    ∀ (n j : Nat) (st : Nat → Entry), j + n + 1 = p.levelCount →
      Encodes p st leaf (c - path p.entryIndexForLevel i j (p.levelCount - 1)) →
      ∃ st', restoreCounts i n j (p.on st) = .ok (p.on st')
        ∧ Encodes p st' leaf c := by
  intro n
  induction n with
  | zero =>
    intro j st hj h
    rw [show p.levelCount - 1 = j by omega, path_self, sub_zero] at h
    exact ⟨st, rfl, h⟩
  | succ n ih =>
    intro j st hj h
    obtain ⟨st', cr, hinc, h', -⟩ := incrementCount_spec hs h
      (k := j) (by omega) (entryIndex_lt hs hi j)
    rw [path_cons (by omega), ← sub_sub, sub_add_cancel] at h'
    obtain ⟨st'', hrest, h''⟩ := ih (j + 1) st' (by omega) h'
    refine ⟨st'', ?_, h''⟩
    simp only [restoreCounts, on_entryIndexForLevel, hinc]
    exact hrest

/-- Phase 1 of `remove`: either some count on the path was not
positive and the tally is put back, or all were and the tally is down
by the whole path, with `madeEmpty` telling whether that left every
count below the top at zero. -/
theorem removeLoop_spec (hs : Sized p) (hi : i < p.capacity) {top : Nat}
    (htop : top + 2 = p.levelCount) :
    ∀ (k : Nat) (m : Bool) (st : Nat → Entry), k ≤ top + 1 →
      (k = top + 1 → m = false) →
      Encodes p st leaf (c - path p.entryIndexForLevel i k (top + 1)) →
      (∃ st', removeLoop i k m (p.on st) = .ok (p.on st', none)
        ∧ Encodes p st' leaf c
        ∧ ∃ j < k, c j (p.entryIndexForLevel i j) ≤ 0)
      ∨ ∃ st', removeLoop i k m (p.on st)
          = .ok (p.on st', some (if k = top + 1 then
              decide (∀ e < p.entryCount top,
                (c - point top (p.entryIndexForLevel i top)) top e ≤ 0)
              else m))
        ∧ Encodes p st' leaf (c - path p.entryIndexForLevel i 0 (top + 1)) := by
  intro k
  induction k with
  | zero =>
    intro m st _ _ h
    exact Or.inr ⟨st, by rw [removeLoop, if_neg (by omega)], h⟩
  | succ k ih =>
    intro m st hk hm h
    have hlevel : (c - path p.entryIndexForLevel i (k + 1) (top + 1)) k
        = c k := by
      funext e
      rw [Pi.sub_apply, Pi.sub_apply,
        path_apply_below (Nat.lt_succ_self k), sub_zero]
    obtain ⟨st₁, cr, hdec, h₁, hnew, htog, htrans⟩ :=
      decrementCount_spec hs h (k := k) (by omega) (entryIndex_lt hs hi k)
    rw [hlevel] at hnew htog htrans
    rw [sub_sub, ← path_cons (by omega)] at h₁
    rw [removeLoop]
    simp only [on_entryIndexForLevel, hdec]
    by_cases hneg : cr.newCount < 0
    · -- back out from this level up
      obtain ⟨st₂, hback, h₂⟩ := restoreCounts_spec hs hi
        (p.levelCount - 1 - k) k st₁ (by omega) (by
          rw [show p.levelCount - 1 = top + 1 by omega]; exact h₁)
      refine Or.inl ⟨st₂, ?_, h₂, k, Nat.lt_succ_self k, by omega⟩
      rw [if_pos hneg]
      simp only [hback]
    · rw [if_neg hneg]
      -- what `madeEmpty` is after this level
      have hmade : (if k = p.levelCount - 2 ∧ cr.toggledTopLevel = true
            then cr.poolTransitioned else m)
          = if k + 1 = top + 1 then
              decide (∀ e < p.entryCount top,
                (c - point top (p.entryIndexForLevel i top)) top e ≤ 0)
            else m := by
        by_cases hkt : k = top
        · subst hkt
          rw [if_pos rfl, hm rfl]
          by_cases hone : c k (p.entryIndexForLevel i k) = 1
          · rw [if_pos ⟨by omega, by rw [htog htop]; simpa using hone⟩,
              htrans htop hone]
            simp only [Pi.sub_apply, hlevel]
          · rw [if_neg fun h' => hone (by
              have := h'.2
              rw [htog htop] at this
              simpa using this)]
            rw [eq_comm, decide_eq_false_iff_not]
            intro hall
            have hself := hall _ (entryIndex_lt hs hi k)
            simp only [Pi.sub_apply, point, and_self] at hself
            omega
        · rw [if_neg fun h' => hkt (by omega), if_neg (by omega)]
      rw [hmade]
      rcases ih _ st₁ (by omega) (fun h' => absurd h' (by omega)) h₁ with
        ⟨st₂, hrest, h₂, j, hj, hle⟩ | ⟨st₂, hrest, h₂⟩
      · exact Or.inl ⟨st₂, hrest, h₂, j, Nat.lt_succ_of_lt hj, hle⟩
      · refine Or.inr ⟨st₂, ?_, h₂⟩
        rw [hrest, if_neg (show ¬ k = top + 1 by omega)]

-- ==== the set's tally

/-- What a pool encodes between calls: a set of its indices, with the
set's own tally. -/
structure Holds (p : AtomicBitPool) (st : Nat → Entry)
    (s : Finset Nat) : Prop where
  range : ∀ i ∈ s, i < p.capacity
  encodes : Encodes p st s (tally p.entryIndexForLevel s)

/-- The counts of a level are all zero only for the empty set. -/
theorem tally_le_zero_iff (hs : Sized p) (hr : ∀ i ∈ s, i < p.capacity)
    (k : Nat) :
    (∀ e < p.entryCount k, tally p.entryIndexForLevel s k e ≤ 0)
      ↔ s = ∅ := by
  constructor
  · intro hall
    apply Finset.eq_empty_of_forall_notMem
    intro i hi
    have hpos : 0 < tally p.entryIndexForLevel s k
        (p.entryIndexForLevel i k) := tally_pos_iff.mpr ⟨i, hi, rfl⟩
    have hle := hall _ (entryIndex_lt hs (hr i hi) k)
    omega
  · intro he e _
    rw [he]
    exact Int.le_refl 0

/-- With one level, the leaf word is zero only for the empty set. -/
theorem Holds.word_eq_zero_iff (hs : Sized p) (h : Holds p st s)
    (hone : p.levelCount = 1) {e : Nat} (he : e < p.entryCount 0) :
    (st (p.entryOffset e 0)).bitmap = 0#64 ↔ s = ∅ := by
  have htop : p.entryCount 0 = 1 := by
    have := entryCount_top hs
    rwa [hone] at this
  have he0 : e = 0 := by omega
  subst he0
  have hcap : p.capacity ≤ 64 := by
    have hw : 6 * (1 - 1) + p.l1BitmapLog2Width ≤ 6 := by
      have := hs.width_le
      omega
    rw [hs.capacity_eq, hone]
    exact Nat.pow_le_pow_right (n := 2) (by decide) hw
  rw [eq_zero_iff_bits]
  constructor
  · intro hz
    apply Finset.eq_empty_of_forall_notMem
    intro i hi
    have hlt := h.range i hi
    have hbit := hz i (by omega)
    rw [h.encodes.bits 0 he i (by omega)] at hbit
    simp only [Nat.mul_zero, Nat.zero_add, decide_eq_false_iff_not] at hbit
    exact hbit hi
  · intro hz b hb
    rw [h.encodes.bits 0 he b hb, hz]
    rfl

-- ==== the calls

theorem add_spec (hs : Sized p) (h : Holds p st s) (hi : i < p.capacity) :
    ∃ st', (p.on st).add i
        = .ok (p.on st', if i ∈ s then .alreadyPresent
            else if s = ∅ then .addedToEmpty else .addedToNonempty)
      ∧ Holds p st' (insert i s) := by
  have hb : i % 64 < 64 := Nat.mod_lt _ (by decide)
  have he := leaf_lt hs hi
  obtain ⟨st₁, hor, h₁⟩ := fetchOr_spec hs h.encodes hi
  have hrange : ∀ j ∈ insert i s, j < p.capacity := by
    intro j hj
    rcases Finset.mem_insert.mp hj with rfl | hj
    · exact hi
    · exact h.range j hj
  have hbit := h.encodes.leaf_bit hs hi
  unfold add
  simp only [entryIndex_zero, bitIndex_zero, hor, ne_eq, and_mask_eq_zero_iff hb, hbit,
    decide_eq_false_iff_not, not_not]
  by_cases hmem : i ∈ s
  · rw [if_pos hmem, if_pos hmem]
    refine ⟨st₁, rfl, hrange, ?_⟩
    rw [Finset.insert_eq_of_mem hmem] at h₁ ⊢
    exact h₁
  · rw [if_neg hmem, if_neg hmem]
    by_cases hone : p.levelCount = 1
    · -- the single word tells emptiness, and no count is kept
      rw [if_pos hone]
      refine ⟨st₁, ?_, hrange, h₁.congr hs fun k hk => by omega⟩
      simp only [h.word_eq_zero_iff hs hone he]
    · rw [if_neg hone]
      have hpos := hs.levels_pos
      obtain ⟨top, htop⟩ : ∃ top, top + 2 = p.levelCount :=
        ⟨p.levelCount - 2, by omega⟩
      obtain ⟨st₂, hloop, h₂⟩ := addLoop_spec
        (c := tally p.entryIndexForLevel s) hs hi htop top 0 st₁
        (by omega) (by rw [path_self]; exact h₁)
      refine ⟨st₂, ?_, hrange, h₂.congr hs fun k hk e _ => ?_⟩
      · rw [show p.levelCount - 1 = top + 1 by omega, hloop]
        have hiff := tally_le_zero_iff hs h.range top
        by_cases hempty : s = ∅
        · have hz : tally p.entryIndexForLevel s top
              (p.entryIndexForLevel i top) = 0 := by
            rw [hempty]
            rfl
          rw [if_pos hempty, if_pos ⟨hz, hiff.mpr hempty⟩]
        · rw [if_neg hempty, if_neg fun h' => hempty (hiff.mp h'.2)]
      · rw [tally_insert hmem, Pi.add_apply, Pi.add_apply,
          path_apply (Nat.zero_le k) (by omega)]

theorem remove_spec (hs : Sized p) (h : Holds p st s) (hi : i < p.capacity) :
    ∃ st', (p.on st).remove i
        = .ok (p.on st', if i ∉ s then .notPresent
            else if s.erase i = ∅ then .removedAndMadeEmpty
            else .removedAndStayedNonempty)
      ∧ Holds p st' (s.erase i) := by
  have hb : i % 64 < 64 := Nat.mod_lt _ (by decide)
  have he := leaf_lt hs hi
  have hrange : ∀ j ∈ s.erase i, j < p.capacity :=
    fun j hj => h.range j (Finset.mem_of_mem_erase hj)
  have hbit := h.encodes.leaf_bit hs hi
  unfold remove
  by_cases hone : p.levelCount = 1
  · obtain ⟨st₁, hclear, h₁⟩ := fetchClear_spec hs h.encodes hi
    have h₁' : Holds p st₁ (s.erase i) :=
      ⟨hrange, h₁.congr hs fun k hk => by omega⟩
    -- the word left behind is the old one with the bit cleared
    have hleft : (st (p.entryOffset (i / 64) 0)).bitmap
        &&& ~~~(1#64 <<< (i % 64)) = 0#64 ↔ s.erase i = ∅ := by
      rw [← h₁'.word_eq_zero_iff hs hone he]
      rw [fetchBitmap_on hs hs.levels_pos he] at hclear
      cases hclear
      rw [update_self]
    rw [if_pos hone]
    simp only [entryIndex_zero, bitIndex_zero, hclear,
      and_mask_eq_zero_iff hb, hbit, decide_eq_false_iff_not, hleft]
    refine ⟨st₁, ?_, h₁'⟩
    by_cases hmem : i ∈ s
    · rw [if_neg (not_not.mpr hmem)]
      split
      · rfl
      · rfl
    · rw [if_pos hmem, if_pos hmem]
  · have hpos := hs.levels_pos
    obtain ⟨top, htop⟩ : ∃ top, top + 2 = p.levelCount :=
      ⟨p.levelCount - 2, by omega⟩
    rw [if_neg hone, show p.levelCount - 1 = top + 1 by omega]
    rcases removeLoop_spec (c := tally p.entryIndexForLevel s) hs hi htop
        (top + 1) false st le_rfl (fun _ => rfl)
        (by rw [path_self]; exact h.encodes) with
      ⟨st₁, hloop, h₁, j, -, hle⟩ | ⟨st₁, hloop, h₁⟩
    · -- a count was already zero: the index cannot be a member
      have hmem : i ∉ s := by
        intro hmem
        have hcount : 0 < tally p.entryIndexForLevel s j
            (p.entryIndexForLevel i j) :=
          tally_pos_iff.mpr ⟨i, hmem, rfl⟩
        omega
      rw [hloop, if_pos hmem]
      refine ⟨st₁, rfl, ?_⟩
      rw [Finset.erase_eq_of_notMem hmem]
      exact ⟨h.range, h₁⟩
    · rw [hloop, if_pos rfl]
      obtain ⟨st₂, hclear, h₂⟩ := fetchClear_spec hs h₁ hi
      have hbit₁ := h₁.leaf_bit hs hi
      simp only [entryIndex_zero, bitIndex_zero, hclear,
        and_mask_eq_zero_iff hb, hbit₁, decide_eq_false_iff_not]
      by_cases hmem : i ∈ s
      · rw [if_neg (not_not.mpr hmem)]
        have htally : ∀ k ≤ top, ∀ e, tally p.entryIndexForLevel (s.erase i) k e
              = (tally p.entryIndexForLevel s
                - path p.entryIndexForLevel i 0 (top + 1)) k e := by
          intro k hk e
          rw [tally_erase hmem, Pi.sub_apply, Pi.sub_apply,
            path_apply (Nat.zero_le k) (by omega)]
        have hiff := tally_le_zero_iff hs hrange top
        have hsame : ∀ e, (tally p.entryIndexForLevel s
              - point top (p.entryIndexForLevel i top)) top e
            = tally p.entryIndexForLevel (s.erase i) top e := by
          intro e
          rw [tally_erase hmem, Pi.sub_apply, Pi.sub_apply, point]
          simp only [true_and]
        simp only [hsame, hiff, decide_eq_true_eq]
        refine ⟨st₂, ?_, hrange, h₂.congr hs fun k hk e _ =>
          (htally k (by omega) e).symm⟩
        split
        · rfl
        · rfl
      · rw [if_pos hmem, if_pos hmem]
        rw [Finset.erase_eq_of_notMem hmem] at h₂ ⊢
        obtain ⟨st₃, hback, h₃⟩ := restoreCounts_spec hs hi
          (p.levelCount - 1) 0 st₂ (by omega) (by
            rw [show p.levelCount - 1 = top + 1 by omega]; exact h₂)
        rw [hback]
        exact ⟨st₃, rfl, h.range, h₃⟩

-- ==== getAny

/-- The rotation's own scan answers a set bit of the bitmap. -/
theorem doRotation_spec (threadId : BitVec 64) (retryCount : Nat)
    {bitmap : BitVec 64} (h : bitmap ≠ 0#64) :
    doRotation threadId retryCount bitmap < 64
      ∧ bitmap.getLsbD (doRotation threadId retryCount bitmap) = true := by
  unfold doRotation
  simp only
  generalize threadId ^^^ (BitVec.ofNat 64 retryCount * 2654435761#64)
    = hash
  have hr : (hash &&& 63#64).toNat < 64 := by
    exact Nat.lt_of_le_of_lt Nat.and_le_right (by decide)
  generalize (hash &&& 63#64).toNat = r at hr ⊢
  -- bit `j` of the rotated word is bit `j - r`, around the word
  have hbit : ∀ j < 64,
      ((bitmap <<< r) ||| (bitmap >>> ((64 - r) % 64))).getLsbD j
        = bitmap.getLsbD ((j + 64 - r) % 64) := by
    intro j hj
    rw [BitVec.getLsbD_or, BitVec.getLsbD_shiftLeft, BitVec.getLsbD_ushiftRight]
    rcases Nat.eq_zero_or_pos r with rfl | hpos
    · rw [show (j + 64 - 0) % 64 = j by omega]
      simp [hj]
    · rcases Nat.lt_or_ge j r with hlt | hge
      · rw [show (j + 64 - r) % 64 = j + 64 - r by omega,
          show (64 - r) % 64 + j = j + 64 - r by omega]
        simp [hlt]
      · rw [show (j + 64 - r) % 64 = j - r by omega,
          BitVec.getLsbD_of_ge bitmap ((64 - r) % 64 + j) (by omega)]
        simp [hj, Nat.not_lt.mpr hge]
  generalize (bitmap <<< r) ||| (bitmap >>> ((64 - r) % 64))
    = rotated at hbit ⊢
  have hne : rotated ≠ 0#64 := by
    intro hz
    obtain ⟨i, hi, hset⟩ := exists_getLsbD_of_ne_zero h
    have hj := hbit ((i + r) % 64) (Nat.mod_lt _ (by decide))
    rw [hz, BitVec.getLsbD_zero,
      show ((i + r) % 64 + 64 - r) % 64 = i by omega, hset] at hj
    cases hj
  refine ⟨Nat.mod_lt _ (by decide), ?_⟩
  obtain ⟨hctz, htz⟩ := countTrailingZeros_spec hne
  obtain ⟨hclz, hlz⟩ := countLeadingZeros_spec hne
  split
  · rw [show (63 + 2 ^ 64 - countLeadingZeros rotated) % 2 ^ 64
        = 63 - countLeadingZeros rotated by omega,
      ← hbit _ (by omega)]
    exact hlz
  · rw [← hbit _ hctz]
    exact htz

/-- The initialising loop stays inside `decrementedAt`. -/
theorem clearDecrementedAt_eq {n : Nat} (h : n ≤ maxLevelCount) :
    clearDecrementedAt n = .ok fun _ => none := by
  induction n with
  | zero => rfl
  | succ n ih =>
    rw [clearDecrementedAt, ih (by omega)]
    simp only [setDecrementedAt]
    rw [if_pos (by omega), update_eq_self_iff.mpr rfl]

/-- A back-out with nothing decremented changes nothing. -/
theorem backout_none (n k : Nat) (p : AtomicBitPool) :
    backout (fun _ => none) n k p = .ok p := by
  induction n generalizing k with
  | zero => rfl
  | succ n ih => exact ih (k + 1)

/-- Indices that meet at a level share every ancestor above it. -/
theorem ancestors_agree (hs : Sized p) {j k : Nat}
    (h : p.entryIndexForLevel i k = p.entryIndexForLevel j k) :
    ∀ k', k ≤ k' → p.entryIndexForLevel i k' = p.entryIndexForLevel j k' := by
  intro k' hk
  induction k', hk using Nat.le_induction with
  | base => exact h
  | succ k' _ ih => rw [← parent_ancestor hs, ← parent_ancestor hs, ih]

/-- The descent: from an entry above a member, with the counts of its
path already lowered, `getAny` claims some member below it. -/
theorem getAnyLoop_spec (hs : Sized p) (hr : ∀ i ∈ s, i < p.capacity)
    (threadId : BitVec 64) (maxRetries : Nat) :
    ∀ (level fuel e i : Nat) (da : Nat → Option Nat) (st : Nat → Entry),
      level < fuel → level < p.levelCount → i ∈ s →
      p.entryIndexForLevel i level = e →
      Encodes p st s (tally p.entryIndexForLevel s
        - path p.entryIndexForLevel i level (p.levelCount - 1)) →
      ∃ st' j, getAnyLoop threadId maxRetries fuel 0 level e da (p.on st)
          = .ok (p.on st', .success j)
        ∧ j ∈ s ∧ Holds p st' (s.erase j) := by
  intro level
  induction level with
  | zero =>
    intro fuel e i da st hfuel hlevel hi hanc h
    obtain ⟨fuel, rfl⟩ : ∃ f, fuel = f + 1 := ⟨fuel - 1, by omega⟩
    have he : e < p.entryCount 0 := by
      rw [← hanc]
      exact entryIndex_lt hs (hr i hi) 0
    rw [entryIndex_zero] at hanc
    have hword : (st (p.entryOffset e 0)).bitmap ≠ 0#64 := by
      intro hz
      have hbit := h.leaf_bit hs (hr i hi)
      rw [hanc, hz, BitVec.getLsbD_zero, eq_comm,
        decide_eq_false_iff_not] at hbit
      exact hbit hi
    obtain ⟨hlt, hset⟩ := doRotation_spec threadId 0 hword
    generalize hb : doRotation threadId 0
      (st (p.entryOffset e 0)).bitmap = b at hlt hset
    -- the member the bit stands for
    have hj : 64 * e + b ∈ s := by
      rw [h.bits e he b hlt, decide_eq_true_eq] at hset
      exact hset
    have hdiv : (64 * e + b) / 64 = e := by omega
    have hmod : (64 * e + b) % 64 = b := by omega
    obtain ⟨st', hclear, h'⟩ := fetchClear_spec hs h (hr _ hj)
    rw [hdiv, hmod] at hclear
    have hagree := ancestors_agree hs (i := i) (j := 64 * e + b) (k := 0) (by
        rw [entryIndex_zero, entryIndex_zero, hanc, hdiv])
    refine ⟨st', 64 * e + b, ?_, hj,
      fun x hx => hr x (Finset.mem_of_mem_erase hx), ?_⟩
    · rw [getAnyLoop, if_neg (by omega)]
      simp only [load_on hs hlevel he, hb, hclear, ne_eq,
        and_mask_eq_zero_iff hlt, hset]
      rw [if_neg fun h' => hword h'.1]
      simp only [Bool.true_eq_false, not_false_eq_true, if_true]
      rw [← Nat.shiftLeft_add_eq_or_of_lt (show b < 2 ^ 6 from hlt),
        Nat.shiftLeft_eq, Nat.mul_comm e]
    · apply h'.congr hs
      intro k hk x _
      rw [tally_erase hj, path_congr hagree, Pi.sub_apply,
        Pi.sub_apply, path_apply (Nat.zero_le k) (by omega)]
  | succ level ih =>
    intro fuel e i da st hfuel hlevel hi hanc h
    obtain ⟨fuel, rfl⟩ : ∃ f, fuel = f + 1 := ⟨fuel - 1, by omega⟩
    have he : e < p.entryCount (level + 1) := by
      rw [← hanc]
      exact entryIndex_lt hs (hr i hi) (level + 1)
    have hbelow : ∀ x, (tally p.entryIndexForLevel s
          - path p.entryIndexForLevel i (level + 1) (p.levelCount - 1)) level x
        = tally p.entryIndexForLevel s level x := by
      intro x
      rw [Pi.sub_apply, Pi.sub_apply,
        path_apply_below (Nat.lt_succ_self level), sub_zero]
    have hword : (st (p.entryOffset e (level + 1))).bitmap ≠ 0#64 := by
      intro hz
      have hall := (h.hint_eq_zero_iff hs hlevel he).mp hz
        (p.bitIndexInParent (p.entryIndexForLevel i level) level)
        (bitIndexInParent_lt _ _)
      rw [← hanc, ← parent_ancestor hs, child_parent, hbelow] at hall
      have hpos : 0 < tally p.entryIndexForLevel s level
          (p.entryIndexForLevel i level) :=
        tally_pos_iff.mpr ⟨i, hi, rfl⟩
      omega
    obtain ⟨hlt, hset⟩ := doRotation_spec threadId 0 hword
    generalize hb : doRotation threadId 0
      (st (p.entryOffset e (level + 1))).bitmap = b at hlt hset
    rw [h.hint level hlevel e he b hlt, decide_eq_true_eq, hbelow] at hset
    obtain ⟨hwidth, hpos⟩ := hset
    -- the child has a member, which shares the path so far
    obtain ⟨j, hj, hjanc⟩ := tally_pos_iff.mp hpos
    have hagree := ancestors_agree hs (i := i) (j := j) (k := level + 1) (by
        rw [hanc, ← parent_ancestor hs j, hjanc, parent_child hwidth])
    have hchild := child_lt hs hlevel he hwidth
    obtain ⟨st₁, cr, hdec, h₁, hnew, -, -⟩ :=
      decrementCount_spec hs h hlevel hchild
    rw [hbelow] at hnew
    rw [path_congr hagree, ← hjanc, sub_sub, ← path_cons (by omega)] at h₁
    have hcell : setDecrementedAt da level
          (some (p.childEntryIndex e b (level + 1)))
        = .ok (update da level
          (some (p.childEntryIndex e b (level + 1)))) := by
      have := hs.levels_le
      exact if_pos (by omega)
    obtain ⟨st', m, hrest, hm, h'⟩ := ih fuel
      (p.childEntryIndex e b (level + 1)) j (update da level
        (some (p.childEntryIndex e b (level + 1)))) st₁ (by omega)
      (by omega) hj hjanc h₁
    refine ⟨st', m, ?_, hm, h'⟩
    rw [getAnyLoop, if_neg (by omega)]
    simp only [load_on hs hlevel he, hb, on_childEntryIndex, hdec]
    rw [if_neg hword, if_neg (by omega), hcell]
    exact hrest

theorem getAny_spec (hs : Sized p) (h : Holds p st s)
    (threadId : BitVec 64) (maxRetries : Nat) :
    (s = ∅ ∧ (p.on st).getAny threadId maxRetries = .ok (p.on st, .empty))
      ∨ ∃ st' j, (p.on st).getAny threadId maxRetries
          = .ok (p.on st', .success j)
        ∧ j ∈ s ∧ Holds p st' (s.erase j) := by
  have hpos := hs.levels_pos
  have hempty : backoutAndReturn (fun _ => none) (p.on st) .empty
      = .ok (p.on st, .empty) := by
    rw [backoutAndReturn, backout_none]
  obtain ⟨fuel, hfuel⟩ : ∃ f, (maxRetries + 1) * (p.levelCount + 1) = f + 1
      ∧ p.levelCount ≤ f :=
    ⟨maxRetries * (p.levelCount + 1) + p.levelCount, by
      rw [Nat.succ_mul]; omega, Nat.le_add_left ..⟩
  unfold getAny
  simp only [clearDecrementedAt_eq hs.levels_le, hfuel.1]
  by_cases hs0 : s = ∅
  · -- the root word is zero, whichever level it is
    refine Or.inl ⟨hs0, ?_⟩
    rw [getAnyLoop.eq_def]
    by_cases hone : p.levelCount = 1
    · have hz := (h.word_eq_zero_iff hs hone (entryCount_pos 0)).mpr hs0
      simp only [hone, load_on hs hpos (entryCount_pos 0), hz, and_self]
      exact hempty
    · obtain ⟨top, htop⟩ : ∃ top, top + 2 = p.levelCount :=
        ⟨p.levelCount - 2, by omega⟩
      have hlast : p.levelCount - 1 = top + 1 := by omega
      have hz := (h.encodes.top_eq_zero_iff hs htop
        (entryCount_pos (top + 1))).mpr
          ((tally_le_zero_iff hs h.range top).mpr hs0)
      simp only [hlast, load_on hs (show top + 1 < p.levelCount by omega)
        (entryCount_pos _), hz]
      exact hempty
  · obtain ⟨i, hi⟩ := Finset.nonempty_of_ne_empty hs0
    have hanc : p.entryIndexForLevel i (p.levelCount - 1) = 0 := by
      have hlt := entryIndex_lt hs (h.range i hi) (p.levelCount - 1)
      rw [entryCount_top hs] at hlt
      omega
    refine Or.inr (getAnyLoop_spec hs h.range threadId maxRetries
      (p.levelCount - 1) (fuel + 1) 0 i _ st (by omega) (by omega) hi hanc
      ?_)
    rw [path_self]
    exact h.encodes

-- ==== the runs

/-- What a pool is for: the answers a call may give on a set of
indices, and the set it leaves. -/
def Spec (s : Finset Nat) : Call → Answer → Finset Nat → Prop
  | .add i, answer, s' =>
    answer = .added (if i ∈ s then .alreadyPresent
      else if s = ∅ then .addedToEmpty else .addedToNonempty)
    ∧ s' = insert i s
  | .remove i, answer, s' =>
    answer = .removed (if i ∉ s then .notPresent
      else if s.erase i = ∅ then .removedAndMadeEmpty
      else .removedAndStayedNonempty)
    ∧ s' = s.erase i
  | .getAny _ _, answer, s' =>
    (s = ∅ ∧ answer = .got .empty ∧ s' = s)
    ∨ ∃ j ∈ s, answer = .got (.success j) ∧ s' = s.erase j

/-- The index a call names, if it names one, is the pool's. -/
def Call.InRange (capacity : Nat) : Call → Prop
  | .add i => i < capacity
  | .remove i => i < capacity
  | .getAny _ _ => True

/-- One call of the pool is one step of the set. -/
theorem step_refines (hs : Sized p) (q : AtomicBitPool) (s : Finset Nat)
    (call : Call) (h : ∃ st, q = p.on st ∧ Holds p st s)
    (hc : call.InRange p.capacity) :
    ∃ q' answer s', step q call = .ok (q', answer)
      ∧ Spec s call answer s' ∧ ∃ st, q' = p.on st ∧ Holds p st s' := by
  obtain ⟨st, rfl, h⟩ := h
  cases call with
  | add i =>
    obtain ⟨st', hadd, h'⟩ := add_spec hs h hc
    exact ⟨_, _, _, by rw [step, hadd], ⟨rfl, rfl⟩, st', rfl, h'⟩
  | remove i =>
    obtain ⟨st', hrem, h'⟩ := remove_spec hs h hc
    exact ⟨_, _, _, by rw [step, hrem], ⟨rfl, rfl⟩, st', rfl, h'⟩
  | getAny threadId maxRetries =>
    rcases getAny_spec hs h threadId maxRetries with
      ⟨hempty, hget⟩ | ⟨st', j, hget, hj, h'⟩
    · exact ⟨_, _, _, by rw [step, hget], Or.inl ⟨hempty, rfl, rfl⟩, st, rfl, h⟩
    · exact ⟨_, _, _, by rw [step, hget],
        Or.inr ⟨j, hj, rfl, rfl⟩, st', rfl, h'⟩

/-- A fresh pool holds nothing. -/
theorem holds_create {cap stride : Nat} :
    Holds (create cap stride) (create cap stride).storage ∅ := by
  refine ⟨fun i hi => absurd hi (Finset.notMem_empty i), ?_⟩
  refine ⟨?_, fun _ _ _ _ => rfl, ?_, rfl, fun _ _ => rfl⟩
  · intro e _ b _
    exact BitVec.getLsbD_zero
  · intro k _ e _ b _
    rw [decide_eq_false fun h' => absurd h'.2 (Int.lt_irrefl 0)]
    exact BitVec.getLsbD_zero

instance (capacity : Nat) (call : Call) : Decidable (call.InRange capacity) :=
  match call with
  | .add i => inferInstanceAs (Decidable (i < capacity))
  | .remove i => inferInstanceAs (Decidable (i < capacity))
  | .getAny _ _ => inferInstanceAs (Decidable True)

/-- The pool's own consistency, for the set it holds: the leaf bits are
the members, a count below the top level is the number of members
under its entry, and a hint bit is set when its child's count is
positive. -/
structure Consistent (q : AtomicBitPool) (s : Finset Nat) : Prop where
  members : ∀ i < q.capacity,
    (q.storage (q.entryOffset (i / 64) 0)).bitmap.getLsbD (i % 64)
      = decide (i ∈ s)
  counts : ∀ k, k + 1 < q.levelCount → ∀ e < q.entryCount k,
    (q.storage (q.entryOffset e k)).count
      = (s.filter fun i => q.entryIndexForLevel i k = e).card
  hints : ∀ k, k + 1 < q.levelCount → ∀ e < q.entryCount (k + 1),
    ∀ b < 2 ^ q.shiftForLevel (k + 1),
      (q.storage (q.entryOffset e (k + 1))).bitmap.getLsbD b
        = decide (0 < (q.storage (q.entryOffset
            (q.childEntryIndex e b (k + 1)) k)).count)

theorem Holds.consistent (hs : Sized p) (h : Holds p st s) :
    Consistent (p.on st) s := by
  refine ⟨fun i hi => h.encodes.leaf_bit (p := p) hs hi, h.encodes.count, ?_⟩
  intro k hk e he b hb
  have hwidth : b < 2 ^ p.shiftForLevel (k + 1) := hb
  have hb64 := Nat.lt_of_lt_of_le hwidth (two_pow_shift_le hs _)
  have hcount := h.encodes.count k hk _ (child_lt hs hk he hwidth)
  show (st (p.entryOffset e (k + 1))).bitmap.getLsbD b
    = decide (0 < (st (p.entryOffset (p.childEntryIndex e b (k + 1)) k)).count)
  rw [h.encodes.hint k hk e he b hb64, hcount]
  simp only [hwidth, true_and]

/-- Removing an index that is not a member changes nothing. -/
theorem remove_absent (hs : Sized p) (h : Holds p st s)
    (hi : i < p.capacity) (hmem : i ∉ s) :
    (p.on st).remove i = .ok (p.on st, .notPresent) := by
  obtain ⟨st', hrem, h'⟩ := remove_spec hs h hi
  rw [Finset.erase_eq_of_notMem hmem] at h'
  rw [hrem, if_pos hmem, h'.encodes.unique hs h.encodes]

/-- Every run of calls on a pool of at most `64 ^ maxLevelCount`
indices answers as a finite set of indices does, keeps the pool
consistent with that set, and leaves a pool on which removing an absent
index changes nothing. -/
theorem atomicBitPool_refines_set {cap : Nat} (stride : Nat)
    (h2 : 2 ≤ cap) (hmax : cap ≤ 2 ^ (6 * maxLevelCount))
    (calls : List Call)
    (hcalls : ∀ call ∈ calls, call.InRange (create cap stride).capacity) :
    ∃ q answers s, run step (create cap stride) calls = .ok (q, answers)
      ∧ SpecRuns Spec ∅ calls answers s
      ∧ (∀ i ∈ s, i < q.capacity)
      ∧ Consistent q s
      ∧ ∀ i < q.capacity, i ∉ s → q.remove i = .ok (q, .notPresent) := by
  have hs : Sized (create cap stride) := sized_create stride h2 hmax
    (by decide)
  obtain ⟨q, answers, s, hrun, hspec, st, rfl, h⟩ :=
    run_refines_rel (step_refines hs)
      ⟨(create cap stride).storage, rfl, holds_create⟩ hcalls
  exact ⟨_, answers, s, hrun, hspec, h.range, h.consistent hs,
    fun i hi hmem => remove_absent hs h hi hmem⟩

/-- A two-level pool, driven through every kind of call. -/
theorem atomicBitPool_refines_set_two_levels :
    ∃ q answers s, run step (create 65 64)
        [.add 64, .remove 3, .getAny 5#64 0, .remove 64]
        = .ok (q, answers)
      ∧ SpecRuns Spec ∅
        [.add 64, .remove 3, .getAny 5#64 0, .remove 64] answers s
      ∧ (∀ i ∈ s, i < q.capacity)
      ∧ Consistent q s
      ∧ ∀ i < q.capacity, i ∉ s → q.remove i = .ok (q, .notPresent) :=
  atomicBitPool_refines_set 64 (by decide) (by decide) _ (by decide)

/-- One index past what `maxLevelCount` levels can hold, the pool gets
an eleventh level and `getAny` writes past the end of `decrementedAt`;
and in a pool of any size the count of the top entry, here the only
one, is never maintained. -/
theorem large_pool_overruns_decrementedAt :
    (create (2 ^ 60 + 1) 64).getAny 0#64 16 = .error .outOfBounds
      ∧ ∃ q, (create 2 64).add 0 = .ok (q, .addedToEmpty)
          ∧ (q.storage (q.entryOffset 0 0)).count = 0 :=
  ⟨rfl, _, rfl, rfl⟩

end CroCOS.AtomicBitPool
