/-
Merging the memory ranges of a domain.

The ranges are walked in the order of their starts. A merged range is what
the ranges of one run touch, in whole big pages (`Merged`): it contains
them, and each of its big pages meets one of them. Two merged ranges do
not overlap, so a byte of one is in a range of the domain only if it is in
one of its own (`covered_origs_iff`).

Rounding wraps at the end of the address space; `Usable` keeps the ranges
a big page below it.
-/
import CroCOS.NumaPoolCreate

namespace CroCOS

variable {ranges rest : List PhysMemoryRange} {r : PhysMemoryRange}
variable {cur mr : TempMergedRange} {a b : Nat}

-- ==== the ranges

/-- The byte at `a` is in one of the ranges. -/
def Covered (ranges : List PhysMemoryRange) (a : Nat) : Prop :=
  ∃ r ∈ ranges, r.start ≤ a ∧ a < r.endAddr

/-- A range that a pool can be built from. -/
structure PhysMemoryRange.Usable (r : PhysMemoryRange) : Prop where
  nonempty : r.start < r.endAddr
  start_dvd : smallPageSize ∣ r.start
  end_dvd : smallPageSize ∣ r.endAddr
  fits : r.endAddr + bigPageSize ≤ 2 ^ 64

/-- In the order of their starts. -/
abbrev ByStart (ranges : List PhysMemoryRange) : Prop :=
  ranges.Pairwise fun a b => a.start ≤ b.start

theorem covered_cons : Covered (r :: rest) a
      ↔ (r.start ≤ a ∧ a < r.endAddr) ∨ Covered rest a := by
  unfold Covered
  rw [List.exists_mem_cons_iff]

theorem byStart_sortRanges (ranges : List PhysMemoryRange) :
    ByStart (sortRanges ranges) := by
  exact List.pairwise_insertionSort _ _

theorem mem_sortRanges : r ∈ sortRanges ranges ↔ r ∈ ranges :=
  List.mem_insertionSort _

-- ==== the rounding

theorem bigPageBase_le (a : Nat) : bigPageBase a ≤ a :=
  Nat.div_mul_le_self ..

theorem lt_bigPageBase (a : Nat) : a < bigPageBase a + bigPageSize := by
  unfold bigPageBase roundDownToNearestMultiple bigPageSize
  omega

theorem bigPageBase_dvd (a : Nat) : bigPageSize ∣ bigPageBase a :=
  Nat.dvd_mul_left ..

/-- A big page that ends after `a` does not start before its base. -/
theorem bigPageBase_eq (hdvd : bigPageSize ∣ b) (hle : b ≤ a)
    (hlt : a < b + bigPageSize) : bigPageBase a = b := by
  unfold bigPageBase roundDownToNearestMultiple
  unfold bigPageSize at *
  omega

theorem le_bigPageBase (hdvd : bigPageSize ∣ b) (hle : b ≤ a) :
    b ≤ bigPageBase a := by
  unfold bigPageBase roundDownToNearestMultiple
  unfold bigPageSize at *
  omega

/-- Rounding up, where it does not wrap. -/
theorem bigPageAlignUp_spec (h : a + bigPageSize ≤ 2 ^ 64) :
    a ≤ bigPageAlignUp a ∧ bigPageAlignUp a < a + bigPageSize
      ∧ bigPageSize ∣ bigPageAlignUp a := by
  refine ⟨?_, ?_, Nat.dvd_mul_left ..⟩
  · unfold bigPageAlignUp
    unfold bigPageSize at *
    omega
  · unfold bigPageAlignUp
    unfold bigPageSize at *
    omega

/-- Multiples are a big page apart. -/
theorem add_bigPageSize_le (ha : bigPageSize ∣ a) (hb : bigPageSize ∣ b)
    (h : a < b) : a + bigPageSize ≤ b := by
  unfold bigPageSize at *
  omega

theorem bigPageAlignUp_le (h : a + bigPageSize ≤ 2 ^ 64) :
    bigPageAlignUp a + bigPageSize ≤ 2 ^ 64 := by
  obtain ⟨-, hlt, hdvd⟩ := bigPageAlignUp_spec h
  refine add_bigPageSize_le hdvd ?_ (by unfold bigPageSize at *; omega)
  exact ⟨2 ^ 43, rfl⟩

-- ==== the merged ranges

/-- What a merged range is. -/
structure Merged (mr : TempMergedRange) : Prop where
  start_dvd : bigPageSize ∣ mr.start
  end_dvd : bigPageSize ∣ mr.endAddr
  lt : mr.start < mr.endAddr
  fits : mr.endAddr + bigPageSize ≤ 2 ^ 64
  usable : ∀ r ∈ mr.origs, r.Usable
  byStart : ByStart mr.origs
  within : ∀ r ∈ mr.origs, mr.start ≤ r.start ∧ r.endAddr ≤ mr.endAddr
  touched : ∀ b, bigPageSize ∣ b → mr.start ≤ b → b < mr.endAddr →
    ∃ r ∈ mr.origs, r.start < b + bigPageSize ∧ b < r.endAddr

/-- The merged range of one range. -/
theorem merged_single (h : r.Usable) : Merged
           { start := bigPageBase r.start
             endAddr := bigPageAlignUp r.endAddr
             origs := [r] } := by
  obtain ⟨hle, hlt, hdvd⟩ := bigPageAlignUp_spec h.fits
  have hbase := bigPageBase_le r.start
  have hnonempty := h.nonempty
  refine ⟨bigPageBase_dvd _, hdvd, ?_, bigPageAlignUp_le h.fits, ?_,
    List.pairwise_singleton _ _, ?_, fun b hb hlo hhi => ?_⟩
  · show bigPageBase r.start < bigPageAlignUp r.endAddr
    omega
  · intro q hq
    rw [List.mem_singleton.mp hq]
    exact h
  · intro q hq
    rw [List.mem_singleton.mp hq]
    exact ⟨hbase, hle⟩
  · refine ⟨r, List.mem_singleton_self r, ?_, ?_⟩
    · have := lt_bigPageBase r.start
      change bigPageBase r.start ≤ b at hlo
      omega
    · by_contra hge
      have := add_bigPageSize_le hb hdvd hhi
      omega

/-- A range that starts in the merged range so far, or in its last big
page, extends it. -/
theorem Merged.extend (h : Merged cur) (hr : r.Usable)
    (hle : cur.start ≤ r.start) (hsort : ∀ q ∈ cur.origs, q.start ≤ r.start)
    (hlt : bigPageBase r.start < cur.endAddr) :
    Merged { cur with
      endAddr := if bigPageAlignUp r.endAddr > cur.endAddr then
        bigPageAlignUp r.endAddr else cur.endAddr
      origs := cur.origs ++ [r] } := by
  obtain ⟨hup, hupper, hdvd⟩ := bigPageAlignUp_spec hr.fits
  obtain ⟨e, he⟩ : ∃ e, e = if bigPageAlignUp r.endAddr > cur.endAddr then
      bigPageAlignUp r.endAddr else cur.endAddr := ⟨_, rfl⟩
  rw [← he]
  have hmax : cur.endAddr ≤ e ∧ r.endAddr ≤ e
      ∧ (e = cur.endAddr ∨ e = bigPageAlignUp r.endAddr) := by
    rw [he]
    split_ifs <;> refine ⟨?_, ?_, ?_⟩ <;> omega
  have hstart := h.lt
  refine ⟨h.start_dvd, ?_, ?_, ?_, fun q hq => ?_, ?_, fun q hq => ?_,
    fun b hb hlo hhi => ?_⟩
  · rcases hmax.2.2 with hx | hx
    · rw [hx]
      exact h.end_dvd
    · rw [hx]
      exact hdvd
  · show cur.start < e
    omega
  · show e + bigPageSize ≤ 2 ^ 64
    rcases hmax.2.2 with hx | hx
    · rw [hx]
      exact h.fits
    · rw [hx]
      exact bigPageAlignUp_le hr.fits
  · rcases List.mem_append.mp hq with hq | hq
    · exact h.usable q hq
    · rw [List.mem_singleton.mp hq]
      exact hr
  · refine List.pairwise_append.mpr ⟨h.byStart,
      List.pairwise_singleton _ _, fun q hq q' hq' => ?_⟩
    rw [List.mem_singleton.mp hq']
    exact hsort q hq
  · rcases List.mem_append.mp hq with hq | hq
    · have := h.within q hq
      exact ⟨this.1, by show q.endAddr ≤ e; omega⟩
    · rw [List.mem_singleton.mp hq]
      exact ⟨hle, hmax.2.1⟩
  · change b < e at hhi
    by_cases hold : b < cur.endAddr
    · obtain ⟨q, hq, hx⟩ := h.touched b hb hlo hold
      exact ⟨q, List.mem_append_left _ hq, hx⟩
    · -- a big page beyond the old end is one that this range reaches into
      refine ⟨r, List.mem_append_right _ (List.mem_singleton_self r), ?_, ?_⟩
      · have hb' := lt_bigPageBase r.start
        omega
      · by_contra hge
        rcases hmax.2.2 with hx | hx
        · omega
        · have := add_bigPageSize_le hb hdvd (by omega)
          omega

/-- The merged ranges do not overlap, in order. -/
abbrev Apart (merged : List TempMergedRange) : Prop :=
  merged.Pairwise fun a b => a.endAddr ≤ b.start

theorem mergeLoop_spec :
    ∀ {rest : List PhysMemoryRange} {cur : TempMergedRange}, Merged cur →
      (∀ r ∈ rest, r.Usable) → ByStart rest →
      (∀ r ∈ rest, cur.start ≤ r.start ∧ ∀ q ∈ cur.origs, q.start ≤ r.start) →
      (∀ mr ∈ mergeLoop cur rest, Merged mr ∧ cur.start ≤ mr.start)
        ∧ Apart (mergeLoop cur rest)
        ∧ (mergeLoop cur rest).flatMap TempMergedRange.origs
          = cur.origs ++ rest := by
  intro rest
  induction rest with
  | nil =>
    intro cur h _ _ _
    refine ⟨fun mr hmr => ?_, List.pairwise_singleton _ _, ?_⟩
    · rw [List.mem_singleton.mp hmr]
      exact ⟨h, le_rfl⟩
    · simp [mergeLoop]
  | cons r rest ih =>
    intro cur h hok hsort hafter
    have hr := hok r List.mem_cons_self
    obtain ⟨hle, hq⟩ := hafter r List.mem_cons_self
    have hsort' := List.pairwise_cons.mp hsort
    have hok' : ∀ q ∈ rest, q.Usable :=
      fun q hq => hok q (List.mem_cons_of_mem r hq)
    rw [mergeLoop]
    by_cases hlt : bigPageBase r.start < cur.endAddr
    · rw [if_pos hlt]
      obtain ⟨hmem, hapart, horigs⟩ := ih (h.extend hr hle hq hlt) hok'
        hsort'.2 fun q' hq' => ⟨(hafter q' (List.mem_cons_of_mem r hq')).1,
          fun q'' hq'' => by
            rcases List.mem_append.mp hq'' with hx | hx
            · exact (hafter q' (List.mem_cons_of_mem r hq')).2 q'' hx
            · rw [List.mem_singleton.mp hx]
              exact hsort'.1 q' hq'⟩
      refine ⟨hmem, hapart, ?_⟩
      rw [horigs]
      simp
    · rw [if_neg hlt]
      have hbase := bigPageBase_le r.start
      obtain ⟨hmem, hapart, horigs⟩ := ih (merged_single hr) hok'
        hsort'.2 fun q' hq' => by
          have hge := hsort'.1 q' hq'
          refine ⟨Nat.le_trans hbase hge, fun q'' hq'' => ?_⟩
          rw [List.mem_singleton.mp hq'']
          exact hge
      have hfirst : ∀ mr ∈ mergeLoop _ rest, cur.endAddr ≤ mr.start :=
        fun mr hmr => Nat.le_trans (Nat.not_lt.mp hlt) (hmem mr hmr).2
      refine ⟨fun mr hmr => ?_, List.pairwise_cons.mpr ⟨hfirst, hapart⟩, ?_⟩
      · rcases List.mem_cons.mp hmr with rfl | hmr
        · exact ⟨h, le_rfl⟩
        · have := hfirst mr hmr
          have := h.lt
          exact ⟨(hmem mr hmr).1, by omega⟩
      · rw [List.flatMap_cons, horigs]
        rfl

/-- What the merged ranges of a domain are. -/
structure MergedFrom (ranges : List PhysMemoryRange)
    (merged : List TempMergedRange) : Prop where
  each : ∀ mr ∈ merged, Merged mr
  apart : Apart merged
  origs : ∀ r, r ∈ ranges ↔ ∃ mr ∈ merged, r ∈ mr.origs

theorem computeMergedRanges_spec (hne : ranges ≠ [])
    (hlen : ranges.length ≤ maxRangesPerDomain)
    (hok : ∀ r ∈ ranges, r.Usable) :
    ∃ merged, computeMergedRanges ranges = .ok merged ∧ merged ≠ []
      ∧ MergedFrom ranges merged := by
  unfold computeMergedRanges
  rw [if_neg (by omega)]
  have hsort := byStart_sortRanges ranges
  cases hs : sortRanges ranges with
  | nil =>
    obtain ⟨r, hr⟩ := List.exists_mem_of_ne_nil ranges hne
    have := mem_sortRanges.mpr hr
    rw [hs] at this
    cases this
  | cons r rest =>
    rw [hs] at hsort
    have husable : ∀ q ∈ r :: rest, q.Usable := by
      intro q hq
      rw [← hs] at hq
      exact hok q (mem_sortRanges.mp hq)
    have hsort' := List.pairwise_cons.mp hsort
    obtain ⟨hmem, hapart, horigs⟩ := mergeLoop_spec
      (merged_single (husable r List.mem_cons_self))
      (fun q hq => husable q (List.mem_cons_of_mem r hq)) hsort'.2
      fun q hq => ⟨Nat.le_trans (bigPageBase_le _) (hsort'.1 q hq),
        fun q' hq' => by
          rw [List.mem_singleton.mp hq']
          exact hsort'.1 q hq⟩
    refine ⟨_, rfl, ?_, fun mr hmr => (hmem mr hmr).1, hapart, fun q => ?_⟩
    · intro hnil
      rw [hnil] at horigs
      cases horigs
    · rw [← mem_sortRanges, hs, ← List.singleton_append, ← horigs,
        List.mem_flatMap]

/-- In a merged range only its own ranges cover anything. -/
theorem MergedFrom.covered_origs_iff {merged : List TempMergedRange}
    (h : MergedFrom ranges merged) (hmr : mr ∈ merged)
    (hlo : mr.start ≤ a) (hhi : a < mr.endAddr) :
    Covered mr.origs a ↔ Covered ranges a := by
  constructor
  · rintro ⟨r, hr, hx⟩
    exact ⟨r, (h.origs r).mpr ⟨mr, hmr, hr⟩, hx⟩
  · rintro ⟨r, hr, hx⟩
    obtain ⟨mr', hmr', hr'⟩ := (h.origs r).mp hr
    have hw := (h.each mr' hmr').within r hr'
    by_cases heq : mr' = mr
    · exact ⟨r, heq ▸ hr', hx⟩
    · have hpair : merged.Pairwise fun x y : TempMergedRange =>
          x.endAddr ≤ y.start ∨ y.endAddr ≤ x.start := h.apart.imp Or.inl
      have hsymm : Std.Symm fun x y : TempMergedRange =>
          x.endAddr ≤ y.start ∨ y.endAddr ≤ x.start := ⟨fun _ _ => Or.symm⟩
      have hapart : mr'.endAddr ≤ mr.start ∨ mr.endAddr ≤ mr'.start :=
        hpair.forall hmr' hmr heq
      omega

end CroCOS
