/-
A big page before anything is allocated from it.

`Fresh m base A` says that `m` is the big page at `base`, nobody holds it,
and the small pages `A` of it, by their places, can be handed out. The
others are reserved, so `A` decides whether the page has reserved subpages
and whether it is full.

The gaps between the ranges of a merged range are reserved in one walk
over the ranges. Its invariant (`gaps`): up to `prevEnd` exactly what is
covered is available, from there on everything is.
-/
import CroCOS.Proofs.NumaPool.Merge
import CroCOS.Proofs.SlabBookkeeper

namespace CroCOS

open LibAlloc (SlabBookkeeper)

variable {m : BigPageMetadata} {base lo hi : Nat} {A : Nat → Prop}
variable {s : Nat}

/-- The address of the small page at place `s` of a big page. -/
def pageAddr (base s : Nat) : Nat := base + s * smallPageSize

theorem pageAddr_lt (base : Nat) (hs : s < smallPagesPerBigPage) :
    pageAddr base s < base + bigPageSize := by
  have h512 : smallPagesPerBigPage = 512 := rfl
  unfold pageAddr bigPageSize smallPageSize
  omega

structure BigPageMetadata.Fresh (m : BigPageMetadata) (base : Nat)
    (A : Nat → Prop) : Prop where
  baseAddr : m.baseAddr = base
  allocHolder : m.allocHolder = none
  tracks : SlabBookkeeper.Tracks m.bookkeeper ∅
  available : ∀ s, s ∈ m.bookkeeper.available ↔ s < smallPagesPerBigPage ∧ A s

namespace BigPageMetadata.Fresh

theorem congr (h : m.Fresh base A) {A' : Nat → Prop}
    (hA : ∀ s, s < smallPagesPerBigPage → (A s ↔ A' s)) :
    m.Fresh base A' :=
  ⟨h.baseAddr, h.allocHolder, h.tracks, fun s => (h.available s).trans
    (and_congr_right fun hs => hA s hs)⟩

theorem isSlotFree_iff (h : m.Fresh base A) (s : Nat) :
    m.bookkeeper.isSlotFree s = true ↔ s < smallPagesPerBigPage ∧ A s :=
  SplitBitmap.isBitAvailable_iff.trans (h.available s)

/-- A page has reserved subpages unless all of them are available. -/
theorem hasReservedSubpages_iff (h : m.Fresh base A) :
    m.hasReservedSubpages = true ↔ ∃ s < smallPagesPerBigPage, ¬ A s := by
  have htotal := h.tracks.total
  have hsub : m.bookkeeper.available ⊆ Finset.range smallPagesPerBigPage :=
    fun s hs => Finset.mem_range.mpr ((h.available s).mp hs).1
  have hbits : SlabBookkeeper.bitCount smallPagesPerBigPage
      = (Finset.range smallPagesPerBigPage).card := by
    rw [Finset.card_range]
    rfl
  rw [Finset.card_empty] at htotal
  unfold hasReservedSubpages SlabBookkeeper.hasReservedSlots
  rw [decide_eq_true_eq]
  constructor
  · intro hpos
    by_contra hall
    push Not at hall
    have hfull : Finset.range smallPagesPerBigPage
        ⊆ m.bookkeeper.available := fun s hs =>
      (h.available s).mpr ⟨Finset.mem_range.mp hs,
        hall s (Finset.mem_range.mp hs)⟩
    have := Finset.card_le_card hfull
    omega
  · rintro ⟨s, hs, hno⟩
    have hlt := Finset.card_lt_card ((Finset.ssubset_iff_of_subset hsub).mpr
      ⟨s, Finset.mem_range.mpr hs, fun hx => hno ((h.available s).mp hx).2⟩)
    omega

theorem isFull_iff (h : m.Fresh base A) :
    m.isFull = true ↔ ∀ s < smallPagesPerBigPage, ¬ A s := by
  refine h.tracks.isFull_iff.trans ?_
  rw [Finset.eq_empty_iff_forall_notMem]
  constructor
  · intro hno s hs hA
    exact hno s ((h.available s).mpr ⟨hs, hA⟩)
  · intro hno s hs
    have := (h.available s).mp hs
    exact hno s this.1 this.2

end BigPageMetadata.Fresh

theorem BigPageMetadata.create_spec (base : Nat) :
    ∃ m, BigPageMetadata.create base = .ok m ∧ m.Fresh base fun _ => True := by
  obtain ⟨bk, hbk, htracks, havail⟩ :=
    SlabBookkeeper.seedAllAvailable_create
      (show SlabBookkeeper.kTailBits smallPagesPerBigPage = 0 by decide)
  refine ⟨⟨bk, base, none⟩, ?_, rfl, rfl, htracks, fun s => ?_⟩
  · unfold BigPageMetadata.create
    rw [hbk]
    rfl
  · show s ∈ bk.available ↔ _
    rw [havail, Finset.mem_range, and_true]
    exact Iff.rfl

-- ==== reserved pages

/-- The place of a small page, read back. -/
theorem smallPageIndex_pageAddr (hbase : bigPageSize ∣ base)
    (hs : s < smallPagesPerBigPage) :
    smallPageIndex (pageAddr base s) = s := by
  obtain ⟨q, rfl⟩ := hbase
  have h512 : smallPagesPerBigPage = 512 := rfl
  unfold smallPageIndex pageAddr
  rw [h512] at hs ⊢
  unfold bigPageSize smallPageSize
  omega

theorem reservePage_spec (h : m.Fresh base A) (hbase : bigPageSize ∣ base)
    (hs : s < smallPagesPerBigPage) :
    ∃ m', m.reservePage (pageAddr base s) = .ok m'
      ∧ m'.Fresh base fun s' => A s' ∧ s' ≠ s := by
  obtain ⟨bk, hbk, htracks, havail⟩ := SlabBookkeeper.reserveSlot_spec
    h.tracks (show s < _ from hs)
  refine ⟨{ m with bookkeeper := bk }, ?_, h.baseAddr, h.allocHolder,
    htracks, fun s' => ?_⟩
  · unfold BigPageMetadata.reservePage
    have haligned : ¬ pageAddr base s % smallPageSize ≠ 0 := by
      obtain ⟨q, rfl⟩ := hbase
      unfold pageAddr bigPageSize smallPageSize
      omega
    rw [if_neg haligned, smallPageIndex_pageAddr hbase hs, hbk]
    rfl
  · show s' ∈ bk.available ↔ _
    rw [havail, Finset.mem_erase, h.available s']
    tauto

theorem reserveSmallPages_spec (hbase : bigPageSize ∣ base) :
    ∀ {n s : Nat} {m : BigPageMetadata} {A : Nat → Prop}, m.Fresh base A →
      s + n ≤ smallPagesPerBigPage →
      ∃ m', reserveSmallPages (pageAddr base s) n m = .ok m'
        ∧ m'.Fresh base fun s' => A s' ∧ ¬ (s ≤ s' ∧ s' < s + n) := by
  intro n
  induction n with
  | zero =>
    intro s m A h _
    refine ⟨m, rfl, h.congr fun s' _ => ?_⟩
    exact (and_iff_left (by omega)).symm
  | succ n ih =>
    intro s m A h hle
    obtain ⟨m₁, hm₁, h₁⟩ := reservePage_spec h hbase (s := s) (by omega)
    obtain ⟨m₂, hm₂, h₂⟩ := ih h₁ (s := s + 1) (by omega)
    refine ⟨m₂, ?_, h₂.congr fun s' _ => ?_⟩
    · rw [reserveSmallPages, hm₁]
      have hnext : pageAddr base s + smallPageSize
          = pageAddr base (s + 1) := by
        unfold pageAddr
        rw [Nat.succ_mul, Nat.add_assoc]
      rw [hnext]
      exact hm₂
    · rw [and_assoc]
      exact and_congr_right fun _ => by omega

/-- The small pages from one address of a big page to another. -/
theorem reserveBetween_spec (h : m.Fresh base A) (hbase : bigPageSize ∣ base)
    (hlo : smallPageSize ∣ lo) (hhi : smallPageSize ∣ hi)
    (hge : base ≤ lo) (hle : lo ≤ hi) (hlt : hi ≤ base + bigPageSize) :
    ∃ m', reserveSmallPages lo
        (divideAndRoundUp (hi - lo) smallPageSize) m = .ok m'
      ∧ m'.Fresh base fun s =>
        A s ∧ ¬ (lo ≤ pageAddr base s ∧ pageAddr base s < hi) := by
  have h512 : smallPagesPerBigPage = 512 := rfl
  obtain ⟨s, hs⟩ : ∃ s, lo = pageAddr base s := by
    refine ⟨(lo - base) / smallPageSize, ?_⟩
    unfold pageAddr bigPageSize smallPageSize at *
    omega
  have hn : pageAddr base (s + divideAndRoundUp (hi - lo) smallPageSize)
      = hi := by
    unfold divideAndRoundUp pageAddr bigPageSize smallPageSize at *
    omega
  subst hs
  obtain ⟨m', hm', h'⟩ := reserveSmallPages_spec hbase h (s := s)
    (n := divideAndRoundUp (hi - pageAddr base s) smallPageSize) (by
      unfold pageAddr bigPageSize smallPageSize at *
      omega)
  refine ⟨m', hm', h'.congr fun s' _ => and_congr_right fun _ =>
    not_congr (and_congr ?_ ?_)⟩
  · unfold pageAddr smallPageSize
    omega
  · nth_rewrite 2 [← hn]
    unfold pageAddr smallPageSize
    omega

theorem reserveSmallPageRange_spec (h : m.Fresh base A)
    (hbase : bigPageSize ∣ base) (hlo : smallPageSize ∣ lo)
    (hhi : smallPageSize ∣ hi) (hge : base ≤ lo) (hle : lo ≤ hi)
    (hlt : hi ≤ base + bigPageSize) :
    ∃ m', reserveSmallPageRange m lo hi = .ok m'
      ∧ m'.Fresh base fun s =>
        A s ∧ ¬ (lo ≤ pageAddr base s ∧ pageAddr base s < hi) := by
  unfold reserveSmallPageRange
  rw [if_neg (not_not.mpr (Nat.mod_eq_zero_of_dvd hlo)),
    if_neg (not_not.mpr (Nat.mod_eq_zero_of_dvd hhi))]
  exact reserveBetween_spec h hbase hlo hhi hge hle hlt

-- ==== the gaps

/-- Up to `prevEnd` what is covered is available, from there on
everything; what is left of the ranges covers what all of them do. -/
structure Gaps (all rest : List PhysMemoryRange) (base prevEnd : Nat)
    (m : BigPageMetadata) : Prop where
  fresh : m.Fresh base fun s =>
    prevEnd ≤ pageAddr base s ∨ Covered all (pageAddr base s)
  rest : ∀ a, prevEnd ≤ a → a < base + bigPageSize → Covered all a →
    Covered rest a
  aligned : smallPageSize ∣ prevEnd
  ge : base ≤ prevEnd
  le : prevEnd ≤ base + bigPageSize

/-- The gap before a range that meets the page is reserved, and the walk
goes on after it. `st` and `en` are the range's bounds in the page. -/
theorem Gaps.reserve {all rest : List PhysMemoryRange} {r : PhysMemoryRange}
    {prevEnd st en : Nat} (h : Gaps all (r :: rest) base prevEnd m)
    (hbase : bigPageSize ∣ base) (hr : r.Usable) (hmem : r ∈ all)
    (hsort : ∀ q ∈ rest, r.start ≤ q.start)
    (hst : st = if r.start > base then r.start else base)
    (hen : en = if r.endAddr < base + bigPageSize then r.endAddr
      else base + bigPageSize)
    (hpast : st < base + bigPageSize) (hbefore : base < en) :
    ∃ m₁, (if prevEnd < st then reserveSmallPageRange m prevEnd st
        else .ok m) = .ok m₁
      ∧ Gaps all rest base (if en > prevEnd then en else prevEnd) m₁ := by
  have hge := h.ge
  have hle := h.le
  have hdvd : smallPageSize ∣ base := Nat.dvd_trans (by decide) hbase
  have hst' : base ≤ st ∧ r.start ≤ st ∧ (st = r.start ∨ st = base)
      ∧ smallPageSize ∣ st := by
    rw [hst]
    split_ifs with hc
    · exact ⟨by omega, le_rfl, .inl rfl, hr.start_dvd⟩
    · exact ⟨le_rfl, by omega, .inr rfl, hdvd⟩
  have hen' : en ≤ base + bigPageSize ∧ en ≤ r.endAddr
      ∧ (en = r.endAddr ∨ en = base + bigPageSize)
      ∧ smallPageSize ∣ en := by
    rw [hen]
    split_ifs with hc
    · exact ⟨by omega, le_rfl, .inl rfl, hr.end_dvd⟩
    · exact ⟨le_rfl, by omega, .inr rfl, Nat.dvd_add hdvd (by decide)⟩
  -- nothing covers the gap: the ranges to come start later
  have hgap : ∀ a, prevEnd ≤ a → a < st → ¬ Covered all a := by
    intro a hlo hhi hc
    rcases covered_cons.mp (h.rest a hlo (by omega) hc) with hx | ⟨q, hq, hx⟩
    · omega
    · have := hsort q hq
      omega
  obtain ⟨m₁, hm₁, h₁⟩ : ∃ m₁, (if prevEnd < st then
        reserveSmallPageRange m prevEnd st else .ok m) = .ok m₁
      ∧ m₁.Fresh base fun s =>
        (st ≤ pageAddr base s ∧ prevEnd ≤ pageAddr base s)
          ∨ Covered all (pageAddr base s) := by
    by_cases hlt : prevEnd < st
    · rw [if_pos hlt]
      obtain ⟨m₁, hm₁, h₁⟩ := reserveSmallPageRange_spec h.fresh hbase
        h.aligned hst'.2.2.2 hge (Nat.le_of_lt hlt) (by omega)
      refine ⟨m₁, hm₁, h₁.congr fun s _ => ?_⟩
      have := hgap (pageAddr base s)
      constructor
      · rintro ⟨hx | hx, hy⟩
        · exact .inl ⟨by omega, hx⟩
        · exact .inr hx
      · rintro (hx | hx)
        · exact ⟨.inl hx.2, by omega⟩
        · exact ⟨.inr hx, fun hy => this hy.1 hy.2 hx⟩
    · rw [if_neg hlt]
      refine ⟨m, rfl, h.fresh.congr fun s _ => ?_⟩
      exact or_congr_left (by omega)
  obtain ⟨pe, hpe⟩ : ∃ pe, pe = if en > prevEnd then en else prevEnd :=
    ⟨_, rfl⟩
  have hpe' : prevEnd ≤ pe ∧ en ≤ pe ∧ (pe = en ∨ pe = prevEnd) := by
    rw [hpe]
    split_ifs <;> refine ⟨?_, ?_, ?_⟩ <;> omega
  have hlt : st < en := by
    have := hr.nonempty
    rcases hst'.2.2.1 with hx | hx <;> rcases hen'.2.2.1 with hy | hy <;> omega
  have hcover : ∀ a, st ≤ a → a < en → Covered all a := fun a hlo hhi =>
    ⟨r, hmem, by omega, by omega⟩
  refine ⟨m₁, hm₁, ?_⟩
  rw [← hpe]
  refine ⟨h₁.congr fun s _ => ?_, fun a hlo hhi hc => ?_, ?_, by omega, ?_⟩
  · constructor
    · rintro (hx | hx)
      · by_cases hin : pageAddr base s < en
        · exact .inr (hcover _ hx.1 hin)
        · exact .inl (by omega)
      · exact .inr hx
    · rintro (hx | hx)
      · exact .inl ⟨by omega, by omega⟩
      · exact .inr hx
  · rcases covered_cons.mp (h.rest a (by omega) hhi hc) with hx | hx
    · omega
    · exact hx
  · rcases hpe'.2.2 with hx | hx
    · rw [hx]
      exact hen'.2.2.2
    · rw [hx]
      exact h.aligned
  · rcases hpe'.2.2 with hx | hx <;> omega

theorem reserveGaps_spec (hbase : bigPageSize ∣ base)
    {all : List PhysMemoryRange} (hall : ∀ r ∈ all, r.Usable) :
    ∀ {rest : List PhysMemoryRange} {prevEnd : Nat} {m : BigPageMetadata},
      (∀ r ∈ rest, r ∈ all) → ByStart rest → Gaps all rest base prevEnd m →
      ∃ prevEnd' m', reserveGaps base (base + bigPageSize) rest prevEnd m
          = .ok (prevEnd', m')
        ∧ Gaps all [] base prevEnd' m' := by
  intro rest
  induction rest with
  | nil =>
    intro prevEnd m _ _ h
    exact ⟨prevEnd, m, rfl, h⟩
  | cons r rest ih =>
    intro prevEnd m hmem hsort h
    have hr := hall r (hmem r List.mem_cons_self)
    have hmem' : ∀ q ∈ rest, q ∈ all :=
      fun q hq => hmem q (List.mem_cons_of_mem r hq)
    have hsort' := List.pairwise_cons.mp hsort
    have hpos : 0 < bigPageSize := by decide
    obtain ⟨st, hst⟩ : ∃ st, st = if r.start > base then r.start else base :=
      ⟨_, rfl⟩
    obtain ⟨en, hen⟩ : ∃ en, en = if r.endAddr < base + bigPageSize then
        r.endAddr else base + bigPageSize := ⟨_, rfl⟩
    rw [reserveGaps, ← hst, ← hen]
    by_cases hpast : st ≥ base + bigPageSize
    · -- this range and all after it start beyond the page
      rw [if_pos hpast]
      refine ⟨prevEnd, m, rfl, h.fresh, fun a hlo hhi hc => ?_, h.aligned,
        h.ge, h.le⟩
      have hstart : base + bigPageSize ≤ r.start := by
        split_ifs at hst <;> omega
      rcases covered_cons.mp (h.rest a hlo hhi hc) with hx | ⟨q, hq, hx⟩
      · omega
      · have := hsort'.1 q hq
        omega
    · rw [if_neg hpast]
      by_cases hbefore : en ≤ base
      · rw [if_pos hbefore]
        refine ih hmem' hsort'.2 ⟨h.fresh, fun a hlo hhi hc => ?_,
          h.aligned, h.ge, h.le⟩
        have hge := h.ge
        rcases covered_cons.mp (h.rest a hlo hhi hc) with hx | hx
        · exfalso
          split_ifs at hen <;> omega
        · exact hx
      · rw [if_neg hbefore]
        obtain ⟨m₁, hm₁, h₁⟩ := h.reserve hbase hr
          (hmem r List.mem_cons_self) hsort'.1 hst hen (by omega)
          (by omega)
        have hjoin : ∀ k : BigPageMetadata →
            Except Fault (Nat × BigPageMetadata),
            (if prevEnd < st then reserveSmallPageRange m prevEnd st >>= k
              else (.ok m : Except Fault _) >>= k) = k m₁ := by
          intro k
          split_ifs at hm₁ ⊢ <;> rw [hm₁] <;> rfl
        rw [hjoin]
        exact ih hmem' hsort'.2 h₁

theorem createBigPage_spec {origs : List PhysMemoryRange}
    (hbase : bigPageSize ∣ base) (hfits : base + bigPageSize < 2 ^ 64)
    (hok : ∀ r ∈ origs, r.Usable) (hsort : ByStart origs) :
    ∃ m, createBigPage origs base = .ok m
      ∧ m.Fresh base fun s => Covered origs (pageAddr base s) := by
  obtain ⟨m, hm, h⟩ := BigPageMetadata.create_spec base
  have hdvd : smallPageSize ∣ base := Nat.dvd_trans (by decide) hbase
  have hstart : Gaps origs origs base base m :=
    ⟨h.congr fun s _ => ⟨fun _ => .inl (Nat.le_add_right ..),
        fun _ => trivial⟩,
      fun a _ _ hc => hc, hdvd, le_rfl, Nat.le_add_right ..⟩
  obtain ⟨pe, m₁, hm₁, hgaps⟩ := reserveGaps_spec hbase hok
    (fun r hr => hr) hsort hstart
  -- from the last covered address on nothing is covered
  have htail : ∀ s, s < smallPagesPerBigPage → pe ≤ pageAddr base s →
      ¬ Covered origs (pageAddr base s) := by
    intro s hs hle hc
    obtain ⟨r, hr, -⟩ := hgaps.rest _ hle (pageAddr_lt base hs) hc
    cases hr
  unfold createBigPage
  rw [hm, ok_bind, bigPageEndOf, Nat.mod_eq_of_lt hfits, hm₁, ok_bind]
  simp only
  by_cases hlt : pe < base + bigPageSize
  · rw [if_pos hlt]
    obtain ⟨m₂, hm₂, h₂⟩ := reserveSmallPageRange_spec hgaps.fresh hbase
      hgaps.aligned (Nat.dvd_add hdvd (by decide)) hgaps.ge
      (Nat.le_of_lt hlt) le_rfl
    refine ⟨m₂, hm₂, h₂.congr fun s hs => ?_⟩
    have hin := pageAddr_lt base hs
    have := htail s hs
    constructor
    · rintro ⟨hx | hx, hy⟩
      · exact absurd ⟨hx, hin⟩ hy
      · exact hx
    · intro hx
      exact ⟨.inr hx, fun hy => this hy.1 hx⟩
  · rw [if_neg hlt]
    refine ⟨m₁, rfl, hgaps.fresh.congr fun s hs => or_iff_right fun hx => ?_⟩
    have := pageAddr_lt base hs
    omega

end CroCOS
