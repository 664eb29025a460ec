/-
The partition of usable memory by domain: what is put out covers the
usable pages exactly, and where every page is listed under its own
domain.

# The blocks of one range

The walk puts out one block for each run of intervals of one domain.
The blocks of one usable range, in the order they are put out, tile the
range rounded to whole pages: a flush covers what lies between the
run's start and the interval at hand, and the next run starts there
(`walkIntervals_blocks`). `Good` stands for what is known of a domain
and the addresses it is listed for. The walk asks for the domain at the
start of an interval only, so that this is the domain at the last split
point (`AtSplit`).

# Where a page is under its own domain

The domain of the pages may change only where the walk splits. A region
that ends inside a page is split at before that page, so that the pages
after it stay in the run unless something else splits there.
-/
import CroCOS.Lib.Tiling
import CroCOS.Numa

namespace CroCOS.Numa

open Lib Lib.Tile

/-- The list the ranges of a domain are put in. -/
def NUMAMemoryPartition.rangesOf (p : NUMAMemoryPartition) :
    Option Nat → List PhysMemoryRange
  | some d => p.rangesPerDomain d
  | none => p.unownedRanges

/-- The bytes of a block. -/
def rangeOf (b : Tile (Option Nat)) : PhysMemoryRange :=
  { start := b.addr, endAddr := b.addr + b.size }

def emit (p : NUMAMemoryPartition) (b : Tile (Option Nat)) :
    NUMAMemoryPartition :=
  p.push b.kind (rangeOf b)

theorem rangesOf_emits (bs : List (Tile (Option Nat)))
    (p : NUMAMemoryPartition) (dom : Option Nat) :
    (bs.foldl emit p).rangesOf dom
      = p.rangesOf dom ++ (bs.filter (·.kind = dom)).map rangeOf := by
  induction bs generalizing p with
  | nil => simp
  | cons b bs ih =>
    have hpush : (emit p b).rangesOf dom = p.rangesOf dom
        ++ if b.kind = dom then [rangeOf b] else [] := by
      unfold emit NUMAMemoryPartition.push
      cases hk : b.kind with
      | none =>
        cases dom with
        | none => rfl
        | some d => simp [NUMAMemoryPartition.rangesOf]
      | some k =>
        cases dom with
        | none => simp [NUMAMemoryPartition.rangesOf]
        | some d =>
          by_cases hd : k = d
          · subst hd
            simp [NUMAMemoryPartition.rangesOf]
          · simp [NUMAMemoryPartition.rangesOf, hd, Ne.symm hd]
    rw [List.foldl_cons, ih, hpush]
    by_cases hk : b.kind = dom
    · simp [hk]
    · simp [hk]

-- ==== page bounds

/-- The page bounds a usable range is cut down to. -/
def pageStart (u : PhysMemoryRange) : Nat := roundUpToPage u.start

def pageEnd (u : PhysMemoryRange) : Nat :=
  roundDownToNearestMultiple u.endAddr smallPageSize

theorem dvd_roundUp (x : Nat) : smallPageSize ∣ roundUpToPage x :=
  Dvd.intro_left _ rfl

theorem dvd_roundDown (x : Nat) :
    smallPageSize ∣ roundDownToNearestMultiple x smallPageSize :=
  Dvd.intro_left _ rfl

-- ==== the walk

variable {t : NUMATopology} {Good : Option Nat → Nat → Prop}
variable {A E x : Nat} {splits : List Nat} {run : Run}

/-- The run reaches from its start up to `x`. -/
structure Within (Good : Option Nat → Nat → Prop) (A : Nat) (run : Run)
    (x : Nat) : Prop where
  start : A ≤ run.runStart
  upto : run.runStart ≤ x
  page : smallPageSize ∣ run.runStart
  good : ∀ a, run.runStart ≤ a → a < x → Good run.runDomain a

/-- A block of whole pages, good for its domain. -/
structure Piece (Good : Option Nat → Nat → Prop) (b : Tile (Option Nat)) :
    Prop where
  pos : 0 < b.size
  page : smallPageSize ∣ b.addr
  pages : smallPageSize ∣ b.size
  good : ∀ a, b.addr ≤ a → a < b.addr + b.size → Good b.kind a

theorem flushRun_empty (p : NUMAMemoryPartition) (hx : run.runStart = x) :
    flushRun p run x = p := by
  subst hx
  simp [flushRun, PhysMemoryRange.getSize,
    kMinPartitionRangeSize, smallPageSize]

theorem flushRun_blocks (h : Within Good A run x) (hx : smallPageSize ∣ x) :
    ∃ bs, (∀ p, flushRun p run x = bs.foldl emit p)
      ∧ Tiles run.runStart x bs ∧ ∀ b ∈ bs, Piece Good b := by
  by_cases heq : run.runStart = x
  · exact ⟨[], fun p => flushRun_empty p heq, heq, by simp⟩
  have hlt : run.runStart < x := Nat.lt_of_le_of_ne h.upto heq
  have hsize : smallPageSize ∣ x - run.runStart := Nat.dvd_sub hx h.page
  have hpage : kMinPartitionRangeSize ≤ x - run.runStart :=
    Nat.le_of_dvd (by omega) hsize
  refine ⟨[⟨run.runStart, x - run.runStart, run.runDomain⟩], ?_, ?_, ?_⟩
  · intro p
    have hget : PhysMemoryRange.getSize ⟨run.runStart, x⟩
        = x - run.runStart := by
      simp [PhysMemoryRange.getSize, PhysMemoryRange.isEmpty, hlt]
    have hend : run.runStart + (x - run.runStart) = x := by omega
    simp only [flushRun, hget, if_neg (Nat.not_lt.mpr hpage),
      List.foldl_cons, List.foldl_nil, emit, rangeOf, hend]
  · exact ⟨rfl, Nat.add_sub_of_le h.upto⟩
  · intro b hb
    rw [List.mem_singleton.mp hb]
    exact ⟨by simpa using hlt, h.page, hsize,
      fun a h₁ h₂ => h.good a h₁ (by simp only at h₂; omega)⟩

/-- The walk's blocks tile what lies between the starts of the run it
begins in and of the run it ends in. -/
theorem walkIntervals_blocks
    (hchain : (x :: splits).IsChain fun x y => x ≤ y ∧ smallPageSize ∣ y
      ∧ ∀ a, x ≤ a → a < y → Good (t.domainForAddress x) a)
    (hlast : (x :: splits).getLast? = some E) (hx : smallPageSize ∣ x)
    (hrun : Within Good A run x) :
    ∃ bs run',
      (∀ p, walkIntervals t A (x :: splits) run p = (bs.foldl emit p, run'))
      ∧ Tiles run.runStart run'.runStart bs ∧ (∀ b ∈ bs, Piece Good b)
      ∧ Within Good A run' E := by
  induction splits generalizing x run with
  | nil =>
    cases hlast
    exact ⟨[], run, fun p => rfl, rfl, by simp, hrun⟩
  | cons y splits ih =>
    obtain ⟨⟨hxy, hy, hgood⟩, hchain⟩ := List.isChain_cons_cons.mp hchain
    by_cases heq : x = y
    · subst heq
      simp only [walkIntervals]
      exact ih hchain hlast hx hrun
    by_cases hdom : t.domainForAddress x = run.runDomain
    · have hon : Within Good A run y := by
        refine ⟨hrun.start, hrun.upto.trans hxy, hrun.page, ?_⟩
        intro a h₁ h₂
        by_cases hax : a < x
        · exact hrun.good a h₁ hax
        · rw [← hdom]
          exact hgood a (Nat.not_lt.mp hax) h₂
      simp only [walkIntervals, if_neg heq, hdom, ne_eq, not_true_eq_false]
      exact ih hchain hlast hy hon
    · -- the run ends here; at the range's start there is none to flush
      have hflush : ∀ p, (if A < x then flushRun p run x else p)
          = flushRun p run x := by
        intro p
        split
        · rfl
        · have h₁ := hrun.start
          have h₂ := hrun.upto
          exact (flushRun_empty p (by omega)).symm
      obtain ⟨bs, hbs, htiles, hpieces⟩ := flushRun_blocks hrun hx
      obtain ⟨bs', run', hwalk, htiles', hpieces', hend⟩ :=
        @ih y ⟨t.domainForAddress x, x⟩ hchain hlast hy
          ⟨hrun.start.trans hrun.upto, hxy, hx, hgood⟩
      refine ⟨bs ++ bs', run', ?_, tiles_append.mpr ⟨x, htiles, htiles'⟩,
        List.forall_mem_append.mpr ⟨hpieces, hpieces'⟩, hend⟩
      intro p
      simp only [walkIntervals, if_neg heq, ne_eq, hdom,
        not_false_eq_true, if_true, hflush]
      rw [hwalk, hbs, List.foldl_append]

-- ==== the split points

theorem mem_splitPoints {s : Nat} :
    s ∈ splitPoints t A E ↔ s = A ∨ s = E ∨ ∃ r ∈ t.allMemoryRegions,
      (s = roundUpToPage r.start
        ∨ s = roundDownToNearestMultiple r.endAddr smallPageSize)
      ∧ A < s ∧ s < E := by
  unfold splitPoints
  simp only [List.mem_insertionSort, List.mem_cons, List.mem_flatMap,
    List.mem_filter, List.not_mem_nil, or_false, decide_eq_true_eq]

/-- The split points of a range lie in it, on page bounds. -/
theorem splitPoints_bounds {s : Nat} (hAE : A ≤ E)
    (hA : smallPageSize ∣ A) (hE : smallPageSize ∣ E)
    (hs : s ∈ splitPoints t A E) : A ≤ s ∧ s ≤ E ∧ smallPageSize ∣ s := by
  rcases mem_splitPoints.mp hs with rfl | rfl | ⟨r, -, hr, h₁, h₂⟩
  · exact ⟨le_rfl, hAE, hA⟩
  · exact ⟨hAE, le_rfl, hE⟩
  · refine ⟨h₁.le, h₂.le, ?_⟩
    rcases hr with rfl | rfl
    · exact dvd_roundUp _
    · exact dvd_roundDown _

/-- `d` is the domain at the last split point up to `a`. -/
def AtSplit (t : NUMATopology) (ss : List Nat) (d : Option Nat) (a : Nat) :
    Prop :=
  ∃ s ∈ ss, s ≤ a ∧ (∀ s' ∈ ss, s' ≤ a → s' ≤ s)
    ∧ d = t.domainForAddress s

theorem isChain_atSplit {ss : List Nat} (hss : ss.Pairwise (· ≤ ·))
    (hpage : ∀ s ∈ ss, smallPageSize ∣ s) :
    ss.IsChain fun x y => x ≤ y ∧ smallPageSize ∣ y
      ∧ ∀ a, x ≤ a → a < y → AtSplit t ss (t.domainForAddress x) a := by
  rw [List.isChain_iff_getElem]
  rw [List.pairwise_iff_getElem] at hss
  intro i hi
  refine ⟨hss i (i + 1) (by omega) hi (by omega),
    hpage _ (List.getElem_mem _), ?_⟩
  intro a hxa hay
  refine ⟨_, List.getElem_mem _, hxa, ?_, rfl⟩
  intro s hs hsa
  obtain ⟨j, hj, rfl⟩ := List.mem_iff_getElem.mp hs
  rcases lt_trichotomy j i with hji | rfl | hij
  · exact hss j i hj (by omega) hji
  · exact le_rfl
  · -- a later split point is not below the next one
    rcases eq_or_lt_of_le (Nat.succ_le_of_lt hij) with rfl | hij
    · exact absurd hay (Nat.not_lt.mpr hsa)
    · have := hss (i + 1) j hi hj hij
      omega

/-- The blocks of one usable range tile its whole pages, each for the
domain at the last split point. -/
structure Cut (t : NUMATopology) (A E : Nat)
    (bs : List (Tile (Option Nat))) : Prop where
  tiles : Tiles A (max A E) bs
  piece : ∀ b ∈ bs, Piece (AtSplit t (splitPoints t A E)) b

theorem partitionRange_blocks (t : NUMATopology) (u : PhysMemoryRange) :
    ∃ bs, (∀ p, partitionRange t p u = bs.foldl emit p)
      ∧ Cut t (pageStart u) (pageEnd u) bs := by
  have hA : smallPageSize ∣ pageStart u := dvd_roundUp u.start
  have hE : smallPageSize ∣ pageEnd u := dvd_roundDown u.endAddr
  unfold partitionRange
  rw [← pageStart, ← pageEnd]
  generalize pageStart u = A at *
  generalize pageEnd u = E at *
  by_cases hAE : E ≤ A
  · exact ⟨[], fun p => if_pos hAE, (max_eq_left hAE).symm, by simp⟩
  have hle : A ≤ E := by omega
  have hbounds := fun s hs =>
    @splitPoints_bounds t A E s hle hA hE hs
  have hsorted : (splitPoints t A E).Pairwise (· ≤ ·) :=
    List.pairwise_insertionSort _ _
  have hchain := @isChain_atSplit t _ hsorted fun s hs => (hbounds s hs).2.2
  have hAmem : A ∈ splitPoints t A E := mem_splitPoints.mpr (.inl rfl)
  have hEmem : E ∈ splitPoints t A E :=
    mem_splitPoints.mpr (.inr (.inl rfl))
  obtain ⟨x, ss, hss⟩ :=
    List.exists_cons_of_ne_nil (List.ne_nil_of_mem hAmem)
  have hxA : x = A := by
    rw [hss] at hAmem hsorted
    refine Nat.le_antisymm ?_ (hbounds x (by simp [hss])).1
    rcases List.mem_cons.mp hAmem with rfl | hmem
    · exact le_rfl
    · exact List.rel_of_pairwise_cons hsorted hmem
  have hlast : (splitPoints t A E).getLast? = some E := by
    rw [List.getLast?_eq_some_getLast (List.ne_nil_of_mem hAmem)]
    congr 1
    exact Nat.le_antisymm (hbounds _ (List.getLast_mem _)).2.1
      (hsorted.rel_getLast hEmem)
  rw [hss, hxA] at hlast hchain
  obtain ⟨bs, run, hwalk, htiles, hpieces, hrun⟩ :=
    @walkIntervals_blocks t _ A E A ss ⟨none, A⟩ hchain hlast hA
      ⟨le_rfl, le_rfl, hA, fun a h₁ h₂ => absurd h₁ (Nat.not_le.mpr h₂)⟩
  obtain ⟨bs', hflush, htiles', hpieces'⟩ := flushRun_blocks hrun hE
  refine ⟨bs ++ bs', ?_, ?_, ?_⟩
  · intro p
    rw [if_neg hAE, hss, hxA, hwalk, List.foldl_append]
    exact hflush _
  · rw [max_eq_right hle]
    exact tiles_append.mpr ⟨_, htiles, htiles'⟩
  · rw [hss, hxA]
    exact List.forall_mem_append.mpr ⟨hpieces, hpieces'⟩

-- ==== the whole partition

/-- No byte is in both ranges. -/
def Apart (r r' : PhysMemoryRange) : Prop :=
  ∀ a, ¬ (r.contains a ∧ r'.contains a)

theorem contains_iff {r : PhysMemoryRange} {a : Nat} :
    r.contains a ↔ r.start ≤ a ∧ a < r.endAddr := by
  simp only [PhysMemoryRange.contains, PhysMemoryRange.isEmpty,
    Bool.and_eq_true, Bool.not_eq_true', decide_eq_true_eq,
    decide_eq_false_iff_not]
  omega

/-- The page of the byte `a` lies wholly in `u`. -/
def InPage (u : PhysMemoryRange) (a : Nat) : Prop :=
  u.start ≤ roundDownToNearestMultiple a smallPageSize
    ∧ roundDownToNearestMultiple a smallPageSize + smallPageSize
      ≤ u.endAddr

/-- Rounding the start of the range up does not wrap. -/
def StartsBelow (u : PhysMemoryRange) : Prop :=
  u.start ≤ 2 ^ 64 - smallPageSize

theorem inPage_iff {u : PhysMemoryRange} {a : Nat} (hu : StartsBelow u) :
    InPage u a ↔ pageStart u ≤ a ∧ a < max (pageStart u) (pageEnd u) := by
  unfold StartsBelow smallPageSize at hu
  unfold InPage pageStart pageEnd roundUpToPage roundDownToNearestMultiple
    smallPageSize
  omega

/-- What is put out, by the list it is put in. -/
theorem partition_blocks (t : NUMATopology) :
    ∃ cut, (∀ u, Cut t (pageStart u) (pageEnd u) (cut u))
      ∧ ∀ usableRanges dom,
        (partitionMemoryByDomain usableRanges t).rangesOf dom
          = ((usableRanges.flatMap cut).filter (·.kind = dom)).map
            rangeOf := by
  choose cut hcut hblocks using partitionRange_blocks t
  refine ⟨cut, hblocks, ?_⟩
  intro usableRanges dom
  have hfold : partitionRange t = fun p u => (cut u).foldl emit p := by
    funext p u
    exact hcut u p
  rw [partitionMemoryByDomain, hfold, ← List.foldl_flatMap, rangesOf_emits]
  cases dom with
  | none | some d => rfl

theorem mem_rangesOf {p : NUMAMemoryPartition} {dom : Option Nat}
    {usableRanges : List PhysMemoryRange}
    {cut : PhysMemoryRange → List (Tile (Option Nat))}
    (h : p.rangesOf dom
      = ((usableRanges.flatMap cut).filter (·.kind = dom)).map rangeOf)
    (r : PhysMemoryRange) : r ∈ p.rangesOf dom
      ↔ ∃ u ∈ usableRanges, ∃ b ∈ cut u, b.kind = dom ∧ rangeOf b = r := by
  simp only [h, List.mem_map, List.mem_filter, List.mem_flatMap,
    decide_eq_true_eq]
  tauto

/-- The ranges put out are non-empty, of whole pages and pairwise
disjoint, and hold the bytes of the pages that lie wholly in a usable
range. -/
structure Covers (usableRanges : List PhysMemoryRange) (t : NUMATopology)
    (p : NUMAMemoryPartition) : Prop where
  pages : ∀ dom, ∀ r ∈ p.rangesOf dom, r.start < r.endAddr
    ∧ smallPageSize ∣ r.start ∧ smallPageSize ∣ r.endAddr
  apart : ∀ dom, (p.rangesOf dom).Pairwise Apart
  others : ∀ dom dom', dom ≠ dom' →
    ∀ r ∈ p.rangesOf dom, ∀ r' ∈ p.rangesOf dom', Apart r r'
  domains : ∀ d, t.proximityDomains.length ≤ d → p.rangesPerDomain d = []
  union : ∀ a, (∃ dom, ∃ r ∈ p.rangesOf dom, r.contains a)
    ↔ ∃ u ∈ usableRanges, InPage u a

theorem partitionMemoryByDomain_covers (t : NUMATopology)
    (usableRanges : List PhysMemoryRange)
    (hbelow : ∀ u ∈ usableRanges, StartsBelow u)
    (hdisjoint : usableRanges.Pairwise Apart) :
    Covers usableRanges t (partitionMemoryByDomain usableRanges t) := by
  obtain ⟨cut, hcut, hranges⟩ := partition_blocks t
  have hmem : ∀ {dom r}, _ :=
    fun {dom r} => mem_rangesOf (hranges usableRanges dom) r
  have hcontains : ∀ u ∈ usableRanges, ∀ a,
      (∃ b ∈ cut u, (rangeOf b).contains a) ↔ InPage u a := by
    intro u hu a
    rw [inPage_iff (hbelow u hu), ← (hcut u).tiles.covers]
    simp only [contains_iff, rangeOf]
  -- blocks of one range are apart as tiles, of two as the ranges are
  have happart : (usableRanges.flatMap cut).Pairwise fun b b' =>
      Apart (rangeOf b) (rangeOf b') := by
    rw [List.pairwise_flatMap]
    constructor
    · intro u hu
      refine (hcut u).tiles.pairwise.imp ?_
      intro b b' hlt a ha
      simp only [contains_iff, rangeOf] at ha
      omega
    · refine hdisjoint.imp_of_mem ?_
      intro u u' hu hu' huu' b hb b' hb' a ha
      have h := (hcontains u hu a).mp ⟨b, hb, ha.1⟩
      have h' := (hcontains u' hu' a).mp ⟨b', hb', ha.2⟩
      refine huu' a ⟨contains_iff.mpr ?_, contains_iff.mpr ?_⟩
      · unfold InPage roundDownToNearestMultiple smallPageSize at h
        omega
      · unfold InPage roundDownToNearestMultiple smallPageSize at h'
        omega
  refine ⟨?_, ?_, ?_, ?_, ?_⟩
  · intro dom r hr
    obtain ⟨u, hu, b, hb, -, rfl⟩ := hmem.mp hr
    have hpiece := (hcut u).piece b hb
    exact ⟨Nat.lt_add_of_pos_right hpiece.pos, hpiece.page,
      dvd_add hpiece.page hpiece.pages⟩
  · intro dom
    rw [hranges, List.pairwise_map]
    exact happart.filter _
  · intro dom dom' hne r hr r' hr'
    obtain ⟨u, hu, b, hb, hkind, rfl⟩ := hmem.mp hr
    obtain ⟨u', hu', b', hb', hkind', rfl⟩ := hmem.mp hr'
    have hsymm : Std.Symm fun b b' => Apart (rangeOf b) (rangeOf b') :=
      ⟨fun b b' h a ha => h a ha.symm⟩
    refine happart.forall (List.mem_flatMap.mpr ⟨u, hu, hb⟩)
      (List.mem_flatMap.mpr ⟨u', hu', hb'⟩) ?_
    rintro rfl
    exact hne (hkind.symm.trans hkind')
  · intro d hd
    refine List.eq_nil_iff_forall_not_mem.mpr ?_
    intro r hr
    obtain ⟨u, hu, b, hb, hkind, -⟩ := (@hmem (some d) r).mp hr
    have hpiece := (hcut u).piece b hb
    obtain ⟨s, -, -, -, hs⟩ :=
      hpiece.good _ le_rfl (Nat.lt_add_of_pos_right hpiece.pos)
    rw [hkind] at hs
    have := (List.findIdx?_eq_some_iff_findIdx_eq.mp hs.symm).1
    omega
  · intro a
    simp only [hmem]
    constructor
    · rintro ⟨dom, r, ⟨u, hu, b, hb, -, rfl⟩, ha⟩
      exact ⟨u, hu, (hcontains u hu a).mp ⟨b, hb, ha⟩⟩
    · rintro ⟨u, hu, ha⟩
      obtain ⟨b, hb, ha⟩ := (hcontains u hu a).mpr ha
      exact ⟨b.kind, rangeOf b, ⟨u, hu, b, hb, rfl, rfl⟩, ha⟩

/-- One node with the memory `r`. -/
def oneNode (r : PhysMemoryRange) : NUMATopology where
  proximityDomains := [[r]]
  domainForCpu := fun _ => 0
  latencyBetween := fun _ _ => none

theorem partitionMemoryByDomain_covers_two :
    [(⟨0x800, 0x4800⟩ : PhysMemoryRange), ⟨0x4800, 0x6000⟩].Pairwise Apart
    ∧ Covers [⟨0x800, 0x4800⟩, ⟨0x4800, 0x6000⟩] (oneNode ⟨0x1800, 0x2800⟩)
      (partitionMemoryByDomain [⟨0x800, 0x4800⟩, ⟨0x4800, 0x6000⟩]
        (oneNode ⟨0x1800, 0x2800⟩)) := by
  have hapart : [(⟨0x800, 0x4800⟩ : PhysMemoryRange),
      ⟨0x4800, 0x6000⟩].Pairwise Apart := by
    simp only [List.pairwise_pair, Apart, contains_iff]
    omega
  refine ⟨hapart, partitionMemoryByDomain_covers _ _ ?_ hapart⟩
  simp [StartsBelow, smallPageSize]

/-- A range that starts in the last page is rounded up to zero: all of
the memory below that page is put out for it. -/
theorem partitionMemoryByDomain_wraps :
    (partitionMemoryByDomain [⟨2 ^ 64 - 100, 2 ^ 64 - 1⟩]
      (oneNode ⟨0, 0x1000⟩)).rangesOf none = [⟨0x1000, 2 ^ 64 - 0x1000⟩]
    ∧ (partitionMemoryByDomain [⟨2 ^ 64 - 100, 2 ^ 64 - 1⟩]
      (oneNode ⟨0, 0x1000⟩)).rangesOf (some 0) = [⟨0, 0x1000⟩]
    ∧ ¬ InPage ⟨2 ^ 64 - 100, 2 ^ 64 - 1⟩ 0 := by
  refine ⟨by decide +kernel, by decide +kernel, ?_⟩
  simp [InPage, roundDownToNearestMultiple, smallPageSize]

-- ==== the domain of a page

/-- Each page put out is listed under the domain of its first byte, and
is unowned exactly if that has none. -/
def Affine (t : NUMATopology) (p : NUMAMemoryPartition) : Prop :=
  ∀ a, smallPageSize ∣ a → ∀ dom, ∀ r ∈ p.rangesOf dom, r.contains a →
    t.domainForAddress a = dom
    ∧ ((∃ r ∈ p.unownedRanges, r.contains a)
      ↔ t.domainForAddress a = none)

/-- Where the domain changes from one page of the range to the next, some
region starts there, rounded up, or ends there, rounded down. -/
def ChangesAtBounds (t : NUMATopology) (u : PhysMemoryRange) : Prop :=
  ∀ a, smallPageSize ∣ a → pageStart u < a → a < pageEnd u →
    t.domainForAddress (a - smallPageSize) ≠ t.domainForAddress a →
    ∃ r ∈ t.allMemoryRegions, a = roundUpToPage r.start
      ∨ a = roundDownToNearestMultiple r.endAddr smallPageSize

section AtSplit

variable {ss : List Nat} {d d' : Option Nat} {a : Nat}

theorem AtSplit.unique (h : AtSplit t ss d a) (h' : AtSplit t ss d' a) :
    d = d' := by
  obtain ⟨s, hs, hsa, hmax, rfl⟩ := h
  obtain ⟨s', hs', hsa', hmax', rfl⟩ := h'
  rw [Nat.le_antisymm (hmax' s hs hsa) (hmax s' hs' hsa')]

/-- At a page where the walk does not split it is as at the one
before. -/
theorem AtSplit.before (hpage : ∀ s ∈ ss, smallPageSize ∣ s)
    (ha : smallPageSize ∣ a) (hsplit : a ∉ ss) (h : AtSplit t ss d a) :
    AtSplit t ss d (a - smallPageSize) := by
  obtain ⟨s, hs, hsa, hmax, hd⟩ := h
  have hne : s ≠ a := fun he => hsplit (he ▸ hs)
  have hdvd := hpage s hs
  refine ⟨s, hs, ?_, fun s' hs' hle =>
    hmax s' hs' (hle.trans (Nat.sub_le ..)), hd⟩
  unfold smallPageSize at *
  omega

end AtSplit

/-- Where the domain changes at split points only, a page has the domain
at the last one up to it. -/
theorem ChangesAtBounds.domain {u : PhysMemoryRange}
    (hu : ChangesAtBounds t u) {d : Option Nat} : ∀ {n : Nat},
    pageStart u ≤ n * smallPageSize → n * smallPageSize < pageEnd u →
    AtSplit t (splitPoints t (pageStart u) (pageEnd u)) d
      (n * smallPageSize) →
    t.domainForAddress (n * smallPageSize) = d := by
  intro n
  induction n with
  | zero =>
    rintro - - ⟨s, -, hs, -, rfl⟩
    rw [Nat.zero_mul] at hs ⊢
    rw [Nat.le_zero.mp hs]
  | succ n ih =>
    intro hA hE h
    have hbounds := fun s hs => @splitPoints_bounds t _ _ s
      (hA.trans hE.le) (dvd_roundUp _) (dvd_roundDown _) hs
    by_cases hsplit : (n + 1) * smallPageSize
        ∈ splitPoints t (pageStart u) (pageEnd u)
    · obtain ⟨s, hs, hsa, hmax, rfl⟩ := h
      rw [Nat.le_antisymm (hmax _ hsplit le_rfl) hsa]
    · -- nothing splits here, so the domain is that of the page before
      have hprev : (n + 1) * smallPageSize - smallPageSize
          = n * smallPageSize := by
        rw [Nat.add_mul, Nat.one_mul, Nat.add_sub_cancel]
      have hne : pageStart u ≠ (n + 1) * smallPageSize := fun he =>
        hsplit (mem_splitPoints.mpr (.inl he.symm))
      have hlt := Nat.lt_of_le_of_ne hA hne
      have hbefore := h.before (fun s hs => (hbounds s hs).2.2)
        (Nat.dvd_mul_left ..) hsplit
      rw [hprev] at hbefore
      have hstep : n * smallPageSize ≤ (n + 1) * smallPageSize :=
        Nat.mul_le_mul_right _ (Nat.le_succ n)
      rw [← ih ?_ (hstep.trans_lt hE) hbefore]
      · by_contra hchange
        obtain ⟨r, hr, hbound⟩ := hu _ (Nat.dvd_mul_left ..) hlt hE
          (by rw [hprev]; exact Ne.symm hchange)
        exact hsplit (mem_splitPoints.mpr
          (.inr (.inr ⟨r, hr, hbound, hlt, hE⟩)))
      · obtain ⟨k, hk⟩ := dvd_roundUp u.start
        rw [← pageStart] at hk
        rw [hk, Nat.mul_comm (n + 1)] at hlt
        rw [hk, Nat.mul_comm n]
        exact Nat.mul_le_mul_left _
          (Nat.lt_succ_iff.mp (Nat.lt_of_mul_lt_mul_left hlt))

/-- Every page is listed under its own domain exactly if, in each usable
range, the domain changes only where the walk splits. -/
theorem partitionMemoryByDomain_affine (t : NUMATopology)
    (usableRanges : List PhysMemoryRange) :
    Affine t (partitionMemoryByDomain usableRanges t)
      ↔ ∀ u ∈ usableRanges, ChangesAtBounds t u := by
  obtain ⟨cut, hcut, hranges⟩ := partition_blocks t
  have hmem : ∀ {dom r}, _ :=
    fun {dom r} => mem_rangesOf (hranges usableRanges dom) r
  constructor
  · intro haffine u hu a ha hA hE hchange
    by_contra hbound
    have hsplit : a ∉ splitPoints t (pageStart u) (pageEnd u) := by
      intro h
      rcases mem_splitPoints.mp h with rfl | rfl | ⟨r, hr, hr', -, -⟩
      · exact absurd hA (Nat.lt_irrefl _)
      · exact absurd hE (Nat.lt_irrefl _)
      · exact hbound ⟨r, hr, hr'⟩
    -- the block of a page of the range, for the domain at its split point
    have hblock : ∀ x, pageStart u ≤ x → x < pageEnd u →
        smallPageSize ∣ x → AtSplit t
          (splitPoints t (pageStart u) (pageEnd u)) (t.domainForAddress x)
          x := by
      intro x h₁ h₂ hx
      obtain ⟨b, hb, hin⟩ := (hcut u).tiles.covers.mpr
        ⟨h₁, h₂.trans_le (Nat.le_max_right ..)⟩
      rw [(haffine x hx b.kind (rangeOf b) (hmem.mpr
        ⟨u, hu, b, hb, rfl, rfl⟩) (contains_iff.mpr hin)).1]
      exact ((hcut u).piece b hb).good x hin.1 hin.2
    have hdvd := dvd_roundUp u.start
    rw [← pageStart] at hdvd
    have hbefore := (hblock a hA.le hE ha).before
      (fun s hs => (splitPoints_bounds (hA.le.trans hE.le) hdvd
        (dvd_roundDown _) hs).2.2) ha hsplit
    refine hchange ((hblock (a - smallPageSize) ?_ ?_ ?_).unique hbefore)
    · unfold smallPageSize at *
      omega
    · exact (Nat.sub_le ..).trans_lt hE
    · exact Nat.dvd_sub ha (Nat.dvd_refl _)
  · intro hends a ha
    have hlisted : ∀ dom,
        ∀ r ∈ (partitionMemoryByDomain usableRanges t).rangesOf dom,
          r.contains a → t.domainForAddress a = dom := by
      intro dom r hr hra
      obtain ⟨u, hu, b, hb, rfl, rfl⟩ := hmem.mp hr
      have hin := contains_iff.mp hra
      have hcover := (hcut u).tiles.covers.mp ⟨b, hb, hin⟩
      obtain ⟨n, rfl⟩ := ha
      rw [Nat.mul_comm] at *
      exact (hends u hu).domain hcover.1 (by omega)
        (((hcut u).piece b hb).good _ hin.1 hin.2)
    intro dom r hr hra
    have hdom := hlisted dom r hr hra
    refine ⟨hdom, fun ⟨r', hr', hra'⟩ => hlisted none r' hr' hra',
      fun hnone => ?_⟩
    rw [hdom] at hnone
    subst hnone
    exact ⟨r, hr, hra⟩

theorem partitionMemoryByDomain_affine_aligned :
    (∃ r ∈ (partitionMemoryByDomain [⟨0x800, 0x4800⟩]
      (oneNode ⟨0x1800, 0x3000⟩)).rangesOf (some 0), r.contains 0x2000)
    ∧ Affine (oneNode ⟨0x1800, 0x3000⟩)
      (partitionMemoryByDomain [⟨0x800, 0x4800⟩]
        (oneNode ⟨0x1800, 0x3000⟩)) := by
  refine ⟨by decide +kernel, (partitionMemoryByDomain_affine _ _).mpr ?_⟩
  intro u hu a ha hA hE _
  rw [List.mem_singleton.mp hu] at hA hE
  have hcases : a = 0x2000 ∨ a = 0x3000 := by
    simp only [pageStart, pageEnd, roundUpToPage,
      roundDownToNearestMultiple, smallPageSize] at hA hE ha
    omega
  exact ⟨⟨0x1800, 0x3000⟩, List.mem_singleton_self _,
    hcases.imp (fun h => h) fun h => h⟩

/-- A region that ends inside a page takes the pages after it along. -/
theorem partitionMemoryByDomain_tail :
    (∃ r ∈ (partitionMemoryByDomain [⟨0, 0x4000⟩]
      (oneNode ⟨0, 0x1800⟩)).rangesPerDomain 0, r.contains 0x2000)
    ∧ (oneNode ⟨0, 0x1800⟩).domainForAddress 0x2000 = none := by
  decide +kernel

end CroCOS.Numa
