/-
The slots of one slab. The free slots below the horizon hang on a chain
threaded through their own first words; the slots from the horizon on
were never handed out. The chain ends at the horizon, or at null once
the horizon has passed the last slot, and the horizon moves only while
the chain is empty, so the end it stored stays the right one.

`Ok s h c` says this for the horizon index `h` and the chain `c`, and
that the count and the bitmap agree with them. `alloc_spec` and
`free_spec` are what the two slab calls do to a slab that is `Ok`.
-/
import CroCOS.SlabAllocator

namespace CroCOS.LibAlloc.Slab

open Function Lib

variable {i : Nat}
variable {backing_size backing_store : Nat}

def slotAddr (s : Slab) (i : Nat) : Nat := s.backingStorage + i * s.slotSize

/-- The pointers from `p` lead through the slots `c` to `e`. -/
def ChainFrom (addr : Nat → Nat) (word : Nat → Option Nat) :
    Option Nat → List Nat → Option Nat → Prop
  | p, [], e => p = e
  | p, i :: c, e =>
    p = some (addr i) ∧ ChainFrom addr word (word (addr i)) c e

/-- The slots from `h` on are untouched, the slots `c` below it are
free, the others are handed out. -/
structure Ok (s : Slab) (h : Nat) (c : List Nat) : Prop where
  slot_pos : 0 < s.slotSize
  space : s.backingStorage + s.backingSize + s.slotSize < 2 ^ 64
  numSlots_eq : s.numSlots = s.backingSize / s.slotSize
  covered : s.numSlots ≤ 8 * s.freeListSize
  horizon_eq : s.initializedHorizon = s.slotAddr h
  horizon_le : h ≤ s.numSlots
  chain : ChainFrom s.slotAddr s.slotWord s.nextFree c
    (if h < s.numSlots then some (s.slotAddr h) else none)
  below : ∀ i ∈ c, i < h
  nodup : c.Nodup
  count_eq : s.freeCount = c.length + (s.numSlots - h)
  bits : ∀ i < s.numSlots, s.freeList i = decide (i ∈ c ∨ h ≤ i)

/-- The fields no call on a slab changes. -/
structure SameShape (s s' : Slab) : Prop where
  slotSize : s'.slotSize = s.slotSize
  backingStorage : s'.backingStorage = s.backingStorage
  numSlots : s'.numSlots = s.numSlots

variable {s : Slab} {h : Nat} {c : List Nat}

-- ==== chains

theorem slotIndex_slotAddr (hpos : 0 < s.slotSize)
    (hlt : i * s.slotSize < 2 ^ 64) : s.slotIndex (s.slotAddr i) = i := by
  unfold slotIndex slotAddr
  rw [usub_eq (Nat.le_add_right ..) (by omega), Nat.add_sub_cancel_left,
    Nat.mul_div_cancel _ hpos]

theorem slotAddr_inj (hpos : 0 < s.slotSize) {j : Nat}
    (heq : s.slotAddr i = s.slotAddr j) : i = j :=
  Nat.eq_of_mul_eq_mul_right hpos (Nat.add_left_cancel heq)

/-- A chain reads only the words of its own slots. -/
theorem ChainFrom.frame {addr : Nat → Nat} {word word' : Nat → Option Nat}
    {p e : Option Nat} (hc : ChainFrom addr word p c e)
    (hsame : ∀ i ∈ c, word' (addr i) = word (addr i)) :
    ChainFrom addr word' p c e := by
  induction c generalizing p with
  | nil => exact hc
  | cons i c ih =>
    obtain ⟨hp, hrest⟩ := hc
    refine ⟨hp, ?_⟩
    rw [hsame i List.mem_cons_self]
    exact ih hrest fun j hj => hsame j (List.mem_cons_of_mem i hj)

/-- A write to a slot that is not on the chain leaves the chain. -/
theorem ChainFrom.write {p e v : Option Nat}
    (hc : ChainFrom s.slotAddr s.slotWord p c e) (hpos : 0 < s.slotSize)
    (hi : i ∉ c) :
    ChainFrom s.slotAddr (update s.slotWord (s.slotAddr i) v) p c e := by
  refine hc.frame fun j hj => update_of_ne ?_ ..
  intro heq
  rw [slotAddr_inj hpos heq] at hj
  exact hi hj

/-- The bit of a slot is inside the bitmap. -/
theorem Ok.bit_lt (hok : Ok s h c) (hi : i < s.numSlots) :
    i / 8 < s.freeListSize := by
  have := hok.covered
  omega

/-- The slots lie in the store. -/
theorem Ok.slots_fit (hok : Ok s h c) (hi : i ≤ s.numSlots) :
    i * s.slotSize ≤ s.backingSize := by
  rw [hok.numSlots_eq] at hi
  exact (Nat.le_div_iff_mul_le hok.slot_pos).mp hi

theorem Ok.offset_lt (hok : Ok s h c) (hi : i < s.numSlots) :
    i * s.slotSize < 2 ^ 64 := by
  have := hok.slots_fit hi.le
  have := hok.space
  omega

/-- No more slots are free than there are. -/
theorem Ok.freeCount_le (hok : Ok s h c) : s.freeCount ≤ s.numSlots := by
  have hlen : c.length ≤ (List.range h).length := by
    apply (List.subperm_of_subset hok.nodup ?_).length_le
    intro j hj
    exact List.mem_range.mpr (hok.below j hj)
  have hcount := hok.count_eq
  have hle := hok.horizon_le
  rw [List.length_range] at hlen
  omega

-- ==== alloc

/-- Marking a slot writes its own bit. -/
theorem markSlotFreeState_eq {t : Slab} {ptr : Nat} {free : Bool}
    (hpos : 0 < t.slotSize) (hptr : ptr = t.slotAddr i)
    (hlt : i * t.slotSize < 2 ^ 64) (hbit : i / 8 < t.freeListSize) :
    t.markSlotFreeState ptr free
      = .ok { t with freeList := update t.freeList i free } := by
  unfold markSlotFreeState
  rw [hptr, slotIndex_slotAddr hpos hlt]
  exact if_pos hbit

/-- The slab after `alloc` took slot `i`. -/
theorem alloc_eq (hok : Ok s h c) (hi : i < s.numSlots)
    (hnext : s.nextFree = some (s.slotAddr i)) : s.alloc = .ok
      ({ s.takeSlot (s.slotAddr i) with
          freeCount := s.freeCount - 1
          freeList := update s.freeList i false },
        s.slotAddr i) := by
  unfold alloc takeSlot
  rw [hnext]
  by_cases hz : s.slotAddr i = s.initializedHorizon
  · simp only [hz, if_true]
    rw [markSlotFreeState_eq (i := i) ?_ ?_ ?_ ?_]
    · exact hok.slot_pos
    · exact hz.symm
    · exact hok.offset_lt hi
    · exact hok.bit_lt hi
  · simp only [hz, if_false]
    rw [markSlotFreeState_eq (i := i) ?_ ?_ ?_ ?_]
    · exact hok.slot_pos
    · rfl
    · exact hok.offset_lt hi
    · exact hok.bit_lt hi

/-- A slab with a free slot hands one out. -/
theorem alloc_spec (hok : Ok s h c) (hfree : 0 < s.freeCount) :
    ∃ s' i h' c', s.alloc = .ok (s', s.slotAddr i) ∧ i < s.numSlots
      ∧ s.freeList i = true ∧ Ok s' h' c' ∧ SameShape s s'
      ∧ s'.freeCount + 1 = s.freeCount
      ∧ s'.freeList = update s.freeList i false := by
  have hpos := hok.slot_pos
  have hcount := hok.count_eq
  cases c with
  | nil =>
    -- the chain is empty: the horizon slot is taken
    have hlt : h < s.numSlots := by
      rw [List.length_nil] at hcount
      omega
    have hnext : s.nextFree = some (s.slotAddr h) := by
      have := hok.chain
      rwa [if_pos hlt] at this
    -- up to the slot after the last one nothing wraps
    have hfits : (h + 1) * s.slotSize ≤ s.backingSize := hok.slots_fit hlt
    have hspace := hok.space
    have hnew : (s.slotAddr h + s.slotSize) % 2 ^ 64
        = s.slotAddr (h + 1) := by
      unfold slotAddr
      rw [Nat.succ_mul] at hfits ⊢
      omega
    have hend : (s.slotAddr (h + 1) + s.slotSize) % 2 ^ 64
          > (s.backingStorage + s.backingSize) % 2 ^ 64
        ↔ ¬ h + 1 < s.numSlots := by
      have hfit : h + 1 + 1 ≤ s.numSlots
          ↔ (h + 1 + 1) * s.slotSize ≤ s.backingSize := by
        rw [hok.numSlots_eq, Nat.le_div_iff_mul_le hpos]
      rw [Nat.succ_mul] at hfit
      unfold slotAddr
      omega
    refine ⟨_, h, h + 1, [], alloc_eq hok hlt hnext, hlt, ?_, ?_, ?_, ?_,
      rfl⟩
    · rw [hok.bits h hlt]
      simp
    · have htake : s.takeSlot (s.slotAddr h)
          = { s with
              initializedHorizon := s.slotAddr (h + 1)
              nextFree := if h + 1 < s.numSlots
                then some (s.slotAddr (h + 1)) else none } := by
        unfold takeSlot
        rw [if_pos hok.horizon_eq.symm, hok.horizon_eq]
        simp only [hnew]
        by_cases hlast : h + 1 < s.numSlots
        · rw [if_neg fun hgt => (hend.mp hgt) hlast, if_pos hlast]
        · rw [if_pos (hend.mpr hlast), if_neg hlast]
      rw [htake]
      refine ⟨hpos, hspace, hok.numSlots_eq, hok.covered, rfl, hlt, rfl,
        fun i hi => absurd hi List.not_mem_nil, List.nodup_nil, ?_, ?_⟩
      · show s.freeCount - 1 = 0 + (s.numSlots - (h + 1))
        rw [List.length_nil] at hcount
        omega
      · intro i hi
        show update s.freeList h false i = _
        rw [update_apply, hok.bits i hi]
        by_cases hih : i = h
        · rw [hih]
          simp
        · rw [if_neg hih]
          apply decide_eq_decide.mpr
          simp only [List.not_mem_nil, false_or]
          omega
    · unfold takeSlot
      split
      · exact ⟨rfl, rfl, rfl⟩
      · exact ⟨rfl, rfl, rfl⟩
    · show s.freeCount - 1 + 1 = s.freeCount
      omega
  | cons i c =>
    obtain ⟨hnext, hrest⟩ := hok.chain
    have hih := hok.below i List.mem_cons_self
    have hi : i < s.numSlots := Nat.lt_of_lt_of_le hih hok.horizon_le
    obtain ⟨hic, hnodup⟩ := List.nodup_cons.mp hok.nodup
    have htake : s.takeSlot (s.slotAddr i)
        = { s with
            nextFree := s.slotWord (s.slotAddr i)
            slotWord := update s.slotWord (s.slotAddr i) none } := by
      unfold takeSlot
      rw [if_neg]
      rw [hok.horizon_eq]
      intro heq
      have := slotAddr_inj hpos heq
      omega
    refine ⟨_, i, h, c, alloc_eq hok hi hnext, hi, ?_, ?_, ?_, ?_, rfl⟩
    · rw [hok.bits i hi]
      simp
    · rw [htake]
      refine ⟨hpos, hok.space, hok.numSlots_eq, hok.covered, hok.horizon_eq,
        hok.horizon_le, hrest.write hpos hic,
        fun j hj => hok.below j (List.mem_cons_of_mem i hj), hnodup, ?_, ?_⟩
      · show s.freeCount - 1 = c.length + (s.numSlots - h)
        rw [List.length_cons] at hcount
        omega
      · intro j hj
        show update s.freeList i false j = _
        rw [update_apply, hok.bits j hj]
        by_cases hji : j = i
        · rw [if_pos hji, hji, eq_comm, decide_eq_false_iff_not]
          rintro (hmem | hle)
          · exact hic hmem
          · omega
        · rw [if_neg hji]
          apply decide_eq_decide.mpr
          rw [List.mem_cons, or_assoc]
          exact or_iff_right hji
    · rw [htake]
      exact ⟨rfl, rfl, rfl⟩
    · show s.freeCount - 1 + 1 = s.freeCount
      omega

-- ==== free

/-- A slot that is handed out can be given back. -/
theorem free_spec (hok : Ok s h c) (hi : i < s.numSlots)
    (hbit : s.freeList i = false) :
    ∃ s', s.free (s.slotAddr i) = .ok s' ∧ Ok s' h (i :: c)
      ∧ SameShape s s' ∧ s'.freeCount = s.freeCount + 1
      ∧ s'.freeList = update s.freeList i true := by
  have hpos := hok.slot_pos
  have hout := hbit
  rw [hok.bits i hi, decide_eq_false_iff_not, not_or, Nat.not_le] at hout
  obtain ⟨hic, hih⟩ := hout
  have hcount := hok.count_eq
  have hle := hok.horizon_le
  refine ⟨{ s with
      freeList := update s.freeList i true
      slotWord := update s.slotWord (s.slotAddr i) s.nextFree
      nextFree := some (s.slotAddr i)
      freeCount := s.freeCount + 1 },
    ?_, ?_, ⟨rfl, rfl, rfl⟩, rfl, rfl⟩
  · unfold free isSlotFree markSlotFreeState
    simp only [slotIndex_slotAddr hpos (hok.offset_lt hi), hok.bit_lt hi,
      if_true, hbit]
  · refine ⟨hpos, hok.space, hok.numSlots_eq, hok.covered, hok.horizon_eq, hle,
      ⟨rfl, ?_⟩, ?_, List.nodup_cons.mpr ⟨hic, hok.nodup⟩, ?_, ?_⟩
    · show ChainFrom s.slotAddr (update s.slotWord (s.slotAddr i) s.nextFree)
        (update s.slotWord (s.slotAddr i) s.nextFree (s.slotAddr i))
        c _
      rw [update_self]
      exact hok.chain.write hpos hic
    · intro j hj
      rcases List.mem_cons.mp hj with rfl | hj
      · exact hih
      · exact hok.below j hj
    · show s.freeCount + 1 = (i :: c).length + (s.numSlots - h)
      rw [List.length_cons]
      omega
    · intro j hj
      show update s.freeList i true j = _
      rw [update_apply, hok.bits j hj]
      by_cases hji : j = i
      · rw [hji]
        simp
      · rw [if_neg hji]
        apply decide_eq_decide.mpr
        rw [List.mem_cons, or_assoc]
        exact (or_iff_right hji).symm

-- ==== a new slab

/-- A backing store in which more than one slot fits, each with a bit
in the bitmap, and which ends a slot before the address space does. -/
def Fits (slot_size backing_store backing_size : Nat) : Prop :=
  8 ≤ slot_size
    ∧ ∃ s, create slot_size backing_store backing_size = .ok s
      ∧ s.numSlots ≤ 8 * s.freeListSize
      ∧ s.backingStorage + s.backingSize + slot_size < 2 ^ 64

theorem create_inv {slot_size : Nat}
    (hs : create slot_size backing_store backing_size = .ok s) :
    8 ≤ slot_size ∧ 1 < s.numSlots ∧ s.slotSize = slot_size
      ∧ s.freeListSize = freeListSizeFor slot_size backing_size
      ∧ s.backingStorage = alignUp ((backing_store + s.freeListSize) % 2 ^ 64)
        (getAlignValForSlotSize slot_size) % 2 ^ 64
      ∧ s.backingSize = usub ((backing_store + backing_size) % 2 ^ 64)
        s.backingStorage
      ∧ s.numSlots = s.backingSize / slot_size := by
  unfold create at hs
  simp only at hs
  split at hs
  · cases hs
  · split at hs
    · cases hs
    · next h8 =>
        split at hs
        · cases hs
        · next hmany =>
            cases hs
            exact ⟨Nat.not_lt.mp h8, Nat.not_le.mp hmany, rfl, rfl, rfl, rfl,
              rfl⟩

/-- A new slab has all its slots free. -/
theorem create_spec {slot_size : Nat}
    (hfits : Fits slot_size backing_store backing_size) :
    ∃ s, create slot_size backing_store backing_size = .ok s
      ∧ Ok s 0 [] ∧ s.freeCount = s.numSlots ∧ 1 < s.numSlots := by
  obtain ⟨h8, s, hs, hcov, hspace⟩ := hfits
  obtain ⟨-, hmany, hslot, -⟩ := create_inv hs
  refine ⟨s, hs, ?_⟩
  unfold create at hs
  rw [if_neg (by omega), if_neg (by omega)] at hs
  split at hs
  · cases hs
  · cases hs
    refine ⟨⟨by show 0 < slot_size; omega, hspace, rfl, hcov, ?_,
      Nat.zero_le _, ?_, fun i hi => absurd hi List.not_mem_nil,
      List.nodup_nil, ?_, ?_⟩, rfl, hmany⟩
    · unfold slotAddr
      simp
    · unfold ChainFrom slotAddr
      rw [if_pos (Nat.zero_lt_of_lt hmany)]
      simp
    · simp
    · intro i _
      simp

-- ==== where the slots are

/-- Where the slots of a slab start if nothing wraps. -/
def slotsStart (slot_size backing_store backing_size : Nat) : Nat :=
  alignUp (backing_store + freeListSizeFor slot_size backing_size)
    (getAlignValForSlotSize slot_size)

/-- The bitmap and the slots lie in the backing store one after the
other, the slots are aligned, and every slot has its bit. -/
structure Geometry (slot_size backing_store backing_size : Nat)
    (s : Slab) : Prop where
  covered : s.numSlots ≤ 8 * s.freeListSize
  inside : ∀ i < s.numSlots, backing_store + s.freeListSize ≤ s.slotAddr i
    ∧ s.slotAddr i + slot_size ≤ backing_store + backing_size
  apart : ∀ i < s.numSlots, ∀ j < i, s.slotAddr j + slot_size ≤ s.slotAddr i
  aligned : ∀ i < s.numSlots,
    getAlignValForSlotSize slot_size ∣ s.slotAddr i
  marks : ∀ i < s.numSlots, ∀ free,
    ∃ s', s.markSlotFreeState (s.slotAddr i) free = .ok s'

/-- The slot size is a multiple of 64, the slots start inside the address
space and not past the end of the store, and no more fit from there on
than the bitmap has bits. -/
structure Suits (slot_size backing_store backing_size : Nat) : Prop where
  multiple : 64 ∣ slot_size
  below : slotsStart slot_size backing_store backing_size < 2 ^ 64
  room : slotsStart slot_size backing_store backing_size
    ≤ backing_store + backing_size
  few : backing_store + backing_size
    < slotsStart slot_size backing_store backing_size
      + (8 * freeListSizeFor slot_size backing_size + 1) * slot_size

theorem getAlignValForSlotSize_dvd_iff {slot_size : Nat}
    (hpos : slot_size ≠ 0) :
    getAlignValForSlotSize slot_size ∣ slot_size ↔ 64 ∣ slot_size := by
  obtain ⟨n, hn⟩ := largestPowerOf2Dividing_eq_pow hpos
  have hdvd := largestPowerOf2Dividing_dvd slot_size
  unfold getAlignValForSlotSize
  rcases Nat.le_total (largestPowerOf2Dividing slot_size) 64 with h | h
  · rw [Nat.max_eq_right h]
  · rw [Nat.max_eq_left h]
    refine ⟨fun _ => ?_, fun _ => hdvd⟩
    rw [hn] at h hdvd
    have h6 : 6 ≤ n := (Nat.pow_le_pow_iff_right (by decide)).mp
      (show 2 ^ 6 ≤ 2 ^ n from h)
    exact (Nat.pow_dvd_pow 2 h6).trans hdvd

/-- A slab is laid out as it should be exactly if its store suits the
slot size. -/
theorem create_geometry {slot_size : Nat}
    (hs : create slot_size backing_store backing_size = .ok s)
    (hstore : backing_size < 2 ^ 64) (hslot : slot_size < 2 ^ 64) :
    Geometry slot_size backing_store backing_size s
      ↔ Suits slot_size backing_store backing_size := by
  obtain ⟨h8, hmany, hsize, hbytes, haddr, hleft, hslots⟩ := create_inv hs
  have hpos : 0 < s.slotSize := by omega
  have halign : 0 < getAlignValForSlotSize slot_size :=
    Nat.lt_of_lt_of_le (by decide) (Nat.le_max_right _ 64)
  have hsmall : getAlignValForSlotSize slot_size < 2 ^ 64 :=
    Nat.max_lt.mpr ⟨(Nat.le_of_dvd (by omega)
      (largestPowerOf2Dividing_dvd slot_size)).trans_lt hslot, by decide⟩
  obtain ⟨hstart, hnear, hdvd⟩ :=
    alignUp_spec (backing_store + s.freeListSize) halign
  have hU : slotsStart slot_size backing_store backing_size
      = alignUp (backing_store + s.freeListSize)
        (getAlignValForSlotSize slot_size) := by
    rw [slotsStart, hbytes]
  have hnext : ∀ {i j : Nat}, i < j → i * slot_size + slot_size
      ≤ j * slot_size := fun hij => by
    rw [← Nat.succ_mul]
    exact Nat.mul_le_mul_right _ hij
  -- what is left for the slots, where they start in the store
  have hrest : s.backingStorage
        = slotsStart slot_size backing_store backing_size →
      s.backingStorage ≤ backing_store + backing_size →
      s.backingSize = backing_store + backing_size - s.backingStorage := by
    intro heq hle
    rw [hleft]
    unfold usub
    omega
  have hslotAddr : ∀ i, s.slotAddr i = s.backingStorage + i * slot_size :=
    fun i => by rw [slotAddr, hsize]
  constructor
  · intro hgeo
    obtain ⟨hfirst, hlast⟩ := hgeo.inside 0 (by omega)
    rw [hslotAddr, Nat.zero_mul, Nat.add_zero] at hfirst hlast
    have hbelow : s.backingStorage < 2 ^ 64 := by
      rw [haddr]
      exact Nat.mod_lt _ (by decide)
    -- the start that wraps would be below the end of the bitmap
    rw [Nat.mod_eq_of_lt (hfirst.trans_lt hbelow), ← hU] at haddr
    rw [← hU] at hstart hnear hdvd
    have hlt : slotsStart slot_size backing_store backing_size < 2 ^ 64 := by
      omega
    rw [Nat.mod_eq_of_lt hlt] at haddr
    have hroom := hrest haddr (by omega)
    refine ⟨?_, hlt, by omega, ?_⟩
    · -- both of the first two slots are aligned
      have h0 := hgeo.aligned 0 (by omega)
      have h1 := hgeo.aligned 1 hmany
      rw [hslotAddr, Nat.zero_mul, Nat.add_zero] at h0
      rw [hslotAddr, Nat.one_mul] at h1
      exact (getAlignValForSlotSize_dvd_iff (by omega)).mp
        ((Nat.dvd_add_right h0).mp h1)
    · have hfew := hgeo.covered
      rw [hslots, hroom, ← Nat.lt_succ_iff,
        Nat.div_lt_iff_lt_mul (by omega), haddr] at hfew
      rw [← hbytes]
      have : (8 * s.freeListSize).succ = 8 * s.freeListSize + 1 := rfl
      rw [this] at hfew
      omega
  · intro hsuits
    have hlt := hsuits.below
    have hle := hsuits.room
    rw [← hU] at hstart hnear hdvd
    have heq : s.backingStorage
        = slotsStart slot_size backing_store backing_size := by
      rw [haddr, Nat.mod_eq_of_lt (hstart.trans_lt hlt), ← hU,
        Nat.mod_eq_of_lt hlt]
    have hroom := hrest heq (heq.trans_le hle)
    have hfit : s.numSlots * slot_size
        ≤ backing_store + backing_size - s.backingStorage := by
      rw [hslots, ← hroom]
      exact Nat.div_mul_le_self ..
    have hcov : s.numSlots ≤ 8 * s.freeListSize := by
      have hfew := hsuits.few
      rw [hslots, ← Nat.lt_succ_iff, Nat.div_lt_iff_lt_mul (by omega),
        hroom, Nat.succ_eq_add_one, hbytes]
      omega
    refine ⟨hcov, fun i hi => ?_, fun i hi j hj => ?_, fun i hi => ?_,
      fun i hi free => ⟨_, markSlotFreeState_eq hpos rfl ?_ (by omega)⟩⟩
    · have hlast := hnext hi
      rw [hslotAddr]
      omega
    · have := hnext hj
      rw [hslotAddr, hslotAddr]
      omega
    · rw [hslotAddr, heq]
      exact Nat.dvd_add hdvd (Nat.dvd_mul_left_of_dvd
        ((getAlignValForSlotSize_dvd_iff (by omega)).mpr hsuits.multiple) i)
    · have hlast := hnext hi
      rw [hsize]
      omega

theorem create_geometry_page : ∃ s, create 256 0x10080 1920 = .ok s
    ∧ s.numSlots = 7 ∧ Suits 256 0x10080 1920
    ∧ Geometry 256 0x10080 1920 s := by
  obtain ⟨s, hs, hslots⟩ : ∃ s, create 256 0x10080 1920 = .ok s
      ∧ s.numSlots = 7 := by decide +kernel
  have hsuits : Suits 256 0x10080 1920 :=
    ⟨by decide, by decide +kernel, by decide +kernel, by decide +kernel⟩
  exact ⟨s, hs, hslots, hsuits,
    (create_geometry hs (by decide) (by decide)).mpr hsuits⟩

/-- A store that starts before an aligned address: nine slots fit after
the one byte of the bitmap, and the bit of the last one is in the first
slot. -/
theorem create_exact_fit : ∃ s, create 64 63 577 = .ok s
    ∧ s.numSlots = 9 ∧ s.freeListSize = 1 ∧ s.slotAddr 0 = 63 + 1
    ∧ s.markSlotFreeState (s.slotAddr 8) false = .error .outOfBounds := by
  decide +kernel

-- ==== the runs of one slab

/-- The slab is not full, or the slot is one the client holds. -/
def Meets (p : Slab × Finset Nat) : Call → Prop
  | .alloc => p.1.isFull = false
  | .free ptr => ptr ∈ p.2
  | .write ptr _ => ptr ∈ p.2

/-- The client of the slab `s₀` holds the slots the bitmap does not
mark. -/
structure Held (s₀ s : Slab) (live : Finset Nat) : Prop where
  ok : ∃ h c, Ok s h c
  shape : SameShape s₀ s
  mem : ∀ ptr, ptr ∈ live
    ↔ ∃ i < s.numSlots, ptr = s.slotAddr i ∧ s.freeList i = false
  count : s.freeCount + live.card = s₀.numSlots

theorem SameShape.slotAddr {s' : Slab} (h : SameShape s s') :
    s'.slotAddr = s.slotAddr := by
  funext i
  rw [Slab.slotAddr, h.slotSize, h.backingStorage, Slab.slotAddr]

theorem SameShape.trans {s' s'' : Slab} (h : SameShape s s')
    (h' : SameShape s' s'') : SameShape s s'' :=
  ⟨h'.slotSize.trans h.slotSize, h'.backingStorage.trans h.backingStorage,
    h'.numSlots.trans h.numSlots⟩

variable {s₀ s' : Slab} {live live' : Finset Nat}

/-- A call that writes one bit of the bitmap takes or gives one slot. -/
theorem Held.change (hp : Held s₀ s live) {c' : List Nat} {h' : Nat}
    (hok : Ok s' h' c') (hshape : SameShape s s') (hi : i < s.numSlots)
    {free : Bool} (hbits : s'.freeList = update s.freeList i free)
    (hlive : ∀ ptr, ptr ∈ live'
      ↔ if ptr = s.slotAddr i then free = false else ptr ∈ live)
    (hcount : s'.freeCount + live'.card = s.freeCount + live.card) :
    Held s₀ s' live' := by
  refine ⟨⟨h', c', hok⟩, hp.shape.trans hshape, ?_, hcount.trans hp.count⟩
  intro ptr
  have hpos : 0 < s.slotSize := by
    rw [← hshape.slotSize]
    exact hok.slot_pos
  simp only [hlive, hp.mem, hshape.slotAddr, hshape.numSlots, hbits]
  split
  · rename_i hptr
    constructor
    · intro hfree
      exact ⟨i, hi, hptr, by rw [update_self, hfree]⟩
    · rintro ⟨j, -, hj, hbit⟩
      rwa [← slotAddr_inj hpos (hptr.symm.trans hj), update_self] at hbit
  · rename_i hptr
    refine exists_congr fun j => and_congr_right fun _ =>
      and_congr_right fun hj => ?_
    rw [update_of_ne]
    rintro rfl
    exact hptr hj

/-- A slot is marked free unless the client holds it. -/
theorem Held.free_iff (hp : Held s₀ s live) (hi : i < s.numSlots) :
    s.freeList i = true ↔ s.slotAddr i ∉ live := by
  obtain ⟨h, c, hok⟩ := hp.ok
  rw [hp.mem]
  constructor
  · rintro hfree ⟨j, -, hj, hbit⟩
    rw [← slotAddr_inj hok.slot_pos hj, hfree] at hbit
    cases hbit
  · intro hno
    by_contra hbit
    exact hno ⟨i, hi, rfl, Bool.eq_false_of_not_eq_true hbit⟩

/-- A call that is in order returns and leaves the books right. -/
theorem Held.step_safe (p : Slab × Finset Nat) (call : Call)
    (hp : Held s₀ p.1 p.2) (hmeets : Meets p call) :
    ∃ p' r, step p call = .ok (p', r) ∧ Held s₀ p'.1 p'.2 := by
  obtain ⟨s, live⟩ := p
  simp only at hp
  obtain ⟨h, c, hok⟩ := hp.ok
  cases call with
  | alloc =>
    have hfree : 0 < s.freeCount := by
      apply Nat.pos_of_ne_zero
      simpa [Meets, isFull] using hmeets
    obtain ⟨s', i, h', c', halloc, hi, hbit, hok', hshape, hcount, hbits⟩ :=
      alloc_spec hok hfree
    have hnew := (hp.free_iff hi).mp hbit
    refine ⟨(s', insert (s.slotAddr i) live), some (s.slotAddr i), ?_,
      hp.change hok' hshape hi hbits (fun ptr => ?_) ?_⟩
    · simp only [step, halloc]
    · by_cases hptr : ptr = s.slotAddr i
      · simp [hptr]
      · simp [hptr]
    · show s'.freeCount + (insert _ live).card = _
      rw [Finset.card_insert_of_notMem hnew]
      omega
  | free ptr =>
    have hmem : ptr ∈ live := hmeets
    obtain ⟨i, hi, rfl, hbit⟩ := (hp.mem ptr).mp hmem
    obtain ⟨s', hfree, hok', hshape, hcount, hbits⟩ := free_spec hok hi hbit
    refine ⟨(s', live.erase (s.slotAddr i)), none, ?_,
      hp.change hok' hshape hi hbits (fun ptr => ?_) ?_⟩
    · simp only [step, hfree]
    · by_cases hptr : ptr = s.slotAddr i
      · simp [hptr]
      · simp [hptr]
    · have := Finset.card_erase_add_one hmem
      show s'.freeCount + (live.erase _).card = _
      omega
  | write ptr word =>
    obtain ⟨i, hi, rfl, hbit⟩ := (hp.mem ptr).mp hmeets
    refine ⟨_, none, rfl, ⟨h, c, ?_⟩, ⟨hp.shape.slotSize,
      hp.shape.backingStorage, hp.shape.numSlots⟩, hp.mem, hp.count⟩
    -- the slot is not on the chain
    have hic : i ∉ c := by
      rw [hok.bits i hi, decide_eq_false_iff_not, not_or] at hbit
      exact hbit.1
    exact { hok with chain := hok.chain.write hok.slot_pos hic }

/-- The chain ends at null once no slot is free. -/
theorem Ok.nextFree_eq_none_iff (hok : Ok s h c) :
    s.nextFree = none ↔ s.freeCount = 0 := by
  have hchain := hok.chain
  rw [hok.count_eq]
  cases c with
  | nil =>
    have hnext : s.nextFree = _ := hchain
    rw [hnext]
    split
    · simp
      omega
    · simp
      omega
  | cons i c => simp [hchain.1]

/-- After every run of calls in order the count, the chain's end and the
bitmap tell the slots the client does not hold, and the next slot handed
out is one of them. -/
theorem slab_run_sound {slot_size : Nat}
    (hs : create slot_size backing_store backing_size = .ok s₀)
    (hcov : s₀.numSlots ≤ 8 * s₀.freeListSize)
    (hspace : s₀.backingStorage + s₀.backingSize + slot_size < 2 ^ 64)
    (calls : List Call)
    (hmeets : Along step Meets (s₀, ∅) calls) :
    ∃ s live answers, run step (s₀, ∅) calls = .ok ((s, live), answers)
      ∧ (∀ ptr ∈ live, ∃ i < s₀.numSlots, ptr = s₀.slotAddr i)
      ∧ s.freeCount + live.card = s₀.numSlots
      ∧ (s.nextFree = none ↔ s.freeCount = 0)
      ∧ (∀ i < s₀.numSlots, s.freeList i = true ↔ s₀.slotAddr i ∉ live)
      ∧ (s.isFull = false → ∃ s' i, s.alloc = .ok (s', s₀.slotAddr i)
        ∧ i < s₀.numSlots ∧ s₀.slotAddr i ∉ live) := by
  obtain ⟨s₁, hs₁, hok₀, hfull, -⟩ :=
    create_spec ⟨(create_inv hs).1, s₀, hs, hcov, hspace⟩
  cases hs.symm.trans hs₁
  have hstart : Held s₀ s₀ ∅ := by
    refine ⟨⟨0, [], hok₀⟩, ⟨rfl, rfl, rfl⟩, fun ptr => ?_, by simp [hfull]⟩
    simp +contextual [hok₀.bits]
  obtain ⟨⟨s, live⟩, answers, hrun, hp⟩ :=
    run_safe Held.step_safe hstart hmeets
  obtain ⟨h, c, hok⟩ := hp.ok
  rw [← hp.shape.slotAddr, ← hp.shape.numSlots]
  refine ⟨s, live, answers, hrun, fun ptr hptr => ?_, ?_,
    hok.nextFree_eq_none_iff, fun i hi => hp.free_iff hi, fun hnot => ?_⟩
  · obtain ⟨i, hi, haddr, -⟩ := (hp.mem ptr).mp hptr
    exact ⟨i, hi, haddr⟩
  · rw [hp.count, hp.shape.numSlots]
  · have hfree : 0 < s.freeCount := by
      apply Nat.pos_of_ne_zero
      simpa [isFull] using hnot
    obtain ⟨s', i, -, -, halloc, hi, hbit, -⟩ := alloc_spec hok hfree
    exact ⟨s', i, halloc, hi, (hp.free_iff hi).mp hbit⟩

/-- A slot is handed out, written to and given back. -/
theorem slab_run_sound_once : ∃ s₀, create 256 0x10080 1920 = .ok s₀
    ∧ Along step Meets (s₀, ∅)
      [.alloc, .write 0x10100 (some 7), .free 0x10100]
    ∧ ∃ s live answers, run step (s₀, ∅)
        [.alloc, .write 0x10100 (some 7), .free 0x10100]
        = .ok ((s, live), answers)
      ∧ s.freeCount + live.card = s₀.numSlots := by
  obtain ⟨s₀, hs, hcov, hspace⟩ : ∃ s, create 256 0x10080 1920 = .ok s
      ∧ s.numSlots ≤ 8 * s.freeListSize
      ∧ s.backingStorage + s.backingSize + 256 < 2 ^ 64 := by
    decide +kernel
  have hmeets : Along step Meets (s₀, ∅)
      [.alloc, .write 0x10100 (some 7), .free 0x10100] := by
    cases hs
    refine ⟨by show isFull _ = false; decide +kernel, fun p r hp => ?_⟩
    cases hp
    refine ⟨by show _ ∈ Prod.snd _; decide +kernel, fun p r hp => ?_⟩
    cases hp
    exact ⟨by show _ ∈ Prod.snd _; decide +kernel, fun _ _ _ => trivial⟩
  obtain ⟨s, live, answers, hrun, -, hcount, -⟩ :=
    slab_run_sound hs hcov hspace _ hmeets
  exact ⟨s₀, hs, hmeets, s, live, answers, hrun, hcount⟩

/-- In the last page of the address space the slot after the last one
wraps to zero, and the end of the store is not noticed. -/
theorem slab_run_wraps : ∃ s₀, create 64 (2 ^ 64 - 0x1000) 0xFE0 = .ok s₀
    ∧ s₀.numSlots ≤ 8 * s₀.freeListSize
    ∧ ∃ p answers, run step (s₀, ∅) (List.replicate s₀.numSlots .alloc)
        = .ok (p, answers)
      ∧ p.1.freeCount = 0 ∧ p.1.nextFree ≠ none := by
  decide +kernel

end CroCOS.LibAlloc.Slab
