/-
The storage of a bit pool that threads are at work on: as `Encodes`, but
the hint bits need not agree with the counts.

`Stores p st leaf c h` names the leaf set, the tally and the hints one by
one, and each atomic access changes one of them: a count access the tally
(`Stores.addCount`), a hint access the hints (`Stores.flip`), a leaf
access the leaf set (`Stores.fetchOr`, `Stores.clearBit`). Hints are
values of `ZMod 2`, since all that is done to them is to flip them.
-/
import CroCOS.Lib.Tally
import CroCOS.Proofs.AtomicBitPool.Geometry

namespace CroCOS.AtomicBitPool

open Function (update update_self update_of_ne)
open Lib (Tally tally path point)

variable {b : Nat} {x : BitVec 64}

/-- The pool `p` over another storage. -/
abbrev on (p : AtomicBitPool) (st : Nat → Entry) : AtomicBitPool :=
  { p with storage := st }

variable {p : AtomicBitPool} {st : Nat → Entry}

-- ==== word updates

/-- The bits of a one-bit mask. -/
theorem getLsbD_mask (hb : b < 64) (b' : Nat) :
    (1#64 <<< b).getLsbD b' = decide (b' = b) := by
  by_cases h : b' = b
  · subst h
    simp [hb]
  · by_cases hlt : b' < b
    · simp [hlt, h]
    · have : b' - b ≠ 0 := by omega
      simp [this, h]

/-- A mask meets a word when the word has the bit. -/
theorem and_mask_eq_zero_iff (hb : b < 64) :
    x &&& 1#64 <<< b = 0#64 ↔ x.getLsbD b = false := by
  constructor
  · intro h
    have hbit : (x &&& 1#64 <<< b).getLsbD b = false := by
      rw [h, BitVec.getLsbD_zero]
    rw [BitVec.getLsbD_and, getLsbD_mask hb] at hbit
    simpa using hbit
  · intro h
    apply BitVec.eq_of_getLsbD_eq
    intro i hi
    rw [BitVec.getLsbD_and, getLsbD_mask hb, BitVec.getLsbD_zero]
    by_cases hib : i = b
    · rw [hib, h]
      rfl
    · simp [hib]

theorem getLsbD_or_mask (hb : b < 64) (b' : Nat) :
    (x ||| 1#64 <<< b).getLsbD b' = (decide (b' = b) || x.getLsbD b') := by
  rw [BitVec.getLsbD_or, getLsbD_mask hb, Bool.or_comm]

theorem getLsbD_clear_mask {b' : Nat} (hb : b < 64) (hb' : b' < 64) :
    (x &&& ~~~(1#64 <<< b)).getLsbD b'
      = (!decide (b' = b) && x.getLsbD b') := by
  rw [BitVec.getLsbD_and, BitVec.getLsbD_not, getLsbD_mask hb, Bool.and_comm]
  simp [hb']

theorem getLsbD_xor_mask (hb : b < 64) (b' : Nat) :
    (x ^^^ 1#64 <<< b).getLsbD b' = (x.getLsbD b' ^^ decide (b' = b)) := by
  rw [BitVec.getLsbD_xor, getLsbD_mask hb]

theorem eq_zero_iff_bits (x : BitVec 64) :
    x = 0#64 ↔ ∀ b < 64, x.getLsbD b = false := by
  constructor
  · intro h b _
    rw [h, BitVec.getLsbD_zero]
  · intro h
    apply BitVec.eq_of_getLsbD_eq
    intro b hb
    rw [h b hb, BitVec.getLsbD_zero]

-- ==== access

theorem load_on (h : Sized p) {e k : Nat} (hk : k < p.levelCount)
    (he : e < p.entryCount k) :
    (p.on st).load e k = .ok (st (p.entryOffset e k)) :=
  if_pos (entryOffset_le h hk he)

theorem fetchBitmap_on (h : Sized p) {e k : Nat}
    (hk : k < p.levelCount) (he : e < p.entryCount k)
    (f : BitVec 64 → BitVec 64) :
    (p.on st).fetchBitmap e k f
      = .ok (p.on (update st (p.entryOffset e k)
          ⟨f (st (p.entryOffset e k)).bitmap, (st (p.entryOffset e k)).count⟩),
        (st (p.entryOffset e k)).bitmap) := by
  rw [fetchBitmap, load_on h hk he]
  rfl

theorem fetchCount_on (h : Sized p) {e k : Nat}
    (hk : k < p.levelCount) (he : e < p.entryCount k) (d : Int) :
    (p.on st).fetchCount e k d
      = .ok (p.on (update st (p.entryOffset e k)
          ⟨(st (p.entryOffset e k)).bitmap,
            (st (p.entryOffset e k)).count + d⟩),
        (st (p.entryOffset e k)).count) := by
  rw [fetchCount, load_on h hk he]
  rfl

@[simp] theorem on_parentEntryIndex (e k : Nat) :
    (p.on st).parentEntryIndex e k = p.parentEntryIndex e k := rfl

@[simp] theorem on_bitIndexInParent (e k : Nat) :
    (p.on st).bitIndexInParent e k = p.bitIndexInParent e k := rfl

@[simp] theorem on_childEntryIndex (e b k : Nat) :
    (p.on st).childEntryIndex e b k = p.childEntryIndex e b k := rfl

@[simp] theorem on_entryIndexForLevel (i k : Nat) :
    (p.on st).entryIndexForLevel i k = p.entryIndexForLevel i k := rfl

/-- An entry after a write to an entry. -/
theorem update_entry (h : Sized p) {e k e' k' : Nat} {v : Entry}
    (hk : k < p.levelCount) (he : e < p.entryCount k)
    (hk' : k' < p.levelCount) (he' : e' < p.entryCount k') :
    update st (p.entryOffset e k) v (p.entryOffset e' k')
      = if e' = e ∧ k' = k then v else st (p.entryOffset e' k') := by
  by_cases heq : e' = e ∧ k' = k
  · obtain ⟨rfl, rfl⟩ := heq
    rw [if_pos ⟨rfl, rfl⟩, update_self]
  · rw [if_neg heq, update_of_ne]
    exact fun ho => heq (entryOffset_inj h hk' hk he' he ho)

/-- What a write leaves of an entry, it leaves of all entries. -/
theorem part_update {γ : Type _} (g : Entry → γ) {o : Nat} {v : Entry}
    (hg : g v = g (st o)) (o' : Nat) : g (update st o v o') = g (st o') := by
  by_cases heq : o' = o
  · rw [heq, update_self, hg]
  · rw [update_of_ne heq]

theorem bitmap_update {o : Nat} (n : Int) (o' : Nat) :
    (update st o ⟨(st o).bitmap, n⟩ o').bitmap = (st o').bitmap :=
  part_update Entry.bitmap (by rfl) o'

theorem count_update {o : Nat} (w : BitVec 64) (o' : Nat) :
    (update st o ⟨w, (st o).count⟩ o').count = (st o').count :=
  part_update Entry.count (by rfl) o'

/-- A parent's entry after a write to a child's. -/
theorem update_parent (h : Sized p) {e k : Nat} {v : Entry}
    (hk : k + 1 < p.levelCount) (he : e < p.entryCount k) :
    update st (p.entryOffset e k) v
        (p.entryOffset (p.parentEntryIndex e k) (k + 1))
      = st (p.entryOffset (p.parentEntryIndex e k) (k + 1)) := by
  rw [update_entry h (by omega) he hk (parent_lt h hk he)]
  exact if_neg (by omega)

-- ==== the parts

/-- A hint for every entry. -/
abbrev Hints := Nat → Nat → ZMod 2

/-- The hint of one entry. -/
def flag (k e : Nat) : Hints := fun k' e' => if k' = k ∧ e' = e then 1 else 0

/-- The hints that say which counts are positive. -/
def sign (c : Tally Nat) : Hints := fun k e => if 0 < c k e then 1 else 0

/-- The storage `st` of `p` holds the leaf set `leaf`, the tally `c` and
the hints `h`. -/
structure Stores (p : AtomicBitPool) (st : Nat → Entry)
    (leaf : Finset Nat) (c : Tally Nat) (h : Hints) : Prop where
  bits : ∀ e < p.entryCount 0, ∀ b < 64,
    (st (p.entryOffset e 0)).bitmap.getLsbD b = decide (64 * e + b ∈ leaf)
  count : ∀ k, k + 1 < p.levelCount → ∀ e < p.entryCount k,
    (st (p.entryOffset e k)).count = c k e
  hint : ∀ k, k + 1 < p.levelCount → ∀ e < p.entryCount (k + 1), ∀ b < 64,
    (st (p.entryOffset e (k + 1))).bitmap.getLsbD b
      = decide (b < 2 ^ p.shiftForLevel (k + 1)
          ∧ h k (p.childEntryIndex e b (k + 1)) = 1)
  top : (st (p.entryOffset 0 (p.levelCount - 1))).count = 0
  rest : ∀ o, (∀ k < p.levelCount, ∀ e < p.entryCount k,
    o ≠ p.entryOffset e k) → st o = ⟨0#64, 0⟩

variable {leaf : Finset Nat} {c : Tally Nat} {h : Hints} {e k : Nat}

/-- A count that changes sides of zero changes its hint. -/
theorem sign_add {d : Int} {flip : Bool}
    (hflip : flip = decide (¬ (0 < c k e + d ↔ 0 < c k e))) :
    sign (c + d • point k e) = sign c + if flip then flag k e else 0 := by
  funext k' e'
  have hpoint : (c + d • point k e) k' e'
      = c k' e' + if k' = k ∧ e' = e then d else 0 := by
    simp only [Pi.add_apply, Pi.smul_apply, point]
    split <;> simp
  simp only [sign, hpoint, Pi.add_apply]
  by_cases heq : k' = k ∧ e' = e
  · obtain ⟨rfl, rfl⟩ := heq
    rw [hflip]
    by_cases hpos : 0 < c k' e'
    · by_cases hpos' : 0 < c k' e' + d
      · simp [hpos, hpos']
      · simp only [hpos, hpos', flag, and_self, if_true, iff_true,
          not_false_eq_true, decide_true]
        decide
    · by_cases hpos' : 0 < c k' e' + d
      · simp [hpos, hpos', flag]
      · simp [hpos, hpos']
  · rw [if_neg heq]
    cases flip with
    | false => simp
    | true => simp [flag, heq]

-- ==== the count access

theorem Stores.addCount (hs : Sized p) (hst : Stores p st leaf c h)
    (hk : k + 1 < p.levelCount) (he : e < p.entryCount k) (d : Int) :
    Stores p (update st (p.entryOffset e k) ⟨(st (p.entryOffset e k)).bitmap,
          (st (p.entryOffset e k)).count + d⟩) leaf (c + d • point k e) h := by
  refine ⟨?_, ?_, ?_, ?_, ?_⟩
  · intro e' he' b hb
    rw [bitmap_update]
    exact hst.bits e' he' b hb
  · intro k' hk' e' he'
    rw [update_entry hs (by omega) he (by omega) he']
    simp only [Pi.add_apply, Pi.smul_apply, point, smul_eq_mul]
    by_cases heq : e' = e ∧ k' = k
    · rw [if_pos heq, if_pos heq.symm, heq.1, heq.2, hst.count k hk e he,
        Int.mul_one]
    · rw [if_neg heq, if_neg fun h' => heq h'.symm, hst.count k' hk' e' he',
        Int.mul_zero, Int.add_zero]
  · intro k' hk' e' he' b hb
    rw [bitmap_update]
    exact hst.hint k' hk' e' he' b hb
  · rw [update_entry hs (by omega) he (by omega)
      (by rw [entryCount_top hs]; exact Nat.one_pos), if_neg (by omega)]
    exact hst.top
  · intro o ho
    rw [update_of_ne (ho k (by omega) e he)]
    exact hst.rest o ho

-- ==== the hint access

/-- An entry is the child at one bit of one word. -/
theorem child_eq_iff {e' : Nat} (hb : b < 2 ^ p.shiftForLevel (k + 1)) :
    p.childEntryIndex e' b (k + 1) = e
      ↔ e' = p.parentEntryIndex e k ∧ b = p.bitIndexInParent e k := by
  constructor
  · rintro rfl
    exact ⟨(parent_child hb).symm, (bit_child hb).symm⟩
  · rintro ⟨rfl, rfl⟩
    exact child_parent e k

theorem add_one_eq_one_iff : ∀ x : ZMod 2, x + 1 = 1 ↔ ¬ x = 1 := by
  decide

theorem Stores.flip (hs : Sized p) (hst : Stores p st leaf c h)
    (hk : k + 1 < p.levelCount) (he : e < p.entryCount k) :
    Stores p (update st (p.entryOffset (p.parentEntryIndex e k) (k + 1))
        ⟨(st (p.entryOffset (p.parentEntryIndex e k) (k + 1))).bitmap
            ^^^ 1#64 <<< p.bitIndexInParent e k,
          (st (p.entryOffset (p.parentEntryIndex e k) (k + 1))).count⟩)
      leaf c (h + flag k e) := by
  have hpar := parent_lt hs hk he
  have hbit : p.bitIndexInParent e k < 64 :=
    Nat.lt_of_lt_of_le (bitIndexInParent_lt e k) (two_pow_shift_le hs _)
  refine ⟨?_, ?_, ?_, ?_, ?_⟩
  · intro e' he' b hb
    rw [update_entry hs hk hpar hs.levels_pos he', if_neg (by omega)]
    exact hst.bits e' he' b hb
  · intro k' hk' e' he'
    rw [count_update]
    exact hst.count k' hk' e' he'
  · intro k' hk' e' he' b hb
    have hold := hst.hint k' hk' e' he' b hb
    by_cases hcell : (k' = k ∧ e' = p.parentEntryIndex e k)
        ∧ b = p.bitIndexInParent e k
    · obtain ⟨⟨rfl, rfl⟩, rfl⟩ := hcell
      have hlt := bitIndexInParent_lt (p := p) e k'
      rw [update_self]
      simp only [getLsbD_xor_mask hbit, decide_true, Bool.xor_true, hold]
      rw [← decide_not]
      apply decide_eq_decide.mpr
      simp only [hlt, true_and, child_parent, Pi.add_apply, flag, if_true]
      exact (add_one_eq_one_iff _).symm
    · refine Eq.trans ?_ (hold.trans ?_)
      · by_cases hb' : b = p.bitIndexInParent e k
        · rw [update_entry hs hk hpar hk' he',
            if_neg fun heq => hcell ⟨⟨by omega, heq.1⟩, hb'⟩]
        · refine part_update (·.bitmap.getLsbD b) ?_ _
          simp only [getLsbD_xor_mask hbit, decide_eq_false hb', Bool.xor_false]
      · apply decide_eq_decide.mpr
        apply and_congr_right
        intro hlt
        have hne : ¬ (k' = k ∧ p.childEntryIndex e' b (k' + 1) = e) := by
          rintro ⟨rfl, hchild⟩
          have := (child_eq_iff hlt).mp hchild
          exact hcell ⟨⟨rfl, this.1⟩, this.2⟩
        simp only [Pi.add_apply, flag, if_neg hne, add_zero]
  · rw [count_update]
    exact hst.top
  · intro o ho
    rw [update_of_ne (ho _ hk _ hpar)]
    exact hst.rest o ho

-- ==== the leaf access

/-- A write to one leaf word, of the set the word now describes. -/
theorem Stores.writeLeaf (hs : Sized p) (hst : Stores p st leaf c h)
    (he : e < p.entryCount 0) {w : BitVec 64} {leaf' : Finset Nat}
    (hword : ∀ b < 64, w.getLsbD b = decide (64 * e + b ∈ leaf'))
    (hother : ∀ j, j / 64 ≠ e → (j ∈ leaf' ↔ j ∈ leaf)) :
    Stores p (update st (p.entryOffset e 0)
      ⟨w, (st (p.entryOffset e 0)).count⟩) leaf' c h := by
  refine ⟨?_, ?_, ?_, ?_, ?_⟩
  · intro e' he' b hb
    rw [update_entry hs hs.levels_pos he hs.levels_pos he']
    by_cases heq : e' = e
    · rw [if_pos ⟨heq, rfl⟩, heq]
      exact hword b hb
    · rw [if_neg fun h' => heq h'.1, hst.bits e' he' b hb]
      apply decide_eq_decide.mpr
      exact (hother _ (by omega)).symm
  · intro k' hk' e' he'
    rw [count_update]
    exact hst.count k' hk' e' he'
  · intro k' hk' e' he' b hb
    rw [update_entry hs hs.levels_pos he hk' he', if_neg (by omega)]
    exact hst.hint k' hk' e' he' b hb
  · rw [count_update]
    exact hst.top
  · intro o ho
    rw [update_of_ne (ho 0 hs.levels_pos e he)]
    exact hst.rest o ho

theorem leaf_lt (hs : Sized p) {i : Nat} (hi : i < p.capacity) :
    i / 64 < p.entryCount 0 := by
  have he := entryIndex_lt hs hi 0
  rw [entryIndex_zero] at he
  exact he

/-- `fetch_or` of an index's bit inserts it. -/
theorem Stores.fetchOr (hs : Sized p) (hst : Stores p st leaf c h) {i : Nat}
    (hi : i < p.capacity) :
    ∃ st', (p.on st).fetchBitmap (i / 64) 0 (· ||| 1#64 <<< (i % 64))
        = .ok (p.on st', (st (p.entryOffset (i / 64) 0)).bitmap)
      ∧ Stores p st' (insert i leaf) c h := by
  have he := leaf_lt hs hi
  refine ⟨_, fetchBitmap_on hs hs.levels_pos he _, hst.writeLeaf hs he ?_ ?_⟩
  · intro b hb
    rw [getLsbD_or_mask (Nat.mod_lt _ (by decide)), hst.bits _ he b hb,
      ← Bool.decide_or]
    apply decide_eq_decide.mpr
    rw [Finset.mem_insert]
    exact or_congr_left (by omega)
  · intro j hj
    rw [Finset.mem_insert]
    exact or_iff_right (by omega)

/-- `fetch_and` with a bit cleared erases its index. -/
theorem Stores.clearBit (hs : Sized p) (hst : Stores p st leaf c h)
    (he : e < p.entryCount 0) (hb : b < 64) :
    Stores p (update st (p.entryOffset e 0)
      ⟨(st (p.entryOffset e 0)).bitmap &&& ~~~(1#64 <<< b),
        (st (p.entryOffset e 0)).count⟩) (leaf.erase (64 * e + b)) c h := by
  apply hst.writeLeaf hs he
  · intro b' hb'
    rw [getLsbD_clear_mask hb hb', hst.bits _ he b' hb', ← decide_not,
      ← Bool.decide_and]
    apply decide_eq_decide.mpr
    rw [Finset.mem_erase]
    exact and_congr_left fun _ => by omega
  · intro j hj
    rw [Finset.mem_erase]
    exact and_iff_right (by omega)

/-- The bit a leaf access looked at. -/
theorem Stores.and_mask (hst : Stores p st leaf c h)
    (he : e < p.entryCount 0) (hb : b < 64) :
    (st (p.entryOffset e 0)).bitmap &&& 1#64 <<< b = 0#64
      ↔ 64 * e + b ∉ leaf := by
  rw [and_mask_eq_zero_iff hb, hst.bits e he b hb, decide_eq_false_iff_not]

end CroCOS.AtomicBitPool
