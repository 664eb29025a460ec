/-
The storage of a bit pool, as a leaf set and a tally.

# The encoding

`Encodes p st leaf c` says what every entry of the storage `st` holds:
the leaf bitmaps are the set `leaf`, the counts below the top level are
the tally `c`, the hint bits above the leaves say which child counts
are positive, and nothing else is in the buffer. The tally is any
integer function: while a call walks a path its counts belong to no
set, and a back-out may start from a count of minus one.

# The two updates

`incrementCount` and `decrementCount` add a point to the tally and
leave an encoding behind, because the XOR fires exactly when the count
changes sides of zero (`Encodes.bump`). A leaf write changes the leaf
set alone. Two storages that encode the same set and tally are equal
(`Encodes.unique`), so a call that puts its tally back has put back
every byte.
-/
import CroCOS.Proofs.AtomicBitPool.Stores

namespace CroCOS.AtomicBitPool

open Lib (Tally point)

variable {i : Nat}

/-- The storage `st` of `p` holds the leaf set `leaf` and the tally
`c`. -/
structure Encodes (p : AtomicBitPool) (st : Nat → Entry)
    (leaf : Finset Nat) (c : Tally Nat) : Prop where
  bits : ∀ e < p.entryCount 0, ∀ b < 64,
    (st (p.entryOffset e 0)).bitmap.getLsbD b = decide (64 * e + b ∈ leaf)
  count : ∀ k, k + 1 < p.levelCount → ∀ e < p.entryCount k,
    (st (p.entryOffset e k)).count = c k e
  hint : ∀ k, k + 1 < p.levelCount → ∀ e < p.entryCount (k + 1), ∀ b < 64,
    (st (p.entryOffset e (k + 1))).bitmap.getLsbD b
      = decide (b < 2 ^ p.shiftForLevel (k + 1)
          ∧ 0 < c k (p.childEntryIndex e b (k + 1)))
  top : (st (p.entryOffset 0 (p.levelCount - 1))).count = 0
  rest : ∀ o, (∀ k < p.levelCount, ∀ e < p.entryCount k,
    o ≠ p.entryOffset e k) → st o = ⟨0#64, 0⟩

variable {p : AtomicBitPool} {st : Nat → Entry}
variable {leaf : Finset Nat} {c : Tally Nat}

/-- With the hints that the counts ask for it is an encoding. -/
theorem stores_sign_iff :
    Stores p st leaf c (sign c) ↔ Encodes p st leaf c := by
  have hsign : ∀ k e, sign c k e = 1 ↔ 0 < c k e := by
    intro k e
    unfold sign
    by_cases hpos : 0 < c k e <;> simp [hpos]
  constructor
  · intro hst
    refine ⟨hst.bits, hst.count, fun k hk e he b hb => ?_, hst.top, hst.rest⟩
    simp only [hst.hint k hk e he b hb, hsign]
  · intro hst
    refine ⟨hst.bits, hst.count, fun k hk e he b hb => ?_, hst.top, hst.rest⟩
    simp only [hst.hint k hk e he b hb, hsign]

-- ==== the two updates

/-- The storage after a count changed by `d` and, if told to, the
entry's hint bit was flipped. -/
def bumped (p : AtomicBitPool) (st : Nat → Entry) (e k : Nat) (d : Int)
    (flip : Bool) : Nat → Entry :=
  let st₁ := Function.update st (p.entryOffset e k)
    ⟨(st (p.entryOffset e k)).bitmap, (st (p.entryOffset e k)).count + d⟩
  let o := p.entryOffset (p.parentEntryIndex e k) (k + 1)
  if flip then
    Function.update st₁ o ⟨(st₁ o).bitmap
      ^^^ 1#64 <<< p.bitIndexInParent e k, (st₁ o).count⟩
  else st₁

section Bump

variable {e k : Nat} {d : Int} {flip : Bool}

/-- The bitmaps after a bump: one hint bit may differ. -/
theorem bumped_bitmap (h : Sized p) (hk : k + 1 < p.levelCount)
    (he : e < p.entryCount k) {e' k' : Nat} (hk' : k' < p.levelCount)
    (he' : e' < p.entryCount k') :
    (bumped p st e k d flip (p.entryOffset e' k')).bitmap
      = if flip = true ∧ e' = p.parentEntryIndex e k ∧ k' = k + 1 then
          (st (p.entryOffset e' k')).bitmap ^^^ 1#64 <<< p.bitIndexInParent e k
        else (st (p.entryOffset e' k')).bitmap := by
  have hpar := parent_lt h hk he
  unfold bumped
  cases flip with
  | false => simpa using bitmap_update _ _
  | true =>
    simp only [if_true, true_and]
    rw [update_entry h hk hpar hk' he']
    by_cases heq : e' = p.parentEntryIndex e k ∧ k' = k + 1
    · rw [if_pos heq, if_pos heq, bitmap_update, heq.1, heq.2]
    · rw [if_neg heq, if_neg heq, bitmap_update]

/-- Changing one count keeps an encoding when its hint bit is flipped
exactly as the count changes sides of zero. -/
theorem Encodes.bump (hs : Sized p) (h : Encodes p st leaf c)
    (hk : k + 1 < p.levelCount) (he : e < p.entryCount k)
    (hflip : flip = decide (¬ (0 < c k e + d ↔ 0 < c k e))) :
    Encodes p (bumped p st e k d flip) leaf (c + d • point k e) := by
  rw [← stores_sign_iff, sign_add hflip]
  have hcount := (stores_sign_iff.mpr h).addCount hs hk he d
  cases flip with
  | false => simpa [bumped] using hcount
  | true => simpa [bumped] using hcount.flip hs hk he

end Bump

-- ==== count calls

section

variable (hs : Sized p)
include hs

/-- A hint word is zero when every child count is. -/
theorem Encodes.hint_eq_zero_iff (h : Encodes p st leaf c) {e k : Nat}
    (hk : k + 1 < p.levelCount) (he : e < p.entryCount (k + 1)) :
    (st (p.entryOffset e (k + 1))).bitmap = 0#64
      ↔ ∀ b < 2 ^ p.shiftForLevel (k + 1),
          c k (p.childEntryIndex e b (k + 1)) ≤ 0 := by
  rw [eq_zero_iff_bits]
  constructor
  · intro hz b hb
    have hb64 := Nat.lt_of_lt_of_le hb (two_pow_shift_le hs _)
    have hbit := hz b hb64
    rw [h.hint k hk e he b hb64] at hbit
    simp only [decide_eq_false_iff_not, not_and] at hbit
    exact Int.not_lt.mp (hbit hb)
  · intro hall b hb
    rw [h.hint k hk e he b hb]
    apply decide_eq_false
    rintro ⟨hlt, hpos⟩
    exact absurd hpos (Int.not_lt.mpr (hall b hlt))

/-- The top word is zero when every count below it is. -/
theorem Encodes.top_eq_zero_iff (h : Encodes p st leaf c) {r k : Nat}
    (hk : k + 2 = p.levelCount) (hr : r < p.entryCount (k + 1)) :
    (st (p.entryOffset r (k + 1))).bitmap = 0#64
      ↔ ∀ e < p.entryCount k, c k e ≤ 0 := by
  have htop : p.entryCount (k + 1) = 1 := by
    rw [show k + 1 = p.levelCount - 1 by omega]
    exact entryCount_top hs
  rw [h.hint_eq_zero_iff hs (by omega) hr]
  constructor
  · intro hall e he
    have hpar := parent_lt hs (by omega) he
    have hroot : r = p.parentEntryIndex e k := by omega
    have hc := hall _ (bitIndexInParent_lt e k)
    rw [hroot, child_parent] at hc
    exact hc
  · intro hall b hb
    exact hall _ (child_lt hs (by omega) hr hb)

omit hs in
/-- The two count calls are one, with the count at which the hint bit
flips and the test for the top word. -/
def countCall (p : AtomicBitPool) (e k : Nat) (d turn : Int)
    (empty : BitVec 64 → BitVec 64 → Bool) :
    Except Fault (AtomicBitPool × CountResult) :=
  match p.fetchCount e k d with
  | .error e => .error e
  | .ok (p, old) =>
    if old = turn ∧ k < p.levelCount - 1 then
      let bit := 1#64 <<< p.bitIndexInParent e k
      match p.fetchBitmap (p.parentEntryIndex e k) (k + 1) (· ^^^ bit) with
      | .error e => .error e
      | .ok (p, word) =>
        if k = p.levelCount - 2 then .ok (p, ⟨old + d, true, empty word bit⟩)
        else .ok (p, ⟨old + d, false, false⟩)
    else .ok (p, ⟨old + d, false, false⟩)

theorem countCall_eq {e k : Nat} (hk : k + 1 < p.levelCount)
    (he : e < p.entryCount k) (d turn : Int)
    (empty : BitVec 64 → BitVec 64 → Bool) : countCall (p.on st) e k d turn empty
      = .ok (p.on (bumped p st e k d
            (decide ((st (p.entryOffset e k)).count = turn))),
          ⟨(st (p.entryOffset e k)).count + d,
            decide ((st (p.entryOffset e k)).count = turn
              ∧ k + 2 = p.levelCount),
            decide ((st (p.entryOffset e k)).count = turn
              ∧ k + 2 = p.levelCount)
              && empty (st (p.entryOffset (p.parentEntryIndex e k)
                (k + 1))).bitmap (1#64 <<< p.bitIndexInParent e k)⟩) := by
  have hpar := parent_lt hs hk he
  unfold countCall
  rw [fetchCount_on hs (by omega) he]
  simp only [on_parentEntryIndex]
  by_cases hz : (st (p.entryOffset e k)).count = turn
  · rw [if_pos ⟨hz, by omega⟩, fetchBitmap_on hs hk hpar]
    simp only [hz, true_and]
    by_cases htop : k + 2 = p.levelCount
    · rw [if_pos (by omega), decide_eq_true htop]
      simp [bumped, hz, update_parent hs hk he]
    · rw [if_neg (by omega), decide_eq_false htop]
      simp [bumped, hz]
  · rw [if_neg fun h' => hz h'.1]
    simp [bumped, hz]

/-- `incrementCount` adds a point to the tally, and reports a top-level
transition exactly when every count below the top was zero. -/
theorem incrementCount_spec (h : Encodes p st leaf c) {e k : Nat}
    (hk : k + 1 < p.levelCount) (he : e < p.entryCount k) :
    ∃ st' cr, (p.on st).incrementCount e k = .ok (p.on st', cr)
      ∧ Encodes p st' leaf (c + Lib.point k e)
      ∧ (k + 2 = p.levelCount → (cr.toggledTopLevel && cr.poolTransitioned)
          = decide (c k e = 0 ∧ ∀ e' < p.entryCount k, c k e' ≤ 0)) := by
  rw [show (p.on st).incrementCount e k = countCall (p.on st) e k 1 0
    (fun w _ => w == 0#64) from rfl, countCall_eq hs hk he, h.count k hk e he]
  refine ⟨_, _, rfl, ?_, ?_⟩
  · have hflip : decide (c k e = 0)
        = decide (¬ (0 < c k e + 1 ↔ 0 < c k e)) := by
      apply decide_eq_decide.mpr
      omega
    have hbump := h.bump hs hk he hflip
    rw [one_smul] at hbump
    exact hbump
  · intro hk2
    have hiff := h.top_eq_zero_iff hs hk2 (parent_lt hs hk he)
    simp only [hk2, and_true]
    rw [← Bool.and_assoc, Bool.and_self, Bool.decide_and]
    congr 1
    rw [Bool.eq_iff_iff, beq_iff_eq, decide_eq_true_eq]
    exact hiff

/-- `decrementCount` takes a point off the tally, and reports a
top-level transition exactly when every count below the top is now
zero. -/
theorem decrementCount_spec (h : Encodes p st leaf c) {e k : Nat}
    (hk : k + 1 < p.levelCount) (he : e < p.entryCount k) :
    ∃ st' cr, (p.on st).decrementCount e k = .ok (p.on st', cr)
      ∧ Encodes p st' leaf (c - Lib.point k e)
      ∧ cr.newCount = c k e - 1
      ∧ (k + 2 = p.levelCount → cr.toggledTopLevel = decide (c k e = 1))
      ∧ (k + 2 = p.levelCount → c k e = 1 → cr.poolTransitioned
          = decide (∀ e' < p.entryCount k, (c - Lib.point k e) k e' ≤ 0)) := by
  have hbump : Encodes p (bumped p st e k (-1) (decide (c k e = 1))) leaf
      (c - Lib.point k e) := by
    have hflip : decide (c k e = 1)
        = decide (¬ (0 < c k e + -1 ↔ 0 < c k e)) := by
      apply decide_eq_decide.mpr
      omega
    have hbump := h.bump hs hk he hflip
    rw [neg_one_smul] at hbump
    exact hbump
  rw [show (p.on st).decrementCount e k = countCall (p.on st) e k (-1) 1
    (fun w bit => (w ^^^ bit) == 0#64) from rfl, countCall_eq hs hk he, h.count k hk e he]
  refine ⟨_, _, rfl, hbump, rfl, ?_, ?_⟩
  · intro hk2
    simp only [hk2, and_true]
  · intro hk2 hone
    have hpar := parent_lt hs hk he
    have hiff := hbump.top_eq_zero_iff hs hk2 hpar
    rw [bumped_bitmap hs hk he hk hpar,
      if_pos ⟨decide_eq_true hone, rfl, rfl⟩] at hiff
    simp only [hone, hk2, and_self, decide_true, Bool.true_and]
    rw [Bool.eq_iff_iff, beq_iff_eq, decide_eq_true_eq]
    exact hiff

-- ==== leaf writes

/-- The leaf word of an index, at its bit. -/
theorem Encodes.leaf_bit (h : Encodes p st leaf c) (hi : i < p.capacity) :
    (st (p.entryOffset (i / 64) 0)).bitmap.getLsbD (i % 64)
      = decide (i ∈ leaf) := by
  rw [h.bits _ (leaf_lt hs hi) _ (Nat.mod_lt _ (by decide)), Nat.div_add_mod]

/-- `fetch_or` of an index's bit inserts it. -/
theorem fetchOr_spec (h : Encodes p st leaf c) (hi : i < p.capacity) :
    ∃ st', (p.on st).fetchBitmap (i / 64) 0 (· ||| 1#64 <<< (i % 64))
        = .ok (p.on st', (st (p.entryOffset (i / 64) 0)).bitmap)
      ∧ Encodes p st' (insert i leaf) c := by
  obtain ⟨st', hor, hst⟩ := (stores_sign_iff.mpr h).fetchOr hs hi
  exact ⟨st', hor, stores_sign_iff.mp hst⟩

/-- `fetch_and` with an index's bit cleared erases it. -/
theorem fetchClear_spec (h : Encodes p st leaf c) (hi : i < p.capacity) :
    ∃ st', (p.on st).fetchBitmap (i / 64) 0 (· &&& ~~~(1#64 <<< (i % 64)))
        = .ok (p.on st', (st (p.entryOffset (i / 64) 0)).bitmap)
      ∧ Encodes p st' (leaf.erase i) c := by
  have he := leaf_lt hs hi
  have hclear := (stores_sign_iff.mpr h).clearBit hs he
    (Nat.mod_lt i (by decide))
  rw [Nat.div_add_mod] at hclear
  exact ⟨_, fetchBitmap_on hs hs.levels_pos he _, stores_sign_iff.mp hclear⟩

-- ==== uniqueness

/-- Only the counted levels of the tally matter. -/
theorem Encodes.congr (h : Encodes p st leaf c) {c' : Tally Nat}
    (hc : ∀ k, k + 1 < p.levelCount → ∀ e < p.entryCount k, c k e = c' k e) :
    Encodes p st leaf c' := by
  refine ⟨h.bits, ?_, ?_, h.top, h.rest⟩
  · intro k hk e he
    rw [h.count k hk e he, hc k hk e he]
  · intro k hk e he b hb
    rw [h.hint k hk e he b hb]
    apply decide_eq_decide.mpr
    apply and_congr_right
    intro hlt
    rw [hc k hk _ (child_lt hs hk he hlt)]

/-- The leaf set and the tally determine every byte. -/
theorem Encodes.unique {st' : Nat → Entry} (h : Encodes p st leaf c)
    (h' : Encodes p st' leaf c) : st = st' := by
  funext o
  by_cases ho : ∀ k < p.levelCount, ∀ e < p.entryCount k, o ≠ p.entryOffset e k
  · rw [h.rest o ho, h'.rest o ho]
  · push Not at ho
    obtain ⟨k, hk, e, he, rfl⟩ := ho
    have hbitmap : (st (p.entryOffset e k)).bitmap
        = (st' (p.entryOffset e k)).bitmap := by
      apply BitVec.eq_of_getLsbD_eq
      intro b hb
      cases k with
      | zero => rw [h.bits e he b hb, h'.bits e he b hb]
      | succ k => rw [h.hint k hk e he b hb, h'.hint k hk e he b hb]
    have hcount : (st (p.entryOffset e k)).count
        = (st' (p.entryOffset e k)).count := by
      by_cases htop : k + 1 < p.levelCount
      · rw [h.count k htop e he, h'.count k htop e he]
      · have hk' : k = p.levelCount - 1 := by omega
        have he0 : e = 0 := by
          rw [hk', entryCount_top hs] at he
          omega
        rw [he0, hk', h.top, h'.top]
    exact congrArg₂ Entry.mk hbitmap hcount

end

end CroCOS.AtomicBitPool
