/-
Walks through the self entry.

The address `(va - base) / kEntryCount ^ j + base` has the indices of
`va`, each `j` levels further down, and index 0 on the first `j` levels
(`SelfMapped.tableIndex_shifted`). The walk for it therefore stays at the root for `j`
steps and then takes the first steps of the walk for `va`: it ends at the
table where the walk for `va` has `j` steps to go (`walk_shifted`). The
bits that are shifted out of the page number become the place in that
table.
-/
import CroCOS.SelfMap

namespace CroCOS.VMSubstrate

open Function

variable {entries : PageTables} {arena : Arena} {va x j below level t i : Nat}

-- ==== the indices

theorem entrySpan_add (below j : Nat) :
    entrySpan (below + j) = kEntryCount ^ j * entrySpan below := by
  unfold entrySpan
  ring

theorem entrySpan_pos (below : Nat) : 0 < entrySpan below :=
  Nat.mul_pos (by decide) (Nat.pow_pos (by decide))

theorem entrySpan_dvd {n m : Nat} (h : n ≤ m) : entrySpan n ∣ entrySpan m := by
  obtain ⟨j, rfl⟩ := Nat.exists_eq_add_of_le h
  rw [entrySpan_add]
  exact Nat.dvd_mul_left ..

theorem tableIndex_eq (x below : Nat) : tableIndex x below
      = x / smallPageSize / kEntryCount ^ below % kEntryCount := by
  unfold tableIndex entrySpan
  rw [Nat.div_div_eq_div_mul]

/-- The offset in an aligned arena has the indices of the address. -/
theorem tableIndex_add {base : Nat} (h : entrySpan (below + 1) ∣ base)
    (y : Nat) : tableIndex (y + base) below = tableIndex y below := by
  obtain ⟨q, rfl⟩ := h
  have hspan : entrySpan (below + 1) * q
      = entrySpan below * (kEntryCount * q) := by
    rw [entrySpan_add]
    ring
  unfold tableIndex
  rw [hspan, Nat.add_mul_div_left _ _ (entrySpan_pos below),
    Nat.add_mul_mod_self_left]

theorem tableIndex_div (y below j : Nat) :
    tableIndex (y / kEntryCount ^ j) below = tableIndex y (below + j) := by
  unfold tableIndex
  rw [Nat.div_div_eq_div_mul, entrySpan_add]

theorem tableIndex_eq_zero {y : Nat} (h : y < entrySpan below) :
    tableIndex y below = 0 := by
  unfold tableIndex
  rw [Nat.div_eq_of_lt h, Nat.zero_mod]

-- ==== the walks

/-- Walks with the same indices are the same walk. -/
theorem walk_congr {y : Nat} {steps : Nat} : ∀ {below below' t : Nat},
      (∀ s < steps, tableIndex x (below - s) = tableIndex y (below' - s)) →
      walk entries x steps below t = walk entries y steps below' t := by
  induction steps with
  | zero => exact fun _ => rfl
  | succ steps ih =>
    intro below below' t h
    have hfirst : tableIndex x below = tableIndex y below' :=
      h 0 (Nat.succ_pos steps)
    rw [walk, hfirst]
    refine congrArg _ (funext fun u => ih fun s hs => ?_)
    have hnext := h (s + 1) (Nat.succ_lt_succ hs)
    rwa [Nat.add_comm s 1, ← Nat.sub_sub, ← Nat.sub_sub] at hnext

theorem walk_add (m n : Nat) : ∀ (below t : Nat),
    walk entries va (m + n) below t
      = (walk entries va m below t).bind (walk entries va n (below - m)) := by
  induction m with
  | zero =>
    intro below t
    rw [Nat.zero_add]
    rfl
  | succ m ih =>
    intro below t
    rw [Nat.succ_add m n, walk, walk, Option.bind_assoc]
    refine congrArg _ (funext fun u => ?_)
    rw [ih, Nat.sub_sub, Nat.add_comm 1 m]

/-- A walk whose indices are all 0 stays at a table that is its own entry
0. -/
theorem walk_self (hself : entries t 0 = some t) :
    ∀ {below : Nat}, (∀ s < j, tableIndex x (below - s) = 0) →
      walk entries x j below t = some t := by
  induction j with
  | zero => exact fun _ => rfl
  | succ j ih =>
    intro below h
    have hfirst : tableIndex x below = 0 := h 0 (Nat.succ_pos j)
    rw [walk, hfirst, hself]
    refine ih fun s hs => ?_
    have hnext := h (s + 1) (Nat.succ_lt_succ hs)
    rwa [Nat.add_comm s 1, ← Nat.sub_sub] at hnext

-- ==== shifted addresses

/-- What the arena's tables are from its creation on: the region is
aligned to its size, and entry 0 of the root is the root. -/
structure SelfMapped (entries : PageTables) (arena : Arena) : Prop where
  levels_pos : 0 < arena.levels
  aligned : entrySpan arena.levels ∣ arena.base
  self : entries arena.root 0 = some arena.root

def Arena.Contains (arena : Arena) (va : Nat) : Prop :=
  arena.base ≤ va ∧ va < arena.base + entrySpan arena.levels

instance (arena : Arena) (va : Nat) : Decidable (arena.Contains va) :=
  inferInstanceAs (Decidable (_ ∧ _))

/-- The page of an address whose offset is that of `va` shifted down by
`j` levels. -/
def Arena.Shifted (arena : Arena) (va j x : Nat) : Prop :=
  x / smallPageSize
    = ((va - arena.base) / kEntryCount ^ j + arena.base) / smallPageSize

section

variable (h : SelfMapped entries arena)
include h

theorem SelfMapped.span_dvd (hbelow : below ≤ arena.levels) :
    entrySpan below ∣ arena.base :=
  (entrySpan_dvd hbelow).trans h.aligned

theorem SelfMapped.page_dvd : smallPageSize ∣ arena.base :=
  h.span_dvd (show 0 ≤ _ from Nat.zero_le _)

/-- In the arena an address has the indices of its offset. -/
theorem SelfMapped.tableIndex_offset (hva : arena.base ≤ va)
    (hbelow : below < arena.levels) :
    tableIndex (va - arena.base) below = tableIndex va below := by
  have hadd := tableIndex_add (h.span_dvd hbelow) (va - arena.base)
  rwa [Nat.sub_add_cancel hva, eq_comm] at hadd

theorem SelfMapped.tableIndex_shifted (hx : arena.Shifted va j x)
    (hbelow : below < arena.levels) :
    tableIndex x below = tableIndex (va - arena.base) (below + j) := by
  rw [tableIndex_eq, hx, ← tableIndex_eq, tableIndex_add (h.span_dvd hbelow),
    tableIndex_div]

/-- The walk for an address shifted by `j` levels ends where the walk for
`va` has `j` levels to go. -/
theorem SelfMapped.walk_shifted (hva : arena.Contains va)
    (hx : arena.Shifted va j x) (hj : j ≤ arena.levels) :
    walk entries x arena.levels (arena.levels - 1) arena.root
      = arena.tableAt entries va (arena.levels - j) := by
  obtain ⟨rest, hrest⟩ := Nat.exists_eq_add_of_le hj
  -- the first `j` indices lie above the offset
  have hstay : walk entries x j (arena.levels - 1) arena.root
      = some arena.root := by
    refine walk_self h.self fun s hs => ?_
    rw [h.tableIndex_shifted hx (by omega)]
    refine tableIndex_eq_zero (lt_of_lt_of_le ?_
      (Nat.le_of_dvd (entrySpan_pos _)
        (entrySpan_dvd (show arena.levels ≤ _ by omega))))
    have hbase := hva.1
    have hend := hva.2
    omega
  -- the others are the first indices of `va`
  have hfollow : walk entries x rest (arena.levels - 1 - j) arena.root
      = walk entries va rest (arena.levels - 1) arena.root := by
    refine walk_congr fun s hs => ?_
    rw [h.tableIndex_shifted hx (by omega),
      h.tableIndex_offset hva.1 (by omega)]
    congr 1
    omega
  unfold Arena.tableAt
  rw [show arena.levels - j = rest by omega, ← hfollow]
  conv_lhs => rw [hrest, walk_add, ← hrest, hstay]
  rfl

theorem SelfMapped.translate_shifted (hva : arena.Contains va)
    (hx : arena.Shifted va j x) (hj : j ≤ arena.levels) :
    arena.translate entries x
      = (arena.tableAt entries va (arena.levels - j)).map
          fun t => (t, x % smallPageSize) := by
  unfold Arena.translate
  rw [h.walk_shifted hva hx hj]

end

-- ==== the addresses

theorem childDivisor_eq (level : Nat) :
    arena.childDivisor level = kEntryCount ^ (arena.levels - 1 - level) := by
  unfold Arena.childDivisor Arena.parentDivisor
  rw [pow_succ, Nat.mul_div_cancel _ (by decide)]

theorem leafPTEAddrFor_shifted :
    arena.Shifted va 1 (leafPTEAddrFor arena.base va) := by
  unfold Arena.Shifted leafPTEAddrFor
  rw [pow_one]

section

variable (h : SelfMapped entries arena)
include h

/-- A leaf entry is at the shifted page number; the offset of `va` in its
page leaves its upper bits in the entry. -/
theorem SelfMapped.leafPTEAddrFor_mod (hva : arena.base ≤ va) :
    leafPTEAddrFor arena.base va % smallPageSize
      = tableIndex va 0 * sizeofPTE + va % smallPageSize / kEntryCount := by
  obtain ⟨q, hq⟩ := h.span_dvd (show 1 ≤ _ from h.levels_pos)
  have hspan : entrySpan 1 = 2097152 := by decide
  have hindex : tableIndex va 0 = va / 4096 % 512 := rfl
  rw [hspan] at hq
  unfold leafPTEAddrFor smallPageSize sizeofPTE kEntryCount
  omega

theorem SelfMapped.parentEntryAddr_shifted :
    arena.Shifted va (arena.levels - 1 - level + 1)
      (arena.parentEntryAddr va level) := by
  obtain ⟨q, hq⟩ := h.page_dvd
  unfold Arena.Shifted Arena.parentEntryAddr Arena.parentDivisor
  rw [hq]
  unfold smallPageSize sizeofPTE
  omega

theorem SelfMapped.parentEntryAddr_mod (hva : arena.base ≤ va)
    (hlevel : level < arena.levels) :
    arena.parentEntryAddr va level % smallPageSize
      = tableIndex va (arena.levels - 1 - level) * sizeofPTE := by
  obtain ⟨q, hq⟩ := h.page_dvd
  have hpow : kEntryCount ^ (arena.levels - 1 - level + 1) * sizeofPTE
      = entrySpan (arena.levels - 1 - level) := by
    rw [pow_succ, Nat.mul_assoc, Nat.mul_comm]
    rfl
  have hindex : (va - arena.base)
      / kEntryCount ^ (arena.levels - 1 - level + 1) / sizeofPTE % kEntryCount
      = tableIndex va (arena.levels - 1 - level) := by
    rw [Nat.div_div_eq_div_mul, hpow,
      ← h.tableIndex_offset hva (show _ < arena.levels by omega)]
    rfl
  rw [← hindex]
  unfold Arena.parentEntryAddr Arena.parentDivisor
  rw [hq]
  unfold smallPageSize sizeofPTE kEntryCount
  omega

end

/-- Every byte of the page at `childTableAddr` is an address shifted by the
levels under the parent. -/
theorem SelfMapped.childTableAddr_shifted (b : Nat) (hb : b < smallPageSize) :
    arena.Shifted va (arena.levels - 1 - level)
      (arena.childTableAddr va level + b) := by
  unfold Arena.Shifted Arena.childTableAddr
  rw [childDivisor_eq]
  unfold roundDownToNearestMultiple smallPageSize
  unfold smallPageSize at hb
  omega

theorem SelfMapped.childTableAddr_mod (b : Nat) (hb : b < smallPageSize) :
    (arena.childTableAddr va level + b) % smallPageSize = b := by
  unfold Arena.childTableAddr roundDownToNearestMultiple smallPageSize
  unfold smallPageSize at hb
  omega

theorem SelfMapped.translate_parent (h : SelfMapped entries arena)
    (hva : arena.Contains va) (hlevel : level < arena.levels) :
    arena.translate entries (arena.parentEntryAddr va level)
      = (arena.tableAt entries va level).map fun t =>
          (t, tableIndex va (arena.levels - 1 - level) * sizeofPTE) := by
  rw [h.translate_shifted hva h.parentEntryAddr_shifted (by omega),
    h.parentEntryAddr_mod hva.1 hlevel]
  congr 2
  omega

theorem SelfMapped.translate_child (h : SelfMapped entries arena)
    (hva : arena.Contains va) (hlevel : level < arena.levels) {b : Nat}
    (hb : b < smallPageSize) :
    arena.translate entries (arena.childTableAddr va level + b)
      = (arena.tableAt entries va (level + 1)).map fun t => (t, b) := by
  rw [h.translate_shifted hva (childTableAddr_shifted b hb) (by omega),
    childTableAddr_mod b hb]
  congr 2
  omega

-- ==== filled entries

theorem setEntry_self (s : Backing) (t i : Nat) (e : Option Nat) :
    (s.setEntry t i e).entries t i = e := by
  unfold Backing.setEntry
  simp only [update_self]

theorem setEntry_of_ne (s : Backing) {u k : Nat} (e : Option Nat)
    (h : u = t → k ≠ i) :
    (s.setEntry t i e).entries u k = s.entries u k := by
  unfold Backing.setEntry
  by_cases hu : u = t
  · subst hu
    simp only [update_self, update_of_ne (h rfl)]
  · simp only [update_of_ne hu]

/-- The entries that are present stay. -/
def Keeps (e e' : PageTables) : Prop :=
  ∀ ⦃t i p⦄, e t i = some p → e' t i = some p

theorem Keeps.walk {e' : PageTables} (hkeeps : Keeps entries e') {u : Nat} :
    ∀ {steps below t : Nat}, walk entries va steps below t = some u →
      walk e' va steps below t = some u := by
  intro steps
  induction steps with
  | zero => exact id
  | succ steps ih =>
    intro below t h
    obtain ⟨p, hp, hwalk⟩ := Option.bind_eq_some_iff.1 h
    rw [VMSubstrate.walk, hkeeps hp]
    exact ih hwalk

/-- A table under one that was there before. -/
theorem Keeps.tableAt_child {e' : PageTables} (hkeeps : Keeps entries e')
    (ht : arena.tableAt entries va level = some t) {page : Nat}
    (hentry : e' t (tableIndex va (arena.levels - 1 - level)) = some page) :
    arena.tableAt e' va (level + 1) = some page := by
  have hwalk := hkeeps.walk ht
  unfold Arena.tableAt
  rw [walk_add, hwalk]
  exact (congrArg (Option.bind · _) hentry).trans rfl

-- ==== all addresses

/-- Where the addresses computed for `va` lead. The leaf entry is reached
at the byte that the offset of `va` in its page selects, the first one if
`va` is the start of a page. At every level above the leaf tables the
parent's entry is reached, and once it is set every byte of the page it
was set to. -/
theorem selfMap_addresses (h : SelfMapped entries arena)
    (hva : arena.Contains va) :
    (arena.translate entries (leafPTEAddrFor arena.base va)
      = (arena.tableAt entries va (arena.levels - 1)).map fun t =>
          (t, tableIndex va 0 * sizeofPTE
            + va % smallPageSize / kEntryCount))
    ∧ (smallPageSize ∣ va →
      arena.translate entries (leafPTEAddrFor arena.base va)
        = (arena.tableAt entries va (arena.levels - 1)).map fun t =>
            (t, tableIndex va 0 * sizeofPTE))
    ∧ ∀ level < arena.levels - 1,
      (arena.translate entries (arena.parentEntryAddr va level)
        = (arena.tableAt entries va level).map fun t =>
            (t, tableIndex va (arena.levels - 1 - level) * sizeofPTE))
      ∧ ∀ t page fresh, arena.tableAt entries va level = some t →
        entries t (tableIndex va (arena.levels - 1 - level)) = none →
        ∀ b < smallPageSize, arena.translate
            ((Backing.mk entries fresh).setEntry t
              (tableIndex va (arena.levels - 1 - level))
              (some page)).entries
            (arena.childTableAddr va level + b)
          = some (page, b) := by
  have hleaf := h.translate_shifted hva leafPTEAddrFor_shifted h.levels_pos
  rw [h.leafPTEAddrFor_mod hva.1] at hleaf
  refine ⟨hleaf, fun hpage => ?_, fun level hlevel =>
    ⟨h.translate_parent hva (by omega), fun t page fresh ht hentry b hb => ?_⟩⟩
  · rw [hleaf, Nat.mod_eq_zero_of_dvd hpage]
    rfl
  · -- nothing is taken away by setting an entry that is not present
    have hkeeps : Keeps entries ((Backing.mk entries fresh).setEntry t
          (tableIndex va (arena.levels - 1 - level)) (some page)).entries := by
      intro u k p he
      rw [setEntry_of_ne]
      · exact he
      · rintro rfl rfl
        rw [he] at hentry
        cases hentry
    have hmapped : SelfMapped _ arena :=
      ⟨h.levels_pos, h.aligned, hkeeps h.self⟩
    rw [hmapped.translate_child hva (by omega) hb,
      hkeeps.tableAt_child ht (setEntry_self ..)]
    rfl

/-- An arena with one leaf table. -/
def oneLeaf : PageTables := fun t i =>
  if t = 7 ∧ i = 0 then some 7 else if t = 7 ∧ i = 1 then some 9 else none

theorem selfMap_addresses_oneLeaf : (Arena.mk 0x40000000 2 7).translate oneLeaf
        (leafPTEAddrFor 0x40000000 0x40205000) = some (9, 40)
    ∧ ∀ b < smallPageSize, (Arena.mk 0x40000000 2 7).translate
        ((Backing.mk oneLeaf []).setEntry 7 2 (some 11)).entries
        ((Arena.mk 0x40000000 2 7).childTableAddr 0x40405000 0 + b)
      = some (11, b) := by
  have hmapped : SelfMapped oneLeaf (Arena.mk 0x40000000 2 7) :=
    ⟨by decide, by decide, by decide⟩
  have hleaf := selfMap_addresses hmapped
    (show Arena.Contains _ 0x40205000 by decide)
  have hnew := selfMap_addresses hmapped
    (show Arena.Contains _ 0x40405000 by decide)
  exact ⟨hleaf.2.1 (by decide),
    (hnew.2.2 0 (by decide)).2 7 11 [] (by decide) (by decide)⟩

/-- `leafPTEAddrFor` does not clear the low bits: at 0x200 bytes into a
page its address is the second byte of the entry. -/
theorem leafPTEAddrFor_inside_entry :
    SelfMapped oneLeaf (Arena.mk 0x40000000 2 7)
    ∧ (Arena.mk 0x40000000 2 7).Contains 0x40205200
    ∧ (Arena.mk 0x40000000 2 7).translate oneLeaf
        (leafPTEAddrFor 0x40000000 0x40205200)
      ≠ ((Arena.mk 0x40000000 2 7).tableAt oneLeaf 0x40205200 1).map
          (fun t => (t, tableIndex 0x40205200 0 * sizeofPTE)) :=
  ⟨⟨by decide, by decide, by decide⟩, by decide, by decide⟩

end CroCOS.VMSubstrate
