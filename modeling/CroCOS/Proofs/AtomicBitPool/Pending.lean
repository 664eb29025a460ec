/-
What a thread of a bit pool has begun and not finished.

# The books

A thread changes a count before or after the set, so between its
accesses the counts are those of no set. `owed` is what a thread's part of
the counts is short of: a path not yet raised (`add`), a path already
lowered (`remove`, `getAny`) or being put back. It is defined from the
access the thread makes next, such that a count access moves one point
between the tally and the thread's debt and nothing else changes it:
`resume` leaves the debt as it is (`resume_goes`).

`flips` are the hint bits a thread has yet to flip. Several threads may
be about to flip one bit, so the flips of all threads are added up in
`ZMod 2`.
-/
import CroCOS.BitPoolThreads
import CroCOS.Proofs.AtomicBitPool.Calls

namespace CroCOS.AtomicBitPool.Threads

open Function Lib

variable {p : AtomicBitPool} {s : Finset Nat} {i k : Nat}
variable {decrementedAt : Nat → Option Nat} {e : Nat}

-- ==== the members

/-- The members below each entry that has a count. -/
def members (p : AtomicBitPool) (s : Finset Nat) : Tally Nat := fun k e =>
  if k + 1 < p.levelCount then tally p.entryIndexForLevel s k e else 0

/-- The entries above an index that have a count, from level `lo` up. -/
abbrev above (p : AtomicBitPool) (i lo : Nat) : Tally Nat :=
  path p.entryIndexForLevel i lo (p.levelCount - 1)

theorem above_apply (k e : Nat) : above p i 0 k e
      = if k + 1 < p.levelCount ∧ e = p.entryIndexForLevel i k then 1
        else 0 := by
  refine if_congr (and_congr_left fun _ => ?_) rfl rfl
  omega

theorem above_eq_zero {lo : Nat} (h : p.levelCount - 1 ≤ lo) :
    above p i lo = 0 := by
  funext k e
  exact if_neg fun hk => by omega

theorem members_insert (h : i ∉ s) :
    members p (insert i s) = members p s + above p i 0 := by
  funext k e
  rw [Pi.add_apply, Pi.add_apply, above_apply]
  unfold members
  by_cases hk : k + 1 < p.levelCount
  · simp only [hk, true_and]
    exact tally_insert h k e
  · simp only [hk, if_false, false_and, Int.add_zero]

theorem members_erase (h : i ∈ s) :
    members p (s.erase i) = members p s - above p i 0 := by
  have hins := members_insert (p := p) (Finset.notMem_erase i s)
  rw [Finset.insert_erase h] at hins
  rw [hins, add_sub_cancel_right]

-- ==== the books

/-- The decrements that `getAny` has recorded, from level `lo` up. -/
def held (decrementedAt : Nat → Option Nat) (lo : Nat) : Tally Nat :=
  fun k e => if lo ≤ k ∧ decrementedAt k = some e then 1 else 0

/-- What is owed once the count update is done. -/
def owedAfter (p : AtomicBitPool) : After → Tally Nat
  | .addLoop i k => above p i (k + 1)
  | .removeLoop i k _ => above p i k
  | .restoreCounts i j => above p i (j + 1)
  | .backout decrementedAt k _ => held decrementedAt (k + 1)
  | .backUp d => held (update d.decrementedAt d.level none) 0
  | .tryChild d childEntry =>
    held d.decrementedAt 0 + point (d.level - 1) childEntry
  | .retry d => held d.decrementedAt 0

/-- What the counts are short of, because of this thread. -/
def owed (p : AtomicBitPool) : Option Frame → Tally Nat
  | some (.fetchAdd e k a) => owedAfter p a + point k e
  | some (.fetchSub e k a) => owedAfter p a - point k e
  | some (.fetchXor _ _ _ _ a) => owedAfter p a
  | some (.fetchAnd i _) => above p i 0
  | some (.load d) => held d.decrementedAt 0
  | some (.claim d _) => held d.decrementedAt 0
  | some (.fetchOr _) => 0
  | none => 0

/-- The hint this thread has yet to flip. -/
def flips : Option Frame → Hints
  | some (.fetchXor e k _ _ _) => flag k e
  | _ => 0

/-- The index this thread is about to add. -/
def adding : Option Frame → Nat → Int
  | some (.fetchOr i) => Pi.single i 1
  | _ => 0

theorem adding_nonneg (l : Option Frame) : 0 ≤ adding l := by
  cases l with
  | none => exact le_refl _
  | some f =>
    cases f with
    | fetchOr i =>
      show 0 ≤ (Pi.single i 1 : Nat → Int)
      rw [Pi.single_nonneg]
      decide
    | _ => exact le_refl _

-- ==== what it knows

/-- A `getAny` at its entry has decremented the counts of the entry and
of those above it. -/
structure Descends (p : AtomicBitPool) (d : Descent) : Prop where
  level : d.level < p.levelCount
  path : ∃ i, i < p.capacity ∧ p.entryIndexForLevel i d.level = d.entryIndex
    ∧ ∀ k, d.decrementedAt k = if d.level ≤ k ∧ k + 1 < p.levelCount then
        some (p.entryIndexForLevel i k) else none

/-- What is recorded as decremented are entries with a count. -/
def Recorded (p : AtomicBitPool) (decrementedAt : Nat → Option Nat) : Prop :=
  ∀ k e, decrementedAt k = some e → k + 1 < p.levelCount ∧ e < p.entryCount k

def OwnAfter (p : AtomicBitPool) : After → Prop
  | .addLoop i k => i < p.capacity ∧ k + 1 < p.levelCount
  | .removeLoop i k _ => i < p.capacity ∧ k + 1 < p.levelCount
  | .restoreCounts i j => i < p.capacity ∧ j + 1 < p.levelCount
  | .backout decrementedAt _ result =>
    Recorded p decrementedAt ∧ ∀ i, result ≠ .success i
  | .backUp d => Descends p d ∧ d.level + 1 < p.levelCount
  | .tryChild d childEntry => Descends p d ∧ ∃ below, d.level = below + 1
      ∧ childEntry < p.entryCount below
      ∧ p.parentEntryIndex childEntry below = d.entryIndex
  | .retry d => Descends p d

/-- An entry with a count, and its caller. -/
structure Counted (p : AtomicBitPool) (e k : Nat) (a : After) : Prop where
  level : k + 1 < p.levelCount
  entry : e < p.entryCount k
  after : OwnAfter p a

/-- What a thread knows of its next access. -/
def Own (p : AtomicBitPool) : Frame → Prop
  | .fetchOr i => i < p.capacity
  | .fetchAdd e k a => Counted p e k a
  | .fetchSub e k a => Counted p e k a
  | .fetchXor e k _ _ a => Counted p e k a
  | .fetchAnd i _ => i < p.capacity
  | .load d => Descends p d
  | .claim d actualBit => Descends p d ∧ d.level = 0 ∧ actualBit < 64

variable {d : Descent}

theorem Descends.entry_lt (hs : Sized p) (h : Descends p d) :
    d.entryIndex < p.entryCount d.level := by
  obtain ⟨i, hi, he, -⟩ := h.path
  rw [← he]
  exact entryIndex_lt hs hi _

theorem Descends.recorded (hs : Sized p) (h : Descends p d) :
    Recorded p d.decrementedAt := by
  obtain ⟨i, hi, -, hd⟩ := h.path
  intro k e hk
  rw [hd k] at hk
  by_cases hc : d.level ≤ k ∧ k + 1 < p.levelCount
  · rw [if_pos hc] at hk
    cases hk
    exact ⟨hc.2, entryIndex_lt hs hi k⟩
  · rw [if_neg hc] at hk
    cases hk

/-- The number of retries is not part of it. -/
theorem Descends.retried (h : Descends p d) (n : Nat) :
    Descends p { d with retryCount := n } := ⟨h.level, h.path⟩

-- ==== between two

/-- Where a thread is, with its call over or not: what it owes and knows,
and that it has no other access to finish. -/
structure Goes (p : AtomicBitPool) (n : Next) (w : Tally Nat) : Prop where
  owed : owed p (frameOf n) = w
  flips : flips (frameOf n) = 0
  adding : adding (frameOf n) = 0
  own : ∀ f, frameOf n = some f → Own p f
  silent : ∀ i, n ≠ .inr (.got (.success i))

theorem goes_restoreFrom (hs : Sized p) (hi : i < p.capacity) (j : Nat) :
    Goes p (restoreFrom p i j) (above p i j) := by
  unfold restoreFrom
  by_cases hj : j < p.levelCount - 1
  · rw [if_pos hj]
    refine ⟨(path_cons hj).symm, rfl, rfl, fun f hf => ?_, nofun⟩
    cases hf
    exact ⟨by omega, entryIndex_lt hs hi j, hi, by omega⟩
  · rw [if_neg hj]
    exact ⟨(above_eq_zero (by omega)).symm, rfl, rfl, nofun, nofun⟩

theorem held_none (h : decrementedAt k = none) :
    held decrementedAt k = held decrementedAt (k + 1) := by
  funext k' e
  refine if_congr (and_congr_left fun he => ?_) rfl rfl
  have : k' ≠ k := by
    rintro rfl
    rw [h] at he
    cases he
  omega

theorem held_some (h : decrementedAt k = some e) :
    held decrementedAt k = held decrementedAt (k + 1) + point k e := by
  funext k' e'
  simp only [held, point, Pi.add_apply]
  by_cases hk : k' = k
  · subst hk
    rw [if_neg fun hx : k' + 1 ≤ k' ∧ _ => by omega, Int.zero_add, h]
    exact if_congr (by simp [eq_comm]) rfl rfl
  · rw [if_neg fun hx : k' = k ∧ _ => hk hx.1, Int.add_zero]
    exact if_congr (and_congr_left fun _ => by omega) rfl rfl

theorem goes_backoutFrom (hd : Recorded p decrementedAt)
    {result : GetResult} (hr : ∀ i, result ≠ .success i) :
    ∀ n k, p.levelCount ≤ k + n → Goes p (backoutFrom decrementedAt result n k)
        (held decrementedAt k) := by
  intro n
  induction n with
  | zero =>
    intro k hk
    refine ⟨?_, rfl, rfl, nofun, fun i hi => ?_⟩
    · funext k' e
      refine (if_neg fun hx => ?_).symm
      have := (hd k' e hx.2).1
      omega
    · cases hi
      exact hr i rfl
  | succ n ih =>
    intro k hk
    cases he : decrementedAt k with
    | none =>
      rw [backoutFrom, he, held_none he]
      exact ih (k + 1) (by omega)
    | some e =>
      rw [backoutFrom, he]
      refine ⟨(held_some he).symm, rfl, rfl, fun f hf => ?_, nofun⟩
      cases hf
      exact ⟨(hd k e he).1, (hd k e he).2, hd, hr⟩

theorem goes_getAnyLoop (hs : Sized p) (h : Descends p d) :
    Goes p (getAnyLoop p d) (held d.decrementedAt 0) := by
  unfold getAnyLoop
  by_cases hc : d.maxRetries < d.retryCount
  · rw [if_pos hc]
    exact goes_backoutFrom (h.recorded hs) (fun i hi => by cases hi) _ _
      (by omega)
  · rw [if_neg hc]
    refine ⟨rfl, rfl, rfl, fun f hf => ?_, nofun⟩
    cases hf
    exact h

-- ==== the resume

theorem setDecrementedAt_ok (hs : Sized p) (hk : k < p.levelCount)
    (decrementedAt : Nat → Option Nat) (v : Option Nat) :
    setDecrementedAt decrementedAt k v
      = .ok (update decrementedAt k v) :=
  if_pos (Nat.lt_of_lt_of_le hk hs.levels_le)

/-- Back at the parent, with the decrement of the entry undone. -/
theorem Descends.toParent (hs : Sized p) (h : Descends p d)
    (hk : d.level + 1 < p.levelCount) (n : Nat) :
    Descends p { d with
      retryCount := n
      level := d.level + 1
      entryIndex := p.parentEntryIndex d.entryIndex d.level
      decrementedAt := update d.decrementedAt d.level none } := by
  obtain ⟨i, hi, he, hd⟩ := h.path
  refine ⟨hk, i, hi, ?_, fun k => ?_⟩
  · show p.entryIndexForLevel i (d.level + 1) = p.parentEntryIndex _ _
    rw [← he, parent_ancestor hs]
  · show update d.decrementedAt d.level none k
      = if d.level + 1 ≤ k ∧ k + 1 < p.levelCount then _ else _
    by_cases hkl : k = d.level
    · rw [hkl, update_self, if_neg (by omega)]
    · rw [update_of_ne hkl, hd k]
      exact if_congr (and_congr_left fun _ => by omega) rfl rfl

/-- Down at the chosen child, with its count decremented. -/
theorem Descends.toChild (hs : Sized p) (h : Descends p d) {below : Nat}
    (hlevel : d.level = below + 1) (he : e < p.entryCount below)
    (hpar : p.parentEntryIndex e below = d.entryIndex) : Descends p { d with
        level := below
        entryIndex := e
        decrementedAt := update d.decrementedAt below (some e) }
      ∧ held (update d.decrementedAt below (some e)) 0
        = held d.decrementedAt 0 + point below e := by
  have hl := h.level
  obtain ⟨j, hj, hje⟩ := exists_below hs he
  obtain ⟨i, hi, hie, hd⟩ := h.path
  have hagree := ancestors_agree hs (i := j) (j := i) (k := d.level) (by
    rw [hie, ← hpar, ← hje, parent_ancestor hs, hlevel])
  refine ⟨⟨by show below < _; omega, j, hj, hje, fun k => ?_⟩, ?_⟩
  · show update d.decrementedAt below (some e) k
      = if below ≤ k ∧ k + 1 < p.levelCount then _ else _
    by_cases hkb : k = below
    · rw [hkb, update_self, if_pos (by omega), hje]
    · rw [update_of_ne hkb, hd k]
      by_cases hc : d.level ≤ k ∧ k + 1 < p.levelCount
      · rw [if_pos hc, if_pos (by omega), hagree k hc.1]
      · rw [if_neg hc, if_neg (by omega)]
  · have hnone : d.decrementedAt below = none := by
      rw [hd below, if_neg (by omega)]
    funext k e'
    simp only [held, point, Pi.add_apply, Nat.zero_le]
    by_cases hkb : k = below
    · subst hkb
      simp [hnone, eq_comm]
    · simp [hkb]

theorem resume_goes (hs : Sized p) {a : After} (h : OwnAfter p a)
    (cr : CountResult) :
    ∃ n, resume p a cr = .ok n ∧ Goes p n (owedAfter p a) := by
  cases a with
  | addLoop i k =>
    obtain ⟨hi, hk⟩ := h
    by_cases htop : k = p.levelCount - 2
    · refine ⟨_, if_pos htop, (above_eq_zero (by omega)).symm, rfl, rfl,
        nofun, nofun⟩
    · refine ⟨_, if_neg htop, (path_cons (by omega)).symm, rfl, rfl,
        fun f hf => ?_, nofun⟩
      cases hf
      exact ⟨by omega, entryIndex_lt hs hi _, hi, by omega⟩
  | removeLoop i k madeEmpty =>
    obtain ⟨hi, hk⟩ := h
    by_cases hneg : cr.newCount < 0
    · exact ⟨_, if_pos hneg, goes_restoreFrom hs hi k⟩
    · cases k with
      | zero =>
        refine ⟨_, if_neg hneg, rfl, rfl, rfl, fun f hf => ?_, nofun⟩
        cases hf
        exact hi
      | succ k =>
        refine ⟨_, if_neg hneg, ?_, rfl, rfl, fun f hf => ?_, nofun⟩
        · exact sub_eq_iff_eq_add.mpr (path_cons (by omega))
        · cases hf
          exact ⟨by omega, entryIndex_lt hs hi k, hi, by omega⟩
  | restoreCounts i j => exact ⟨_, rfl, goes_restoreFrom hs h.1 (j + 1)⟩
  | backout decrementedAt k result =>
    exact ⟨_, rfl, goes_backoutFrom h.1 h.2 _ _ (by omega)⟩
  | backUp d =>
    obtain ⟨hd, hk⟩ := h
    refine ⟨_, ?_, goes_getAnyLoop hs (hd.toParent hs hk (d.retryCount + 1))⟩
    simp only [resume, setDecrementedAt_ok hs hd.level]
    rfl
  | tryChild d childEntry =>
    obtain ⟨hd, below, hlevel, he, hpar⟩ := h
    have hbelow : d.level - 1 = below := by omega
    by_cases hneg : cr.newCount < 0
    · refine ⟨_, if_pos hneg, rfl, rfl, rfl, fun f hf => ?_, nofun⟩
      cases hf
      rw [hbelow]
      have := hd.level
      exact ⟨by omega, he, hd⟩
    · obtain ⟨hdown, hheld⟩ := hd.toChild hs hlevel he hpar
      have hgo := goes_getAnyLoop hs hdown
      rw [show held _ 0 = _ from hheld] at hgo
      refine ⟨_, ?_, by rw [owedAfter, hbelow]; exact hgo⟩
      have hl := hd.level
      simp only [resume, if_neg hneg, hbelow,
        setDecrementedAt_ok hs (show below < p.levelCount by omega)]
  | retry d => exact ⟨_, rfl, goes_getAnyLoop hs (h.retried _)⟩

end CroCOS.AtomicBitPool.Threads
