/-
The invariant of a bit pool that threads are at work on, access by access.

# The invariant

The leaf words are the set `s`, and every access that changes them is an
event of the history: replaying the history gives `s`. The counts and
what the threads owe add up to the members of `s`; the hint bits are
those the counts ask for, but for the flips the threads have yet to make.
A third sum is over the threads about to add an index: an index has been
inserted no more often than `add` has been called with it.

# One rule for each kind of access

A count access moves a point between the tally and the thread's debt, a
hint access makes a pending flip, a leaf access changes the set; then the
call goes on with the debt it should have (`Goes`), which is what the
rules below are about (`Inv.goes`).
-/
import CroCOS.Proofs.AtomicBitPool.Pending

namespace CroCOS.AtomicBitPool.Threads

open Function (update update_self update_of_ne)
open Lib

variable {a : After} {b e i k : Nat} {d : Descent}
variable {events : List Event}

-- ==== the histories

/-- What an event does to the set, if it may happen. -/
def record (s : Finset Nat) : Event → Option (Finset Nat)
  | .called _ => some s
  | .inserted i => if i ∈ s then none else some (insert i s)
  | .erased i => if i ∈ s then some (s.erase i) else none
  | .returned (.got (.success i)) =>
    if i ∈ s then some (s.erase i) else none
  | .returned _ => some s

theorem record_returned {s : Finset Nat} {answer : Answer}
    (h : ∀ i, answer ≠ .got (.success i)) :
    record s (.returned answer) = some s := by
  cases answer with
  | added r | removed r => rfl
  | got r =>
    cases r with
    | success i => exact absurd rfl (h i)
    | empty | contended => rfl

/-- A member taken out of the set. -/
theorem mem_erase_count {s : Finset Nat} {j : Nat} (hj : j ∈ s) :
    ((if i ∈ s.erase j then 1 else 0) : Nat) + (if j = i then 1 else 0)
      = if i ∈ s then 1 else 0 := by
  by_cases hij : j = i
  · subst hij
    simp [hj]
  · simp [hij, Ne.symm hij]

/-- An index is in the set as often as it was inserted and not taken or
erased. -/
theorem count_of_record {log : List Event} {s s' : Finset Nat}
    (h : log.foldlM record s = some s') (i : Nat) :
    log.count (.returned (.got (.success i))) + log.count (.erased i)
        + (if i ∈ s' then 1 else 0)
      = log.count (.inserted i) + if i ∈ s then 1 else 0 := by
  induction log generalizing s with
  | nil =>
    cases h
    simp
  | cons e log ih =>
    rw [List.foldlM_cons] at h
    cases hr : record s e with
    | none =>
      rw [hr] at h
      cases h
    | some s₁ =>
      rw [hr] at h
      have hrest := ih h
      cases e with
      | called call =>
        cases hr
        simpa [List.count_cons] using hrest
      | inserted j =>
        simp only [record] at hr
        split at hr
        · cases hr
        · rename_i hj
          cases hr
          have hmem := mem_erase_count (i := i) (Finset.mem_insert_self j s)
          rw [Finset.erase_insert hj] at hmem
          simp only [List.count_cons, beq_iff_eq, reduceCtorEq,
            if_false, Event.inserted.injEq]
          omega
      | erased j =>
        simp only [record] at hr
        split at hr
        · rename_i hj
          cases hr
          have hmem := mem_erase_count (i := i) hj
          simp only [List.count_cons, beq_iff_eq, reduceCtorEq, Event.erased.injEq]
          omega
        · cases hr
      | returned answer =>
        by_cases htake : ∃ j, answer = .got (.success j)
        · obtain ⟨j, rfl⟩ := htake
          simp only [record] at hr
          split at hr
          · rename_i hj
            cases hr
            have hmem := mem_erase_count (i := i) hj
            simp only [List.count_cons, beq_iff_eq, reduceCtorEq, Event.returned.injEq, Answer.got.injEq,
              GetResult.success.injEq]
            omega
          · cases hr
        · have hne : ∀ j, answer ≠ .got (.success j) :=
            fun j hj => htake ⟨j, hj⟩
          rw [record_returned hne] at hr
          cases hr
          simpa [hne i] using hrest

-- ==== the invariant

structure Inv (p : AtomicBitPool) (m : Machine) (log : List Event)
    (st : Nat → Entry) (s : Finset Nat) (c : Tally Nat) (h : Hints) :
    Prop where
  shared : m.shared = p.on st
  stores : Stores p st s c h
  debts : Pool.Total (fun t => owed p (m.own t)) (members p s - c)
  pending : Pool.Total (fun t => flips (m.own t)) (h - sign c)
  range : ∀ i ∈ s, i < p.capacity
  own : ∀ t f, m.own t = some f → Own p f
  adders : ∃ y, Pool.Total (fun t => adding (m.own t)) y
    ∧ ∀ i, (log.count (.inserted i) : Int) + y i
        ≤ log.count (.called (.add i))
  replay : log.foldlM record ∅ = some s

variable {p : AtomicBitPool} {m : Machine} {log : List Event}
variable {st st' : Nat → Entry} {s s' : Finset Nat} {c c' : Tally Nat}
variable {h h' : Hints} {t : Nat}

/-- What a step owes. -/
theorem Inv.step (hI : Inv p m log st s c h) {l : Option Frame}
    (hst : Stores p st' s' c' h') (howed : owed p l - owed p (m.own t)
      = (members p s' - c') - (members p s - c))
    (hflips : flips l - flips (m.own t) = (h' - sign c') - (h - sign c))
    (hrange : ∀ i ∈ s', i < p.capacity) (hown : ∀ f, l = some f → Own p f)
    (hadd : ∀ i, (events.count (.inserted i) : Int)
        + (adding l i - adding (m.own t) i) ≤ events.count (.called (.add i)))
    (hrec : events.foldlM record s = some s') :
    Inv p ⟨p.on st', update m.own t l⟩ (log ++ events) st' s' c'
      h' := by
  refine ⟨rfl, hst, ?_, ?_, hrange, fun u f hu => ?_, ?_, ?_⟩
  · have htotal := hI.debts.move t l
    rw [howed, add_sub_cancel] at htotal
    exact htotal
  · have htotal := hI.pending.move t l
    rw [hflips, add_sub_cancel] at htotal
    exact htotal
  · change update m.own t l u = some f at hu
    by_cases hut : u = t
    · rw [hut, update_self] at hu
      exact hown f hu
    · rw [update_of_ne hut] at hu
      exact hI.own u f hu
  · obtain ⟨y, hy, hle⟩ := hI.adders
    refine ⟨_, hy.move t l, fun i => ?_⟩
    have h₁ := hle i
    have h₂ := hadd i
    rw [List.count_append, List.count_append]
    simp only [Pi.add_apply, Pi.sub_apply]
    omega
  · rw [List.foldlM_append, hI.replay]
    exact hrec

/-- The call goes on, with its debts as they should be. -/
theorem Inv.goes (hI : Inv p m log st s c h) {n : Next} {w : Tally Nat}
    (hgo : Goes p n w) (hst : Stores p st' s' c' h')
    (howed : w - owed p (m.own t) = (members p s' - c') - (members p s - c))
    (hflips : - flips (m.own t) = (h' - sign c') - (h - sign c))
    (hrange : ∀ i ∈ s', i < p.capacity)
    (hadd : ∀ i, (events.count (.inserted i) : Int)
      ≤ events.count (.called (.add i)) + adding (m.own t) i)
    (hrec : events.foldlM record s = some s') :
    Inv p ⟨p.on st', update m.own t (frameOf n)⟩
      (log ++ (events ++ returnOf n)) st' s' c' h' := by
  refine hI.step hst ?_ ?_ hrange hgo.own (fun i => ?_) ?_
  · rw [hgo.owed, howed]
  · rw [hgo.flips, zero_sub, hflips]
  · have hret : (returnOf n).count (.inserted i) = 0
        ∧ (returnOf n).count (.called (.add i)) = 0 := by
      cases n <;> simp [returnOf]
    rw [List.count_append, List.count_append, hgo.adding]
    have := hadd i
    simp only [Pi.zero_apply]
    omega
  · rw [List.foldlM_append, hrec]
    cases n with
    | inl f => rfl
    | inr answer =>
      show [Event.returned answer].foldlM record s' = some s'
      rw [List.foldlM_cons, record_returned fun i hi =>
        hgo.silent i (by rw [hi])]
      rfl

-- ==== the accesses

/-- A step of the thread `t`, and the invariant after it. -/
def Steps (p : AtomicBitPool) (m : Machine) (log : List Event) (t : Nat)
    (f : Frame) : Prop :=
  ∃ st' n events s' c' h', frameStep m.shared f = .ok (p.on st', n, events)
    ∧ Inv p ⟨p.on st', update m.own t (frameOf n)⟩
        (log ++ (events ++ returnOf n)) st' s' c' h'

/-- An access that inserts no index. -/
theorem not_inserted {l : Option Frame}
    (hno : ∀ i, Event.inserted i ∉ events) (i : Nat) :
    (events.count (.inserted i) : Int)
      ≤ events.count (.called (.add i)) + adding l i := by
  have hpos : 0 ≤ adding l i := adding_nonneg l i
  rw [List.count_eq_zero.mpr (hno i)]
  omega

/-- The set becomes `s'` and the call goes on, with what came to the set
or went in its debt. -/
theorem Inv.leaf (hI : Inv p m log st s c h) {f : Frame} {n : Next}
    {w : Tally Nat} (hf : m.own t = some f) (hflips : flips (some f) = 0)
    (hstep : frameStep (p.on st) f = .ok (p.on st', n, events))
    (hgo : Goes p n w) (hst : Stores p st' s' c h)
    (howed : w - owed p (some f) = members p s' - members p s)
    (hrange : ∀ i ∈ s', i < p.capacity)
    (hadd : ∀ i, (events.count (.inserted i) : Int)
      ≤ events.count (.called (.add i)) + adding (some f) i)
    (hrec : events.foldlM record s = some s') : Steps p m log t f := by
  refine ⟨st', n, events, s', c, h, by rw [hI.shared, hstep],
    hI.goes hgo hst ?_ ?_ hrange (by rw [hf]; exact hadd) hrec⟩
  · rw [hf, howed]
    abel
  · rw [hf, hflips]
    abel

/-- The set stays as it is, and the call goes on. -/
theorem Inv.keeps (hI : Inv p m log st s c h) {f : Frame} {n : Next}
    (hf : m.own t = some f) (hflips : flips (some f) = 0)
    (hst : Stores p st' s c h)
    (hstep : frameStep (p.on st) f = .ok (p.on st', n, []))
    (hgo : Goes p n (owed p (some f))) : Steps p m log t f :=
  hI.leaf hf hflips hstep hgo hst (by rw [sub_self, sub_self]) hI.range
    (not_inserted nofun) rfl

theorem resume_on (a : After) (cr : CountResult) :
    resume (p.on st) a cr = resume p a cr := by
  cases a <;> rfl

theorem neg_flag (k e : Nat) : -flag k e = flag k e := by
  funext k' e'
  exact CharTwo.neg_eq _

/-- A count access moves one point between the tally and the thread's
debt; the flip it asks for is pending from then on. -/
theorem step_count (hs : Sized p) (hI : Inv p m log st s c h) {f : Frame}
    {d crossing : Int} {up : Bool} (hf : m.own t = some f)
    (hcounted : Counted p e k a)
    (howed : owed p (some f) = owedAfter p a + d • point k e)
    (hflips : flips (some f) = 0)
    (hcross : ∀ x : Int, x = crossing ↔ ¬ (0 < x + d ↔ 0 < x))
    (hstep : frameStep (p.on st) f
      = countStep (p.on st) e k d crossing up a) : Steps p m log t f := by
  obtain ⟨hk, he, ha⟩ := hcounted
  have hst := hI.stores.addCount hs hk he d
  have hbalance : owedAfter p a - owed p (m.own t)
      = (members p s - (c + d • point k e)) - (members p s - c) := by
    rw [hf, howed]
    abel
  by_cases hc : c k e = crossing
  · -- the hint is not flipped yet
    have hsign := sign_add (c := c) (k := k) (e := e) (d := d) rfl
    rw [decide_eq_true ((hcross _).mp hc), if_pos rfl] at hsign
    refine ⟨_, .inl (.fetchXor e k up (c k e + d) a), [], s, _, h, ?_,
      hI.step hst hbalance ?_ hI.range (fun f' hf' => ?_) (fun i => ?_) rfl⟩
    · rw [hI.shared, hstep, countStep, fetchCount_on hs (by omega) he]
      simp only [ok_bind, hI.stores.count k hk e he]
      rw [if_pos ⟨hc, by show k < p.levelCount - 1; omega⟩]
      rfl
    · rw [hf, hflips, hsign, ← neg_flag]
      abel
    · cases hf'
      exact ⟨hk, he, ha⟩
    · have := adding_nonneg (m.own t) i
      show (0 : Int) + (0 - adding (m.own t) i) ≤ 0
      simpa using this
  · have hsign := sign_add (c := c) (k := k) (e := e) (d := d) rfl
    rw [decide_eq_false (fun hx => hc ((hcross _).mpr hx)),
      if_neg (by decide)] at hsign
    obtain ⟨n, hn, hgo⟩ := resume_goes hs ha ⟨c k e + d, false, false⟩
    refine ⟨_, n, [], s, _, h, ?_, hI.goes hgo hst hbalance ?_ hI.range
      (not_inserted nofun) rfl⟩
    · rw [hI.shared, hstep, countStep, fetchCount_on hs (by omega) he]
      simp only [ok_bind, hI.stores.count k hk e he]
      rw [if_neg fun hx => hc hx.1, resume_on, hn]
      rfl
    · rw [hf, hflips, hsign]
      abel

theorem step_fetchAdd (hs : Sized p) (hI : Inv p m log st s c h)
    (hf : m.own t = some (.fetchAdd e k a)) :
    Steps p m log t (.fetchAdd e k a) :=
  step_count hs hI hf (hI.own t _ hf) (by rw [one_smul]; rfl) rfl
    (fun x => by omega) rfl

theorem step_fetchSub (hs : Sized p) (hI : Inv p m log st s c h)
    (hf : m.own t = some (.fetchSub e k a)) :
    Steps p m log t (.fetchSub e k a) :=
  step_count hs hI hf (hI.own t _ hf)
    (by rw [neg_one_smul, ← sub_eq_add_neg]; rfl) rfl
    (fun x => by omega) rfl

theorem step_fetchXor (hs : Sized p) (hI : Inv p m log st s c h) {up : Bool}
    {newCount : Int} (hf : m.own t = some (.fetchXor e k up newCount a)) :
    Steps p m log t (.fetchXor e k up newCount a) := by
  obtain ⟨hk, he, ha⟩ := hI.own t _ hf
  have hst := hI.stores.flip hs hk he
  obtain ⟨n, hn, hgo⟩ := resume_goes hs ha (if k = p.levelCount - 2 then
      ⟨newCount, true, (if up then (st (p.entryOffset (p.parentEntryIndex e k)
            (k + 1))).bitmap
          else (st (p.entryOffset (p.parentEntryIndex e k) (k + 1))).bitmap
            ^^^ 1#64 <<< p.bitIndexInParent e k) == 0#64⟩
    else ⟨newCount, false, false⟩)
  refine ⟨_, n, [], s, c, _, ?_, hI.goes hgo hst ?_ ?_ hI.range
    (not_inserted nofun) rfl⟩
  · rw [hI.shared]
    simp only [frameStep, on_parentEntryIndex, on_bitIndexInParent,
      fetchBitmap_on hs hk (parent_lt hs hk he), ok_bind, resume_on]
    rw [hn]
    rfl
  · rw [hf]
    show owedAfter p a - owedAfter p a = _
    abel
  · rw [hf]
    show -flag k e = _
    rw [neg_flag]
    abel

-- ==== the leaf accesses

theorem step_fetchOr (hs : Sized p) (hI : Inv p m log st s c h)
    (hf : m.own t = some (.fetchOr i)) : Steps p m log t (.fetchOr i) := by
  have hi : i < p.capacity := hI.own t _ hf
  have he := leaf_lt hs hi
  obtain ⟨st', hfetch, hst⟩ := hI.stores.fetchOr hs hi
  have hmask := hI.stores.and_mask he (Nat.mod_lt i (by decide))
  rw [Nat.div_add_mod] at hmask
  by_cases hmem : i ∈ s
  · -- already there
    rw [Finset.insert_eq_of_mem hmem] at hst
    refine hI.keeps (n := .inr (.added .alreadyPresent)) hf rfl hst ?_
      ⟨rfl, rfl, rfl, nofun, nofun⟩
    simp only [frameStep, entryIndex_zero, bitIndex_zero, hfetch]
    exact if_pos fun hx => hmask.mp hx hmem
  · -- whatever the call goes on with, it owes the path above the index
    have hinsert : ∀ {n}, frameStep (p.on st) (.fetchOr i)
          = .ok (p.on st', n, [.inserted i]) →
        Goes p n (above p i 0) → Steps p m log t (.fetchOr i) := by
      intro n hstep hgo
      refine hI.leaf hf rfl hstep hgo hst ?_ (fun j hj => ?_) (fun j => ?_)
        (by simp [record, hmem])
      · rw [members_insert hmem, add_sub_cancel_left]
        exact sub_zero _
      · rcases Finset.mem_insert.mp hj with rfl | hj
        · exact hi
        · exact hI.range j hj
      · have hsub : adding (some (.fetchOr i)) j = if j = i then 1 else 0 :=
          Pi.single_apply i 1 j
        rw [hsub]
        by_cases hji : j = i
        · subst hji
          simp
        · simp [hji, Ne.symm hji]
    by_cases hone : p.levelCount = 1
    · refine hinsert (n := .inr (.added
          (if (st (p.entryOffset (i / 64) 0)).bitmap = 0#64 then
            .addedToEmpty else .addedToNonempty))) ?_
        ⟨(above_eq_zero (by omega)).symm, rfl, rfl, nofun, nofun⟩
      simp only [frameStep, entryIndex_zero, bitIndex_zero, hfetch, ok_bind]
      rw [if_neg fun hx => hx (hmask.mpr hmem)]
      exact if_pos hone
    · have hpos := hs.levels_pos
      refine hinsert (n := .inl (.fetchAdd (i / 64) 0 (.addLoop i 0))) ?_
        ⟨?_, rfl, rfl, fun f hf' => ?_, nofun⟩
      · simp only [frameStep, entryIndex_zero, bitIndex_zero, hfetch, ok_bind]
        rw [if_neg fun hx => hx (hmask.mpr hmem)]
        exact if_neg hone
      · have hcons : above p i 0
            = above p i 1 + point 0 (p.entryIndexForLevel i 0) :=
          path_cons (by omega)
        rw [entryIndex_zero] at hcons
        exact hcons.symm
      · cases hf'
        exact ⟨by omega, he, hi, by omega⟩

theorem step_fetchAnd (hs : Sized p) (hI : Inv p m log st s c h)
    {madeEmpty : Bool} (hf : m.own t = some (.fetchAnd i madeEmpty)) :
    Steps p m log t (.fetchAnd i madeEmpty) := by
  have hi : i < p.capacity := hI.own t _ hf
  have he := leaf_lt hs hi
  have hb : i % 64 < 64 := Nat.mod_lt _ (by decide)
  have hst := hI.stores.clearBit hs he hb
  have hmask := hI.stores.and_mask he hb
  rw [Nat.div_add_mod] at hst hmask
  have hfetch := @fetchBitmap_on _ st hs _ _ hs.levels_pos he
  by_cases hmem : i ∈ s
  · refine hI.leaf (n := .inr (.removed (if (if p.levelCount = 1 then
          (st (p.entryOffset (i / 64) 0)).bitmap
            &&& ~~~(1#64 <<< (i % 64)) == 0#64 else madeEmpty) then
          .removedAndMadeEmpty else .removedAndStayedNonempty))) (w := 0) hf
      rfl ?_ ⟨rfl, rfl, rfl, nofun, nofun⟩ hst ?_
      (fun j hj => hI.range j (Finset.mem_of_mem_erase hj))
      (@not_inserted [.erased i] _ (by simp)) (by simp [record, hmem])
    · simp only [frameStep, entryIndex_zero, hfetch]
      exact if_neg fun hx => hmask.mp hx hmem
    · rw [members_erase hmem]
      abel
  · rw [Finset.erase_eq_of_notMem hmem] at hst
    by_cases hone : p.levelCount = 1
    · refine hI.keeps (n := .inr (.removed .notPresent)) hf rfl hst ?_
        ⟨(above_eq_zero (by omega)).symm, rfl, rfl, nofun, nofun⟩
      simp only [frameStep, entryIndex_zero, bitIndex_zero, hfetch, ok_bind]
      rw [if_pos (hmask.mpr hmem)]
      exact if_pos hone
    · refine hI.keeps hf rfl hst ?_ (goes_restoreFrom hs hi 0)
      simp only [frameStep, entryIndex_zero, bitIndex_zero, hfetch, ok_bind]
      rw [if_pos (hmask.mpr hmem)]
      exact if_neg hone

-- ==== the accesses of getAny

theorem held_undo {decrementedAt : Nat → Option Nat}
    (hk : decrementedAt k = some e) :
    held (update decrementedAt k none) 0 + point k e
      = held decrementedAt 0 := by
  funext k' e'
  simp only [held, point, Pi.add_apply, Nat.zero_le]
  by_cases hkk : k' = k
  · subst hkk
    simp [hk, eq_comm]
  · simp [hkk]

theorem step_load (hs : Sized p) (hI : Inv p m log st s c h)
    (hf : m.own t = some (.load d)) : Steps p m log t (.load d) := by
  have hd : Descends p d := hI.own t _ hf
  have hempty : Goes p (backoutFrom d.decrementedAt .empty p.levelCount 0)
      (held d.decrementedAt 0) :=
    goes_backoutFrom (hd.recorded hs) (fun i hi => by cases hi) _ _ (by omega)
  have hload : (p.on st).load d.entryIndex d.level
      = .ok (st (p.entryOffset d.entryIndex d.level)) :=
    load_on hs hd.level (hd.entry_lt hs)
  obtain ⟨threadId, maxRetries, retryCount, level, e, decrementedAt⟩ := d
  cases level with
  | zero =>
    by_cases hc : (st (p.entryOffset e 0)).bitmap = 0#64
        ∧ p.levelCount = 1
    · refine hI.keeps hf rfl hI.stores ?_ hempty
      simp only [frameStep, hload, ok_bind]
      rw [if_pos hc]
      rfl
    · refine hI.keeps (n := .inl (.claim ⟨threadId, maxRetries, retryCount,
          0, e, decrementedAt⟩ (doRotation threadId retryCount
            (st (p.entryOffset e 0)).bitmap))) hf rfl hI.stores ?_
        ⟨rfl, rfl, rfl, fun f hf' => ?_, nofun⟩
      · simp only [frameStep, hload, ok_bind]
        rw [if_neg hc]
        rfl
      · cases hf'
        exact ⟨hd, rfl, Nat.mod_lt _ (by decide)⟩
  | succ below =>
    have hl : below + 1 < p.levelCount := hd.level
    by_cases hz : (st (p.entryOffset e (below + 1))).bitmap = 0#64
    · by_cases htop : below + 1 = p.levelCount - 1
      · refine hI.keeps hf rfl hI.stores ?_ hempty
        simp only [frameStep, hload, ok_bind]
        rw [if_pos hz, if_pos htop]
        rfl
      · -- the entry's own decrement is the one to undo
        obtain ⟨i, hi, hie, hrec⟩ := hd.path
        have hundo : decrementedAt (below + 1) = some e := by
          refine (hrec (below + 1)).trans ?_
          rw [if_pos ⟨le_rfl, by omega⟩]
          exact congrArg some hie
        refine hI.keeps (n := .inl (.fetchAdd e (below + 1) (.backUp
            ⟨threadId, maxRetries, retryCount, below + 1, e, decrementedAt⟩)))
          hf rfl hI.stores ?_
          ⟨held_undo hundo, rfl, rfl, fun f hf' => ?_, nofun⟩
        · simp only [frameStep, hload, ok_bind]
          rw [if_pos hz, if_neg htop]
          simp only [hundo]
          rfl
        · cases hf'
          exact ⟨by omega, hd.entry_lt hs, hd,
            show below + 1 + 1 < p.levelCount by omega⟩
    · obtain ⟨hb, hbit⟩ := doRotation_spec threadId retryCount hz
      have hlt : doRotation threadId retryCount
          (st (p.entryOffset e (below + 1))).bitmap
          < 2 ^ p.shiftForLevel (below + 1) := by
        rw [hI.stores.hint below hl e (hd.entry_lt hs) _ hb,
          decide_eq_true_eq] at hbit
        exact hbit.1
      obtain ⟨child, hchild⟩ : ∃ child, child = p.childEntryIndex e
          (doRotation threadId retryCount
            (st (p.entryOffset e (below + 1))).bitmap) (below + 1) :=
        ⟨_, rfl⟩
      refine hI.keeps (n := .inl (.fetchSub child below (.tryChild ⟨threadId,
          maxRetries, retryCount, below + 1, e, decrementedAt⟩ child)))
        hf rfl hI.stores ?_
        ⟨add_sub_cancel_right _ _, rfl, rfl, fun f hf' => ?_, nofun⟩
      · rw [hchild]
        simp only [frameStep, hload, ok_bind]
        rw [if_neg hz]
        rfl
      · cases hf'
        have hlt' : child < p.entryCount below := by
          rw [hchild]
          exact child_lt hs hl (hd.entry_lt hs) hlt
        refine ⟨hl, hlt', hd, below, rfl, hlt', ?_⟩
        rw [hchild]
        exact parent_child hlt

/-- The decrements of a `getAny` at a leaf are those above each of its
indices. -/
theorem Descends.held_eq (hs : Sized p) (hd : Descends p d)
    (hlevel : d.level = 0) (hb : b < 64) :
    held d.decrementedAt 0 = above p (64 * d.entryIndex + b) 0 := by
  obtain ⟨i, hi, hie, hrec⟩ := hd.path
  rw [hlevel] at hie
  have hagree := ancestors_agree hs (i := 64 * d.entryIndex + b) (j := i)
    (k := 0) (by rw [entryIndex_zero]; omega)
  funext k e
  rw [above_apply, hagree k (Nat.zero_le k)]
  unfold held
  rw [hrec k, hlevel]
  by_cases hk : k + 1 < p.levelCount
  · simp [eq_comm]
  · simp [hk]

theorem shiftLeft_or (hb : b < 64) : e <<< 6 ||| b = 64 * e + b := by
  rw [← Nat.shiftLeft_add_eq_or_of_lt (show b < 2 ^ 6 from hb)]
  omega

theorem step_claim (hs : Sized p) (hI : Inv p m log st s c h)
    (hf : m.own t = some (.claim d b)) : Steps p m log t (.claim d b) := by
  obtain ⟨hd, hlevel, hb⟩ := hI.own t _ hf
  have he := hd.entry_lt hs
  rw [hlevel] at he
  have hst := hI.stores.clearBit hs he hb
  have hmask := hI.stores.and_mask he hb
  by_cases hmem : 64 * d.entryIndex + b ∈ s
  · -- this is the return: the event is the one of the answer
    refine ⟨_, .inr (.got (.success (d.entryIndex <<< 6 ||| b))), [], _, c,
      h, ?_, hI.step hst ?_ ?_
        (fun j hj => hI.range j (Finset.mem_of_mem_erase hj)) nofun
        (fun i => ?_) ?_⟩
    · rw [hI.shared]
      simp only [frameStep, fetchBitmap_on hs hs.levels_pos he, ok_bind]
      rw [if_pos fun hx => hmask.mp hx hmem]
      rfl
    · rw [hf, members_erase hmem, ← hd.held_eq hs hlevel hb]
      show 0 - held d.decrementedAt 0 = _
      abel
    · rw [hf]
      show (0 : Hints) - 0 = _
      abel
    · rw [hf]
      show _ + ((0 : Int) - 0) ≤ _
      simp [returnOf]
    · rw [shiftLeft_or hb]
      simp [returnOf, record, hmem]
  · rw [Finset.erase_eq_of_notMem hmem] at hst
    refine hI.keeps (n := getAnyLoop p { d with
        retryCount := d.retryCount + 1 }) hf rfl hst ?_
      (goes_getAnyLoop hs (hd.retried _))
    simp only [frameStep, fetchBitmap_on hs hs.levels_pos he, ok_bind]
    rw [if_neg fun hx => hx (hmask.mpr hmem)]
    rfl

end CroCOS.AtomicBitPool.Threads
