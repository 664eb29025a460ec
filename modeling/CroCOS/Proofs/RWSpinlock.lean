/-
The lock word counts: four for each read lock held, two for a writer
that is queued, one for a writer that holds the lock. What the threads
have adds up to three counts (`Counts`), and each step changes what the
stepping thread has and the word by the same amount (`threadStep_keeps`).
A swap succeeds only on the word it was computed from, so what a thread
remembers matters only as far as that goes (`Thread.Sound`).
-/
import CroCOS.RWSpinlock

namespace CroCOS.RWSpinlock

open Function Lib

-- ==== words

section words

variable {s : Word}

theorem or_low {a b : Nat} (h : b < 4) : 4 * a ||| b = 4 * a + b :=
  (Nat.two_pow_add_eq_or_of_lt (i := 2) h a).symm

theorem toNat_and_mask : (s &&& writeLockMask).toNat = s.toNat % 4 := by
  exact Nat.and_two_pow_sub_one_eq_mod s.toNat 2

theorem mask_eq_zero_iff : s &&& writeLockMask = 0 ↔ s.toNat % 4 = 0 := by
  rw [← BitVec.toNat_inj, toNat_and_mask]
  rfl

theorem queued_eq_zero_iff :
    s &&& writeLockQueuedBit = 0 ↔ s.toNat / 2 % 2 = 0 := by
  have h : (s &&& writeLockQueuedBit).toNat = s.toNat / 2 % 2 * 2 := by
    rw [← Nat.pow_one 2, ← Nat.toNat_testBit]
    exact Nat.and_two_pow s.toNat 1
  rw [← BitVec.toNat_inj]
  show _ = 0 ↔ _
  omega

theorem toNat_count : (s >>> readLockCountShift).toNat = s.toNat / 4 := by
  rw [readLockCountShift, BitVec.toNat_ushiftRight, Nat.shiftRight_eq_div_pow]

theorem toNat_shift (count : Word) (h : count.toNat < 2 ^ 62) :
    (count <<< readLockCountShift).toNat = 4 * count.toNat := by
  rw [readLockCountShift, BitVec.toNat_shiftLeft]
  omega

theorem toNat_shift_succ (count : Word) (h : count.toNat + 1 < 2 ^ 62) :
    ((count + 1) <<< readLockCountShift).toNat = 4 * (count.toNat + 1) := by
  have h1 : (1 : Word).toNat = 1 := rfl
  have hsucc : (count + 1).toNat = count.toNat + 1 := by
    rw [BitVec.toNat_add]
    omega
  rw [toNat_shift _ (by omega), hsucc]

theorem toNat_or_queued (h : s.toNat / 2 % 2 = 0) :
    (s ||| writeLockQueuedBit).toNat = s.toNat + 2 := by
  have hlow : s.toNat % 2 ||| 2 = s.toNat % 2 + 2 := by
    rcases Nat.mod_two_eq_zero_or_one s.toNat with h0 | h0
    · rw [h0]
      rfl
    · rw [h0]
      rfl
  have hs : s.toNat = 4 * (s.toNat / 4) ||| s.toNat % 2 := by
    rw [or_low (by omega)]
    omega
  calc (s ||| writeLockQueuedBit).toNat
      = s.toNat ||| 2 := BitVec.toNat_or ..
    _ = 4 * (s.toNat / 4) ||| (s.toNat % 2 ||| 2) := by
        conv_lhs => rw [hs]
        rw [Nat.or_assoc]
    _ = s.toNat + 2 := by
        rw [or_low (by omega)]
        omega

theorem toNat_withoutReader (h : 4 ≤ s.toNat) :
    (withoutReader s).toNat = s.toNat - 4 := by
  have h1 : (1 : Word).toNat = 1 := rfl
  have hdrop : (s >>> readLockCountShift - 1).toNat = s.toNat / 4 - 1 := by
    rw [BitVec.toNat_sub, toNat_count]
    omega
  have hhigh : ((s >>> readLockCountShift - 1) <<< readLockCountShift).toNat
      = 4 * (s.toNat / 4 - 1) := by
    rw [toNat_shift _ (by omega), hdrop]
  show (_ ||| (s &&& writeLockMask)).toNat = _
  rw [BitVec.toNat_or, hhigh, toNat_and_mask, or_low (by omega)]
  omega

/-- A word is its part outside a mask and its part inside. -/
theorem and_not_add_and (s b : Word) : (s &&& ~~~b) + (s &&& b) = s := by
  rw [BitVec.add_eq_or_of_and_eq_zero]
  · ext i hi
    simp only [BitVec.getElem_or, BitVec.getElem_and, BitVec.getElem_not]
    cases s[i] <;> cases b[i] <;> rfl
  · ext i hi
    simp only [BitVec.getElem_and, BitVec.getElem_not, BitVec.getElem_zero]
    cases s[i] <;> cases b[i] <;> rfl

theorem toNat_and_not_acquired (h : s.toNat % 2 = 1) :
    (s &&& ~~~writeLockAcquiredBit).toNat = s.toNat - 1 := by
  have hbit : (s &&& writeLockAcquiredBit).toNat = 1 := by
    exact (Nat.and_two_pow_sub_one_eq_mod s.toNat 1).trans h
  have hsum := congrArg BitVec.toNat (and_not_add_and s writeLockAcquiredBit)
  rw [BitVec.toNat_add] at hsum
  omega

end words

-- ==== counts

/-- A writer that has set the queued bit and not yet the acquired one. -/
def Thread.queued (l : Thread) : Nat :=
  match l.frame with
  | .writerLoad => 1
  | .writerSwap _ => 1
  | _ => 0

/-- What a thread has in the word. -/
def Thread.part (l : Thread) : Int × Int × Int :=
  (l.readers, l.queued, l.writers)

/-- What all threads have together. -/
structure Counts where
  readers : Nat
  queued : Nat
  writers : Nat

def Counts.sum (c : Counts) : Int × Int × Int :=
  (c.readers, c.queued, c.writers)

def Counts.word (c : Counts) : Nat :=
  4 * c.readers + 2 * c.queued + c.writers

/-- One writer is queued at most, and one that holds the lock is alone. -/
structure Counts.Exclusive (c : Counts) : Prop where
  queued : c.queued ≤ 1
  writers : c.writers ≤ 1
  alone : c.writers = 1 → c.readers = 0

/-- What a thread remembers from a load; and it holds what it is giving
back. -/
def Thread.Sound (l : Thread) : Prop :=
  match l.frame with
  | .readerSwap state => state.toNat % 4 = 0
  | .tryReaderSwap count => count.toNat < 2 ^ 62
  | .queueSwap state => state.toNat / 2 % 2 = 0
  | .writerSwap state => state = writeLockQueuedBit
  | .releaseLoad => 0 < l.readers
  | .releaseSwap _ => 0 < l.readers
  | .releaseWriter => 0 < l.writers
  | _ => True

/-- A thread gives back only what it holds. -/
def Thread.Holds (l : Thread) (c : Option Call) : Prop :=
  l.frame = .idle → (c = some .releaseReader → 0 < l.readers)
    ∧ (c = some .releaseWriter → 0 < l.writers)

/-- What a step leaves. -/
def Keeps (c : Counts) (l : Thread) (s' : Word) (l' : Thread) : Prop :=
  l'.Sound ∧ ∃ c' : Counts, c'.sum = c.sum + (l'.part - l.part)
    ∧ c'.Exclusive ∧ s'.toNat = c'.word

section step

variable {t : Nat} {s s' : Word} {l l' : Thread} {a : Option Bool}
variable {c : Counts} {call : Option Call}

section keeps

variable (hx : c.Exclusive) (hs : s.toNat = c.word) (hsound : l'.Sound)
include hx hs hsound

/-- The counts change as what the thread has does. -/
theorem Keeps.change (r q w : Nat)
    (h : 4 * c.readers + 2 * c.queued + c.writers = s.toNat →
      c.queued ≤ 1 → c.writers ≤ 1 → (c.writers = 1 → c.readers = 0) →
      s'.toNat = 4 * r + 2 * q + w ∧ q ≤ 1 ∧ w ≤ 1 ∧ (w = 1 → r = 0)
        ∧ r + l.readers = c.readers + l'.readers
        ∧ q + l.queued = c.queued + l'.queued
        ∧ w + l.writers = c.writers + l'.writers) : Keeps c l s' l' := by
  obtain ⟨hs', hq, hw, halone, hreaders, hqueued, hwriters⟩ :=
    h hs.symm hx.queued hx.writers hx.alone
  refine ⟨hsound, ⟨r, q, w⟩, ?_, ⟨hq, hw, halone⟩, hs'⟩
  refine Prod.ext ?_ (Prod.ext ?_ ?_)
  · show (r : Int) = c.readers + (l'.readers - l.readers)
    omega
  · show (q : Int) = c.queued + (l'.queued - l.queued)
    omega
  · show (w : Int) = c.writers + (l'.writers - l.writers)
    omega

/-- The word and what the thread has stay. -/
theorem Keeps.stay (hr : l'.readers = l.readers)
    (hq : l'.queued = l.queued) (hw : l'.writers = l.writers) :
    Keeps c l s l' :=
  .change hx hs hsound c.readers c.queued c.writers (by omega)

/-- A read lock is taken on a word without a writer in it. -/
theorem Keeps.takeReader (hfree : s.toNat % 4 = 0)
    (hs' : s'.toNat = s.toNat + 4) (hr : l'.readers = l.readers + 1)
    (hq : l'.queued = l.queued) (hw : l'.writers = l.writers) :
    Keeps c l s' l' :=
  .change hx hs hsound (c.readers + 1) 0 0 (by omega)

theorem Keeps.queue (hfree : s.toNat / 2 % 2 = 0)
    (hs' : s'.toNat = s.toNat + 2) (hr : l'.readers = l.readers)
    (hq : l'.queued = l.queued + 1) (hw : l'.writers = l.writers) :
    Keeps c l s' l' :=
  .change hx hs hsound c.readers 1 c.writers (by omega)

/-- The write lock is taken: the word says that nobody holds anything,
and the only queued writer is the one that takes it, if any. -/
theorem Keeps.takeWriter (hfree : s.toNat = 2 * l.queued)
    (hs' : s'.toNat = 1) (hr : l'.readers = l.readers)
    (hq : l'.queued = 0) (hw : l'.writers = l.writers + 1) :
    Keeps c l s' l' := by
  have hone : l.queued ≤ 1 := by
    unfold Thread.queued
    split
    · exact Nat.le_refl 1
    · exact Nat.le_refl 1
    · exact Nat.zero_le 1
  exact .change hx hs hsound 0 0 1 (by omega)

theorem Keeps.dropReader (hheld : 0 < l.readers)
    (hle : l.readers ≤ c.readers) (hs' : s'.toNat = s.toNat - 4)
    (hr : l'.readers = l.readers - 1) (hq : l'.queued = l.queued)
    (hw : l'.writers = l.writers) : Keeps c l s' l' :=
  .change hx hs hsound (c.readers - 1) c.queued c.writers (by omega)

theorem Keeps.dropWriter (hheld : 0 < l.writers)
    (hle : l.writers ≤ c.writers) (hs' : s'.toNat = s.toNat - 1)
    (hr : l'.readers = l.readers) (hq : l'.queued = l.queued)
    (hw : l'.writers = l.writers - 1) : Keeps c l s' l' :=
  .change hx hs hsound c.readers c.queued 0 (by omega)

end keeps

/-- A step of a thread, and what it does to the counts. -/
theorem threadStep_keeps (h : threadStep t s l call = .ok (s', l', a))
    (hsound : l.Sound) (hholds : l.Holds call) (hx : c.Exclusive)
    (hs : s.toNat = c.word) (hr : l.readers ≤ c.readers)
    (hw : l.writers ≤ c.writers)
    (hfew : l'.readers = l.readers + 1 → c.readers + 1 < 2 ^ 62) :
    Keeps c l s' l' := by
  have hword : s.toNat = 4 * c.readers + 2 * c.queued + c.writers := hs
  have hq1 := hx.queued
  have hw1 := hx.writers
  obtain ⟨frame, readers, writers⟩ := l
  cases frame with
  | idle =>
    cases call with
    | none =>
      cases h
      exact .stay hx hs hsound rfl rfl rfl
    | some call =>
      cases h
      have hback := hholds rfl
      cases call with
      | acquireReader | tryAcquireReader | acquireWriter
      | tryAcquireWriter => exact .stay hx hs trivial rfl rfl rfl
      | releaseReader => exact .stay hx hs (hback.1 rfl) rfl rfl rfl
      | releaseWriter => exact .stay hx hs (hback.2 rfl) rfl rfl rfl
  | readerLoad =>
    simp only [threadStep] at h
    split at h
    · next hmask =>
        cases h
        exact .stay hx hs (mask_eq_zero_iff.mp hmask) rfl rfl rfl
    · cases h
      exact .stay hx hs trivial rfl rfl rfl
  | readerSwap state =>
    simp only [threadStep] at h
    split at h
    · next hsame =>
        subst hsame
        cases h
        have hfree : s.toNat % 4 = 0 := hsound
        have hroom := hfew rfl
        refine .takeReader hx hs trivial hfree ?_ rfl rfl rfl
        unfold withReader
        rw [toNat_shift_succ _ (by rw [toNat_count]; omega), toNat_count]
        omega
    · cases h
      exact .stay hx hs trivial rfl rfl rfl
  | tryReaderLoad =>
    cases h
    refine .stay hx hs ?_ rfl rfl rfl
    show (s >>> readLockCountShift).toNat < 2 ^ 62
    rw [toNat_count]
    omega
  | tryReaderSwap count =>
    simp only [threadStep] at h
    split at h
    · next hsame =>
        cases h
        have hroom := hfew rfl
        rw [hsame, toNat_shift count hsound] at hword
        refine .takeReader (s := s) hx hs trivial ?_ ?_ rfl rfl rfl
        · rw [hsame, toNat_shift count hsound]
          omega
        · rw [hsame, toNat_shift count hsound,
            toNat_shift_succ count (by omega)]
          omega
    · cases h
      exact .stay hx hs trivial rfl rfl rfl
  | queueLoad =>
    simp only [threadStep] at h
    split at h
    · next hbit =>
        cases h
        exact .stay hx hs (queued_eq_zero_iff.mp hbit) rfl rfl rfl
    · cases h
      exact .stay hx hs trivial rfl rfl rfl
  | queueSwap state =>
    simp only [threadStep] at h
    split at h
    · next hsame =>
        subst hsame
        cases h
        exact .queue hx hs trivial hsound (toNat_or_queued hsound) rfl rfl
          rfl
    · cases h
      exact .stay hx hs trivial rfl rfl rfl
  | writerLoad =>
    simp only [threadStep] at h
    split at h
    · next hsame =>
        cases h
        exact .stay hx hs hsame rfl rfl rfl
    · cases h
      exact .stay hx hs trivial rfl rfl rfl
  | writerSwap state =>
    simp only [threadStep] at h
    split at h
    · next hsame =>
        cases h
        refine .takeWriter hx hs trivial ?_ rfl rfl rfl rfl
        rw [hsame, show state = writeLockQueuedBit from hsound]
        rfl
    · cases h
      exact .stay hx hs trivial rfl rfl rfl
  | tryWriterSwap =>
    simp only [threadStep] at h
    split at h
    · next hzero =>
        cases h
        exact .takeWriter hx hs trivial (by rw [hzero]; rfl) rfl rfl rfl rfl
    · cases h
      exact .stay hx hs trivial rfl rfl rfl
  | releaseLoad =>
    cases h
    exact .stay hx hs hsound rfl rfl rfl
  | releaseSwap state =>
    simp only [threadStep] at h
    split at h
    · next hsame =>
        subst hsame
        cases h
        have hheld : 0 < readers := hsound
        have hle : readers ≤ c.readers := hr
        exact .dropReader hx hs trivial hsound hr
          (toNat_withoutReader (by omega)) rfl rfl rfl
    · cases h
      exact .stay hx hs hsound rfl rfl rfl
  | releaseWriter =>
    cases h
    have hheld : 0 < writers := hsound
    have hle : writers ≤ c.writers := hw
    exact .dropWriter hx hs trivial hsound hw
      (toNat_and_not_acquired (by omega)) rfl rfl rfl

end step

-- ==== schedules

/-- What the threads have adds up to `n`. -/
def Adds (part : Thread → Nat) (m : Machine) (n : Nat) : Prop :=
  Pool.Total (fun t => (part (m.own t) : Int)) n

structure Inv (m : Machine) : Prop where
  sound : ∀ t, (m.own t).Sound
  counts : ∃ c : Counts, Pool.Total (fun t => (m.own t).part) c.sum
    ∧ c.Exclusive ∧ m.shared.toNat = c.word

theorem inv_create : Inv Machine.create :=
  ⟨fun _ => trivial, ⟨0, 0, 0⟩, Pool.total_zero fun _ => rfl,
    ⟨Nat.zero_le 1, Nat.zero_le 1, fun _ => rfl⟩, rfl⟩

section totals

variable {m : Machine} {c : Counts}

theorem adds_readers (h : Pool.Total (fun t => (m.own t).part) c.sum) :
    Adds Thread.readers m c.readers :=
  h.map (AddMonoidHom.fst Int (Int × Int))

theorem adds_queued (h : Pool.Total (fun t => (m.own t).part) c.sum) :
    Adds Thread.queued m c.queued :=
  h.map ((AddMonoidHom.fst Int Int).comp (AddMonoidHom.snd Int (Int × Int)))

theorem adds_writers (h : Pool.Total (fun t => (m.own t).part) c.sum) :
    Adds Thread.writers m c.writers :=
  h.map ((AddMonoidHom.snd Int Int).comp (AddMonoidHom.snd Int (Int × Int)))

theorem Adds.le {part : Thread → Nat} {n : Nat} (h : Adds part m n)
    (t : Nat) : part (m.own t) ≤ n :=
  Int.ofNat_le.mp (Pool.Total.le h (fun _ => Int.natCast_nonneg _) t)

end totals

/-- Fewer than 2^62 read locks are held. -/
def FewReaders (m : Machine) : Prop :=
  ∀ n, Adds Thread.readers m n → n < 2 ^ 62

/-- A step of a thread that gives back only what it holds, and that leaves
fewer than 2^62 read locks. -/
def Proper (m : Machine) (c : Nat × Option Call) : Prop :=
  (m.own c.1).Holds c.2
    ∧ ∀ m' a, machineStep m c = .ok (m', a) → FewReaders m'

/-- A step never fails, and takes one read lock at most. -/
theorem threadStep_ok (t : Nat) (s : Word) (l : Thread) (c : Option Call) :
    ∃ s' l' a, threadStep t s l c = .ok (s', l', a)
      ∧ l'.readers ≤ l.readers + 1 := by
  obtain ⟨frame, readers, writers⟩ := l
  have hsame := Nat.le_succ readers
  cases frame with
  | idle =>
    cases c with
    | none | some call => exact ⟨_, _, _, rfl, hsame⟩
  | tryReaderLoad | releaseLoad | releaseWriter =>
    exact ⟨_, _, _, rfl, hsame⟩
  | readerSwap | tryReaderSwap =>
    simp only [threadStep]
    split
    · exact ⟨_, _, _, rfl, le_rfl⟩
    · exact ⟨_, _, _, rfl, hsame⟩
  | readerLoad | queueLoad | queueSwap | writerLoad | writerSwap
  | tryWriterSwap =>
    simp only [threadStep]
    split
    · exact ⟨_, _, _, rfl, hsame⟩
    · exact ⟨_, _, _, rfl, hsame⟩
  | releaseSwap =>
    simp only [threadStep]
    split
    · exact ⟨_, _, _, rfl, Nat.le_succ_of_le (Nat.sub_le readers 1)⟩
    · exact ⟨_, _, _, rfl, hsame⟩

theorem inv_step (m : Machine) (c : Nat × Option Call) (h : Inv m)
    (hc : Proper m c) : ∃ m' a, machineStep m c = .ok (m', a) ∧ Inv m' := by
  obtain ⟨s', l', a, hstep, -⟩ :=
    threadStep_ok c.1 m.shared (m.own c.1) c.2
  have hm : machineStep m c = .ok (⟨s', update m.own c.1 l'⟩, a) :=
    Pool.step_ok hstep
  refine ⟨_, a, hm, ?_⟩
  obtain ⟨counts, htotal, hx, hs⟩ := h.counts
  have hmove := htotal.move c.1 l'
  have hkeeps : Keeps counts (m.own c.1) s' l' := by
    refine threadStep_keeps hstep (h.sound c.1) hc.1 hx hs
      ((adds_readers htotal).le c.1) ((adds_writers htotal).le c.1)
      fun hmore => ?_
    have hnew : Adds Thread.readers ⟨s', update m.own c.1 l'⟩
        (counts.readers + 1) := by
      have h1 := hmove.map (AddMonoidHom.fst Int (Int × Int))
      have h2 : AddMonoidHom.fst Int (Int × Int)
          (counts.sum + (l'.part - (m.own c.1).part))
          = ((counts.readers + 1 : Nat) : Int) := by
        show (counts.readers : Int) + (l'.readers - (m.own c.1).readers) = _
        omega
      rw [h2] at h1
      exact h1
    exact hc.2 _ _ hm _ hnew
  obtain ⟨hsound, counts', hsum, hx', hs'⟩ := hkeeps
  refine ⟨fun u => ?_, counts', hsum ▸ hmove, hx', hs'⟩
  by_cases hu : u = c.1
  · rw [hu]
    show (update m.own c.1 l' c.1).Sound
    rw [update_self]
    exact hsound
  · show (update m.own c.1 l' u).Sound
    rw [update_of_ne hu]
    exact h.sound u

/-- The only thread with a part of at most one. -/
theorem Adds.alone {part : Thread → Nat} {m : Machine} {n t u : Nat}
    (h : Adds part m n) (hn : n ≤ 1) (ht : 0 < part (m.own t))
    (hu : u ≠ t) : part (m.own u) = 0 := by
  have hrest := (Pool.Total.update h t 0).le (fun v => by
    by_cases hv : v = t
    · rw [hv, update_self]
    · rw [update_of_ne hv]
      exact Int.natCast_nonneg _) u
  rw [update_of_ne hu] at hrest
  omega

/-- In every state that any number of threads reach, the lock word is four
times the read locks held, plus two if a writer is queued, plus one if a
writer holds the lock; and a writer that holds it is alone. -/
theorem lockstate_counts {schedule : List (Nat × Option Call)}
    (h : Along machineStep Proper Machine.create schedule) :
    ∃ m as, run machineStep Machine.create schedule = .ok (m, as)
      ∧ ∃ readers queued writers, Adds Thread.readers m readers
        ∧ Adds Thread.queued m queued ∧ Adds Thread.writers m writers
        ∧ m.shared.toNat = 4 * readers + 2 * queued + writers
        ∧ queued ≤ 1 ∧ writers ≤ 1
        ∧ ∀ t, 0 < (m.own t).writers → (m.own t).writers = 1
          ∧ ∀ u, (m.own u).readers = 0
            ∧ (u ≠ t → (m.own u).writers = 0) := by
  obtain ⟨m, as, hrun, hinv⟩ := run_safe inv_step inv_create h
  obtain ⟨c, htotal, hx, hs⟩ := hinv.counts
  have hr := adds_readers htotal
  have hw := adds_writers htotal
  refine ⟨m, as, hrun, c.readers, c.queued, c.writers, hr,
    adds_queued htotal, hw, hs, hx.queued, hx.writers, fun t ht => ?_⟩
  have hone := hx.writers
  have hle := hw.le t
  have halone := hx.alone (by omega)
  refine ⟨by omega, fun u => ⟨?_, hw.alone hone ht⟩⟩
  have hru := hr.le u
  omega

-- ==== short schedules

instance (l : Thread) (c : Option Call) : Decidable (l.Holds c) :=
  inferInstanceAs (Decidable (_ → _ ∧ _))

/-- The thread that is scheduled gives back only what it holds. -/
def HoldsAt (m : Machine) (c : Nat × Option Call) : Prop :=
  (m.own c.1).Holds c.2

instance (m : Machine) (c : Nat × Option Call) : Decidable (HoldsAt m c) :=
  inferInstanceAs (Decidable (Thread.Holds _ _))

theorem adds_step {m m' : Machine} {c : Nat × Option Call}
    {a : Option Bool} {n' : Nat} (h : machineStep m c = .ok (m', a))
    (hn' : Adds Thread.readers m' n') :
    ∃ n, Adds Thread.readers m n ∧ n' ≤ n + 1 := by
  obtain ⟨s, l, hstep, rfl⟩ := Pool.step_inv h
  obtain ⟨_, _, _, hok, hle⟩ := threadStep_ok c.1 m.shared (m.own c.1) c.2
  cases hok.symm.trans hstep
  have htotal : Pool.Total
      (fun u => ((update m.own c.1 l u).readers : Int)) n' := hn'
  have hback := Pool.Total.move (g := fun k : Thread => (k.readers : Int))
    htotal c.1 (m.own c.1)
  simp only [update_idem, update_eq_self, update_self] at hback
  have hmine : l.readers ≤ n' := by
    have := Adds.le hn' c.1
    simpa only [update_self] using this
  refine ⟨n' + (m.own c.1).readers - l.readers, ?_, by omega⟩
  have hcast : (n' : Int) + ((m.own c.1).readers - l.readers)
      = ((n' + (m.own c.1).readers - l.readers : Nat) : Int) := by omega
  rw [hcast] at hback
  exact hback

/-- A schedule of fewer than 2^62 steps has fewer than 2^62 readers. -/
theorem proper_of_length :
    ∀ {schedule : List (Nat × Option Call)} {m : Machine} {k : Nat},
      (∀ n, Adds Thread.readers m n → n ≤ k) →
      k + schedule.length < 2 ^ 62 →
      Along machineStep HoldsAt m schedule →
      Along machineStep Proper m schedule := by
  intro schedule
  induction schedule with
  | nil => exact fun _ _ _ => trivial
  | cons c schedule ih =>
    intro m k hk hlen hal
    rw [List.length_cons] at hlen
    have hnext {m' : Machine} {a : Option Bool}
        (h : machineStep m c = .ok (m', a)) :
        ∀ n, Adds Thread.readers m' n → n ≤ k + 1 := by
      intro n hn
      obtain ⟨n₀, hn₀, hle⟩ := adds_step h hn
      have := hk n₀ hn₀
      omega
    refine ⟨⟨hal.1, fun m' a h n hn => ?_⟩, fun m' a h => ?_⟩
    · have := hnext h n hn
      omega
    · exact ih (hnext h) (by omega) (hal.2 m' a h)

/-- Thread 0 reads, thread 1 queues, thread 0 is done and thread 1 gets
the lock. -/
theorem lockstate_counts_handover : ∃ m as, run machineStep Machine.create
        [(0, some .acquireReader), (0, none), (0, none),
          (1, some .acquireWriter), (1, none), (1, none),
          (0, some .releaseReader), (0, none), (0, none),
          (1, none), (1, none)] = .ok (m, as)
      ∧ ∃ readers queued writers, Adds Thread.readers m readers
        ∧ Adds Thread.queued m queued ∧ Adds Thread.writers m writers
        ∧ m.shared.toNat = 4 * readers + 2 * queued + writers
        ∧ queued ≤ 1 ∧ writers ≤ 1
        ∧ ∀ t, 0 < (m.own t).writers → (m.own t).writers = 1
          ∧ ∀ u, (m.own u).readers = 0
            ∧ (u ≠ t → (m.own u).writers = 0) := by
  refine lockstate_counts (proper_of_length (k := 0) (fun n hn => ?_)
    (by decide) (by decide +kernel))
  have := Pool.Total.eq_zero hn fun _ => rfl
  omega

end CroCOS.RWSpinlock
