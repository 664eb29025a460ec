/-
The bit pool under any schedule.

Nobody running a call owes nothing, so in a quiet state the pool is
consistent, and `getAny` alone finds a member if there is one. Taken
together, the history gives what a client sees: an index is taken or
erased no more often than it was inserted (`count_of_record`), and
inserted no more often than `add` was called with it.
-/
import CroCOS.Proofs.AtomicBitPool.Concurrent

namespace CroCOS.AtomicBitPool.Threads

open Function (update update_of_ne update_eq_self)
open Lib

variable {p : AtomicBitPool} {m : Machine} {log : List Event}
variable {st : Nat → Entry} {s : Finset Nat} {c : Tally Nat}
variable {h : Hints} {t : Nat}

-- ==== the threads

theorem Inv.frameStep (hs : Sized p) (hI : Inv p m log st s c h) {f : Frame}
    (hf : m.own t = some f) : Steps p m log t f := by
  cases f with
  | fetchOr i => exact step_fetchOr hs hI hf
  | fetchAdd e k a => exact step_fetchAdd hs hI hf
  | fetchSub e k a => exact step_fetchSub hs hI hf
  | fetchXor e k up newCount a => exact step_fetchXor hs hI hf
  | fetchAnd i madeEmpty => exact step_fetchAnd hs hI hf
  | load d => exact step_load hs hI hf
  | claim d b => exact step_claim hs hI hf

/-- The first access of a call: nothing is owed yet. -/
theorem start_ok (hs : Sized p) (st : Nat → Entry) {call : Call}
    (hcall : call.InRange p.capacity) :
    ∃ f, start (p.on st) call = .ok f ∧ Own p f ∧ owed p (some f) = 0
      ∧ flips (some f) = 0
      ∧ ∀ i, adding (some f) i = if call = .add i then 1 else 0 := by
  have hpos := hs.levels_pos
  cases call with
  | add i =>
    refine ⟨.fetchOr i, rfl, hcall, rfl, rfl, fun j => ?_⟩
    show (Pi.single i 1 : Nat → Int) j = _
    rw [Pi.single_apply]
    exact if_congr (by simp [eq_comm]) rfl rfl
  | remove i =>
    by_cases hone : p.levelCount = 1
    · exact ⟨_, if_pos hone, hcall, above_eq_zero (by omega), rfl,
        fun j => by simp [adding]⟩
    · refine ⟨_, if_neg hone, ⟨?_, entryIndex_lt hs hcall _, hcall, ?_⟩,
        ?_, rfl, fun j => by simp [adding]⟩
      · show p.levelCount - 2 + 1 < _
        omega
      · show p.levelCount - 2 + 1 < _
        omega
      · show above p i (p.levelCount - 2) - point (p.levelCount - 2) _ = 0
        rw [above, path_cons (by omega),
          show path p.entryIndexForLevel i (p.levelCount - 2 + 1)
            (p.levelCount - 1) = 0 from above_eq_zero (by omega), zero_add]
        exact sub_self _
  | getAny threadId maxRetries =>
    refine ⟨.load ⟨threadId, maxRetries, 0, p.levelCount - 1, 0,
        fun _ => none⟩, ?_, ⟨by show p.levelCount - 1 < _; omega, 0, ?_, ?_,
        fun k => ?_⟩, ?_, rfl, fun j => by simp [adding]⟩
    · simp only [start, clearDecrementedAt_eq hs.levels_le]
    · rw [hs.capacity_eq]
      exact Nat.two_pow_pos _
    · show p.entryIndexForLevel 0 (p.levelCount - 1) = 0
      rw [entryIndex_eq, Nat.zero_div]
    · exact (if_neg fun hx => by
        have : p.levelCount - 1 ≤ k := hx.1
        omega).symm
    · funext k e
      show (if 0 ≤ k ∧ (none : Option Nat) = some e then (1 : Int)
        else 0) = 0
      simp

/-- The calls a schedule starts name indices of the pool. -/
def InRange (capacity : Nat) (c : Nat × Option Call) : Prop :=
  ∀ call, c.2 = some call → call.InRange capacity

theorem Inv.next (hs : Sized p) (hI : Inv p m log st s c h)
    (a : Nat × Option Call) (ha : InRange p.capacity a) :
    ∃ m' events, Pool.step next m a = .ok (m', events)
      ∧ ∃ st' s' c' h', Inv p m' (log ++ events) st' s' c' h' := by
  obtain ⟨t, a⟩ := a
  cases hf : m.own t with
  | some f =>
    obtain ⟨st', n, events, s', c', h', hstep, hI'⟩ := hI.frameStep hs hf
    refine ⟨_, events ++ returnOf n, ?_, st', s', c', h', hI'⟩
    simp only [Pool.step, Threads.next, hf, hstep, ok_bind]
    rfl
  | none =>
    cases a with
    | none =>
      refine ⟨m, [], ?_, st, s, c, h, by rw [List.append_nil]; exact hI⟩
      have hsame : update m.own t none = m.own := by
        rw [← hf, update_eq_self]
      simp only [Pool.step, Threads.next, hf, hsame]
    | some call =>
      obtain ⟨f, hstart, hown, howed, hflips, hadd⟩ :=
        start_ok hs st (ha call rfl)
      refine ⟨⟨p.on st, update m.own t (some f)⟩,
        [.called call], ?_, st, s, c, h, hI.step hI.stores ?_ ?_ hI.range
          (fun f' hf' => ?_) (fun i => ?_) rfl⟩
      · simp only [Pool.step, Threads.next, hf, hI.shared, hstart, ok_bind]
        rfl
      · rw [howed, hf]
        show (0 : Tally Nat) - 0 = _
        abel
      · rw [hflips, hf]
        show (0 : Hints) - 0 = _
        abel
      · cases hf'
        exact hown
      · rw [hadd i, hf]
        show _ + ((if call = .add i then 1 else 0) - (0 : Int)) ≤ _
        by_cases hc : call = .add i
        · subst hc
          simp
        · simp [hc]

-- ==== the quiet

/-- Nobody running a call, the pool holds the set. -/
theorem Inv.holds (hs : Sized p) (hI : Inv p m log st s c h)
    (hm : Quiet m) : Holds p st s := by
  have hc := hI.debts.eq_zero fun t => by rw [hm t]; rfl
  have hh := hI.pending.eq_zero fun t => by rw [hm t]; rfl
  have hst := hI.stores
  rw [sub_eq_zero.mp hh, ← sub_eq_zero.mp hc] at hst
  refine ⟨hI.range, (stores_sign_iff.mp hst).congr hs fun k hk e _ => ?_⟩
  exact if_pos hk

/-- An index is inserted by calls of `add` with it. -/
theorem Inv.count_inserted (hI : Inv p m log st s c h) (i : Nat) :
    log.count (.inserted i) ≤ log.count (.called (.add i)) := by
  obtain ⟨y, hy, hle⟩ := hI.adders
  have hnonneg : 0 ≤ y i := hy.nonneg (fun t => adding_nonneg (m.own t)) i
  have := hle i
  omega

theorem inv_create (cap stride : Nat) :
    Inv (create cap stride) (Machine.create cap stride) []
      (create cap stride).storage ∅ 0 0 := by
  have hempty : Encodes (create cap stride) (create cap stride).storage ∅ _ :=
    holds_create.encodes
  have hst := stores_sign_iff.mpr hempty
  have hzero : tally (create cap stride).entryIndexForLevel ∅ = 0 :=
    tally_empty
  have hsign : sign 0 = 0 := by
    funext k e
    exact if_neg (Int.lt_irrefl 0)
  refine ⟨rfl, hst, ?_, ?_, nofun, nofun, ⟨0, Pool.total_zero fun t => rfl,
    fun i => Int.le_refl _⟩, rfl⟩
  · have hmembers : members (create cap stride) ∅ - 0 = 0 := by
      funext k e
      simp [members, hzero]
    rw [hmembers]
    exact Pool.total_zero fun t => rfl
  · rw [hsign]
    exact Pool.total_zero fun t => rfl

-- ==== the schedules

/-- What a pool that nobody is using gives: the members alone, and any
`getAny` gets one of them if there is one. -/
structure Reachable (q : AtomicBitPool) (s : Finset Nat) : Prop where
  consistent : Consistent q s
  getAny : s.Nonempty → ∀ threadId maxRetries, ∃ q' i,
    q.getAny threadId maxRetries = .ok (q', .success i) ∧ i ∈ s

theorem Inv.reachable (hs : Sized p) (hI : Inv p m log st s c h)
    (hm : Quiet m) : Reachable m.shared s := by
  have hholds := hI.holds hs hm
  rw [hI.shared]
  refine ⟨hholds.consistent hs, fun hne threadId maxRetries => ?_⟩
  rcases getAny_spec hs hholds threadId maxRetries with
    ⟨hempty, -⟩ | ⟨st', j, hget, hj, -⟩
  · exact absurd hempty hne.ne_empty
  · exact ⟨_, j, hget, hj⟩

/-- Under every schedule of a pool of at most `64 ^ maxLevelCount`
indices: the accesses that change the leaf words are those of a set; an
index is returned by `getAny` or removed no more often than `add` was
called with it; and when nobody runs a call, the counts and the hints are
those of the set, and `getAny` finds a member. -/
theorem run_concurrent {cap : Nat} (stride : Nat) (h2 : 2 ≤ cap)
    (hmax : cap ≤ 2 ^ (6 * maxLevelCount)) (as : List (Nat × Option Call))
    (has : ∀ a ∈ as, InRange (create cap stride).capacity a) :
    ∃ m rs s, run (Pool.step next) (Machine.create cap stride) as
        = .ok (m, rs)
      ∧ rs.flatten.foldlM record ∅ = some s
      ∧ (∀ i, rs.flatten.count (.returned (.got (.success i)))
          + rs.flatten.count (.erased i)
          ≤ rs.flatten.count (.called (.add i)))
      ∧ (Quiet m → Reachable m.shared s) := by
  have hs : Sized (create cap stride) := sized_create stride h2 hmax
    (by decide)
  have hinit : ∃ st s c h, Inv (create cap stride)
      (Machine.create cap stride) ([] : List (List Event)).flatten st s c h :=
    ⟨_, _, _, _, inv_create cap stride⟩
  obtain ⟨m, rs, hrun, st, s, c, h, hI⟩ := run_logs
    (I := fun m (rs : List (List Event)) =>
      ∃ st s c h, Inv (create cap stride) m rs.flatten st s c h)
    (P := fun _ => InRange (create cap stride).capacity)
    (fun m rs a hI ha => by
      obtain ⟨st, s, c, h, hI⟩ := hI
      obtain ⟨m', events, hstep, hI'⟩ := hI.next hs a ha
      refine ⟨m', events, hstep, ?_⟩
      rw [List.flatten_append, List.flatten_singleton]
      exact hI')
    hinit (Along_of_forall has)
  refine ⟨m, rs, s, hrun, hI.replay, fun i => ?_, hI.reachable hs⟩
  have hcount := count_of_record hI.replay i
  have hadd := hI.count_inserted i
  simp only [Finset.notMem_empty, if_false] at hcount
  omega

instance (capacity : Nat) (a : Nat × Option Call) :
    Decidable (InRange capacity a) :=
  match a with
  | (_, none) => isTrue nofun
  | (_, some call) =>
    decidable_of_iff (call.InRange capacity)
      ⟨fun h _ hc => by cases hc; exact h, fun h => h call rfl⟩

/-- Thread 0 adds an index and thread 1 takes one while a third removes
it. -/
def threeCalls : List (Nat × Option Call) :=
  [Pool.burst 0 [some (.add 64), none, none],
    Pool.burst 1 [some (.getAny 5#64 3), none],
    Pool.burst 2 [some (.remove 64), none],
    Pool.burst 1 [none, none, none, none],
    Pool.burst 2 [none, none, none]].flatten

theorem run_concurrent_threeCalls :
    ∃ m rs s, run (Pool.step next) (Machine.create 65 64) threeCalls
        = .ok (m, rs)
      ∧ rs.flatten.foldlM record ∅ = some s
      ∧ (∀ i, rs.flatten.count (.returned (.got (.success i)))
          + rs.flatten.count (.erased i)
          ≤ rs.flatten.count (.called (.add i)))
      ∧ (Quiet m → Reachable m.shared s) :=
  run_concurrent 64 (by decide) (by decide) threeCalls (by decide)

/-- One index past what `maxLevelCount` levels can hold, the first step of
a `getAny` writes past the end of `decrementedAt`. In a pool of any size
the count of the top entry, here the only one, is not maintained: the
`add` is over, index 0 is a member and the count is 0. -/
theorem getAny_overruns_decrementedAt :
    run (Pool.step next) (Machine.create (2 ^ 60 + 1) 64)
        [(0, some (.getAny 0#64 16))] = .error .outOfBounds
      ∧ ∃ m rs, run (Pool.step next) (Machine.create 2 64)
          (Pool.burst 0 [some (.add 0), none]) = .ok (m, rs)
        ∧ Quiet m ∧ rs.flatten.foldlM record ∅ = some {0}
        ∧ (m.shared.storage (m.shared.entryOffset 0 0)).count = 0 := by
  refine ⟨rfl, _, _, rfl, fun t => ?_, rfl, rfl⟩
  by_cases ht : t = 0
  · subst ht
    rfl
  · show update (update (fun _ => none) 0
      (some (Frame.fetchOr 0))) 0 none t = none
    rw [update_of_ne ht, update_of_ne ht]

end CroCOS.AtomicBitPool.Threads
