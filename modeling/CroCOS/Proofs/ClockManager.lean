/-
The choice of the event source, and how far the monotonic time drifts.

# The choice

The scan replaces its best source by one of higher quality, and by a
per-CPU one if it is not per-CPU itself. A source that is preferred to
every other and to which no other is preferred is chosen in any order;
the source of the highest quality is one, unless it is global and there
is a per-CPU source as well.

# The time

Every successful compare-exchange accounts for the ticks between the
timestamp it replaces and its own, so the ticks of the calls that have
returned and those of the calls about to add theirs make up the ticks
since the start (`Inv.sums`). Each call rounds its own down: the sum
loses less than a nanosecond per call, but nothing ever gives it back.
-/
import CroCOS.ClockManager

namespace CroCOS.Timing

open Function Lib

-- ==== the event source

variable {top : EventSource}

/-- `top` replaces `es` in the scan and not the other way round. -/
def Beats (top es : EventSource) : Prop :=
  considerEventSource (some es) top = some top
    ∧ considerEventSource (some top) es = some top

theorem foldl_considerEventSource (sources : List EventSource)
    (hbeats : ∀ es ∈ sources, Beats top es) :
    ∀ best, (∀ es, best = some es → Beats top es) →
      (top ∈ sources ∨ best = some top) →
      sources.foldl considerEventSource best = some top := by
  induction sources with
  | nil =>
    intro best _ h
    exact h.resolve_left List.not_mem_nil
  | cons es sources ih =>
    intro best hbest h
    have hes := hbeats es List.mem_cons_self
    refine ih (fun e he => hbeats e (List.mem_cons_of_mem es he)) _ ?_ ?_
    · -- the new best is the old one or `es`
      intro e he
      cases best with
      | none => cases he; exact hes
      | some b =>
        rw [considerEventSource] at he
        split at he
        · cases he; exact hes
        · cases he; exact hbest _ rfl
    · rcases h with h | h
      · rcases List.mem_cons.mp h with rfl | h
        · right
          cases best with
          | none => rfl
          | some b => exact (hbest b rfl).1
        · exact Or.inl h
      · rw [h]
        exact Or.inr hes.2

/-- The source that should be chosen: a per-CPU one if there is one, of
the highest quality among those it has to be compared with. -/
structure Preferred (sources : List EventSource) (best : EventSource) :
    Prop where
  mem : best ∈ sources
  perCPU : ∀ p ∈ sources, p.isPerCPU = true → best.isPerCPU = true
  highest : ∀ s ∈ sources, (best.isPerCPU = true → s.isPerCPU = true) →
    s.quality ≤ best.quality

/-- A source of higher quality than all the others is chosen if it is
registered last. -/
theorem initializeEventSource_last {others : List EventSource}
    (h : ∀ es ∈ others, es.quality < top.quality) :
    initializeEventSource (others ++ [top]) = .ok top := by
  have hbest : ∀ {sources : List EventSource} {best es : EventSource},
      sources.foldl considerEventSource (some best) = some es →
      es = best ∨ es ∈ sources := by
    intro sources
    induction sources with
    | nil =>
      intro best es he
      cases he
      exact .inl rfl
    | cons s sources ih =>
      intro best es he
      rw [List.foldl_cons, considerEventSource] at he
      split at he
      · exact .inr (List.mem_cons.mpr (ih he))
      · exact (ih he).imp_right (List.mem_cons_of_mem s)
  unfold initializeEventSource
  rw [List.foldl_append]
  cases hfold : others.foldl considerEventSource none with
  | none => rfl
  | some es =>
    have hes : es ∈ others := by
      cases others with
      | nil => cases hfold
      | cons o others => exact List.mem_cons.mpr (hbest hfold)
    simp [considerEventSource, h es hes]

/-- The choice does not depend on the order of registration, and is the
one that should be made, exactly if no per-CPU source is there beside a
global source of the highest quality. -/
theorem initializeEventSource_best {sources : List EventSource}
    (hne : sources ≠ []) (hdistinct : (sources.map (·.quality)).Nodup) :
    (∃ best, Preferred sources best ∧ ∀ order, order.Perm sources →
      initializeEventSource order = .ok best)
    ↔ ∀ p ∈ sources, p.isPerCPU = true → ∀ s ∈ sources,
      s.isPerCPU = false → ∃ q ∈ sources, s.quality < q.quality := by
  have hlt : ∀ {top}, top ∈ sources →
      (∀ s ∈ sources, s.quality ≤ top.quality) →
      ∀ s ∈ sources, s ≠ top → s.quality < top.quality :=
    fun htop hmax s hs hst => lt_of_le_of_ne (hmax s hs) fun he =>
      hst (List.inj_on_of_nodup_map hdistinct hs htop he)
  constructor
  · rintro ⟨best, hpref, horder⟩ p hp hcpu s hs hglobal
    by_contra hmax
    push Not at hmax
    -- with `s` registered last it is `s` that is chosen
    have hlast : initializeEventSource (sources.erase s ++ [s]) = .ok s :=
      initializeEventSource_last fun es hes =>
        hlt hs hmax es (List.mem_of_mem_erase hes)
          ((List.Nodup.of_map _ hdistinct).mem_erase_iff.mp hes).1
    rw [horder _ ((List.perm_append_singleton s _).trans
      (List.perm_cons_erase hs).symm)] at hlast
    cases hlast
    rw [hpref.perCPU p hp hcpu] at hglobal
    cases hglobal
  · intro hper
    obtain ⟨top, htop, hmax⟩ := sources.toFinset.exists_max_image
      (·.quality) ((List.toFinset_nonempty_iff _).mpr hne)
    rw [List.mem_toFinset] at htop
    replace hmax : ∀ s ∈ sources, s.quality ≤ top.quality := fun s hs =>
      hmax s (List.mem_toFinset.mpr hs)
    -- a per-CPU source would have to be topped by another
    have hkind : ∀ p ∈ sources, p.isPerCPU = true →
        top.isPerCPU = true := by
      intro p hp hcpu
      by_contra hglobal
      obtain ⟨q, hq, hlt⟩ := hper p hp hcpu top htop
        (Bool.eq_false_iff.mpr hglobal)
      exact absurd (hmax q hq) (Nat.not_le.mpr hlt)
    have hbeats : ∀ s ∈ sources, Beats top s := by
      intro s hs
      by_cases hst : s = top
      · rw [hst]
        simp [Beats, considerEventSource]
      · have hlt := hlt htop hmax s hs hst
        constructor
        · simp [considerEventSource, hlt]
        · cases hcpu : s.isPerCPU with
          | false => simp [considerEventSource, hcpu, hlt.le]
          | true => simp [considerEventSource, hkind s hs hcpu, hlt.le]
    refine ⟨top, ⟨htop, hkind, fun s hs _ => hmax s hs⟩,
      fun order horder => ?_⟩
    rw [initializeEventSource, foldl_considerEventSource order
      (fun s hs => hbeats s (horder.mem_iff.mp hs)) none
      (fun s hs => by cases hs) (Or.inl (horder.mem_iff.mpr htop))]

theorem initializeEventSource_best_lapic : ∃ best,
    initializeEventSource [⟨300, true⟩, ⟨100, false⟩, ⟨200, true⟩] = .ok best
    ∧ initializeEventSource [⟨100, false⟩, ⟨200, true⟩, ⟨300, true⟩]
      = .ok best
    ∧ Preferred [⟨100, false⟩, ⟨200, true⟩, ⟨300, true⟩] best := by
  obtain ⟨best, hpref, horder⟩ := (initializeEventSource_best (show
    [⟨100, false⟩, ⟨200, true⟩, (⟨300, true⟩ : EventSource)] ≠ [] by simp)
    (by decide)).mpr (by decide)
  exact ⟨best, horder _ (by decide), horder _ (.refl _), hpref⟩

/-- A per-CPU source of lower quality is chosen if it is registered last,
and passed over if it is registered first. -/
theorem initializeEventSource_by_order :
    initializeEventSource [⟨200, false⟩, ⟨100, true⟩] = .ok ⟨100, true⟩
      ∧ initializeEventSource [⟨100, true⟩, ⟨200, false⟩]
        = .ok ⟨200, false⟩ :=
  ⟨rfl, rfl⟩

-- ==== the rounding

theorem ticksToNanos_eq (f : FrequencyData) {ticks : Nat}
    (h : ticks * f.period < 2 ^ 128) :
    f.ticksToNanos ticks = ticks * f.period / 2 ^ 64 := by
  rw [FrequencyData.ticksToNanos, Nat.mod_eq_of_lt h, Nat.shiftRight_eq_div_pow]

/-- Rounding the parts loses less than one each, the first of them
nothing more than rounding the whole does. -/
theorem sum_ticksToNanos (f : FrequencyData) (deltas : List Nat)
    (h : deltas.sum * f.period < 2 ^ 128) :
    (deltas.map f.ticksToNanos).sum ≤ f.ticksToNanos deltas.sum
      ∧ f.ticksToNanos deltas.sum
        ≤ (deltas.map f.ticksToNanos).sum + (deltas.length - 1)
      ∧ (2 ^ 64 ∣ f.period → f.ticksToNanos deltas.sum
        = (deltas.map f.ticksToNanos).sum) := by
  induction deltas with
  | nil => simp [FrequencyData.ticksToNanos]
  | cons d ds ih =>
    rw [List.sum_cons, Nat.add_mul] at h
    obtain ⟨hle, hge, hexact⟩ := ih (by omega)
    rw [ticksToNanos_eq f (by omega)] at hle hge hexact
    rw [List.map_cons, List.sum_cons, List.sum_cons, List.length_cons,
      ticksToNanos_eq f (by omega : d * f.period < 2 ^ 128),
      ticksToNanos_eq f (by rw [Nat.add_mul]; exact h), Nat.add_mul]
    refine ⟨by omega, ?_, fun hdvd => ?_⟩
    · cases ds with
      | nil => simp
      | cons d' ds =>
        rw [List.length_cons] at hge ⊢
        omega
    · have hd : 2 ^ 64 ∣ d * f.period := hdvd.mul_left d
      omega

-- ==== the monotonic time

variable {clock : ClockSource} {start : Nat} {m : Machine}
variable {log : List (Option (Nat × Nat))}

/-- The ticks between two timestamps less than a period apart. -/
theorem delta_eq {oldTime newTime : Nat} (hle : oldTime ≤ newTime)
    (hlt : newTime < oldTime + 2 ^ clock.width) :
    (2 ^ 64 + clock.read newTime - clock.read oldTime) % 2 ^ 64
      &&& clock.mask = newTime - oldTime := by
  have hdvd : 2 ^ clock.width ∣ 2 ^ 64 := Nat.pow_dvd_pow 2 clock.width_le
  have hold : oldTime % 2 ^ clock.width < 2 ^ 64 :=
    Nat.lt_of_lt_of_le (Nat.mod_lt _ (Nat.two_pow_pos _))
      (Nat.le_of_dvd (Nat.two_pow_pos _) hdvd)
  unfold ClockSource.read ClockSource.mask
  rw [Nat.and_two_pow_sub_one_eq_mod, Nat.and_two_pow_sub_one_eq_mod,
    Nat.and_two_pow_sub_one_eq_mod, Nat.mod_mod_of_dvd _ hdvd]
  have hback : 2 ^ 64 + newTime % 2 ^ clock.width
      - oldTime % 2 ^ clock.width + oldTime
        ≡ newTime - oldTime + oldTime [MOD 2 ^ clock.width] :=
    calc _ ≡ 2 ^ 64 + newTime % 2 ^ clock.width
          - oldTime % 2 ^ clock.width + oldTime % 2 ^ clock.width
            [MOD 2 ^ clock.width] :=
          Nat.ModEq.add_left _ (Nat.mod_modEq ..).symm
      _ = 2 ^ 64 + newTime % 2 ^ clock.width := by omega
      _ ≡ 0 + newTime [MOD 2 ^ clock.width] :=
          (Nat.modEq_zero_iff_dvd.mpr hdvd).add (Nat.mod_modEq ..)
      _ = newTime - oldTime + oldTime := by omega
  exact Nat.mod_eq_of_modEq (hback.add_right_cancel' oldTime) (by omega)

/-- A compare-exchange comes less than a period of the counter after the
timestamp was read that it compares with. -/
def WithinPeriod (clock : ClockSource) (_cpu : Nat) (s : Clock) :
    Option Frame → Choice → Prop
  | some (.compareExchange oldTime _), .step =>
    s.now < oldTime + 2 ^ clock.width
  | _, _ => True

instance {cpu : Nat} {s : Clock} {call : Option Frame} {c : Choice} :
    Decidable (WithinPeriod clock cpu s call c) :=
  match call, c with
  | some (.compareExchange _ _), .step => inferInstanceAs (Decidable (_ < _))
  | some (.compareExchange _ _), .tick => .isTrue trivial
  | none, _ | some .load, _ | some (.read _), _ | some (.addFetch ..), _ =>
    .isTrue trivial

/-- What a call knows of the timestamps it holds. -/
def FrameOk (s : Clock) : Option Frame → Prop
  | some (.read oldTime) => oldTime ≤ s.lastReadCSTimestamp
  | some (.compareExchange oldTime newTime) =>
    oldTime ≤ s.lastReadCSTimestamp ∧ oldTime ≤ newTime
      ∧ newTime ≤ s.now
  | _ => True

theorem FrameOk.mono {s s' : Clock} {call : Option Frame} (h : FrameOk s call)
    (hlast : s.lastReadCSTimestamp ≤ s'.lastReadCSTimestamp)
    (hnow : s.now ≤ s'.now) : FrameOk s' call := by
  match call with
  | none => trivial
  | some .load => trivial
  | some (.read _) => exact Nat.le_trans h hlast
  | some (.compareExchange _ _) =>
    exact ⟨h.1.trans hlast, h.2.1, h.2.2.trans hnow⟩
  | some (.addFetch ..) => trivial

/-- The ticks a call is about to add. -/
def pending : Option Frame → ℤ
  | some (.addFetch _ delta) => delta
  | _ => 0

/-- The timestamp a call has stored. -/
def stored : Option Frame → Option Nat
  | some (.addFetch newTime _) => some newTime
  | _ => none

/-- When the calls that have stored a timestamp read the counter, and
when the run began. -/
def Stamps (start : Nat) (own : Nat → Option Frame)
    (log : List (Option (Nat × Nat))) : Set Nat :=
  {t | t ∈ start :: log.reduceOption.map Prod.fst
    ∨ ∃ cpu, stored (own cpu) = some t}

/-- What a step of one CPU does to the timestamps. -/
theorem mem_stamps {own : Nat → Option Frame} {cpu : Nat}
    {call : Option Frame} {r : Option (Nat × Nat)} {t : Nat} :
    t ∈ Stamps start (update own cpu call) (log ++ [r])
      ↔ t ∈ start :: log.reduceOption.map Prod.fst ∨ r.map Prod.fst = some t
        ∨ stored call = some t ∨ ∃ u, u ≠ cpu ∧ stored (own u) = some t := by
  have hthreads : (∃ u, stored (update own cpu call u) = some t)
      ↔ stored call = some t ∨ ∃ u, u ≠ cpu ∧ stored (own u) = some t :=
    exists_update_iff own fun _ call => stored call = some t
  unfold Stamps
  rw [Set.mem_ofPred_eq, hthreads]
  cases r with
  | none => simp [List.reduceOption_append]
  | some q => simp [List.reduceOption_append, eq_comm, or_assoc]

/-- The timestamps before a step of one CPU. -/
theorem mem_stamps_at {own : Nat → Option Frame} (cpu : Nat) {t : Nat} :
    t ∈ Stamps start own log ↔ t ∈ start :: log.reduceOption.map Prod.fst
      ∨ stored (own cpu) = some t ∨ ∃ u, u ≠ cpu ∧ stored (own u) = some t := by
  have h : t ∈ Stamps start (update own cpu (own cpu)) (log ++ [none])
      ↔ _ := mem_stamps
  simpa [Stamps, List.reduceOption_append] using h

structure Inv (clock : ClockSource) (start : Nat) (m : Machine)
    (log : List (Option (Nat × Nat))) : Prop where
  past : m.shared.lastReadCSTimestamp ≤ m.shared.now
  frames : ∀ cpu, FrameOk m.shared (m.own cpu)
  latest : IsGreatest (Stamps start m.own log) m.shared.lastReadCSTimestamp
  /-- The ticks of the calls that have returned, and of those to come. -/
  sums : ∃ deltas : List Nat, deltas.length = log.reduceOption.length
    ∧ m.shared.monotimestamp
      = (deltas.map clock.calibrationData.ticksToNanos).sum % 2 ^ 64
    ∧ Pool.Total (fun cpu => pending (m.own cpu))
      (m.shared.lastReadCSTimestamp - start - deltas.sum)

theorem boot_inv (clock : ClockSource) (start : Nat) :
    Inv clock start (boot start) [] := by
  refine ⟨le_rfl, fun _ => trivial, ⟨.inl List.mem_cons_self, ?_⟩, [],
    rfl, rfl, ?_⟩
  · rintro t (ht | ⟨_, ht⟩)
    · rw [List.mem_singleton.mp ht]
      exact le_rfl
    · cases ht
  have htotal : Pool.Total (fun _ : Nat => pending none) 0 :=
    Pool.total_zero fun _ => rfl
  simpa [boot] using htotal

/-- A step of a call that does not return. -/
theorem Inv.goes (h : Inv clock start m log) {cpu : Nat} {c : Choice}
    (s' : Clock) (call : Option Frame)
    (hnext : next clock cpu m.shared (m.own cpu) c = .ok (s', call, none))
    (hlast : m.shared.lastReadCSTimestamp ≤ s'.lastReadCSTimestamp)
    (hnow : m.shared.now ≤ s'.now) (hpast : s'.lastReadCSTimestamp ≤ s'.now)
    (hcall : FrameOk s' call)
    (hmono : s'.monotimestamp = m.shared.monotimestamp)
    (hticks : pending call - pending (m.own cpu)
      = s'.lastReadCSTimestamp - m.shared.lastReadCSTimestamp)
    (hstored : stored call = stored (m.own cpu)
        ∧ s'.lastReadCSTimestamp = m.shared.lastReadCSTimestamp
      ∨ stored call = some s'.lastReadCSTimestamp) :
    ∃ m' r, Pool.step (next clock) m (cpu, c) = .ok (m', r)
      ∧ Inv clock start m' (log ++ [r]) := by
  obtain ⟨deltas, hlen, hsum, htotal⟩ := h.sums
  refine ⟨_, _, Pool.step_ok hnext, hpast,
    (forall_update_iff m.own fun _ call => FrameOk s' call).mpr
      ⟨hcall, fun u _ => (h.frames u).mono hlast hnow⟩, ?_, deltas,
    by simpa [List.reduceOption_append] using hlen, hmono.trans hsum, ?_⟩
  · rcases hstored with ⟨hsame, heq⟩ | hnew
    · rw [heq]
      convert h.latest using 1
      ext t
      rw [mem_stamps, mem_stamps_at cpu, hsame]
      simp
    · refine ⟨mem_stamps.mpr (.inr (.inr (.inl hnew))), fun t ht => ?_⟩
      rcases mem_stamps.mp ht with ht | ht | ht | ht
      · exact (h.latest.2 (.inl ht)).trans hlast
      · cases ht
      · rw [hnew] at ht
        cases ht
        exact le_rfl
      · exact (h.latest.2 ((mem_stamps_at cpu).mpr
          (.inr (.inr ht)))).trans hlast
  have hmove := htotal.move cpu call
  rw [hticks] at hmove
  convert hmove using 1
  ring

theorem step_inv (h : Inv clock start m log) {c : Nat × Choice}
    (hq : Pool.At (WithinPeriod clock) m c) :
    ∃ m' r, Pool.step (next clock) m c = .ok (m', r)
      ∧ Inv clock start m' (log ++ [r]) := by
  obtain ⟨cpu, c⟩ := c
  have hok := h.frames cpu
  have hpast := h.past
  cases c with
  | tick =>
    exact h.goes _ _ rfl le_rfl (Nat.le_succ _)
      (hpast.trans (Nat.le_succ _)) (hok.mono le_rfl (Nat.le_succ _)) rfl
      (by simp) (.inl ⟨rfl, rfl⟩)
  | step =>
    match hcall : m.own cpu with
    | none =>
      exact h.goes m.shared (some .load) (by rw [hcall]; rfl) le_rfl
        le_rfl hpast trivial rfl (by rw [hcall]; simp [pending])
        (.inl ⟨by rw [hcall]; rfl, rfl⟩)
    | some .load =>
      exact h.goes m.shared (some (.read m.shared.lastReadCSTimestamp))
        (by rw [hcall]; rfl) le_rfl le_rfl hpast le_rfl rfl
        (by rw [hcall]; simp [pending]) (.inl ⟨by rw [hcall]; rfl, rfl⟩)
    | some (.read oldTime) =>
      rw [hcall] at hok
      exact h.goes m.shared (some (.compareExchange oldTime m.shared.now))
        (by rw [hcall]; rfl) le_rfl le_rfl hpast
        ⟨hok, Nat.le_trans hok hpast, le_rfl⟩ rfl
        (by rw [hcall]; simp [pending]) (.inl ⟨by rw [hcall]; rfl, rfl⟩)
    | some (.compareExchange oldTime newTime) =>
      rw [hcall] at hok
      obtain ⟨hold, hle, hnew⟩ := hok
      have hlt : WithinPeriod clock cpu m.shared (m.own cpu) .step := hq
      rw [hcall] at hlt
      by_cases heq : clock.read m.shared.lastReadCSTimestamp
          = clock.read oldTime
      · -- the timestamp has not come round to the same word
        have hsame : m.shared.lastReadCSTimestamp = oldTime := by
          unfold ClockSource.read ClockSource.mask at heq
          rw [Nat.and_two_pow_sub_one_eq_mod,
            Nat.and_two_pow_sub_one_eq_mod] at heq
          have hzero := Nat.sub_mod_eq_zero_of_mod_eq heq
          rw [Nat.mod_eq_of_lt (Nat.sub_lt_left_of_lt_add hold
            (Nat.lt_of_le_of_lt hpast hlt))] at hzero
          omega
        refine h.goes { m.shared with lastReadCSTimestamp := newTime }
          (some (.addFetch newTime (newTime - oldTime))) ?_
          (by rw [hsame]; exact hle) le_rfl hnew trivial rfl
          (by rw [hcall, hsame]; simp [pending, hle]) (.inr rfl)
        rw [hcall, ← delta_eq hle (Nat.lt_of_le_of_lt hnew hlt)]
        exact if_pos heq
      · exact h.goes m.shared (some .load)
          (by rw [hcall]; exact if_neg heq) le_rfl le_rfl hpast trivial
          rfl (by rw [hcall]; simp [pending])
          (.inl ⟨by rw [hcall]; rfl, rfl⟩)
    | some (.addFetch newTime delta) =>
      obtain ⟨deltas, hlen, hsum, htotal⟩ := h.sums
      let sum := (m.shared.monotimestamp
        + clock.calibrationData.ticksToNanos delta) % 2 ^ 64
      have hnext : next clock cpu m.shared (m.own cpu) .step = .ok
          ({ m.shared with monotimestamp := sum }, none,
            some (newTime, sum)) := by
        rw [hcall]
        rfl
      refine ⟨_, _, Pool.step_ok hnext, hpast,
        (forall_update_iff m.own fun _ call => FrameOk _ call).mpr
          ⟨trivial, fun u _ => (h.frames u).mono le_rfl le_rfl⟩, ?_,
        deltas ++ [delta], by simp [List.reduceOption_append, hlen],
        by simp [sum, hsum], ?_⟩
      · convert h.latest using 1
        ext t
        rw [mem_stamps, mem_stamps_at cpu, hcall]
        simp [stored]
      have hmove := htotal.move cpu none
      rw [hcall] at hmove
      convert hmove using 1
      simp [pending]
      ring

/-- However the calls interleave: with none in progress, the elapsed
ticks are those up to the latest counter read of a call, and the time
lags behind them by less than a nanosecond for every call made, and by
one at most if there were two, or if a tick is a whole number of
nanoseconds. -/
theorem monoTimens_lag {sched : List (Nat × Choice)}
    (hq : Along (Pool.step (next clock)) (Pool.At (WithinPeriod clock))
      (boot start) sched) :
    ∃ m rs, run (Pool.step (next clock)) (boot start) sched = .ok (m, rs)
      ∧ ∀ ticks, m.shared.lastReadCSTimestamp = start + ticks →
        (∀ cpu, m.own cpu = none) →
        IsGreatest {t | t ∈ start :: rs.reduceOption.map Prod.fst}
          (start + ticks)
        ∧ (ticks * clock.calibrationData.period < 2 ^ 128 →
          m.shared.monotimestamp ≤ clock.calibrationData.ticksToNanos ticks
          ∧ clock.calibrationData.ticksToNanos ticks
            ≤ m.shared.monotimestamp + (rs.reduceOption.length - 1)
          ∧ (rs.reduceOption.length ≤ 2
              ∨ 2 ^ 64 ∣ clock.calibrationData.period →
            clock.calibrationData.ticksToNanos ticks
              ≤ m.shared.monotimestamp + 1)) := by
  obtain ⟨m, rs, hrun, hinv⟩ := run_logs (I := Inv clock start)
    (fun _ _ _ h hq => step_inv h hq) (boot_inv clock start) hq
  refine ⟨m, rs, hrun, fun ticks hticks hquiet => ⟨?_, fun hfits => ?_⟩⟩
  · rw [← hticks]
    convert hinv.latest using 1
    ext t
    simp [Stamps, hquiet, stored]
  obtain ⟨deltas, hlen, hsum, htotal⟩ := hinv.sums
  have hall : deltas.sum = ticks := by
    have := htotal.eq_zero fun cpu => by rw [hquiet cpu]; rfl
    omega
  rw [← hall] at hfits ⊢
  obtain ⟨hle, hge, hexact⟩ := sum_ticksToNanos _ deltas hfits
  have hbound := ticksToNanos_eq _ hfits
  rw [Nat.mod_eq_of_lt (by omega)] at hsum
  rw [hsum, ← hlen]
  refine ⟨hle, hge, ?_⟩
  rintro (htwo | hdvd)
  · omega
  · have := hexact hdvd
    omega

/-- A counter of 64 bits at two gigahertz. -/
def tsc : ClockSource where
  calibrationData := { freq := 2 ^ 65, period := 2 ^ 63 }
  width := 64
  width_le := le_rfl

/-- Two CPUs read the counter one after the other, the first gets its
timestamp in, and the second has to read again. -/
def twoCPUs : List (Nat × Choice) :=
  (0, .tick) :: List.replicate 3 (0, .step) ++ List.replicate 3 (1, .step)
    ++ [(0, .step), (1, .step), (0, .tick), (0, .tick)]
    ++ List.replicate 4 (1, .step) ++ [(0, .step)]

theorem monoTimens_lag_twoCPUs :
    ∃ m rs, run (Pool.step (next tsc)) (boot 7) twoCPUs = .ok (m, rs)
      ∧ rs.reduceOption = [(10, 1), (8, 1)]
      ∧ IsGreatest {t | t ∈ 7 :: rs.reduceOption.map Prod.fst} (7 + 3)
      ∧ tsc.calibrationData.ticksToNanos 3 ≤ m.shared.monotimestamp + 1 := by
  obtain ⟨m, rs, hrun, hlag⟩ := @monoTimens_lag tsc 7 twoCPUs
    (by decide +kernel)
  obtain ⟨m', rs', hrun', hreads, hlast, h0, h1⟩ : ∃ m rs,
      run (Pool.step (next tsc)) (boot 7) twoCPUs = .ok (m, rs)
        ∧ rs.reduceOption = [(10, 1), (8, 1)]
        ∧ m.shared.lastReadCSTimestamp = 7 + 3
        ∧ m.own 0 = none ∧ m.own 1 = none := by decide +kernel
  rw [hrun] at hrun'
  cases hrun'
  obtain ⟨hlatest, htime⟩ := hlag 3 hlast fun cpu => by
    match cpu with
    | 0 => exact h0
    | 1 => exact h1
    | cpu + 2 =>
      have hfirst : ∀ c ∈ twoCPUs, c.1 < 2 := by decide
      exact Pool.run_own hrun fun c hc => by have := hfirst c hc; omega
  exact ⟨m, rs, hrun, hreads, hlatest,
    (htime (by decide)).2.2 (.inl (by rw [hreads]; decide))⟩

/-- A call of `monoTimens`, one tick after the last. -/
def oneCall : List (Nat × Choice) := (0, .tick) :: List.replicate 5 (0, .step)

/-- Four calls a tick apart: two nanoseconds pass, none is counted. -/
theorem monoTimens_four_calls :
    FrequencyData.fromGHz 2 = .ok tsc.calibrationData
      ∧ ∃ m rs, run (Pool.step (next tsc)) (boot 7)
          (oneCall ++ oneCall ++ oneCall ++ oneCall) = .ok (m, rs)
        ∧ m.own 0 = none
        ∧ rs.reduceOption = [(8, 0), (9, 0), (10, 0), (11, 0)]
        ∧ m.shared.now = 7 + 4 ∧ m.shared.monotimestamp = 0
        ∧ tsc.calibrationData.ticksToNanos 4 = 2 := by
  decide +kernel

end CroCOS.Timing
