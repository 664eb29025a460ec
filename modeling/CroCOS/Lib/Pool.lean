/-
Threads over a shared state. `next t s l a` is one atomic step of
thread `t`: it finds the shared state `s` and its own state `l`, `a`
is what its program does next (a choice left to the environment), and
it leaves both states changed, or faults. A schedule is a list of
pairs of a thread and a choice, run by `Lib.run`: a statement about
every schedule is a statement about every sequentially consistent
interleaving, and since a schedule can stop anywhere it is one about
every state the system reaches.

# The rule

`Inv Good Own` is the shape of every invariant here: `Good` of the
shared state, and for each thread an assertion `Own t` of the shared
state and its own. A step owes three things (`Keeps`): the shared
state stays good, the stepping thread's assertion holds again, and no
other thread's assertion is disturbed. `run_safe` carries that to whole
schedules, and adds that nothing faults, for a condition `Q` on the
steps of the schedule.

# What a call shows

Where steps answer with events, `run_answered` follows each thread from a
call on: `S` relates where the call is to what it has shown.

# What a thread has

What one thread holds no other does (`exclusive_update`), or somebody is
in charge (`exists_update`): the step owes only what the moving thread
does.

# Totals

`Total f x` says that what the threads have adds up to `x`: for a shared
value that every thread may have changed and not yet accounted for.
-/
import CroCOS.Lib.Run

namespace CroCOS.Lib

variable {σ τ α ρ ε : Type _}

/-- A shared state and one state per thread. -/
structure Pool (σ τ : Type _) where
  shared : σ
  own : Nat → τ

variable {m : Pool σ τ}

/-- What has been shown after a step that may show something. -/
def after (log : List ρ) (e : Option ρ) : List ρ := log ++ e.toList

theorem after_reduceOption (rs : List (Option ρ)) (e : Option ρ) :
    after rs.reduceOption e = (rs ++ [e]).reduceOption := by
  rw [List.reduceOption_append]
  cases e <;> rfl

namespace Pool

/-- One scheduled step: the chosen thread moves, the others wait. -/
def step (next : Nat → σ → τ → α → Except ε (σ × τ × ρ))
    (m : Pool σ τ) (c : Nat × α) : Except ε (Pool σ τ × ρ) :=
  match next c.1 m.shared (m.own c.1) c.2 with
  | .error e => .error e
  | .ok (s, l, r) => .ok (⟨s, Function.update m.own c.1 l⟩, r)

/-- Thread `t` takes the steps `as` in a row. -/
def burst (t : Nat) (as : List α) : List (Nat × α) := as.map fun a => (t, a)

/-- A condition on a step, read off the pool it is taken in. -/
def At (Q : Nat → σ → τ → α → Prop) (m : Pool σ τ) (c : Nat × α) : Prop :=
  Q c.1 m.shared (m.own c.1) c.2

instance {Q : Nat → σ → τ → α → Prop} [∀ t s l a, Decidable (Q t s l a)]
    (m : Pool σ τ) (c : Nat × α) : Decidable (At Q m c) :=
  inferInstanceAs (Decidable (Q _ _ _ _))

/-- The shared state is good and every thread's assertion holds. -/
structure Inv (Good : σ → Prop) (Own : Nat → σ → τ → Prop)
    (m : Pool σ τ) : Prop where
  good : Good m.shared
  own : ∀ t, Own t m.shared (m.own t)

/-- What a step that meets `Q` owes: its own assertion and the shared
invariant again, and everyone else's assertion undisturbed. -/
def Keeps (next : Nat → σ → τ → α → Except ε (σ × τ × ρ))
    (Q : Nat → σ → τ → α → Prop) (Good : σ → Prop)
    (Own : Nat → σ → τ → Prop) : Prop :=
  ∀ t s l a s' l' r, Good s → Own t s l → Q t s l a →
    next t s l a = .ok (s', l', r) →
    Good s' ∧ Own t s' l' ∧ ∀ u k, u ≠ t → Own u s k → Own u s' k

/-- What a step that meets `Q` never does: fault. -/
def Safe (next : Nat → σ → τ → α → Except ε (σ × τ × ρ))
    (Q : Nat → σ → τ → α → Prop) (Good : σ → Prop)
    (Own : Nat → σ → τ → Prop) : Prop :=
  ∀ t s l a, Good s → Own t s l → Q t s l a →
    ∃ s' l' r, next t s l a = .ok (s', l', r)

variable {next : Nat → σ → τ → α → Except ε (σ × τ × ρ)}
variable {Q : Nat → σ → τ → α → Prop} {Good : σ → Prop}
variable {Own : Nat → σ → τ → Prop}

theorem step_ok {c : Nat × α} {s : σ} {l : τ} {r : ρ}
    (h : next c.1 m.shared (m.own c.1) c.2 = .ok (s, l, r)) :
    step next m c = .ok (⟨s, Function.update m.own c.1 l⟩, r) := by
  unfold step
  rw [h]

/-- A successful step, unpacked. -/
theorem step_inv {m' : Pool σ τ} {c : Nat × α} {r : ρ}
    (h : step next m c = .ok (m', r)) :
    ∃ s l, next c.1 m.shared (m.own c.1) c.2 = .ok (s, l, r)
      ∧ m' = ⟨s, Function.update m.own c.1 l⟩ := by
  unfold step at h
  cases hn : next c.1 m.shared (m.own c.1) c.2 with
  | error e => rw [hn] at h; cases h
  | ok p =>
    obtain ⟨s, l, r'⟩ := p
    rw [hn] at h
    cases h
    exact ⟨s, l, rfl, rfl⟩

/-- A thread that is not scheduled stays where it is. -/
theorem run_own {t : Nat} : ∀ {as : List (Nat × α)} {m m' : Pool σ τ}
    {rs : List ρ}, run (step next) m as = .ok (m', rs) →
    (∀ c ∈ as, c.1 ≠ t) → m'.own t = m.own t := by
  intro as
  induction as with
  | nil =>
    intro m m' rs h _
    cases h
    rfl
  | cons c as ih =>
    intro m m' rs h ht
    obtain ⟨hc, has⟩ := List.forall_mem_cons.mp ht
    obtain ⟨m₁, r, rs₁, hs, hrest, -⟩ := run_cons_inv h
    obtain ⟨s, l, -, rfl⟩ := step_inv hs
    exact (ih hrest has).trans (Function.update_of_ne hc.symm ..)

/-- One step keeps the invariant. -/
theorem Inv.step (hk : Keeps next Q Good Own) {m' : Pool σ τ} {c : Nat × α}
    {r : ρ} (hI : Inv Good Own m) (hq : At Q m c)
    (h : step next m c = .ok (m', r)) : Inv Good Own m' := by
  obtain ⟨s, l, hn, rfl⟩ := step_inv h
  obtain ⟨hg, ho, hrest⟩ := hk _ _ _ _ _ _ _ hI.good (hI.own _) hq hn
  refine ⟨hg, fun u => ?_⟩
  by_cases hu : u = c.1
  · subst hu
    show Own c.1 s (Function.update m.own c.1 l c.1)
    rw [Function.update_self]
    exact ho
  · show Own u s (Function.update m.own c.1 l u)
    rw [Function.update_of_ne hu]
    exact hrest u _ hu (hI.own u)

theorem step_safe (hk : Keeps next Q Good Own)
    (hs : Safe next Q Good Own) {m : Pool σ τ} {c : Nat × α}
    (hI : Inv Good Own m) (hq : At Q m c) :
    ∃ m' r, step next m c = .ok (m', r) ∧ Inv Good Own m' := by
  obtain ⟨s, l, r, hn⟩ := hs _ _ _ _ hI.good (hI.own c.1) hq
  exact ⟨_, r, step_ok hn, hI.step hk hq (step_ok hn)⟩

/-- Every schedule whose steps meet `Q` runs to its end, and keeps the
invariant. -/
theorem run_safe (hk : Keeps next Q Good Own) (hs : Safe next Q Good Own)
    {as : List (Nat × α)} (hI : Inv Good Own m)
    (hal : Along (step next) (At Q) m as) :
    ∃ m' rs, run (step next) m as = .ok (m', rs) ∧ Inv Good Own m' :=
  Lib.run_safe (fun _ _ => step_safe hk hs) hI hal

/-- What holds from a step on, in the setting of `run_safe`. -/
theorem run_since (hk : Keeps next Q Good Own) (hs : Safe next Q Good Own)
    {J : Pool σ τ → Pool σ τ → Prop} {c : Nat × α} {as bs : List (Nat × α)}
    (hcall : ∀ m m' r, Inv Good Own m → At Q m c →
      step next m c = .ok (m', r) → J m m')
    (hkeep : ∀ m₀ m b m' r, Inv Good Own m → J m₀ m → At Q m b →
      step next m b = .ok (m', r) → J m₀ m')
    (hI : Inv Good Own m) (hal : Along (step next) (At Q) m (as ++ c :: bs)) :
    ∃ m₀ qs m' rs, run (step next) m as = .ok (m₀, qs)
      ∧ run (step next) m (as ++ c :: bs) = .ok (m', rs)
      ∧ Inv Good Own m₀ ∧ Inv Good Own m' ∧ J m₀ m' :=
  Lib.run_since (fun _ _ => step_safe hk hs) hcall hkeep hI hal

/-- Every schedule whose steps meet `Q` runs to its end, and its answers
can be replayed on the abstract state. -/
theorem run_replays {μ : Type _} (abs : σ → μ) {app : μ → ρ → Option μ}
    (hk : Keeps next Q Good Own)
    (hs : ∀ t s l a, Good s → Own t s l → Q t s l a →
      ∃ s' l' r, next t s l a = .ok (s', l', r)
        ∧ app (abs s) r = some (abs s')) {as : List (Nat × α)}
    (hI : Inv Good Own m) (hal : Along (step next) (At Q) m as) :
    ∃ m' rs, run (step next) m as = .ok (m', rs) ∧ Inv Good Own m'
      ∧ rs.foldlM app (abs m.shared) = some (abs m'.shared) := by
  refine Lib.run_replays (fun m : Pool σ τ => abs m.shared)
    (fun m c hI hq => ?_) hI hal
  obtain ⟨s, l, r, hn, happ⟩ := hs _ _ _ _ hI.good (hI.own c.1) hq
  exact ⟨_, r, step_ok hn, hI.step hk hq (step_ok hn), happ⟩

-- ==== what a call shows

section Shows

variable {next : Nat → σ → τ → α → Except ε (σ × τ × Option ρ)}

/-- What the steps of thread `t` answer. -/
def shownBy (t : Nat) (as : List (Nat × α)) (rs : List (Option ρ)) : List ρ :=
  (as.zip rs).filterMap fun p => if p.1.1 = t then p.2 else none

theorem shownBy_cons (t : Nat) (c : Nat × α) (as : List (Nat × α))
    (r : Option ρ) (rs : List (Option ρ)) :
    shownBy t (c :: as) (r :: rs)
      = (if c.1 = t then r.toList else []) ++ shownBy t as rs := by
  unfold shownBy
  rw [List.zip_cons_cons]
  by_cases ht : c.1 = t
  · cases r <;> simp [ht]
  · simp [ht]

/-- A thread's own state and what it has shown, step by step. -/
theorem run_shows {t : Nat} {w : α} {S : τ → List ρ → Prop}
    (hstep : ∀ s l s' l' r es, S l es → next t s l w = .ok (s', l', r) →
      S l' (es ++ r.toList)) :
    ∀ {as : List (Nat × α)} {m m' : Pool σ τ} {rs : List (Option ρ)}
      (es : List ρ), run (step next) m as = .ok (m', rs) →
      (∀ c ∈ as, c.1 = t → c.2 = w) → S (m.own t) es →
      S (m'.own t) (es ++ shownBy t as rs) := by
  intro as
  induction as with
  | nil =>
    intro m m' rs es h _ hes
    cases h
    rw [shownBy, List.zip_nil_left, List.filterMap_nil, List.append_nil]
    exact hes
  | cons c as ih =>
    intro m m' rs es h hw hes
    obtain ⟨hc, has⟩ := List.forall_mem_cons.mp hw
    obtain ⟨m₁, r, rs₁, hs, hrest, rfl⟩ := run_cons_inv h
    obtain ⟨s, l, hn, rfl⟩ := step_inv hs
    rw [shownBy_cons, ← List.append_assoc]
    refine ih _ hrest has ?_
    show S (Function.update m.own c.1 l t) _
    by_cases ht : c.1 = t
    · subst ht
      rw [hc rfl] at hn
      rw [if_pos rfl, Function.update_self]
      exact hstep _ _ _ _ _ es hes hn
    · rw [if_neg ht, List.append_nil, Function.update_of_ne (Ne.symm ht)]
      exact hes

/-- What a thread that was at `l₀` in `m₀` and is there again has shown
since it made the choice `a`, and no other but `w`, is as `A` has it. -/
def Answered (next : Nat → σ → τ → α → Except ε (σ × τ × Option ρ)) (l₀ : τ)
    (w : α) (A : Pool σ τ → Nat → α → List ρ → Prop) (m : Pool σ τ)
    (as : List (Nat × α)) (m' : Pool σ τ) (rs : List (Option ρ)) : Prop :=
  ∀ before t a later m₀ qs r ps, as = before ++ (t, a) :: later →
    run (step next) m before = .ok (m₀, qs) → rs = qs ++ r :: ps →
    m₀.own t = l₀ → (∀ c ∈ later, c.1 = t → c.2 = w) → m'.own t = l₀ →
    A m₀ t a (shownBy t later ps)

theorem run_answered {l₀ : τ} {w : α}
    {S : Pool σ τ → Nat → α → τ → List ρ → Prop} {as : List (Nat × α)}
    {m' : Pool σ τ} {rs : List (Option ρ)}
    (hcall : ∀ m₀ t a s l r, next t m₀.shared l₀ a = .ok (s, l, r) →
      S m₀ t a l [])
    (hstep : ∀ m₀ t a s l s' l' r es, S m₀ t a l es →
      next t s l w = .ok (s', l', r) → S m₀ t a l' (es ++ r.toList))
    (hrun : run (step next) m as = .ok (m', rs)) :
    Answered next l₀ w (fun m₀ t a es => S m₀ t a l₀ es) m as m' rs := by
  intro before t a later m₀ qs r ps has hbefore hrs hidle hlater hend
  subst has
  obtain ⟨m₀', qs', ps', hqs, hps, rfl⟩ := run_append_inv hrun
  rw [hbefore] at hqs
  cases hqs
  obtain ⟨m₁, r', ps'', hs, hrest, rfl⟩ := run_cons_inv hps
  cases List.append_cancel_left hrs
  obtain ⟨s, l, hn, rfl⟩ := step_inv hs
  rw [hidle] at hn
  have hshown := run_shows (S := S m₀ t a) (hstep m₀ t a) [] hrest hlater
    (by simpa only [Function.update_self] using hcall m₀ t a s l r hn)
  rwa [List.nil_append, hend] at hshown

end Shows

-- ==== what a thread has

section Has

variable {κ : Type _} {own : Nat → τ} {t : Nat} {l : τ}

/-- Somebody is in charge: the moving thread still, if it was. -/
theorem exists_update {P : τ → Prop} (h : ∃ u, P (own u))
    (hpass : P (own t) → P l) : ∃ u, P (Function.update own t l u) := by
  obtain ⟨u, hu⟩ := h
  by_cases hut : u = t
  · rw [hut] at hu
    exact ⟨t, by rw [Function.update_self]; exact hpass hu⟩
  · exact ⟨u, by rw [Function.update_of_ne hut]; exact hu⟩

/-- Nobody else holds what the moving thread holds now. -/
theorem exclusive_update {H : τ → κ → Prop}
    (h : ∀ u v k, H (own u) k → H (own v) k → u = v)
    (hnew : ∀ u k, u ≠ t → H l k → ¬ H (own u) k) (u v : Nat) (k : κ)
    (hu : H (Function.update own t l u) k)
    (hv : H (Function.update own t l v) k) : u = v := by
  by_cases hut : u = t
  · by_cases hvt : v = t
    · rw [hut, hvt]
    · rw [hut, Function.update_self] at hu
      rw [Function.update_of_ne hvt] at hv
      exact absurd hv (hnew v k hvt hu)
  · rw [Function.update_of_ne hut] at hu
    by_cases hvt : v = t
    · rw [hvt, Function.update_self] at hv
      exact absurd hu (hnew u k hut hv)
    · rw [Function.update_of_ne hvt] at hv
      exact h u v k hu hv

end Has

-- ==== totals

section Totals

variable {M : Type _} [AddCommGroup M] {f : Nat → M} {x : M}

/-- Finitely many threads have something, and it adds up to `x`. -/
def Total (f : Nat → M) (x : M) : Prop :=
  ∃ s : Finset Nat, (∀ t, t ∉ s → f t = 0) ∧ ∑ t ∈ s, f t = x

theorem total_zero (h : ∀ t, f t = 0) : Total f 0 :=
  ⟨∅, fun t _ => h t, Finset.sum_empty⟩

theorem Total.eq_zero (h : Total f x) (hf : ∀ t, f t = 0) : x = 0 := by
  obtain ⟨s, -, rfl⟩ := h
  exact Finset.sum_eq_zero fun t _ => hf t

theorem Total.nonneg [PartialOrder M] [IsOrderedAddMonoid M]
    (h : Total f x) (hf : ∀ t, 0 ≤ f t) : 0 ≤ x := by
  obtain ⟨s, -, rfl⟩ := h
  exact Finset.sum_nonneg fun t _ => hf t

/-- One thread's part changes, and the total with it. -/
theorem Total.update (h : Total f x) (t : Nat) (v : M) :
    Total (Function.update f t v) (x + (v - f t)) := by
  obtain ⟨s, hs, rfl⟩ := h
  have hsum : ∑ u ∈ insert t s, f u = ∑ u ∈ s, f u :=
    (Finset.sum_subset (Finset.subset_insert t s)
      fun u _ hu => hs u hu).symm
  refine ⟨insert t s, fun u hu => ?_, ?_⟩
  · rw [Finset.mem_insert, not_or] at hu
    rw [Function.update_of_ne hu.1, hs u hu.2]
  · have ht := Finset.mem_insert_self t s
    rw [Finset.sum_update_of_mem ht, ← hsum,
      ← Finset.add_sum_erase _ _ ht, Finset.sdiff_singleton_eq_erase]
    abel

/-- A thread has no more than all together. -/
theorem Total.le [PartialOrder M] [IsOrderedAddMonoid M] (h : Total f x)
    (hf : ∀ u, 0 ≤ f u) (t : Nat) : f t ≤ x := by
  have hrest := (h.update t 0).nonneg fun u => by
    by_cases hu : u = t
    · rw [hu, Function.update_self]
    · rw [Function.update_of_ne hu]
      exact hf u
  rwa [zero_sub, ← sub_eq_add_neg, sub_nonneg] at hrest

/-- A part of what the threads have, added up on its own. -/
theorem Total.map {N : Type _} [AddCommGroup N] (h : Total f x)
    (φ : M →+ N) : Total (fun t => φ (f t)) (φ x) := by
  obtain ⟨s, hs, rfl⟩ := h
  exact ⟨s, fun t ht => (congrArg φ (hs t ht)).trans (map_zero φ),
    (map_sum φ f s).symm⟩

/-- A thread moves, and what it has with it. -/
theorem Total.move {g : τ → M} {own : Nat → τ}
    (h : Total (fun u => g (own u)) x) (t : Nat) (l : τ) :
    Total (fun u => g (Function.update own t l u)) (x + (g l - g (own t))) := by
  have hcomp : (fun u => g (Function.update own t l u))
      = Function.update (fun u => g (own u)) t (g l) :=
    Function.comp_update g own t l
  rw [hcomp]
  exact h.update t (g l)

end Totals

end Pool

end CroCOS.Lib
