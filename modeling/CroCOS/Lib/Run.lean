/-
Runs of a fallible step function: a state, a list of calls, and the
answers collected along the way. A component modelled as
`step : σ → α → Except ε (σ × ρ)` is run by `run`; its purpose is
stated as a total function `spec : μ → α → μ × ρ` on abstract states,
run by `specRun`.

# The two induction rules

- `run_refines`: a simulation relation that one call preserves (under
  a condition on the state the call finds) is preserved by every run
  whose calls all meet the condition, and the answers agree.
- `Along_of_run_ok`: the other direction. If a call that misses the
  condition faults, a run that does not fault met the condition at
  every call.

Together they make "behaves as specified" and "meets the condition at
every call" one and the same (`run_refines_iff`). `run_invariant` is
the plain safety rule: what one call preserves, a run preserves;
`run_safe` adds that the run does not fault, `run_replays` that its
answers can be replayed on an abstract state.
`run_tracks` carries an invariant that speaks of the calls made so far,
through what is learnt from them, `run_logs` one that speaks of the
answers so far, and `run_filter` compares a run with
the one that leaves some of its calls out.
`run_refines_rel` is the simulation rule for a purpose that leaves a
choice open, stated as a relation and run by `SpecRuns`.
-/
import Mathlib

namespace CroCOS.Lib

open Function

variable {σ α ρ ε μ : Type _}
variable {I : σ → Prop} {a : α} {as bs : List α} {rs : List ρ} {s s' : σ}
variable {β γ τ : Type _}
variable {put : (α → β) → α → Except ε (α → β)}

-- ==== runs

/-- Run the calls in order, collecting the answers; the first fault
ends the run. -/
def run (step : σ → α → Except ε (σ × ρ)) : σ → List α → Except ε (σ × List ρ)
  | s, [] => .ok (s, [])
  | s, a :: as =>
    match step s a with
    | .error e => .error e
    | .ok (s', r) =>
      match run step s' as with
      | .error e => .error e
      | .ok (s'', rs) => .ok (s'', r :: rs)

/-- The answers of the specification, which never faults. -/
def specRun (spec : μ → α → μ × ρ) : μ → List α → μ × List ρ
  | m, [] => (m, [])
  | m, a :: as =>
    let (m', r) := spec m a
    let (m'', rs) := specRun spec m' as
    (m'', r :: rs)

/-- Every call of the run is made in a state that meets `P`. -/
def Along (step : σ → α → Except ε (σ × ρ)) (P : σ → α → Prop) :
    σ → List α → Prop
  | _, [] => True
  | s, a :: as =>
    P s a ∧ ∀ s' r, step s a = .ok (s', r) → Along step P s' as

/-- Every call is one that `P` allows in the state of the specification
it finds. -/
def SpecAlong (spec : μ → α → μ × ρ) (P : μ → α → Prop) : μ → List α → Prop
  | _, [] => True
  | m, a :: as => P m a ∧ SpecAlong spec P (spec m a).1 as

/-- The fault a computation ended in. -/
def faultOf {τ : Type _} : Except ε τ → Option ε
  | .error e => some e
  | .ok _ => none

/-- Faulting is decided without comparing states. -/
theorem eq_error_of_faultOf {x : Except ε τ} {e : ε}
    (h : faultOf x = some e) : x = .error e := by
  cases x with
  | error e' => rw [Option.some.inj h]
  | ok t => cases h

/-- A computation that returns, and what it returns satisfies `P`. -/
def Returns {τ : Type _} (P : τ → Prop) : Except ε τ → Prop
  | .error _ => False
  | .ok t => P t

instance {τ : Type _} {P : τ → Prop} [DecidablePred P] :
    ∀ x : Except ε τ, Decidable (Returns P x)
  | .error _ => isFalse id
  | .ok t => inferInstanceAs (Decidable (P t))

theorem Returns.exists_ok {P : τ → Prop} {x : Except ε τ} (h : Returns P x) :
    ∃ t, x = .ok t ∧ P t := by
  cases x with
  | error e => cases h
  | ok t => exact ⟨t, rfl, h⟩

/-- What a computation returns is decided by running it. -/
instance decidableExistsOk {P : τ → Prop} [DecidablePred P] {x : Except ε τ} :
    Decidable (∃ t, x = .ok t ∧ P t) :=
  decidable_of_iff (Returns P x)
    ⟨Returns.exists_ok, fun ⟨_, hx, hP⟩ => hx ▸ hP⟩

instance decidableExistsOkPair {P : σ → ρ → Prop} [∀ s r, Decidable (P s r)]
    {x : Except ε (σ × ρ)} : Decidable (∃ s r, x = .ok (s, r) ∧ P s r) :=
  decidable_of_iff (∃ q, x = .ok q ∧ P q.1 q.2) Prod.exists

instance decidableExistsOkFst {P : σ → Prop} [DecidablePred P] [DecidableEq ρ]
    {x : Except ε (σ × ρ)} {r : ρ} : Decidable (∃ s, x = .ok (s, r) ∧ P s) :=
  decidable_of_iff (∃ s r', x = .ok (s, r') ∧ r' = r ∧ P s)
    (exists_congr fun _ => ⟨fun ⟨_, hx, hr, hP⟩ => ⟨hr ▸ hx, hP⟩,
      fun ⟨hx, hP⟩ => ⟨r, hx, rfl, hP⟩⟩)

/-- So is what a second computation makes of it. -/
instance decidableExistsOkThen {P : τ → α → Prop}
    [∀ t, Decidable (∃ a, P t a)] {x : Except ε τ} :
    Decidable (∃ t a, x = .ok t ∧ P t a) :=
  decidable_of_iff (∃ t, x = .ok t ∧ ∃ a, P t a)
    (exists_congr fun _ => exists_and_left.symm)

instance decidableEqError [DecidableEq ε] {x : Except ε τ} {e : ε} :
    Decidable (x = .error e) :=
  decidable_of_iff (faultOf x = some e)
    ⟨eq_error_of_faultOf, fun h => by rw [h]; rfl⟩

/-- The first step of a computation that returns. -/
theorem bind_inv {x : Except ε α} {f : α → Except ε β} {b : β}
    (h : x >>= f = .ok b) : ∃ a, x = .ok a ∧ f a = .ok b := by
  cases x with
  | error e => cases h
  | ok a => exact ⟨a, rfl, h⟩

theorem map_inv {x : Except ε α} {f : α → β} {b : β} (h : x.map f = .ok b) :
    ∃ a, x = .ok a ∧ f a = b := by
  cases x with
  | error e => cases h
  | ok a =>
    injection h with h
    exact ⟨a, rfl, h⟩

theorem map_bind (x : Except ε α) (f : α → Except ε β) (h : β → γ) :
    (x >>= f).map h = x >>= fun a => (f a).map h := by
  cases x with
  | error e | ok a => rfl

/-- A loop that sets one entry after the other, none of them computed
from the others: what was there before does not matter. -/
theorem foldlM_update_congr [DecidableEq α] (value : α → Except ε β)
    (hput : ∀ m a, put m a = (value a).map (update m a)) :
    ∀ {as : List α} {m m' : α → β}, (∀ a, a ∉ as → m a = m' a) →
      as.foldlM put m = as.foldlM put m' := by
  intro as
  induction as with
  | nil =>
    intro m m' h
    rw [funext fun a => h a List.not_mem_nil]
  | cons a as ih =>
    intro m m' h
    rw [List.foldlM_cons, List.foldlM_cons, hput, hput]
    cases value a with
    | error e => rfl
    | ok b =>
      refine ih fun c hc => ?_
      by_cases hca : c = a
      · rw [hca, update_self, update_self]
      · rw [update_of_ne hca, update_of_ne hca]
        refine h c fun hx => ?_
        cases List.mem_cons.mp hx with
        | inl hx => exact hca hx
        | inr hx => exact hc hx

/-- Such a loop leaves the other entries alone. -/
theorem foldlM_update_of_notMem [DecidableEq α] (value : α → Except ε β)
    (hput : ∀ m a, put m a = (value a).map (update m a)) :
    ∀ {as : List α} {m m' : α → β}, as.foldlM put m = .ok m' →
      ∀ a, a ∉ as → m' a = m a := by
  intro as
  induction as with
  | nil =>
    intro m m' h a _
    cases h
    rfl
  | cons b as ih =>
    intro m m' h a ha
    rw [List.foldlM_cons, hput] at h
    obtain ⟨n, hn, h⟩ := bind_inv h
    cases hv : value b with
    | error e => rw [hv] at hn; cases hn
    | ok c =>
      rw [hv] at hn
      cases hn
      rw [ih h a fun hx => ha (List.mem_cons_of_mem b hx)]
      exact update_of_ne
        (fun hab => ha (by rw [hab]; exact List.mem_cons_self)) _ _

/-- A loop whose every turn returns, with an invariant that speaks of the
turns made so far and of those to come. -/
theorem foldlM_splits {f : τ → β → Except ε τ} {I : List β → τ → Prop}
    {l : List β} {t : τ}
    (hturn : ∀ done b rest, l = done ++ b :: rest → ∀ t, I done t →
      ∃ t', f t b = .ok t' ∧ I (done ++ [b]) t') (h : I [] t) :
    ∃ t', l.foldlM f t = .ok t' ∧ I l t' := by
  have hrest : ∀ {rest done : List β} {t : τ}, l = done ++ rest →
      I done t → ∃ t', rest.foldlM f t = .ok t' ∧ I l t' := by
    intro rest
    induction rest with
    | nil =>
      intro done t hl h
      exact ⟨t, rfl, by rw [hl, List.append_nil]; exact h⟩
    | cons b rest ih =>
      intro done t hl h
      obtain ⟨t₁, hf, h₁⟩ := hturn done b rest hl t h
      obtain ⟨t', hloop, h'⟩ := ih (by simpa using hl) h₁
      refine ⟨t', ?_, h'⟩
      rw [List.foldlM_cons, hf]
      exact hloop
  exact hrest rfl h

/-- The same where the turns to come do not matter. -/
theorem foldlM_tracks {f : τ → β → Except ε τ} {I : List β → τ → Prop}
    {l : List β} {t : τ} (hturn : ∀ done, ∀ b ∈ l, ∀ t, I done t →
      ∃ t', f t b = .ok t' ∧ I (done ++ [b]) t') (h : I [] t) :
    ∃ t', l.foldlM f t = .ok t' ∧ I l t' :=
  foldlM_splits (fun done b rest hl t ht => hturn done b
    (by rw [hl]; exact List.mem_append_right _ List.mem_cons_self) t ht) h

/-- A map whose every call returns. -/
theorem mapM_rel {f : β → Except ε γ} {Q : β → γ → Prop} :
    ∀ {bs : List β}, (∀ b ∈ bs, ∃ c, f b = .ok c ∧ Q b c) →
      ∃ cs, bs.mapM f = .ok cs ∧ List.Forall₂ Q bs cs := by
  intro bs
  induction bs with
  | nil => exact fun _ => ⟨[], rfl, .nil⟩
  | cons b bs ih =>
    intro h
    obtain ⟨c, hc, hq⟩ := h b List.mem_cons_self
    obtain ⟨cs, hcs, hqs⟩ := ih fun d hd => h d (List.mem_cons_of_mem b hd)
    refine ⟨c :: cs, ?_, .cons hq hqs⟩
    rw [List.mapM_cons, hc]
    rw [hcs]
    rfl

theorem mapM_eq_map {f : β → Except ε γ} {g : β → γ} {bs : List β}
    (h : ∀ b ∈ bs, f b = .ok (g b)) : bs.mapM f = .ok (bs.map g) := by
  obtain ⟨cs, hcs, hq⟩ := mapM_rel (Q := fun b c => g b = c)
    fun b hb => ⟨g b, h b hb, rfl⟩
  rw [← List.forall₂_map_left_iff, List.forall₂_eq_eq_eq] at hq
  rw [hcs, hq]

variable {step : σ → α → Except ε (σ × ρ)} {spec : μ → α → μ × ρ}
variable {P : σ → α → Prop} {R : σ → μ → Prop}

/-- A run that starts with a successful call continues from the state
it left. -/
theorem run_cons_ok {r : ρ} (as : List α) (h : step s a = .ok (s', r)) :
    run step s (a :: as)
      = match run step s' as with
        | .error e => .error e
        | .ok (s'', rs) => .ok (s'', r :: rs) := by
  rw [run, h]

/-- A successful run, unpacked at its first call. -/
theorem run_cons_inv {s'' : σ} (h : run step s (a :: as) = .ok (s'', rs)) :
    ∃ s' r rs', step s a = .ok (s', r)
      ∧ run step s' as = .ok (s'', rs') ∧ rs = r :: rs' := by
  rw [run] at h
  cases hs : step s a with
  | error e => rw [hs] at h; cases h
  | ok p =>
    obtain ⟨s', r⟩ := p
    rw [hs] at h
    cases hr : run step s' as with
    | error e => simp only [hr] at h; cases h
    | ok q =>
      obtain ⟨t, rs'⟩ := q
      simp only [hr] at h
      cases h
      exact ⟨s', r, rs', rfl, hr, rfl⟩

/-- Two runs, one after the other. -/
theorem run_append {t : σ} {qs ps : List ρ}
    (has : run step s as = .ok (t, qs)) (hbs : run step t bs = .ok (s', ps)) :
    run step s (as ++ bs) = .ok (s', qs ++ ps) := by
  induction as generalizing s qs with
  | nil =>
    cases has
    exact hbs
  | cons a as ih =>
    obtain ⟨u, r, rs', hs, hr, rfl⟩ := run_cons_inv has
    rw [List.cons_append, run, hs]
    simp only [ih hr, List.cons_append]

/-- A successful run, cut in two. -/
theorem run_append_inv (h : run step s (as ++ bs) = .ok (s', rs)) :
    ∃ t qs ps, run step s as = .ok (t, qs) ∧ run step t bs = .ok (s', ps)
      ∧ rs = qs ++ ps := by
  induction as generalizing s rs with
  | nil => exact ⟨s, [], rs, rfl, h, rfl⟩
  | cons a as ih =>
    obtain ⟨u, r, rs', hs, hr, rfl⟩ := run_cons_inv h
    obtain ⟨t, qs, ps, hqs, hps, rfl⟩ := ih hr
    refine ⟨t, r :: qs, ps, ?_, hps, rfl⟩
    rw [run_cons_ok as hs, hqs]

-- ==== the run rules

/-- What every successful call of a kind preserves, every successful
run of such calls preserves. -/
theorem run_invariant {Q : α → Prop}
    (hstep : ∀ s a s' r, I s → Q a → step s a = .ok (s', r) → I s') :
    ∀ {as : List α} {s s' : σ} {rs : List ρ}, I s → (∀ a ∈ as, Q a) →
      run step s as = .ok (s', rs) → I s' := by
  intro as
  induction as with
  | nil =>
    intro s s' rs hI _ h
    cases h
    exact hI
  | cons a as ih =>
    intro s s' rs hI hQ h
    obtain ⟨t, r, rs', hs, hr, -⟩ := run_cons_inv h
    exact ih (hstep _ _ _ _ hI (hQ a List.mem_cons_self) hs)
      (fun b hb => hQ b (List.mem_cons_of_mem a hb)) hr

/-- An invariant that speaks of the answers so far: along calls that meet
`P`, a run never faults and keeps what each call keeps. -/
theorem run_logs {I : σ → List ρ → Prop} (hstep : ∀ s log a, I s log → P s a →
      ∃ s' r, step s a = .ok (s', r) ∧ I s' (log ++ [r]))
    (h : I s []) (hal : Along step P s as) :
    ∃ s' rs, run step s as = .ok (s', rs) ∧ I s' rs := by
  have hrest : ∀ log, I s log →
      ∃ s' rs, run step s as = .ok (s', rs) ∧ I s' (log ++ rs) := by
    clear h
    induction as generalizing s with
    | nil =>
      intro log hI
      exact ⟨s, [], rfl, by rw [List.append_nil]; exact hI⟩
    | cons a as ih =>
      intro log hI
      obtain ⟨s₁, r, hs, hI₁⟩ := hstep s log a hI hal.1
      obtain ⟨s', rs, hr, hI'⟩ := ih (hal.2 _ _ hs) _ hI₁
      refine ⟨s', r :: rs, ?_, ?_⟩
      · rw [run_cons_ok as hs, hr]
      · rw [List.append_assoc] at hI'
        exact hI'
  exact hrest [] h

/-- The safety rule under a condition. -/
theorem run_safe
    (hstep : ∀ s a, I s → P s a → ∃ s' r, step s a = .ok (s', r) ∧ I s')
    (h : I s) (hal : Along step P s as) :
    ∃ s' rs, run step s as = .ok (s', rs) ∧ I s' :=
  run_logs (I := fun s _ => I s) (fun s _ a => hstep s a) h hal

/-- An invariant that speaks of what the calls so far have taught. -/
theorem run_tracks {I : σ → γ → Prop} {learn : γ → α → γ}
    (hstep : ∀ s g a s' r, I s g → step s a = .ok (s', r) → I s' (learn g a)) :
    ∀ {as : List α} {s s' : σ} {g : γ} {rs : List ρ}, I s g →
      run step s as = .ok (s', rs) → I s' (as.foldl learn g) := by
  intro as
  induction as with
  | nil =>
    intro s s' g rs hI h
    cases h
    exact hI
  | cons a as ih =>
    intro s s' g rs hI h
    obtain ⟨t, r, rs', hs, hr, -⟩ := run_cons_inv h
    exact ih (hstep _ _ _ _ _ hI hs) hr

/-- Beside a run goes the one with only the calls in `keep`. -/
theorem run_filter {S : σ → σ → Prop} {keep : α → Bool}
    (hkeep : ∀ s f a s' r, S s f → keep a = true →
      step s a = .ok (s', r) → ∃ f' q, step f a = .ok (f', q) ∧ S s' f')
    (hdrop : ∀ s f a s' r, S s f → keep a = false →
      step s a = .ok (s', r) → S s' f) :
    ∀ {as : List α} {s s' f : σ} {rs : List ρ}, S s f →
      run step s as = .ok (s', rs) →
      ∃ f' qs, run step f (as.filter keep) = .ok (f', qs) ∧ S s' f' := by
  intro as
  induction as with
  | nil =>
    intro s s' f rs hS h
    cases h
    exact ⟨f, [], rfl, hS⟩
  | cons a as ih =>
    intro s s' f rs hS h
    obtain ⟨t, r, rs', hs, hr, -⟩ := run_cons_inv h
    cases hk : keep a with
    | false =>
      rw [List.filter_cons_of_neg (by simp [hk])]
      exact ih (hdrop _ _ _ _ _ hS hk hs) hr
    | true =>
      rw [List.filter_cons_of_pos hk]
      obtain ⟨f₁, q, hf, hS₁⟩ := hkeep _ _ _ _ _ hS hk hs
      obtain ⟨f', qs, hqs, hS'⟩ := ih hS₁ hr
      refine ⟨f', q :: qs, ?_, hS'⟩
      rw [run_cons_ok _ hf, hqs]

/-- The safety rule with an abstract state: the answers of the run,
replayed on it, are accepted one after the other and lead to the
abstract state reached. -/
theorem run_replays (abs : σ → μ) {app : μ → ρ → Option μ}
    (hstep : ∀ s a, I s → P s a → ∃ s' r, step s a = .ok (s', r) ∧ I s'
      ∧ app (abs s) r = some (abs s'))
    (h : I s) (hal : Along step P s as) :
    ∃ s' rs, run step s as = .ok (s', rs) ∧ I s'
      ∧ rs.foldlM app (abs s) = some (abs s') := by
  refine run_logs (I := fun s' rs => I s'
    ∧ rs.foldlM app (abs s) = some (abs s'))
    (fun t log a hI hP => ?_) ⟨h, rfl⟩ hal
  obtain ⟨t', r, hs, hI', happ⟩ := hstep t a hI.1 hP
  refine ⟨t', r, hs, hI', ?_⟩
  rw [List.foldlM_append, hI.2]
  simpa using happ

/-- The simulation rule: along calls that meet `P`, a run answers as
the specification does and ends in related states. -/
theorem run_refines (hstep : ∀ s m a, R s m → P s a →
      ∃ s', step s a = .ok (s', (spec m a).2) ∧ R s' (spec m a).1) :
    ∀ {as : List α} {s : σ} {m : μ}, R s m → Along step P s as →
      ∃ s', run step s as = .ok (s', (specRun spec m as).2)
        ∧ R s' (specRun spec m as).1 := by
  intro as
  induction as with
  | nil => intro s m hR _; exact ⟨s, rfl, hR⟩
  | cons a as ih =>
    intro s m hR hal
    obtain ⟨hP, hrest⟩ := hal
    obtain ⟨s', hs, hR'⟩ := hstep _ _ _ hR hP
    obtain ⟨s'', hr, hR''⟩ := ih hR' (hrest _ _ hs)
    refine ⟨s'', ?_, hR''⟩
    rw [run_cons_ok as hs, hr]
    rfl

/-- The simulation rule with the condition on the specification's own
state. -/
theorem run_refines_spec {P : μ → α → Prop} (hstep : ∀ s m a, R s m → P m a →
      ∃ s', step s a = .ok (s', (spec m a).2) ∧ R s' (spec m a).1) :
    ∀ {as : List α} {s : σ} {m : μ}, R s m → SpecAlong spec P m as →
      ∃ s', run step s as = .ok (s', (specRun spec m as).2)
        ∧ R s' (specRun spec m as).1 := by
  intro as
  induction as with
  | nil => intro s m hR _; exact ⟨s, rfl, hR⟩
  | cons a as ih =>
    intro s m hR hal
    obtain ⟨s', hs, hR'⟩ := hstep _ _ _ hR hal.1
    obtain ⟨s'', hr, hR''⟩ := ih hR' hal.2
    refine ⟨s'', ?_, hR''⟩
    rw [run_cons_ok as hs, hr]
    rfl

/-- A run that never faults met `P` at every call, when missing `P`
faults and meeting it keeps the simulation. -/
theorem Along_of_run_ok (hstep : ∀ s m a, R s m → P s a →
      ∃ s', step s a = .ok (s', (spec m a).2) ∧ R s' (spec m a).1)
    (hmiss : ∀ s m a, R s m → ¬ P s a → ∃ e, step s a = .error e) :
    ∀ {as : List α} {s s' : σ} {m : μ} {rs : List ρ}, R s m →
      run step s as = .ok (s', rs) → Along step P s as := by
  intro as
  induction as with
  | nil => intros; trivial
  | cons a as ih =>
    intro s s' m rs hR h
    obtain ⟨t, r, rs', hs, hr, -⟩ := run_cons_inv h
    have hP : P s a := by
      by_contra hP
      obtain ⟨e, he⟩ := hmiss _ _ _ hR hP
      rw [he] at hs
      cases hs
    refine ⟨hP, fun t' r' ht' => ?_⟩
    obtain ⟨u, hu, hRu⟩ := hstep _ _ _ hR hP
    rw [ht'] at hu
    cases hu
    rw [ht'] at hs
    cases hs
    exact ih hRu hr

/-- Answering as specified is meeting the condition at every call. -/
theorem run_refines_iff (hstep : ∀ s m a, R s m → P s a →
      ∃ s', step s a = .ok (s', (spec m a).2) ∧ R s' (spec m a).1)
    (hmiss : ∀ s m a, R s m → ¬ P s a → ∃ e, step s a = .error e) {m : μ}
    (hR : R s m) : (∃ s', run step s as = .ok (s', (specRun spec m as).2)
        ∧ R s' (specRun spec m as).1) ↔ Along step P s as := by
  constructor
  · rintro ⟨s', h, -⟩
    exact Along_of_run_ok hstep hmiss hR h
  · exact run_refines hstep hR

/-- Meeting the condition at the first call and along the rest. -/
theorem Along_cons {r : ρ} (hs : step s a = .ok (s', r)) (hP : P s a)
    (hrest : Along step P s' as) : Along step P s (a :: as) := by
  refine ⟨hP, fun t q ht => ?_⟩
  rw [hs] at ht
  cases ht
  exact hrest

/-- A condition on the calls alone. -/
theorem Along_of_forall {P : α → Prop} :
    ∀ {as : List α} {s : σ}, (∀ a ∈ as, P a) →
      Along step (fun _ => P) s as := by
  intro as
  induction as with
  | nil =>
    intro s _
    trivial
  | cons a as ih =>
    intro s h
    exact ⟨h a List.mem_cons_self, fun s' r _ =>
      ih fun b hb => h b (List.mem_cons_of_mem a hb)⟩

/-- On a concrete run the condition is checked call by call. -/
instance Along.decidable [∀ s a, Decidable (P s a)] :
    ∀ (s : σ) (as : List α), Decidable (Along step P s as)
  | _, [] => isTrue trivial
  | s, a :: as =>
    match h : step s a with
    | .error _ => decidable_of_iff (P s a)
        ⟨fun hP => ⟨hP, fun _ _ hs => by rw [h] at hs; cases hs⟩, And.left⟩
    | .ok (s', r) =>
      have : Decidable (Along step P s' as) := Along.decidable s' as
      decidable_of_iff (P s a ∧ Along step P s' as)
        ⟨fun hP => Along_cons h hP.1 hP.2,
          fun hP => ⟨hP.1, hP.2 s' r h⟩⟩

theorem Along_imp {P' : σ → α → Prop} (himp : ∀ s a, P s a → P' s a) :
    ∀ {as : List α} {s : σ}, Along step P s as → Along step P' s as := by
  intro as
  induction as with
  | nil => exact fun _ => trivial
  | cons a as ih =>
    exact fun h => ⟨himp _ a h.1, fun s' r hs => ih (h.2 s' r hs)⟩

/-- The second part of a run. -/
theorem Along_append_right {t : σ} (h : Along step P s (as ++ bs))
    (hrun : run step s as = .ok (t, rs)) : Along step P t bs := by
  induction as generalizing s rs with
  | nil =>
    cases hrun
    exact h
  | cons a as ih =>
    obtain ⟨u, r, rs', hs, hr, -⟩ := run_cons_inv hrun
    exact ih (h.2 u r hs) hr

/-- A run is cut short at any call. -/
theorem Along_take (h : Along step P s as) (n : Nat) :
    Along step P s (as.take n) := by
  induction as generalizing s n with
  | nil => rw [List.take_nil]; trivial
  | cons a as ih =>
    cases n with
    | zero => trivial
    | succ n => exact ⟨h.1, fun s' r hs => ih (h.2 s' r hs) n⟩

/-- What holds from a call on, since the call brings it about and every
later call keeps it. -/
theorem run_since {J : σ → σ → Prop}
    (hstep : ∀ s a, I s → P s a → ∃ s' r, step s a = .ok (s', r) ∧ I s')
    (hcall : ∀ s s' r, I s → P s a → step s a = .ok (s', r) → J s s')
    (hkeep : ∀ s₀ s b s' r, I s → J s₀ s → P s b →
      step s b = .ok (s', r) → J s₀ s')
    (h : I s) (hal : Along step P s (as ++ a :: bs)) :
    ∃ s₀ qs s' rs, run step s as = .ok (s₀, qs)
      ∧ run step s (as ++ a :: bs) = .ok (s', rs) ∧ I s₀ ∧ I s' ∧ J s₀ s' := by
  have hfirst := Along_take hal as.length
  rw [List.take_left] at hfirst
  obtain ⟨s₀, qs, hqs, hI₀⟩ := run_safe hstep h hfirst
  have hrest := Along_append_right hal hqs
  obtain ⟨s₁, r, hs, hI₁⟩ := hstep s₀ a hI₀ hrest.1
  obtain ⟨s', ps, hps, hI', hJ⟩ := run_safe (I := fun s => I s ∧ J s₀ s)
    (fun s b hs hb => by
      obtain ⟨s', r, hsb, hI'⟩ := hstep s b hs.1 hb
      exact ⟨s', r, hsb, hI', hkeep s₀ s b s' r hs.1 hs.2 hb hsb⟩)
    ⟨hI₁, hcall s₀ s₁ r hI₀ hrest.1 hs⟩ (hrest.2 s₁ r hs)
  refine ⟨s₀, qs, s', qs ++ r :: ps, hqs, run_append hqs ?_, hI₀, hI', hJ⟩
  rw [run_cons_ok bs hs, hps]

-- ==== purposes with a choice

/-- The runs a relational specification allows: the answers given and
the state reached. -/
def SpecRuns (spec : μ → α → ρ → μ → Prop) : μ → List α → List ρ → μ → Prop
  | m, [], rs, m' => rs = [] ∧ m' = m
  | m, a :: as, rs, m' =>
    ∃ r m₁ rs', rs = r :: rs' ∧ spec m a r m₁ ∧ SpecRuns spec m₁ as rs' m'

/-- The simulation rule for a relational specification. -/
theorem run_refines_rel {spec : μ → α → ρ → μ → Prop} {P : α → Prop}
    (hstep : ∀ s m a, R s m → P a →
      ∃ s' r m', step s a = .ok (s', r) ∧ spec m a r m' ∧ R s' m') :
    ∀ {as : List α} {s : σ} {m : μ}, R s m → (∀ a ∈ as, P a) →
      ∃ s' rs m', run step s as = .ok (s', rs)
        ∧ SpecRuns spec m as rs m' ∧ R s' m' := by
  intro as
  induction as with
  | nil => intro s m hR _; exact ⟨s, [], m, rfl, ⟨rfl, rfl⟩, hR⟩
  | cons a as ih =>
    intro s m hR hP
    obtain ⟨s₁, r, m₁, hs, hspec, hR₁⟩ :=
      hstep s m a hR (hP a List.mem_cons_self)
    obtain ⟨s', rs, m', hr, hruns, hR'⟩ :=
      ih hR₁ fun b hb => hP b (List.mem_cons_of_mem a hb)
    refine ⟨s', r :: rs, m', ?_, ⟨r, m₁, rs, rfl, hspec, hruns⟩, hR'⟩
    rw [run_cons_ok as hs, hr]

end CroCOS.Lib
