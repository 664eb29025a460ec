/-
Grace periods. A deleter starts on a bag whose tag is two epochs old,
and the tag is no older than the epoch load of any retire in the bag;
while a section that load saw active is still active, the epoch is at
most one past it. Likewise for the epoch load of a synchronize.
-/
import CroCOS.Proofs.EpochDomain.Runs

namespace CroCOS.Core.Rcu

open Lib

/-- Two epochs past a load, no section it saw active is left. -/
theorem Good.not_live {d : Shared} (h : Good d) {o : Observation}
    (ho : o ∈ d.observed) (he : o.epoch + 2 ≤ d.globalEpoch) (s : Nat) :
    ¬ d.Live o s := by
  intro hl
  have := (h.guarded o ho s hl).2
  omega

/-- The epoch does not go back, and no load is forgotten. -/
theorem Does.grows {a : Agent} {d d' : Shared} (hd : Does a d d') :
    d.globalEpoch ≤ d'.globalEpoch ∧ ∀ o ∈ d.observed, o ∈ d'.observed := by
  have hk := hd.others ⟨a.thread, a.depth + 1⟩ fun hx =>
    Nat.succ_ne_self _ (congrArg Agent.depth hx)
  exact ⟨hk.epoch, hk.observed⟩

/-- A synchronize of thread `t`, made in `m₀`, is in its loop, or two
epochs have passed. -/
def Synchronizing (t : Nat) (m₀ m : Machine) : Prop :=
  .syncLoop m₀.shared.observe ∈ m.own t
    ∨ m₀.shared.observe ∈ m.shared.observed
      ∧ m₀.shared.globalEpoch + 2 ≤ m.shared.globalEpoch

theorem Synchronizing.call {t : Nat} {m m' : Machine} {r : Unit}
    (h : Enters m t .synchronize)
    (hs : Pool.step next m (t, .call .synchronize) = .ok (m', r)) :
    Synchronizing t m m' := by
  have hcall := h.step hs
  simp only [callStep] at hcall
  split_ifs at hcall
  simp only [Except.ok.injEq, Prod.mk.injEq] at hcall
  exact .inl (by rw [← hcall.2]; exact List.mem_singleton.mpr rfl)

theorem Synchronizing.step {t : Nat} {m₀ m m' : Machine} {r : Unit}
    {c : Nat × Choice} (h : Synchronizing t m₀ m)
    (hinv : Pool.Inv Good Own m) (hq : Pool.At Representable m c)
    (hs : Pool.step next m c = .ok (m', r)) : Synchronizing t m₀ m' := by
  obtain ⟨d', stack', hnext, rfl⟩ := Pool.step_inv hs
  obtain ⟨k, hdoes⟩ := next_does hinv.good (hinv.own c.1) hq hnext
  obtain ⟨hepoch, hobs⟩ := hdoes.grows
  rcases h with hloop | ⟨hseen, hpast⟩
  · by_cases ht : t = c.1
    · subst ht
      rcases (next_moves hnext).mem hloop nofun
        with hstays | ⟨rest, fs, hstack, hstep, rfl⟩
      · left
        show _ ∈ Function.update m.own c.1 stack' c.1
        rwa [Function.update_self]
      · simp only [frameStep] at hstep
        split_ifs at hstep with hlt
        · cases hstep
          left
          show _ ∈ Function.update m.own c.1 _ c.1
          rw [Function.update_self]
          simp
        · cases hstep
          have hown := hinv.own c.1
          rw [hstack] at hown
          exact .inr ⟨hown.frames.1, Nat.not_lt.mp hlt⟩
    · left
      show _ ∈ Function.update m.own c.1 stack' t
      rwa [Function.update_of_ne ht]
  · exact .inr ⟨hobs _ hseen, hpast.trans hepoch⟩

/-- In every state every schedule reaches: a step that starts a deleter
finds no section that was active at its node's retire still active; and
where the schedule has a call of synchronize, and the calling thread is
outside of the engine again, no section that was active at the call is
still active. -/
theorem grace_period {slotCount drainBatchBound : Nat}
    {sched : List (Nat × Choice)}
    (hmax : Along (Pool.step next) (Pool.At Representable)
      (boot slotCount drainBatchBound) sched) :
    ∃ m rs, run (Pool.step next) (boot slotCount drainBatchBound) sched
        = .ok (m, rs)
      ∧ (∀ c m' r n, Pool.At Representable m c →
        Pool.step next m c = .ok (m', r) →
        m'.shared.starts n ≠ m.shared.starts n →
        ∀ s, ¬ m.shared.Live (m.shared.seen n) s)
      ∧ ∀ before t later m₀ rs₀,
        sched = before ++ (t, .call .synchronize) :: later →
        run (Pool.step next) (boot slotCount drainBatchBound) before
          = .ok (m₀, rs₀) →
        Enters m₀ t .synchronize → m.own t = [] →
        ∀ s, ¬ m.shared.Live m₀.shared.observe s := by
  obtain ⟨m, rs, hrun, hinv⟩ := run_ok hmax
  refine ⟨m, rs, hrun, ?_, ?_⟩
  · intro c m' r n hq hs hn
    obtain ⟨d', stack', hnext, rfl⟩ := Pool.step_inv hs
    obtain ⟨k, hdoes⟩ := next_does hinv.good (hinv.own c.1) hq hnext
    cases hdoes.nodes n with
    | starts o hold hnew hexpired hz hs =>
      refine hinv.good.not_live (hinv.good.seen n ?_) hexpired
      rw [hold]
      exact Place.noConfusion
    | still hp hs | retires hold hnew hs | pushes o hold hnew hs
    | pops o hold hnew hs | returns o hold hnew hs => exact absurd hs hn
  · intro before t later m₀ rs₀ hsched hbefore henter hret
    subst hsched
    obtain ⟨m₁, qs, m₂, ps, hqs, hps, -, -, hsync⟩ := Pool.run_since
      (J := fun m₀ m => Enters m₀ t .synchronize → Synchronizing t m₀ m)
      next_keeps next_safe
      (fun _ _ _ _ _ hs henter => .call henter hs)
      (fun _ _ _ _ _ hinv h hq hs henter => (h henter).step hinv hq hs)
      (inv_boot ..) hmax
    rw [hbefore] at hqs
    rw [hrun] at hps
    cases hqs
    cases hps
    rcases hsync henter with hloop | ⟨hseen, hpast⟩
    · rw [hret] at hloop
      cases hloop
    · exact hinv.good.not_live hseen hpast

/-- A retire from a section, and a barrier that drives its deleter up
to the step that starts it. -/
def retireAndDrain : List (Nat × Choice) :=
  [Pool.burst 0 [.call .readLock, .step, .call (.retire 7)],
    Pool.burst 0 (List.replicate 5 .step),
    Pool.burst 0 [.call .readUnlock, .call .barrier],
    Pool.burst 0 (List.replicate 29 .step)].flatten

/-- A reader is in a section on slot 1. -/
def readerInside : List (Nat × Choice) :=
  Pool.burst 1 [.call .readLock, .step]

/-- Slot 0 synchronizes, and has to wait until the reader leaves. -/
def synchronized : List (Nat × Choice) :=
  readerInside ++ (0, .call .synchronize)
    :: (Pool.burst 0 (List.replicate 60 .step) ++ (1, .call .readUnlock)
      :: Pool.burst 0 (List.replicate 60 .step))

/-- The deleter starts once the retiring section is gone, and the
synchronize is over once the reader is. -/
theorem grace_period_runs :
    (∃ m rs, run (Pool.step next) (boot 1 8) retireAndDrain = .ok (m, rs)
      ∧ (m.shared.seen 7).sections = [(0, 1)]
      ∧ ∃ m' r, Pool.step next m (0, .step) = .ok (m', r)
        ∧ m'.shared.starts 7 = 1
        ∧ ∀ s, ¬ m.shared.Live (m.shared.seen 7) s)
    ∧ ∃ m₀ m rs₀ rs,
      run (Pool.step next) (boot 2 8) readerInside = .ok (m₀, rs₀)
      ∧ run (Pool.step next) (boot 2 8) synchronized = .ok (m, rs)
      ∧ m₀.shared.observe.sections = [(1, 1)] ∧ m.own 0 = []
      ∧ ∀ s, ¬ m.shared.Live m₀.shared.observe s := by
  constructor
  · have hfacts : Returns (fun p => (p.1.shared.seen 7).sections = [(0, 1)]
          ∧ Pool.At Representable p.1 (0, .step)
          ∧ Returns (fun q => q.1.shared.starts 7 = 1
              ∧ q.1.shared.starts 7 ≠ p.1.shared.starts 7)
            (Pool.step next p.1 (0, .step)))
        (run (Pool.step next) (boot 1 8) retireAndDrain) := by
      decide +kernel
    have hmax : Along (Pool.step next) (Pool.At Representable) (boot 1 8)
        retireAndDrain := by
      decide +kernel
    obtain ⟨m, rs, hrun, hstart, -⟩ := grace_period hmax
    rw [hrun] at hfacts
    obtain ⟨hseen, hq, hnext⟩ := hfacts
    obtain ⟨⟨m', r⟩, hstep, hone, hne⟩ := hnext.exists_ok
    exact ⟨m, rs, hrun, hseen, m', r, hstep, hone,
      hstart (0, .step) m' r 7 hq hstep hne⟩
  · have hfacts : Returns (fun p => Enters p.1 0 .synchronize
          ∧ p.1.shared.observe.sections = [(1, 1)])
        (run (Pool.step next) (boot 2 8) readerInside) := by
      decide +kernel
    have hreturns : Returns (fun p => p.1.own 0 = [])
        (run (Pool.step next) (boot 2 8) synchronized) := by
      decide +kernel
    have hmax : Along (Pool.step next) (Pool.At Representable) (boot 2 8)
        synchronized := by
      decide +kernel
    obtain ⟨m, rs, hrun, -, hsync⟩ := grace_period hmax
    rw [hrun] at hreturns
    obtain ⟨⟨m₀, rs₀⟩, hbefore, henter, hseen⟩ := hfacts.exists_ok
    exact ⟨m₀, m, rs₀, rs, hbefore, hrun, hseen, hreturns,
      hsync _ _ _ _ _ rfl hbefore henter hreturns⟩

end CroCOS.Core.Rcu
