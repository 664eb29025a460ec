/-
Barriers. The nodes a barrier answers for are taken at its entry
(`scope`). From then on each of them has seen its deleter return, or is
at home in a bag that the barrier's frame still waits for: any bag of
the own slot or a shut one until the rotation is over, then a shut one
with a tag the epoch load `e0` covers, then one that the scan has yet
to reach. The frame is the bottom one of its thread's stack.

# What the scan misses

A bag whose head is null passes the scan. Its last node may have been
popped and its deleter not have returned: the schedule at the end of
this file. `Settled` excludes exactly that step.
-/
import CroCOS.Proofs.EpochDomain.Runs

namespace CroCOS.Core.Rcu

open Function Lib

variable {c : Choice} {f : Frame} {fs stack stack' : List Frame} {n : Node}
variable {o : BagId}

-- ==== the frames

/-- The frames of a barrier. -/
def Frame.barrier : Frame → Bool
  | .findFree (.rotate ..) _ => true
  | .findFree .again _ => true
  | .rotateOpen .barrier .. => true
  | .rotateSeal .barrier .. => true
  | .sealLoad => true
  | .sealHead .. => true
  | .sealEpoch .. => true
  | .barrierLoad => true
  | .barrierLoop _ => true
  | .pendingTag .. => true
  | .pendingHead .. => true
  | _ => false

/-- The bags a barrier of slot `t` whose frame is `f` waits for. -/
def Frame.awaited (d : Shared) (t : Nat) : Frame → BagId → Prop
  | .barrierLoad, o => (d.bagState o).shut = true
  | .barrierLoop e0, o => (d.bagState o).shut = true ∧ d.bagTag o ≤ e0
  | .pendingTag e0 todo, o =>
    (d.bagState o).shut = true ∧ d.bagTag o ≤ e0 ∧ o ∈ todo
  | .pendingHead e0 o' todo, o =>
    (d.bagState o).shut = true ∧ d.bagTag o ≤ e0 ∧ o ∈ o' :: todo
  | _, o => o.1 = t ∨ (d.bagState o).shut = true

/-- Every node slot `t` answers for is done, or at home in a bag that
`P` holds of. -/
def Awaits (d : Shared) (t : Nat) (P : BagId → Prop) : Prop :=
  ∀ n ∈ d.scope t, d.place n = .returned ∨ ∃ o, d.home n = some o ∧ P o

/-- What a thread that may be in a barrier knows: the barrier's frame
is at the bottom of its stack, and waits. -/
def Waits (t : Nat) (d : Shared) : List Frame → Prop
  | [] => True
  | [f] => f.barrier = true → Awaits d t (f.awaited d t)
  | f :: rest => f.barrier = false ∧ Waits t d rest

variable {a : Agent} {d d' : Shared} {t : Nat}

-- ==== stability

/-- A node stays at home until its deleter has returned. -/
theorem NodeMove.home (hm : NodeMove a d d' n) (h : d.home n = some o) :
    d'.home n = some o ∨ d'.place n = .returned := by
  rw [Shared.home_eq_iff] at h ⊢
  cases hm with
  | still hp hs =>
    rw [hp]
    exact Or.inl h
  | retires hold hnew hs | pushes o' hold hnew hs =>
    rw [hold] at h
    rcases h with h | ⟨b, h⟩ <;> cases h
  | pops o' hold hnew hs =>
    rw [hold] at h
    rcases h with h | ⟨b, h⟩ <;> cases h
    exact Or.inl (Or.inr ⟨a, hnew⟩)
  | starts o' hold hnew hexpired hz hs =>
    rw [hnew, ← hold]
    exact Or.inl h
  | returns o' hold hnew hs => exact Or.inr hnew

/-- A deleter runs out of a claimed bag. -/
theorem Good.running_claimed {b : Agent} (hg : Good d)
    (h : d.place n = .running o b) : d.bagState o = .claimed :=
  (hg.claimed o).mpr ⟨b, hg.running n o b h⟩

/-- A bag that is some node's home is not free. -/
theorem Good.home_not_free (hg : Good d) (h : d.home n = some o) :
    d.bagState o ≠ .free := by
  intro hf
  cases Shared.home_eq_iff.mp h with
  | inl hq =>
    rw [← hg.queued, hg.freeEmpty o hf] at hq
    cases hq
  | inr hr =>
    obtain ⟨b, hr⟩ := hr
    rw [hg.running_claimed hr] at hf
    cases hf

/-- A shut bag stays shut, at its tag, while it is some node's home. -/
theorem BagMove.shut (hm : BagMove a d d' o) (hg : Good d)
    (h : d.home n = some o) (hs : (d.bagState o).shut = true) :
    (d'.bagState o).shut = true ∧ d'.bagTag o = d.bagTag o := by
  cases hm with
  | still hw hb | pops n' hold hholder hw hb =>
    exact ⟨by rw [Shared.bagState, hw]; exact hs, by rw [Shared.bagTag, hw]⟩
  | opens howner hold hnew hempty hb | bumps howner hold hnew htag hb
  | pushes n' howner hold hw hb | seals howner hold hnew htag hb =>
    rw [hold] at hs; cases hs
  | claims hold hnew htag hexpired hholder hb
  | reseals hold hholder hnew htag hb =>
    exact ⟨by rw [hnew]; rfl, htag⟩
  | releases hold hholder hnew hempty hrest hb =>
    cases Shared.home_eq_iff.mp h with
    | inl hq =>
      rw [← hg.queued, hempty] at hq
      cases hq
    | inr hr =>
      obtain ⟨b, hr⟩ := hr
      exact absurd hr (hrest n b)

/-- What a barrier waits for is still what it waits for after any
step. -/
theorem Frame.awaited_keep (hm : BagMove a d d' o) (hg : Good d)
    (h : d.home n = some o) (hf : f.awaited d t o) : f.awaited d' t o := by
  cases f with
  | barrierLoad => exact (hm.shut hg h hf).1
  | barrierLoop e0 =>
    obtain ⟨hs, ht⟩ := hm.shut hg h hf.1
    exact ⟨hs, by rw [ht]; exact hf.2⟩
  | pendingTag e0 todo | pendingHead e0 o' todo =>
    obtain ⟨hs, ht⟩ := hm.shut hg h hf.1
    exact ⟨hs, by rw [ht]; exact hf.2.1, hf.2.2⟩
  | _ => exact hf.imp_right fun hs => (hm.shut hg h hs).1

/-- The nodes a frame answers for after a step of any agent. -/
theorem Awaits.keep (hd : Does a d d') (hg : Good d)
    (hscope : d'.scope t = d.scope t) (h : Awaits d t (f.awaited d t)) :
    Awaits d' t (f.awaited d' t) := by
  intro n hn
  rw [hscope] at hn
  cases h n hn with
  | inl hr =>
    cases hd.nodes n with
    | still hp hs => exact Or.inl (hp.trans hr)
    | retires hold hnew hs | pushes o hold hnew hs
    | pops o hold hnew hs | starts o hold hnew hexpired hz hs
    | returns o hold hnew hs => rw [hr] at hold; cases hold
  | inr ho =>
    obtain ⟨o, hhome, hf⟩ := ho
    cases (hd.nodes n).home hhome with
    | inl hhome' =>
      exact Or.inr ⟨o, hhome', Frame.awaited_keep (hd.moves o) hg hhome hf⟩
    | inr hr => exact Or.inl hr

/-- A barrier that waits for fewer bags, as far as nodes are at home
there. -/
theorem Awaits.mono {P Q : BagId → Prop} (h : Awaits d t P)
    (hPQ : ∀ n ∈ d.scope t, ∀ o, d.home n = some o → P o → Q o) :
    Awaits d t Q := by
  intro n hn
  refine (h n hn).imp_right fun ho => ?_
  obtain ⟨o, hhome, hP⟩ := ho
  exact ⟨o, hhome, hPQ n hn o hhome hP⟩

theorem Waits.keep (hd : Does a d d') (hg : Good d)
    (hscope : d'.scope t = d.scope t) (h : Waits t d stack) :
    Waits t d' stack := by
  induction stack with
  | nil => trivial
  | cons f rest ih =>
    cases rest with
    | nil => exact fun hb => (h hb).keep hd hg hscope
    | cons g rest => exact ⟨h.1, ih h.2⟩

-- ==== what steps leave be

/-- Only a barrier's frame leads to a barrier's frame. -/
theorem frameStep_barrier (hf : f.barrier = false)
    (h : frameStep a d f = .ok (d', fs)) : ∀ g ∈ fs, g.barrier = false := by
  cases f with
  | findFree s b =>
    cases s with
    | prepare n e allow i w =>
      simp only [frameStep, Search.found, Search.missed] at h
      (repeat' split at h) <;> cases h <;> simp [Frame.barrier]
    | rotate i w | again => cases hf
  | rotateOpen c e i w j =>
    cases c with
    | push n => cases h; simp [Frame.barrier]
    | barrier => cases hf
  | rotateSeal c e i w j =>
    cases c with
    | push n => cases h; simp [Frame.barrier, After.frames]
    | barrier => cases hf
  | drainPop o tag n w =>
    cases n with
    | none => cases h; simp [Frame.barrier]
    | some n =>
      simp only [frameStep] at h
      split at h <;> cases h <;> simp [Frame.barrier]
  | sealLoad | sealHead i w | sealEpoch i w j | barrierLoad
  | barrierLoop e0 | pendingTag e0 todo | pendingHead e0 o todo => cases hf
  | _ =>
    simp only [frameStep] at h
    (repeat' split at h) <;> cases h <;> simp [Frame.barrier]

/-- No other call touches what a barrier answers for, or is one. -/
theorem callStep_barrier {op : Op} (hop : op ≠ .barrier)
    (h : callStep a d op = .ok (d', fs)) :
    d'.scope = d.scope ∧ ∀ g ∈ fs, g.barrier = false := by
  cases op with
  | barrier => exact absurd rfl hop
  | _ =>
    simp only [callStep] at h
    (repeat' split at h) <;> cases h <;> simp [Frame.barrier]

-- ==== stacks, from below

/-- Other frames may be stacked on what waits. -/
theorem Waits.append (hfs : ∀ g ∈ fs, g.barrier = false)
    (h : Waits t d stack) : Waits t d (fs ++ stack) := by
  induction fs with
  | nil => exact h
  | cons g fs ih =>
    have hrest := ih fun k hk => hfs k (List.mem_cons_of_mem g hk)
    have hg := hfs g List.mem_cons_self
    rw [List.cons_append]
    cases hl : fs ++ stack with
    | nil =>
      intro hb
      rw [hg] at hb
      cases hb
    | cons k l =>
      rw [hl] at hrest
      exact ⟨hg, hrest⟩

theorem waits_of_barrier_eq_false (h : ∀ g ∈ fs, g.barrier = false) :
    Waits t d fs := by
  rw [← List.append_nil fs]
  exact Waits.append h trivial

theorem waits_singleton {g : Frame} (h : Awaits d t (g.awaited d t)) :
    Waits t d [g] :=
  fun _ => h

theorem waits_pair {g : Frame} (hf : f.barrier = false)
    (h : Awaits d t (g.awaited d t)) : Waits t d [f, g] :=
  ⟨hf, waits_singleton h⟩

-- ==== steps of a barrier

/-- When a barrier is entered, every node it answers for is done, at
home in a bag of its slot, or at home in a shut bag. -/
theorem awaits_barrierScope (hg : Good d) (ho : Own t d []) : Awaits { d with
        scope := update d.scope t (d.barrierScope t) } t
      (Frame.sealLoad.awaited d t) := by
  intro n hn
  change n ∈ update d.scope t _ t at hn
  rw [update_self, Shared.barrierScope, List.mem_filter,
    Bool.or_eq_true, beq_iff_eq] at hn
  obtain ⟨hret, hwhy⟩ := hn
  have hhome : ∀ o, d.home n = some o →
      o.1 = t ∨ (d.bagState o).shut = true := by
    intro o ho
    refine hwhy.imp (fun hs => ?_) fun hs => ?_
    · rw [← hs, (hg.slot n).2 o ho]
    · rw [ho] at hs
      exact hs
  cases hp : d.place n with
  | fresh => exact absurd hp ((hg.retired n).mp hret)
  | pushing b =>
    -- the slot's own thread is outside the engine
    have hnone : d.home n = none := by rw [Shared.home, hp]
    cases hwhy with
    | inl hs =>
      rw [(hg.slot n).1 b hp] at hs
      subst hs
      obtain ⟨f, hf, -⟩ := ho.hands b.depth n (Or.inl hp)
      cases hf
    | inr hs =>
      rw [hnone] at hs
      cases hs
  | queued o =>
    have ho := Shared.home_eq_iff.mpr (Or.inl hp)
    exact Or.inr ⟨o, ho, hhome o ho⟩
  | running o b =>
    have ho := Shared.home_eq_iff.mpr (Or.inr ⟨b, hp⟩)
    exact Or.inr ⟨o, ho, hhome o ho⟩
  | returned => exact Or.inl rfl

/-- Once the slot's open bag is empty, a bag of the slot that is some
node's home is shut. -/
theorem Good.shut_of_home (hg : Good d) (hrot : d.rotating t = none)
    (hempty : d.bag (t, d.openBagIndex t) = []) (h : d.home n = some o)
    (ho : o.1 = t ∨ (d.bagState o).shut = true) :
    (d.bagState o).shut = true := by
  cases hst : d.bagState o with
  | free => exact absurd hst (hg.home_not_free h)
  | sealed | claimed => rfl
  | opened =>
    obtain ⟨s, b⟩ := o
    have hs : s = t := by
      refine ho.resolve_right fun hs => ?_
      rw [hst] at hs
      cases hs
    subst hs
    have hb : b = d.openBagIndex s := by
      refine (hg.openOnly s b hst).resolve_right fun hr => ?_
      rw [hrot] at hr
      cases hr
    cases Shared.home_eq_iff.mp h with
    | inl hq =>
      rw [← hg.queued, hb, hempty] at hq
      cases hq
    | inr hr =>
      obtain ⟨c, hr⟩ := hr
      rw [hg.running_claimed hr] at hst
      cases hst

/-- The scan is about to pass over a bag whose last deleter has not
returned. -/
def undrained (d : Shared) (t : Nat) : List Frame → Bool
  | .pendingHead _ o _ :: _ =>
    (d.bagHead o).isNone && (d.scope t).any fun n => d.home n == some o
  | _ => false

theorem mem_allBags {slotCount : Nat} (hs : o.1 < slotCount)
    (hb : o.2 < kBagCount) : o ∈ allBags slotCount := by
  unfold allBags ownBags
  rw [List.mem_flatMap]
  refine ⟨o.1, List.mem_range.mpr hs, ?_⟩
  rw [List.mem_map]
  exact ⟨o.2, List.mem_range.mpr hb, rfl⟩

/-- The barrier's own step: what it goes on to wait for is enough. -/
theorem At.waits (h : At ⟨t, 0⟩ d f)
    (hstep : frameStep ⟨t, 0⟩ d f = .ok (d', fs)) (hd : Does a d d')
    (hb : f.barrier = true) (hq : undrained d t [f] = false)
    (hw : Awaits d t (f.awaited d t)) : Waits t d' fs := by
  have hw' := hw.keep hd h.good (congrFun (frameStep_scope hstep) t)
  cases f with
  | findFree s b =>
    cases s with
    | prepare n e allow i w => cases hb
    | rotate i w =>
      simp only [frameStep, Search.missed] at hstep
      (repeat' split at hstep) <;> cases hstep
      · exact waits_singleton hw'
      · exact waits_singleton hw'
      · exact waits_pair rfl hw'
      · exact waits_singleton hw'
    | again =>
      simp only [frameStep, Search.missed] at hstep
      (repeat' split at hstep) <;> cases hstep
      · exact waits_singleton hw'
      · exact waits_singleton hw'
      · exact waits_pair rfl hw'
  | rotateOpen c e i w j =>
    cases c with
    | push n => cases hb
    | barrier =>
      cases hstep
      exact waits_singleton hw'
  | rotateSeal c e i w j =>
    cases c with
    | push n => cases hb
    | barrier =>
      obtain ⟨-, -, -, -, -, hempty, -, -⟩ := h.ok
      cases hstep
      refine waits_singleton (hw'.mono fun n _ o hhome ho => ?_)
      refine hd.good.shut_of_home (t := t) ?_ ?_ hhome ho
      · show update d.rotating t none t = none
        rw [update_self]
      · show d.bag (t, update d.openBagIndex t j t) = []
        rw [update_self]
        exact hempty
  | sealLoad =>
    simp only [frameStep] at hstep
    split at hstep
    · rename_i hfree
      cases hstep
      refine waits_singleton (hw'.mono fun n _ o hhome ho => ?_)
      exact h.good.shut_of_home h.rotating (h.good.freeEmpty _ hfree) hhome ho
    · split at hstep
      · cases hstep
      · cases hstep
        exact waits_singleton hw'
  | sealHead i w =>
    simp only [frameStep] at hstep
    split at hstep
    · rename_i hnone
      cases hstep
      refine waits_singleton (hw'.mono fun n _ o hhome ho => ?_)
      refine h.good.shut_of_home h.rotating ?_ hhome ho
      have hi : d.openBagIndex t = i := h.ok.1
      rw [hi]
      exact (h.good.spells _).eq_nil_iff.mpr
        (Option.isNone_iff_eq_none.mp hnone)
    · cases hstep
      exact waits_singleton hw'
  | sealEpoch i w j =>
    cases hstep
    exact waits_singleton hw'
  | barrierLoad =>
    cases hstep
    exact waits_singleton (hw'.mono fun n _ o _ hs =>
      ⟨hs, h.good.past o⟩)
  | barrierLoop e0 =>
    simp only [frameStep] at hstep
    split at hstep
    · cases hstep
      exact waits_pair rfl hw'
    · cases hstep
      refine waits_singleton (hw'.mono fun n _ o hhome hs => ?_)
      obtain ⟨h1, h2⟩ := h.good.inRange n o hhome
      exact ⟨hs.1, hs.2, mem_allBags h1 h2⟩
  | pendingTag e0 todo =>
    cases todo with
    | nil =>
      cases hstep
      exact waits_of_barrier_eq_false fun g hg => by cases hg
    | cons o rest =>
      simp only [frameStep] at hstep
      split at hstep
      · cases hstep
        exact waits_singleton hw'
      · rename_i hout
        cases hstep
        refine waits_singleton (hw'.mono fun n _ o' _ hs => ?_)
        obtain ⟨h1, h2, h3⟩ := hs
        cases h3 with
        | head => exact absurd ⟨h1, h2⟩ hout
        | tail _ h3 => exact ⟨h1, h2, h3⟩
  | pendingHead e0 o rest =>
    simp only [frameStep] at hstep
    split at hstep
    · cases hstep
      exact waits_pair rfl (hw'.mono fun n _ o' _ hs => ⟨hs.1, hs.2.1⟩)
    · rename_i hnone
      cases hstep
      refine waits_singleton (hw'.mono fun n hn o' hhome hs => ?_)
      obtain ⟨h1, h2, h3⟩ := hs
      cases h3 with
      | head =>
        have hnull : (d.bagHead o).isNone = true := by
          rw [Option.isNone_iff_eq_none]
          exact Option.not_isSome_iff_eq_none.mp hnone
        rw [undrained, hnull, Bool.true_and, List.any_eq_false] at hq
        exact absurd (beq_iff_eq.mpr hhome) (hq n hn)
      | tail _ h3 => exact ⟨h1, h2, h3⟩
  | _ => cases hb

-- ==== whole runs

/-- The epoch a step finds is representable, and no scan of a barrier
reads a null head while a deleter popped from the bag is running. -/
def Settled (t : Nat) (d : Shared) (stack : List Frame) (c : Choice) : Prop :=
  d.globalEpoch ≤ kMaxEpoch ∧ (c = .step → undrained d t stack = false)

instance (t : Nat) (d : Shared) (stack : List Frame) (c : Choice) :
    Decidable (Settled t d stack c) :=
  inferInstanceAs (Decidable (_ ∧ _))

/-- A deleter may not wait: a barrier is called from outside the
engine. -/
theorem Own.barrier_nil (hg : Good d) (ho : Own t d stack)
    (hin : inClient stack = true) (hl : legal d t .barrier = true) :
    stack = [] := by
  cases stack with
  | nil => rfl
  | cons f rest =>
    have hdr : d.inDrain t = true := by
      refine (ho.top hg).drains ?_
      cases f with
      | drainDeleter o tag n nx w => rfl
      | _ => cases hin
    simp only [legal, hdr, Bool.not_true, Bool.and_false] at hl
    cases hl

/-- A call keeps what the thread's barrier waits for, or is one. -/
theorem calls_waits {op : Op} {k : Nat} (hg : Good d) (ho : Own t d stack)
    (hw : Waits t d stack) (hin : inClient stack = true)
    (hl : legal d t op = true) (hcall : callStep ⟨t, k⟩ d op = .ok (d', fs))
    (hd : Does a d d') : Waits t d' (fs ++ stack) := by
  by_cases hop : op = .barrier
  · subst hop
    have hnil := ho.barrier_nil hg hin hl
    subst hnil
    simp only [callStep] at hcall
    (repeat' split at hcall) <;> cases hcall
    exact waits_singleton (awaits_barrierScope hg ho)
  · obtain ⟨hscope, hfs⟩ := callStep_barrier hop hcall
    exact (hw.keep hd hg (congrFun hscope t)).append hfs

/-- Every step keeps what the thread's own barrier waits for. -/
theorem next_waits (hg : Good d) (ho : Own t d stack) (hw : Waits t d stack)
    (hq : Settled t d stack c) (hn : Moves t d d' stack stack' c)
    (hd : Does a d d') : Waits t d' stack' := by
  cases hn with
  | stays c hd hs =>
    subst hd hs
    exact hw
  | calls op fs hin hl hcall hs =>
    subst hs
    exact calls_waits hg ho hw hin hl hcall hd
  | steps f rest fs hold hstep hs =>
    subst hold hs
    have hscope := congrFun (frameStep_scope hstep) t
    cases rest with
    | nil =>
      rw [List.append_nil]
      by_cases hb : f.barrier = true
      · exact (ho.top hg).waits hstep hd hb (hq.2 rfl) (hw hb)
      · rw [Bool.not_eq_true] at hb
        exact waits_of_barrier_eq_false (frameStep_barrier hb hstep)
    | cons g rest =>
      exact (hw.2.keep hd hg hscope).append (frameStep_barrier hw.1 hstep)
  | finishes o tag n nx w rest hold hd' hs =>
    subst hold hs
    cases rest with
    | nil => exact fun hb => by cases hb
    | cons g rest => exact ⟨rfl, hw.2.keep hd hg (by rw [hd'])⟩

/-- The invariant with the barriers. -/
def OwnWaits (t : Nat) (d : Shared) (stack : List Frame) : Prop :=
  Own t d stack ∧ Waits t d stack

theorem next_keeps_waits : Pool.Keeps next Settled Good OwnWaits := by
  intro t d stack c d' stack' r hg ho hq hn
  obtain ⟨hg', ho', hothers⟩ :=
    next_keeps t d stack c d' stack' r hg ho.1 hq.1 hn
  obtain ⟨k, hd⟩ := next_does hg ho.1 hq.1 hn
  refine ⟨hg', ⟨ho', next_waits hg ho.1 ho.2 hq (next_moves hn) hd⟩, ?_⟩
  intro u l hu h
  exact ⟨hothers u l hu h.1, h.2.keep hd hg (hd.slots u hu).scope⟩

theorem next_safe_waits : Pool.Safe next Settled Good OwnWaits := by
  intro t d stack c hg ho hq
  exact next_safe t d stack c hg ho.1 hq.1

theorem inv_waits_boot (slotCount drainBatchBound : Nat) :
    Pool.Inv Good OwnWaits (boot slotCount drainBatchBound) :=
  ⟨good_init .., fun _ => ⟨own_init .., trivial⟩⟩

/-- A slot's scope is set by a barrier call from outside the engine,
and by nothing else. -/
theorem scope_set {u k : Nat} (hg : Good d) (ho : Own t d stack)
    (hd : Does ⟨t, k⟩ d d') (hn : Moves t d d' stack stack' c)
    (hne : d'.scope u ≠ d.scope u) : t = u ∧ stack = [] ∧ c = .call .barrier
      ∧ d'.scope u = d.barrierScope u := by
  have hu : t = u := by
    by_contra hu
    exact hne (hd.slots u (Ne.symm hu)).scope
  subst hu
  cases hn with
  | stays c hd hs => exact absurd (by rw [hd]) hne
  | calls op fs hin hl hcall hs =>
    have hop : op = .barrier := by
      by_contra hop
      exact hne (congrFun (callStep_barrier hop hcall).1 t)
    subst hop
    refine ⟨rfl, ho.barrier_nil hg hin hl, rfl, ?_⟩
    simp only [callStep] at hcall
    (repeat' split at hcall) <;> cases hcall
    exact update_self ..
  | steps f rest fs hold hstep hs =>
    exact absurd (congrFun (frameStep_scope hstep) t) hne
  | finishes o tag n nx w rest hold hd' hs =>
    exact absurd (by rw [hd']) hne

-- ==== from the call to the return

/-- A barrier ends with the scan's last bag, and not before. -/
theorem frameStep_goes_on (hf : f.barrier = true)
    (h : frameStep a d f = .ok (d', fs)) :
    (∃ g ∈ fs, g.barrier = true) ∨ ∃ e0, f = .pendingTag e0 [] := by
  cases f with
  | findFree s b =>
    cases s with
    | prepare n e allow i w => cases hf
    | rotate i w | again =>
      simp only [frameStep, Search.found, Search.missed] at h
      (repeat' split at h) <;> cases h <;> simp [Frame.barrier]
  | rotateOpen c e i w j | rotateSeal c e i w j =>
    cases c with
    | push n => cases hf
    | barrier => cases h; simp [Frame.barrier, After.frames]
  | pendingTag e0 todo =>
    cases todo with
    | nil => exact .inr ⟨e0, rfl⟩
    | cons o rest =>
      simp only [frameStep] at h
      split at h <;> cases h <;> simp [Frame.barrier]
  | sealLoad | sealHead i w | sealEpoch i w j | barrierLoad
  | barrierLoop e0 | pendingHead e0 o todo =>
    simp only [frameStep] at h
    (repeat' split at h) <;> cases h <;> simp [Frame.barrier]
  | _ => cases hf

/-- A barrier of thread `t`, made in `m₀`, is under way, or everything it
answers for is done. -/
def Waiting (t : Nat) (m₀ m : Machine) : Prop :=
  ((∃ f ∈ m.own t, f.barrier = true)
      ∧ m.shared.scope t = m₀.shared.barrierScope t)
    ∨ ∀ n ∈ m₀.shared.barrierScope t, m.shared.place n = .returned

theorem Waiting.call {m m' : Machine} {r : Unit} (h : Enters m t .barrier)
    (hs : Pool.step next m (t, .call .barrier) = .ok (m', r)) :
    Waiting t m m' := by
  have hcall := h.step hs
  simp only [callStep] at hcall
  split_ifs at hcall
  simp only [Except.ok.injEq, Prod.mk.injEq] at hcall
  refine .inl ⟨⟨.sealLoad, by rw [← hcall.2]; simp, rfl⟩, ?_⟩
  rw [← hcall.1]
  exact update_self ..

theorem NodeMove.returned (hm : NodeMove a d d' n)
    (h : d.place n = .returned) : d'.place n = .returned := by
  cases hm with
  | still hp hs => exact hp.trans h
  | retires hold hnew hs | pushes o hold hnew hs | pops o hold hnew hs
  | starts o hold hnew hexpired hz hs | returns o hold hnew hs =>
    rw [h] at hold
    cases hold

/-- The last bag has been scanned: nothing is waited for any more. -/
theorem Waits.done {e0 : Nat} {rest : List Frame}
    (h : Waits t d (.pendingTag e0 [] :: rest)) :
    ∀ n ∈ d.scope t, d.place n = .returned := by
  intro n hn
  cases rest with
  | cons g rest => cases h.1
  | nil =>
    refine (h rfl n hn).resolve_right fun ho => ?_
    obtain ⟨o, -, -, -, hmem⟩ := ho
    cases hmem

theorem Waiting.step {m₀ m m' : Machine} {r : Unit} {c : Nat × Choice}
    (h : Waiting t m₀ m) (hinv : Pool.Inv Good OwnWaits m)
    (hq : Pool.At Settled m c) (hs : Pool.step next m c = .ok (m', r)) :
    Waiting t m₀ m' := by
  obtain ⟨d', stack', hnext, rfl⟩ := Pool.step_inv hs
  obtain ⟨ho, hw⟩ := hinv.own c.1
  obtain ⟨k, hd⟩ := next_does hinv.good ho hq.1 hnext
  have hkeep : (∀ n ∈ m₀.shared.barrierScope t,
      m.shared.place n = .returned) → Waiting t m₀ ⟨d', update m.own c.1 stack'⟩ :=
    fun hdone => .inr fun n hn => (hd.nodes n).returned (hdone n hn)
  rcases h with ⟨⟨f, hf, hb⟩, hscope⟩ | hdone
  · have hne : m.own t ≠ [] := List.ne_nil_of_mem hf
    have hscope' : d'.scope t = m₀.shared.barrierScope t := by
      by_contra hx
      obtain ⟨ht, hnil, -⟩ := scope_set (u := t) hinv.good ho hd
        (next_moves hnext) fun heq => hx (heq.trans hscope)
      exact hne (ht ▸ hnil)
    by_cases ht : t = c.1
    · subst ht
      rcases (next_moves hnext).mem hf (by rintro _ _ _ _ _ rfl; cases hb)
        with hstays | ⟨rest, fs, hstack, hstep, rfl⟩
      · refine .inl ⟨⟨f, ?_, hb⟩, hscope'⟩
        show f ∈ update m.own c.1 stack' c.1
        rwa [update_self]
      · rcases frameStep_goes_on hb hstep with ⟨g, hg, hgb⟩ | ⟨e0, rfl⟩
        · refine .inl ⟨⟨g, ?_, hgb⟩, hscope'⟩
          show g ∈ update m.own c.1 (fs ++ rest) c.1
          rw [update_self]
          exact List.mem_append_left _ hg
        · rw [hstack] at hw
          refine hkeep fun n hn => hw.done n ?_
          rwa [hscope]
    · refine .inl ⟨⟨f, ?_, hb⟩, hscope'⟩
      show f ∈ update m.own c.1 stack' t
      rwa [update_of_ne ht]
  · exact hkeep hdone

/-- Where a schedule of settled steps has a call of barrier, and the
calling thread is outside of the engine again, the deleters of all nodes
that the barrier answers for have returned: of those retired on the slot
before the call, and of those in a sealed or claimed bag at the call. -/
theorem barrier_completion {slotCount drainBatchBound t : Nat}
    {before later : List (Nat × Choice)}
    (hq : Along (Pool.step next) (Pool.At Settled)
      (boot slotCount drainBatchBound)
      (before ++ (t, .call .barrier) :: later)) :
    ∃ m₀ rs₀ m rs,
      run (Pool.step next) (boot slotCount drainBatchBound) before
        = .ok (m₀, rs₀)
      ∧ run (Pool.step next) (boot slotCount drainBatchBound)
          (before ++ (t, .call .barrier) :: later) = .ok (m, rs)
      ∧ (Enters m₀ t .barrier → m.own t = [] →
        ∀ n ∈ m₀.shared.barrierScope t, m.shared.place n = .returned) := by
  obtain ⟨m₀, rs₀, m, rs, hbefore, hrun, -, -, hwait⟩ := Pool.run_since
    (J := fun m₀ m => Enters m₀ t .barrier → Waiting t m₀ m)
    next_keeps_waits next_safe_waits
    (fun _ _ _ _ _ hs henter => .call henter hs)
    (fun _ _ _ _ _ hinv h hq hs henter => (h henter).step hinv hq hs)
    (inv_waits_boot ..) hq
  refine ⟨m₀, rs₀, m, rs, hbefore, hrun, fun henter hret => ?_⟩
  refine (hwait henter).resolve_left fun h => ?_
  obtain ⟨⟨f, hf, -⟩, -⟩ := h
  rw [hret] at hf
  cases hf

/-- A retire from a section. -/
def retireSeven : List (Nat × Choice) :=
  Pool.burst 0 ([.call .readLock, .step, .call (.retire 7)]
    ++ List.replicate 5 .step ++ [.call .readUnlock])

/-- The barrier drives the deleter itself, and scans to the end. -/
def barrierAlone : List (Nat × Choice) :=
  Pool.burst 0 (List.replicate 30 .step ++ .finish
    :: List.replicate 13 .step)

/-- The barrier that is alone returns after the deleter. -/
theorem barrier_completion_barrierAlone :
    ∃ m₀ rs₀ m rs, run (Pool.step next) (boot 1 8) retireSeven = .ok (m₀, rs₀)
      ∧ run (Pool.step next) (boot 1 8)
          (retireSeven ++ (0, .call .barrier) :: barrierAlone) = .ok (m, rs)
      ∧ m₀.shared.barrierScope 0 = [7] ∧ m.own 0 = []
      ∧ m.shared.place 7 = .returned := by
  have hfacts : Returns (fun p => Enters p.1 0 .barrier
        ∧ p.1.shared.barrierScope 0 = [7])
      (run (Pool.step next) (boot 1 8) retireSeven) := by
    decide +kernel
  have hreturns : Returns (fun p => p.1.own 0 = [])
      (run (Pool.step next) (boot 1 8)
        (retireSeven ++ (0, .call .barrier) :: barrierAlone)) := by
    decide +kernel
  have hq : Along (Pool.step next) (Pool.At Settled) (boot 1 8)
      (retireSeven ++ (0, .call .barrier) :: barrierAlone) := by
    decide +kernel
  obtain ⟨m₀, rs₀, m, rs, hbefore, hrun, hdone⟩ := barrier_completion hq
  rw [hbefore] at hfacts
  rw [hrun] at hreturns
  exact ⟨m₀, rs₀, m, rs, hbefore, hrun, hfacts.2, hreturns,
    hdone hfacts.1 hreturns 7 (by rw [hfacts.2]; exact List.mem_singleton_self 7)⟩

/-- Another slot's sweeps take the node while the barrier waits, and
its deleter is still running when the barrier scans the emptied bag. -/
def barrierOvertaken : List (Nat × Choice) :=
  [retireSeven, Pool.burst 0 (.call .barrier :: List.replicate 8 .step),
    Pool.burst 1 (.call .tryAdvance :: List.replicate 15 .step),
    Pool.burst 1 (.call .tryAdvance :: List.replicate 15 .step),
    Pool.burst 0 (List.replicate 11 .step)].flatten

/-- The barrier has returned and the deleter has not. -/
theorem barrier_returns_before_deleter :
    ∃ m rs, run (Pool.step next) (boot 2 8) barrierOvertaken
        = .ok (m, rs)
      ∧ m.own 0 = [] ∧ m.shared.scope 0 = [7] ∧ m.shared.slotOf 7 = 0
      ∧ m.shared.starts 7 = 1
      ∧ m.shared.place 7 = .running (0, 0) ⟨1, 0⟩ := by
  decide +kernel

end CroCOS.Core.Rcu
