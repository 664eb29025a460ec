/-
Calls of the client, and from them whole schedules: as long as the
epoch stays representable, no schedule faults, and the invariant holds
in every state it reaches.
-/
import CroCOS.Proofs.EpochDomain.Steps

namespace CroCOS.Core.Rcu

open Function Lib

variable {a : Agent} {d d' : Shared} {c : Choice}
variable {stack stack' : List Frame} {t : Nat}

-- ==== calls

/-- What the thread knows in client code: nothing is in the hands of
the frame it is about to stack. -/
structure InClientCode (a : Agent) (d : Shared) : Prop where
  good : Good d
  rotating : d.rotating a.thread = none
  hands : ∀ n, ¬ InHand d a n

section

variable (h : InClientCode a d)
include h

/-- A call that moves no node. -/
theorem InClientCode.calls {d' : Shared} {fs : List Frame}
    (hsame : (d'.place, d'.rotating, d'.inDrain, rotationOf fs,
        fs.countP Frame.draining) = (d.place, d.rotating, d.inDrain, none, 0))
    (hd : Does a d d') (hfs : FramesOk d' a fs) :
    Continued a d [] (.ok (d', fs)) := by
  simp only [Prod.mk.injEq] at hsame
  obtain ⟨hplace, hrot, hdr, hrot', hcount⟩ := hsame
  refine ⟨_, _, rfl, hd, hfs, by rw [hrot, hrot', h.rotating], ?_, ?_⟩
  · intro n hn
    unfold InHand at hn
    rw [hplace] at hn
    exact absurd hn (h.hands n)
  · rw [hdr, hcount]
    rfl

theorem InClientCode.readLock : Continued a d [] (callStep a d .readLock) := by
  simp only [callStep]
  split
  · exact h.calls rfl (.counts h.good _ _) trivial
  · exact h.calls rfl (.counts h.good _ _) le_rfl

theorem InClientCode.readUnlock (hl : legal d a.thread .readUnlock = true) :
    Continued a d [] (callStep a d .readUnlock) := by
  have hn : 0 < d.nesting a.thread := of_decide_eq_true hl
  simp only [callStep]
  rw [if_neg (by omega)]
  split
  · exact h.calls rfl (.counts h.good _ _) trivial
  · exact h.calls rfl (.deactivate h.good _) trivial

theorem InClientCode.retire {n : Node}
    (hl : legal d a.thread (.retire n) = true)
    (hmax : d.globalEpoch ≤ kMaxEpoch) :
    Continued a d [] (callStep a d (.retire n)) := by
  simp only [legal, Bool.and_eq_true, beq_iff_eq, Bool.or_eq_true,
    decide_eq_true_eq] at hl
  obtain ⟨hfresh, hctx⟩ := hl
  simp only [callStep]
  rw [if_neg (by rw [h.good.unlinked n hfresh]; exact Bool.false_ne_true),
    if_neg, if_neg (Nat.not_lt.mpr hmax)]
  · refine ⟨_, _, rfl, .retires h.good hfresh, ⟨⟨place_self, ?_⟩,
      le_rfl⟩, h.rotating, ?_, rfl⟩
    · show (update d.seen n d.observe n).epoch = _
      rw [update_self]
      rfl
    · intro n' hn'
      refine ⟨_, rfl, ?_⟩
      by_cases hx : n' = n
      · rw [hx]
        rfl
      · unfold InHand at hn'
        change update d.place n _ n' = _
          ∨ (∃ o, update d.place n _ n' = _) at hn'
        rw [place_ne hx] at hn'
        exact absurd hn' (h.hands n')
  · intro hno
    cases hctx with
    | inl hpos => omega
    | inr hin =>
      rw [hno.2] at hin
      cases hin

theorem InClientCode.synchronize (hl : legal d a.thread .synchronize = true) :
    Continued a d [] (callStep a d .synchronize) := by
  simp only [legal, Bool.and_eq_true, beq_iff_eq, Bool.not_eq_true'] at hl
  simp only [callStep]
  rw [if_neg (not_not.mpr hl.1), hl.2]
  exact h.calls rfl (.observes h.good) List.mem_cons_self

theorem InClientCode.barrier (hl : legal d a.thread .barrier = true) :
    Continued a d [] (callStep a d .barrier) := by
  simp only [legal, Bool.and_eq_true, beq_iff_eq, Bool.not_eq_true'] at hl
  simp only [callStep]
  rw [if_neg (not_not.mpr hl.1), hl.2]
  refine h.calls rfl (.quiet h.good d.nesting d.retireCount d.inDrain
    _ (fun _ _ => rfl) fun t ht => update_of_ne ht ..) trivial

/-- No call that meets the caller's obligations faults. -/
theorem InClientCode.callStep {op : Op} (hl : legal d a.thread op = true)
    (hmax : d.globalEpoch ≤ kMaxEpoch) :
    Continued a d [] (callStep a d op) := by
  cases op with
  | readLock => exact h.readLock
  | readUnlock => exact h.readUnlock hl
  | retire n => exact h.retire hl hmax
  | tryAdvance | sweepExpired =>
    exact h.calls rfl (.refl h.good) trivial
  | synchronize => exact h.synchronize hl
  | barrier => exact h.barrier hl

end

-- ==== what is on top

/-- The top of a stack, as its own frame knows it. -/
theorem Own.top {f : Frame} {rest : List Frame} (hg : Good d)
    (h : Own t d (f :: rest)) : At ⟨t, rest.length⟩ d f := by
  refine ⟨hg, h.inRange (List.cons_ne_nil f rest), h.frames.1, ?_, ?_, ?_⟩
  · rw [h.rotating]
    cases f with
    | _ => rfl
  · intro n hn
    obtain ⟨g, hget, hnode⟩ := h.hands _ n hn
    rw [List.reverse_cons, List.getElem?_append_right
      (by rw [List.length_reverse]), List.length_reverse, Nat.sub_self]
      at hget
    cases hget
    exact hnode
  · intro hf
    have hd := h.drains
    rw [List.countP_cons_of_pos hf] at hd
    cases hin : d.inDrain t with
    | true => rfl
    | false =>
      rw [hin] at hd
      cases hd

/-- Client code, as the frame to be stacked finds it. -/
theorem Own.client (hg : Good d) (h : Own t d stack)
    (hin : inClient stack = true) :
    InClientCode ⟨t, stack.length⟩ d ∧ Below d t stack := by
  have hhands : ∀ n, ¬ InHand d ⟨t, stack.length⟩ n := by
    intro n hn
    obtain ⟨f, hget, -⟩ := h.hands _ n hn
    rw [List.getElem?_eq_none (by rw [List.length_reverse])] at hget
    cases hget
  cases stack with
  | nil => exact ⟨⟨hg, h.rotating, hhands⟩, trivial⟩
  | cons f rest =>
    cases f with
    | drainDeleter o tag n nx w =>
      exact ⟨⟨hg, h.rotating, hhands⟩, rfl, h.frames.1, h.frames.2⟩
    | _ => cases hin

-- ==== one step

/-- The deleter on top returns. -/
theorem At.finish {o : BagId} {tag : Nat} {n : Node} {nx : Option Node}
    {w : Sweep} (h : At a d (.drainDeleter o tag n nx w)) :
    Continues a d { d with place := update d.place n .returned }
      [.drainDeleter o tag n nx w] [.drainPop o tag nx w] := by
  obtain ⟨he, hh, hr, hn, hs⟩ := h.ok
  have hgone : ∀ n', ¬ InHand
      { d with place := update d.place n .returned } a n' := by
    intro n' hx
    change update d.place n _ n' = _
      ∨ (∃ o, update d.place n _ n' = _) at hx
    by_cases hn' : n' = n
    · subst hn'
      rw [place_self] at hx
      rcases hx with hx | ⟨o', hx⟩ <;> cases hx
    · rw [place_ne hn'] at hx
      exact hn' (Option.some.inj (h.hands n' hx)).symm
  refine ⟨.returns h.good hr hs, ⟨he, hh, ?_, hn⟩, h.rotating, ?_, rfl⟩
  · intro n' o' hx
    exact hgone n' (Or.inr ⟨o', hx⟩)
  · intro n' hx
    exact absurd hx (hgone n')

/-- Every step of a thread that finds the epoch representable returns,
keeps the thread's own assertion and owes the others nothing more. -/
theorem next_ok (c : Choice) (hg : Good d) (ho : Own t d stack)
    (hmax : d.globalEpoch ≤ kMaxEpoch) :
    ∃ d' stack' k, next t d stack c = .ok (d', stack', ())
      ∧ Own t d' stack' ∧ Does ⟨t, k⟩ d d' := by
  have hstay : ∃ d' stack' k, (.ok (d, stack, ()) : Except Fault _)
      = .ok (d', stack', ()) ∧ Own t d' stack' ∧ Does ⟨t, k⟩ d d' :=
    ⟨d, stack, 0, rfl, ho, .refl hg⟩
  unfold next
  by_cases hlt : t < d.slotCount
  · rw [if_pos hlt]
    cases c with
    | call op =>
      simp only
      split
      · rename_i hcl
        rw [Bool.and_eq_true] at hcl
        obtain ⟨hcode, hbelow⟩ := ho.client hg hcl.1
        obtain ⟨d', fs, hcall, hcont⟩ := hcode.callStep hcl.2 hmax
        rw [hcall]
        exact ⟨d', _, _, rfl,
          Own.continue [] ho hlt (Nat.zero_le _) hbelow hcont,
          hcont.does⟩
      · exact hstay
    | step =>
      cases stack with
      | nil => exact hstay
      | cons f rest =>
        obtain ⟨d', fs, hstep, hcont⟩ := (ho.top hg).steps
        simp only
        rw [hstep]
        exact ⟨d', _, _, rfl, Own.continue [f] ho hlt
          le_rfl ho.frames.2 hcont, hcont.does⟩
    | finish =>
      cases stack with
      | nil => exact hstay
      | cons f rest =>
        cases f with
        | drainDeleter o tag n nx w =>
          have hcont := (ho.top hg).finish
          exact ⟨_, _, _, rfl, Own.continue [.drainDeleter o tag n nx w] ho hlt
            le_rfl ho.frames.2 hcont, hcont.does⟩
        | _ => exact hstay
  · rw [if_neg hlt]
    exact hstay

/-- A frame goes by a step of its own, or it is a deleter that returns. -/
theorem Moves.mem {f : Frame} (hn : Moves t d d' stack stack' c)
    (hf : f ∈ stack) (hdel : ∀ o tag n nx w, f ≠ .drainDeleter o tag n nx w) :
    f ∈ stack' ∨ ∃ rest fs, stack = f :: rest
      ∧ frameStep ⟨t, rest.length⟩ d f = .ok (d', fs)
      ∧ stack' = fs ++ rest := by
  cases hn with
  | stays c hd hs =>
    rw [hs]
    exact .inl hf
  | calls op fs hin hl hcall hs =>
    rw [hs]
    exact .inl (List.mem_append_right _ hf)
  | steps g rest fs hold hstep hs =>
    subst hold hs
    rcases List.mem_cons.mp hf with rfl | hf
    · exact .inr ⟨rest, fs, rfl, hstep, rfl⟩
    · exact .inl (List.mem_append_right _ hf)
  | finishes o tag n nx w rest hold hd hs =>
    subst hold hs
    exact .inl (List.mem_cons_of_mem _
      ((List.mem_cons.mp hf).resolve_left (hdel o tag n nx w)))

/-- The call is taken, from outside of the engine. -/
def Enters (m : Machine) (t : Nat) (op : Op) : Prop :=
  t < m.shared.slotCount ∧ m.own t = [] ∧ legal m.shared t op = true

instance (m : Machine) (t : Nat) (op : Op) : Decidable (Enters m t op) :=
  inferInstanceAs (Decidable (_ ∧ _))

theorem Enters.step {m m' : Machine} {op : Op} {r : Unit}
    (h : Enters m t op) (hs : Pool.step next m (t, .call op) = .ok (m', r)) :
    callStep ⟨t, 0⟩ m.shared op = .ok (m'.shared, m'.own t) := by
  obtain ⟨hlt, hidle, hl⟩ := h
  obtain ⟨d', stack', hnext, rfl⟩ := Pool.step_inv hs
  simp only [next, if_pos hlt, hidle, inClient, hl, Bool.true_and, if_true,
    List.append_nil, List.length_nil] at hnext
  cases hc : callStep ⟨t, 0⟩ m.shared op with
  | error e => rw [hc] at hnext; cases hnext
  | ok p =>
    rw [hc] at hnext
    cases hnext
    show _ = Except.ok (_, update m.own t _ t)
    rw [update_self]

-- ==== whole runs

/-- The epoch a step finds is representable. -/
def Representable (_ : Nat) (d : Shared) (_ : List Frame) (_ : Choice) : Prop :=
  d.globalEpoch ≤ kMaxEpoch

instance (t : Nat) (d : Shared) (stack : List Frame) (c : Choice) :
    Decidable (Representable t d stack c) :=
  inferInstanceAs (Decidable (_ ≤ _))

/-- A zeroed bag word is free and untagged. -/
theorem bagState_init (slotCount drainBatchBound : Nat) (o : BagId) :
    (Shared.init slotCount drainBatchBound).bagState o = .free := by
  show bagStateOf 0 = .free
  decide

theorem bagTag_init (slotCount drainBatchBound : Nat) (o : BagId) :
    (Shared.init slotCount drainBatchBound).bagTag o = 0 := by
  show bagTagOf 0 = 0
  decide

theorem good_init (slotCount drainBatchBound : Nat) :
    Good (Shared.init slotCount drainBatchBound) where
  spells := fun _ => rfl
  nodup := fun _ => List.nodup_nil
  queued := fun _ _ => ⟨fun h => (by cases h), fun h => (by cases h)⟩
  freeEmpty := fun _ _ => rfl
  tagged := fun _ _ h => by cases h
  past := fun o => by rw [bagTag_init]; exact Nat.zero_le _
  claimed := fun o => ⟨fun h => (by rw [bagState_init] at h; cases h),
    fun h => (by obtain ⟨a, h⟩ := h; cases h)⟩
  running := fun _ _ _ h => by cases h
  openOnly := fun _ _ h => by rw [bagState_init] at h; cases h
  designated := fun _ => Or.inl (bagState_init ..)
  index := fun _ => (by decide : 0 < kBagCount)
  inRange := fun _ _ h => by cases h
  unlinked := fun _ _ => rfl
  retired := fun _ => ⟨fun h => (by cases h), fun h => absurd rfl h⟩
  slot := fun _ => ⟨fun _ h => (by cases h), fun _ h => (by cases h)⟩
  started := fun _ => Nat.zero_le 1
  finished := fun _ h => by cases h
  unstarted := fun _ _ => rfl
  snapshot := fun _ h => by
    change isActive kInactive = true at h
    cases h
  seen := fun _ h => absurd rfl h
  entered := fun _ h => by cases h
  guarded := fun _ h => by cases h

theorem own_init (slotCount drainBatchBound t : Nat) :
    Own t (Shared.init slotCount drainBatchBound) [] where
  inRange := fun h => absurd rfl h
  rotating := rfl
  frames := trivial
  hands := fun _ _ h => by
    rcases h with h | ⟨o, h⟩ <;> cases h
  drains := rfl

theorem inv_boot (slotCount drainBatchBound : Nat) :
    Pool.Inv Good Own (boot slotCount drainBatchBound) :=
  ⟨good_init .., fun t => own_init slotCount drainBatchBound t⟩

theorem next_keeps : Pool.Keeps next Representable Good Own := by
  intro t d stack c d' stack' r hg ho hmax hn
  obtain ⟨d₁, stack₁, k, hn₁, ho', hd⟩ := next_ok c hg ho hmax
  rw [hn] at hn₁
  cases hn₁
  exact ⟨hd.good, ho', fun u l hu h => h.other hd hu⟩

/-- A step is one step of some agent of its thread. -/
theorem next_does {d' : Shared} {stack' : List Frame} {c : Choice}
    (hg : Good d) (ho : Own t d stack) (hmax : d.globalEpoch ≤ kMaxEpoch)
    (hn : next t d stack c = .ok (d', stack', ())) :
    ∃ k, Does ⟨t, k⟩ d d' := by
  obtain ⟨d₁, stack₁, k, hn₁, -, hd⟩ := next_ok c hg ho hmax
  rw [hn] at hn₁
  cases hn₁
  exact ⟨k, hd⟩

theorem next_safe : Pool.Safe next Representable Good Own := by
  intro t d stack c hg ho hmax
  obtain ⟨d', stack', -, hn, -, -⟩ := next_ok c hg ho hmax
  exact ⟨d', stack', (), hn⟩

/-- Every schedule whose steps find the epoch representable runs to its
end and keeps the invariant. -/
theorem run_ok {slotCount drainBatchBound : Nat} {sched : List (Nat × Choice)}
    (hmax : Along (Pool.step next) (Pool.At Representable)
      (boot slotCount drainBatchBound) sched) :
    ∃ m rs, run (Pool.step next) (boot slotCount drainBatchBound) sched
        = .ok (m, rs) ∧ Pool.Inv Good Own m :=
  Pool.run_safe next_keeps next_safe (inv_boot ..) hmax

end CroCOS.Core.Rcu
