/-
Whole schedules of the stack, and vmsmalloc's head encoding: 27 bits of
page offset, 37 bits of tag.

A call shows one event, of its own operation and what it was given, and
no other (`Shows`). So the answers of a schedule are an order of the
calls in which each stands between its call and its return.
-/
import CroCOS.Proofs.ChainedTreiberStack.Steps

namespace CroCOS.Core.ChainedTreiberStack

open Lib

variable {Node : Type} [DecidableEq Node]
variable {E : HeadEncoding Node} {alive : Node → Prop} {d d' : Shared Node}
variable {t : Nat}

-- ==== calls

/-- No call that meets the caller's obligations faults. -/
theorem callStep_ok {op : Op Node} (hl : legal E d t op = true) :
    ∃ f, callStep d op = .ok f ∧ FrameOk E t d d.pushes f := by
  cases op with
  | push n =>
    rw [legal, Bool.and_eq_true, beq_iff_eq] at hl
    exact ⟨.pushLoad n, rfl, hl.2, hl.1⟩
  | pushChain c depth =>
    simp only [legal, Bool.and_eq_true, beq_iff_eq, decide_eq_true_eq,
      List.all_eq_true] at hl
    obtain ⟨⟨⟨⟨howns, hnodup⟩, hlen⟩, hspells⟩, hdepth⟩ := hl
    refine ⟨.chainLoad c, ?_, ⟨?_, hnodup, hspells, ?_⟩⟩
    · have hpos : depth ≠ 0 := by
        rw [← hlen]
        exact Nat.succ_ne_zero _
      simp only [callStep, if_neg hpos, hdepth, ne_eq, not_true_eq_false,
        if_false]
    · intro n hn
      exact ⟨(howns n hn).2, (howns n hn).1⟩
    · rw [hdepth, hlen]
  | pop => exact ⟨.popLoad, rfl, trivial⟩

-- ==== one step

/-- Fewer than `bound` pushes have completed since the pending call was
made. -/
def Fewer (bound : Nat) (_ : Nat) (d : Shared Node)
    (l : Option (Pending Node)) (_ : Choice Node) : Prop :=
  ∀ p ∈ l, d.pushes < p.since + bound

instance (bound t : Nat) (d : Shared Node) (l : Option (Pending Node))
    (c : Choice Node) : Decidable (Fewer bound t d l c) :=
  inferInstanceAs (Decidable (∀ p ∈ l, _))

/-- Every step returns, keeps the thread's own assertion, owes the
others nothing more and answers what the stack of chains answers. -/
theorem next_ok {l : Option (Pending Node)} (c : Choice Node)
    (hg : Good E alive d) (ho : Own E t d l)
    (hfew : Fewer E.tagCount t d l c) :
    ∃ d' l' r, next E t d l c = .ok (d', l', r) ∧ Own E t d' l'
      ∧ Does E alive t d d' ∧ Event.apply d.chains r = some d'.chains := by
  have hstay : ∃ d' l' r, (.ok (d, l, none) : Except Fault _)
      = .ok (d', l', r) ∧ Own E t d' l' ∧ Does E alive t d d'
        ∧ Event.apply d.chains r = some d'.chains :=
    ⟨d, l, none, rfl, ho, .refl hg d.maxChainLength, rfl⟩
  have hout : ∀ d' : Shared Node, Own E t d' none := by
    intro d' p hp
    cases hp
  cases l with
  | none =>
    cases c with
    | call op =>
      simp only [next]
      split
      · rename_i hl
        obtain ⟨f, hf, hok⟩ := callStep_ok hl
        rw [hf]
        refine ⟨d, _, none, rfl, ?_, .refl hg d.maxChainLength, rfl⟩
        intro p hp
        cases hp
        exact ⟨le_rfl, hok⟩
      · exact hstay
    | step => exact hstay
    | write n nx cn depth =>
      simp only [next]
      split
      · rename_i hn
        exact ⟨_, none, none, rfl, hout _, .writes hg hn nx cn depth,
          rfl⟩
      · exact hstay
    | give n u =>
      simp only [next]
      split
      · rename_i hn
        exact ⟨_, none, none, rfl, hout _, .gives hg hn u, rfl⟩
      · exact hstay
    | setMaxChainLength k =>
      exact ⟨_, none, none, rfl, hout _, .refl hg k, rfl⟩
  | some p =>
    cases c with
    | step =>
      obtain ⟨hsince, hf⟩ := ho p rfl
      cases FrameOk.steps hg hsince (hfew p rfl) hf with
      | inl hgo =>
        obtain ⟨d', f', hstep, hd, hf', hc⟩ := hgo
        simp only [next, hstep]
        refine ⟨d', _, none, rfl, ?_, hd, by rw [hc]; rfl⟩
        intro q hq
        cases hq
        exact ⟨Nat.le_trans hsince hd.pushes, hf'⟩
      | inr hend =>
        obtain ⟨d', ev, hstep, hd, happ⟩ := hend
        simp only [next, hstep]
        exact ⟨d', none, some ev, rfl, hout d', hd, happ⟩
    | call op | write n nx cn depth | give n u | setMaxChainLength k =>
      exact hstay

-- ==== a call's event

/-- What is put on the stack: a node, a chain, or nothing by a pop. -/
def Op.puts : Op Node → Option (Node ⊕ Chain Node)
  | .push n => some (.inl n)
  | .pushChain c _ => some (.inr c)
  | .pop => none

def Event.puts : Event Node → Option (Node ⊕ Chain Node)
  | .pushed n _ => some (.inl n)
  | .pushedChain c => some (.inr c)
  | .popped _ => none

def Frame.puts : Frame Node → Option (Node ⊕ Chain Node)
  | .pushLoad n => some (.inl n)
  | .pushMax n _ => some (.inl n)
  | .pushTop n _ _ => some (.inl n)
  | .pushChainNext n _ _ _ => some (.inl n)
  | .pushChainDepth n _ _ _ => some (.inl n)
  | .pushReadNext n _ _ _ _ => some (.inl n)
  | .pushNext n _ _ _ _ => some (.inl n)
  | .pushCas n _ _ _ _ => some (.inl n)
  | .chainLoad c => some (.inr c)
  | .chainNext c _ => some (.inr c)
  | .chainCas c _ => some (.inr c)
  | _ => none

theorem frameStep_puts (f : Frame Node) :
    (frameStep E t d f).2.elim Frame.puts Event.puts = f.puts := by
  cases f with
  | pushChainDepth n kmax old plan => cases plan <;> rfl
  | pushTop n kmax old =>
    simp only [frameStep]
    (repeat' split) <;> rfl
  | pushCas n kmax old plan nx | chainCas c old
  | popCas old topPtr depth nx | popLoad =>
    simp only [frameStep]
    split <;> rfl
  | _ => rfl

/-- A call under way has shown nothing, one that is over its event. -/
def Shows (op : Op Node) : Option (Pending Node) → List (Event Node) → Prop
  | some p, es => p.frame.puts = op.puts ∧ es = []
  | none, es => ∃ e, es = [e] ∧ e.puts = op.puts

theorem Shows.step {op : Op Node} {l l' : Option (Pending Node)}
    {r : Option (Event Node)} {es : List (Event Node)} (h : Shows op l es)
    (hn : next E t d l .step = .ok (d', l', r)) :
    Shows op l' (es ++ r.toList) := by
  cases l with
  | none =>
    cases hn
    rw [Option.toList_none, List.append_nil]
    exact h
  | some p =>
    obtain ⟨hp, rfl⟩ := h
    have hputs := (frameStep_puts (E := E) (t := t) (d := d) p.frame).trans hp
    simp only [next] at hn
    cases hf : frameStep E t d p.frame with
    | mk d₁ o =>
      rw [hf] at hn hputs
      cases o with
      | inl f =>
        cases hn
        exact ⟨hputs, rfl⟩
      | inr e =>
        cases hn
        exact ⟨e, rfl, hputs⟩

omit [DecidableEq Node] in
theorem callStep_puts {op : Op Node} {f : Frame Node}
    (h : callStep d op = .ok f) : f.puts = op.puts := by
  cases op with
  | push n | pop =>
    cases h
    rfl
  | pushChain c depth =>
    simp only [callStep] at h
    split_ifs at h
    cases h
    rfl

-- ==== whole runs

theorem next_keeps :
    Pool.Keeps (next E) (Fewer E.tagCount) (Good E alive) (Own E) := by
  intro t d l c d' l' r hg ho hfew hn
  obtain ⟨d₁, l₁, r₁, hn₁, ho', hd, -⟩ := next_ok c hg ho hfew
  rw [hn] at hn₁
  cases hn₁
  refine ⟨hd.good, ho', fun u k hu h p hp => ?_⟩
  obtain ⟨hsince, hf⟩ := h p hp
  exact ⟨Nat.le_trans hsince hd.pushes, hf.keep hg hd hu⟩

omit [DecidableEq Node] in
theorem inv_boot (kmax : Nat) (next chainNext : Node → Option Node)
    (chainDepth : Node → Nat) (owner : Node → Option Nat) :
    Pool.Inv (Good E fun n => (owner n).isSome) (Own E)
      (boot kmax next chainNext chainDepth owner) where
  good := by
    refine ⟨?_, rfl, ?_, List.nodup_nil, ?_, fun n hn => Or.inl hn⟩
    · show 0 = E.pack none (0 % E.tagCount)
      rw [Nat.zero_mod, E.pack_zero]
    · intro c hc
      cases hc
    · intro n hn
      cases hn
  own := by
    intro t p hp
    cases hp

/-- A legal call that is over has answered once since it was made, with
the event of its own operation and arguments. -/
abbrev Answered (E : HeadEncoding Node) :=
  Pool.Answered (next E) none .step fun m₀ t c es => ∀ op, c = .call op →
    legal E m₀.shared t op = true → ∃ e, es = [e] ∧ e.puts = op.puts

/-- Every schedule in which each call sees fewer pushes complete than
there are tags runs to its end, its answers are those of the stack of
chains, and the memory is that stack. A call that is over has answered
once, with the event of its own operation and arguments. -/
theorem run_linearizable (kmax : Nat) (nx cn : Node → Option Node)
    (depth : Node → Nat) (owner : Node → Option Nat)
    {sched : List (Nat × Choice Node)}
    (hfew : Along (Pool.step (next E)) (Pool.At (Fewer E.tagCount))
      (boot kmax nx cn depth owner) sched) :
    ∃ m rs, run (Pool.step (next E)) (boot kmax nx cn depth owner) sched
        = .ok (m, rs)
      ∧ rs.foldlM Event.apply [] = some m.shared.chains
      ∧ Good E (fun n => (owner n).isSome) m.shared
      ∧ Answered E (boot kmax nx cn depth owner) sched m rs := by
  have hstep : ∀ t d l c, Good E (fun n => (owner n).isSome) d →
      Own E t d l → Fewer E.tagCount t d l c →
      ∃ d' l' r, next E t d l c = .ok (d', l', r)
        ∧ Event.apply d.chains r = some d'.chains := by
    intro t d l c hg ho hq
    obtain ⟨d', l', r, hn, -, -, happ⟩ := next_ok c hg ho hq
    exact ⟨d', l', r, hn, happ⟩
  obtain ⟨m, rs, hrun, hinv, hfold⟩ :=
    Pool.run_replays Shared.chains next_keeps hstep
      (inv_boot kmax nx cn depth owner) hfew
  refine ⟨m, rs, hrun, hfold, hinv.good, Pool.run_answered
    (S := fun m₀ t c l es => ∀ op, c = .call op →
      legal E m₀.shared t op = true → Shows op l es) ?_ ?_ hrun⟩
  · intro m₀ t c d' l r hn op hc hl
    subst hc
    obtain ⟨f, hf, -⟩ := callStep_ok hl
    simp only [next, hl, if_true, hf] at hn
    cases hn
    exact ⟨callStep_puts hf, rfl⟩
  · exact fun _ _ _ _ _ _ _ _ _ h hn op hc hl => (h op hc hl).step hn

end CroCOS.Core.ChainedTreiberStack

-- ==== vmsmalloc's encoding

namespace CroCOS.VMSubstrate.VmsHeadEncoding

open Lib Core.ChainedTreiberStack

theorem kCounterMask_eq : kCounterMask = 2 ^ 37 - 1 := rfl

theorem kOffsetMask_eq : kOffsetMask = 2 ^ 27 - 1 := rfl

/-- A word with tag `t` and page offset `off`. -/
theorem word_eq (t off : Nat) :
    (t &&& kCounterMask) <<< kOffsetBits ||| (off &&& kOffsetMask)
      = 2 ^ 27 * (t % 2 ^ 37) + off % 2 ^ 27 := by
  rw [kCounterMask_eq, kOffsetMask_eq, Nat.and_two_pow_sub_one_eq_mod,
    Nat.and_two_pow_sub_one_eq_mod, show kOffsetBits = 27 from rfl,
    ← Nat.shiftLeft_add_eq_or_of_lt (Nat.mod_lt _ (Nat.two_pow_pos 27)),
    Nat.shiftLeft_eq, Nat.mul_comm]

theorem pack_none (vmsBase t : Nat) :
    pack vmsBase none t = 2 ^ 27 * (t % 2 ^ 37) + 0 := by
  have h := word_eq t 0
  rw [Nat.zero_and, Nat.or_zero] at h
  exact h

/-- A descriptor is its page offset, which is never zero. -/
theorem isDescriptor_iff {vmsBase : Nat} {p : Nat} :
    isDescriptor vmsBase p = true
      ↔ ∃ off, 0 < off ∧ off < 2 ^ 27 ∧ p = vmsBase + off * 2 ^ 12 := by
  simp only [isDescriptor, Bool.and_eq_true, decide_eq_true_eq, beq_iff_eq,
    show kPageShift = 12 from rfl, show kWindowAddressBits = 39 from rfl]
  constructor
  · intro h
    exact ⟨(p - vmsBase) / 2 ^ 12, by omega, by omega, by omega⟩
  · intro h
    omega

theorem pack_descriptor {vmsBase off : Nat} (h : off < 2 ^ 27) (t : Nat) :
    pack vmsBase (some (vmsBase + off * 2 ^ 12)) t
      = 2 ^ 27 * (t % 2 ^ 37) + off := by
  have hoff : (vmsBase + off * 2 ^ 12 - vmsBase) >>> kPageShift = off := by
    rw [show kPageShift = 12 from rfl]
    omega
  have hw := word_eq t off
  rw [Nat.mod_eq_of_lt h] at hw
  show (t &&& kCounterMask) <<< kOffsetBits
    ||| ((vmsBase + off * 2 ^ 12 - vmsBase) >>> kPageShift &&& kOffsetMask)
      = _
  rw [hoff, hw]

theorem unpackPointer_word (vmsBase t : Nat) {off : Nat} (h : off < 2 ^ 27) :
    unpackPointer vmsBase (2 ^ 27 * t + off)
      = if off = 0 then none else some (vmsBase + off * 2 ^ 12) := by
  have hoff : (2 ^ 27 * t + off) &&& kOffsetMask = off := by
    rw [kOffsetMask_eq, Nat.and_two_pow_sub_one_eq_mod]
    omega
  simp only [unpackPointer, hoff, show kPageShift = 12 from rfl,
    Nat.shiftLeft_eq]

theorem unpackTag_word (t : Nat) {off : Nat} (h : off < 2 ^ 27) :
    unpackTag (2 ^ 27 * (t % 2 ^ 37) + off) = t % 2 ^ 37 := by
  unfold unpackTag
  rw [kCounterMask_eq, Nat.and_two_pow_sub_one_eq_mod,
    show kOffsetBits = 27 from rfl]
  omega

/-- The word of any pointer a stack can hold. -/
theorem pack_word {vmsBase : Nat} {p : Option Nat}
    (h : ∀ n ∈ p, isDescriptor vmsBase n = true) (t : Nat) :
    ∃ off, off < 2 ^ 27 ∧ pack vmsBase p t = 2 ^ 27 * (t % 2 ^ 37) + off
      ∧ p = if off = 0 then none else some (vmsBase + off * 2 ^ 12) := by
  cases p with
  | none => exact ⟨0, Nat.two_pow_pos 27, pack_none vmsBase t, rfl⟩
  | some n =>
    obtain ⟨off, h0, h1, rfl⟩ := isDescriptor_iff.mp (h n rfl)
    refine ⟨off, h1, pack_descriptor h1 t, ?_⟩
    rw [if_neg (Nat.pos_iff_ne_zero.mp h0)]

end CroCOS.VMSubstrate.VmsHeadEncoding

namespace CroCOS.VMSubstrate

open Lib Core.ChainedTreiberStack

/-- vmsmalloc's encoding is one. -/
def vmsHeadEncoding (vmsBase : Nat) : HeadEncoding Nat where
  pack := VmsHeadEncoding.pack vmsBase
  unpackPointer := VmsHeadEncoding.unpackPointer vmsBase
  unpackTag := VmsHeadEncoding.unpackTag
  advanceTag := VmsHeadEncoding.advanceTag
  fits := VmsHeadEncoding.isDescriptor vmsBase
  tagCount := 2 ^ VmsHeadEncoding.kCounterBits
  tagCount_pos := Nat.two_pow_pos _
  pack_zero := rfl
  unpackPointer_pack := by
    intro p t h
    obtain ⟨off, hlt, hw, hp⟩ := VmsHeadEncoding.pack_word h t
    rw [hw, VmsHeadEncoding.unpackPointer_word vmsBase _ hlt, ← hp]
  unpackTag_pack := by
    intro p t h ht
    obtain ⟨off, hlt, hw, -⟩ := VmsHeadEncoding.pack_word h t
    rw [hw, VmsHeadEncoding.unpackTag_word t hlt]
    exact Nat.mod_eq_of_lt ht
  advanceTag_eq := by
    intro t _
    rw [VmsHeadEncoding.advanceTag, VmsHeadEncoding.kCounterMask_eq,
      Nat.and_two_pow_sub_one_eq_mod]
    rfl

/-- The shared stacks of vmsmalloc. In every schedule in which fewer
than `2 ^ 37` pushes complete while a call is pending, the answers are
those of an atomic stack of chains, in the order in which they were
given; in every state such a schedule reaches the memory is that stack,
with every node in it once and owned by nobody, and no node of the start
lost; and every call that is over has answered once since it was made,
with the event of its own operation and arguments. -/
theorem chained_stack_linearizable (vmsBase kmax : Nat)
    (nx cn : Nat → Option Nat) (depth : Nat → Nat)
    (owner : Nat → Option Nat) {sched : List (Nat × Choice Nat)}
    (hfew : Along (Pool.step (next (vmsHeadEncoding vmsBase)))
      (Pool.At (Fewer (2 ^ 37))) (boot kmax nx cn depth owner) sched) :
    ∃ m rs, run (Pool.step (next (vmsHeadEncoding vmsBase)))
        (boot kmax nx cn depth owner) sched = .ok (m, rs)
      ∧ rs.foldlM Event.apply [] = some m.shared.chains
      ∧ Good (vmsHeadEncoding vmsBase) (fun n => (owner n).isSome)
        m.shared
      ∧ Answered (vmsHeadEncoding vmsBase) (boot kmax nx cn depth owner) sched
        m rs :=
  run_linearizable kmax nx cn depth owner hfew

/-- A pop that was overtaken: it loaded the head, then its node was
popped and pushed again on top of another. It gets both. -/
def popOvertaken : List (Nat × Choice Nat) :=
  [Pool.burst 0 (.call (.push 4096) :: List.replicate 7 .step),
    Pool.burst 1 (.call .pop :: List.replicate 3 .step),
    Pool.burst 0 (.call .pop :: List.replicate 4 .step),
    Pool.burst 0 (.call (.push 8192) :: List.replicate 7 .step),
    Pool.burst 0 (.call (.push 4096) :: List.replicate 8 .step),
    Pool.burst 1 (List.replicate 5 .step)].flatten

def bothNodes : Op Nat := .pushChain ⟨4096, [8192]⟩ 2

def threeSteps : List (Nat × Choice Nat) :=
  Pool.burst 1 (List.replicate 3 .step)

/-- It puts them back as one chain. -/
def pushedBack : List (Nat × Choice Nat) :=
  popOvertaken ++ (1, .call bothNodes) :: threeSteps

def pushedBackEvents : List (Event Nat) :=
  [.pushed 4096 2, .popped ⟨some 4096, 1⟩, .pushed 8192 2, .pushed 4096 2,
    .popped ⟨some 4096, 2⟩, .pushedChain ⟨4096, [8192]⟩]

theorem chained_stack_linearizable_pushedBack :
    ∃ m rs, run (Pool.step (next (vmsHeadEncoding 0)))
        (boot 2 (fun _ => none) (fun _ => none) (fun _ => 0)
          (fun _ => some 0)) pushedBack = .ok (m, rs)
      ∧ rs.reduceOption = pushedBackEvents
      ∧ rs.foldlM Event.apply [] = some m.shared.chains
      ∧ ∃ e, Pool.shownBy 1 threeSteps (rs.drop (popOvertaken.length + 1))
          = [e] ∧ e.puts = bothNodes.puts := by
  let start := boot 2 (fun _ => none) (fun _ => none) (fun _ => 0)
    (fun _ : Nat => some 0)
  have hfacts : Returns (fun p => p.1.own 1 = none
        ∧ legal (vmsHeadEncoding 0) p.1.shared 1 bothNodes = true
        ∧ Returns (fun q => q.1.own 1 = none
          ∧ q.2 = p.2 ++ none :: q.2.drop (popOvertaken.length + 1)
          ∧ q.2.reduceOption = pushedBackEvents)
          (run (Pool.step (next (vmsHeadEncoding 0))) start pushedBack))
      (run (Pool.step (next (vmsHeadEncoding 0))) start popOvertaken) := by
    decide +kernel
  have hfew : Along (Pool.step (next (vmsHeadEncoding 0)))
      (Pool.At (Fewer (2 ^ 37))) start pushedBack := by
    decide +kernel
  obtain ⟨m, rs, hrun, hfold, -, hcalls⟩ :=
    chained_stack_linearizable 0 2 _ _ _ _ hfew
  obtain ⟨⟨m₀, qs⟩, hbefore, hidle, hl, hback⟩ := hfacts.exists_ok
  rw [hrun] at hback
  obtain ⟨hend, hrs, hevents⟩ := hback
  exact ⟨m, rs, hrun, hevents, hfold, hcalls popOvertaken 1 _ _ m₀ qs _ _ rfl
    hbefore hrs hidle (by decide) hend bothNodes rfl hl⟩

end CroCOS.VMSubstrate
