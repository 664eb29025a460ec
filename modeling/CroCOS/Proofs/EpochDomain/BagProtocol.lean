/-
The bag protocol. Between its retire and the start of its deleter a
node is in one bag, or one frame has it in its hands: the retire that
has not pushed it yet, or the drain that has just popped it. Each bag
moves along the table of the source, and a slot has a second open bag
only while its thread stands between the two stores of a rotation.
-/
import CroCOS.Proofs.EpochDomain.Runs

namespace CroCOS.Core.Rcu

open Lib

variable {a : Agent} {d : Shared} {f : Frame} {k : Nat} {n : Node}
variable {stack : List Frame}

-- ==== in hand

/-- A frame's node is in the hands of the frame's agent. -/
theorem FrameOk.inHand (h : FrameOk d a f) (hf : f.node = some n) :
    InHand d a n := by
  cases f with
  | prepareLoad n' e allow | prepareStore n' e i =>
    cases hf
    exact Or.inl h.1.1
  | findFree s b =>
    cases s with
    | prepare n' e allow i t =>
      cases hf
      exact Or.inl h.1.1.1
    | rotate i t | again => cases hf
  | rotateOpen c e i t j | rotateSeal c e i t j =>
    cases c with
    | push n' =>
      cases hf
      exact Or.inl h.1.1
    | barrier => cases hf
  | pushLoad n' i v | pushCas n' i v old =>
    cases hf
    exact Or.inl h.1
  | drainRun o tag n' nx w | drainDeleter o tag n' nx w =>
    cases hf
    exact Or.inr ⟨o, h.2.2.1.place⟩
  | _ => cases hf

/-- A frame of a stack is the top one or one of the rest. -/
theorem reverse_cons_get {g : Frame} {rest : List Frame}
    (h : (f :: rest).reverse[k]? = some g) :
    rest.reverse[k]? = some g ∨ k = rest.length ∧ g = f := by
  rw [List.reverse_cons, List.getElem?_append] at h
  split at h
  · exact Or.inl h
  · rename_i hk
    rw [List.length_reverse] at h hk
    obtain ⟨hlt, hg⟩ := List.getElem?_eq_some_iff.mp h
    rw [List.length_singleton] at hlt
    refine Or.inr ⟨by omega, ?_⟩
    rw [← hg, List.getElem_singleton]

/-- The frame at a depth below the top. -/
theorem Below.get {t : Nat} (h : Below d t stack)
    (hf : stack.reverse[k]? = some f) : FrameOk d ⟨t, k⟩ f := by
  induction stack with
  | nil => cases hf
  | cons g rest ih =>
    cases reverse_cons_get hf with
    | inl hrest => exact ih h.2.2 hrest
    | inr htop =>
      rw [htop.1, htop.2]
      exact h.2.1

theorem StackOk.get {t : Nat} (h : StackOk d t stack)
    (hf : stack.reverse[k]? = some f) : FrameOk d ⟨t, k⟩ f := by
  cases stack with
  | nil => cases hf
  | cons g rest =>
    cases reverse_cons_get hf with
    | inl hrest => exact h.2.get hrest
    | inr htop =>
      rw [htop.1, htop.2]
      exact h.1

/-- The frame of agent `a` has node `n` in its hands. -/
def Carries (m : Machine) (a : Agent) (n : Node) : Prop :=
  ∃ f, (m.own a.thread).reverse[a.depth]? = some f ∧ f.node = some n

/-- What a frame carries is what the history says. -/
theorem carries_iff {m : Machine} (h : Pool.Inv Good Own m) :
    Carries m a n ↔ InHand m.shared a n := by
  constructor
  · intro hc
    obtain ⟨f, hf, hn⟩ := hc
    exact ((h.own a.thread).frames.get hf).inHand hn
  · exact (h.own a.thread).hands a.depth n

/-- Nobody else has what an agent has in its hands. -/
theorem InHand.unique {b : Agent} (ha : InHand d a n) (hb : InHand d b n) :
    a = b := by
  cases ha with
  | inl ha =>
    cases hb with
    | inl hb =>
      rw [ha] at hb
      cases hb
      rfl
    | inr hb =>
      obtain ⟨o, hb⟩ := hb
      rw [ha] at hb
      cases hb
  | inr ha =>
    obtain ⟨o, ha⟩ := ha
    cases hb with
    | inl hb =>
      rw [ha] at hb
      cases hb
    | inr hb =>
      obtain ⟨o', hb⟩ := hb
      rw [ha] at hb
      cases hb
      rfl

/-- What is in hand is in no bag. -/
theorem InHand.not_mem (hg : Good d) (h : InHand d a n) (o : BagId) :
    n ∉ d.bag o := by
  intro hn
  rw [hg.queued] at hn
  cases h with
  | inl h =>
    rw [h] at hn
    cases hn
  | inr h =>
    obtain ⟨o', h⟩ := h
    rw [h] at hn
    cases hn

-- ==== the protocol

/-- What the protocol promises of one state. -/
structure BagProtocol (m : Machine) : Prop where
  /-- Each bag is the null-terminated list its head spells. -/
  spells : ∀ o, Spells m.shared.next (m.shared.bagHead o) (m.shared.bag o)
  nodup : ∀ o, (m.shared.bag o).Nodup
  oneBag : ∀ n o o', n ∈ m.shared.bag o → n ∈ m.shared.bag o' → o = o'
  /-- Until its deleter starts, a node is in a bag or in hand. -/
  kept : ∀ n ∈ m.shared.retired, m.shared.starts n = 0 →
    (∃ o, n ∈ m.shared.bag o) ∨ ∃ a, Carries m a n
  /-- What is in hand is in no bag and in nobody else's hands. -/
  carried : ∀ n a, Carries m a n → (∀ o, n ∉ m.shared.bag o)
    ∧ ∀ b, Carries m b n → b = a
  startedOnce : ∀ n, m.shared.starts n ≤ 1
  startedGone : ∀ n, m.shared.starts n = 1 → ∀ o, n ∉ m.shared.bag o
  /-- The open bag is the designated one, or the one that a rotation
  of the slot's thread is about to switch to. -/
  openOnly : ∀ s b, m.shared.bagState (s, b) = .opened →
    b = m.shared.openBagIndex s
      ∨ ∃ c e i t rest, m.own s = .rotateSeal c e i t b :: rest

/-- Only a rotation between its two stores has opened a bag ahead. -/
theorem eq_rotateSeal_of_rotationOf {b : Nat} (h : rotationOf stack = some b) :
    ∃ c e i t rest, stack = .rotateSeal c e i t b :: rest := by
  cases stack with
  | nil => cases h
  | cons f rest =>
    cases f with
    | rotateSeal c e i t j =>
      cases h
      exact ⟨c, e, i, t, rest, rfl⟩
    | _ => cases h

theorem bagProtocol_of_inv {m : Machine} (h : Pool.Inv Good Own m) :
    BagProtocol m where
  spells := h.good.spells
  nodup := h.good.nodup
  oneBag := by
    intro n o o' ho ho'
    rw [h.good.queued] at ho ho'
    rw [ho] at ho'
    cases ho'
    rfl
  kept := by
    intro n hn hs
    rw [h.good.retired] at hn
    cases hp : m.shared.place n with
    | fresh => exact absurd hp hn
    | pushing a => exact Or.inr ⟨a, (carries_iff h).mpr (Or.inl hp)⟩
    | queued o => exact Or.inl ⟨o, (h.good.queued o n).mpr hp⟩
    | running o a =>
      exact Or.inr ⟨a, (carries_iff h).mpr (Or.inr ⟨o, hp⟩)⟩
    | returned =>
      have := h.good.finished n hp
      omega
  carried := by
    intro n a ha
    rw [carries_iff h] at ha
    refine ⟨ha.not_mem h.good, fun b hb => ?_⟩
    rw [carries_iff h] at hb
    exact hb.unique ha
  startedOnce := h.good.started
  startedGone := by
    intro n hs o hn
    rw [h.good.queued] at hn
    have := h.good.unstarted n (Or.inr (Or.inr ⟨o, hn⟩))
    omega
  openOnly := by
    intro s b hb
    refine (h.good.openOnly s b hb).imp_right fun hr => ?_
    rw [(h.own s).rotating] at hr
    exact eq_rotateSeal_of_rotationOf hr

/-- Every schedule runs to its end, so no assertion of the engine fires;
the protocol holds in the state it reaches; and each further step is
the step of one agent that moves every bag along the table and every
node along its life. -/
theorem bag_protocol {slotCount drainBatchBound : Nat}
    {sched : List (Nat × Choice)}
    (hmax : Along (Pool.step next) (Pool.At Representable)
      (boot slotCount drainBatchBound) sched) :
    ∃ m rs, run (Pool.step next) (boot slotCount drainBatchBound) sched
        = .ok (m, rs)
      ∧ BagProtocol m
      ∧ ∀ c m' r, Pool.At Representable m c → Pool.step next m c = .ok (m', r) →
        ∃ k, (∀ o, BagMove ⟨c.1, k⟩ m.shared m'.shared o)
          ∧ ∀ n, NodeMove ⟨c.1, k⟩ m.shared m'.shared n := by
  obtain ⟨m, rs, hrun, hinv⟩ := run_ok hmax
  refine ⟨m, rs, hrun, bagProtocol_of_inv hinv, ?_⟩
  intro c m' r hq hs
  obtain ⟨d', stack', hnext, rfl⟩ := Pool.step_inv hs
  obtain ⟨k, hdoes⟩ := next_does hinv.good (hinv.own c.1) hq hnext
  exact ⟨k, hdoes.moves, hdoes.nodes⟩

/-- A retire in a later epoch than the open bag's, up to the step that
seals the old bag. -/
def retireAcrossEpochs : List (Nat × Choice) :=
  [Pool.burst 0 [.call .readLock, .step, .call (.retire 7)],
    Pool.burst 0 (List.replicate 5 .step),
    Pool.burst 0 [.call .readUnlock, .call .tryAdvance],
    Pool.burst 0 (List.replicate 10 .step),
    Pool.burst 0 [.call .readLock, .step, .call (.retire 8)],
    Pool.burst 0 (List.replicate 4 .step)].flatten

/-- The protocol in the middle of a rotation: the new node is in the
hands of its retire and the old one in the bag about to be sealed. -/
theorem bag_protocol_retireAcrossEpochs :
    ∃ m rs, run (Pool.step next) (boot 1 8) retireAcrossEpochs
        = .ok (m, rs)
      ∧ m.shared.bag (0, 0) = [7] ∧ BagProtocol m := by
  have hbag : Returns (fun p => p.1.shared.bag (0, 0) = [7])
      (run (Pool.step next) (boot 1 8) retireAcrossEpochs) := by
    decide +kernel
  have hmax : Along (Pool.step next) (Pool.At Representable) (boot 1 8)
      retireAcrossEpochs := by
    decide +kernel
  obtain ⟨m, rs, hrun, hprot, -⟩ := bag_protocol hmax
  rw [hrun] at hbag
  exact ⟨m, rs, hrun, hbag, hprot⟩

/-- The new bag is opened before the old one is sealed: for one step a
slot has two open bags. -/
theorem rotation_opens_two_bags :
    ∃ m rs, run (Pool.step next) (boot 1 8) retireAcrossEpochs
        = .ok (m, rs)
      ∧ m.shared.bagState (0, 0) = .opened
      ∧ m.shared.bagState (0, 1) = .opened
      ∧ m.shared.openBagIndex 0 = 0 := by
  decide +kernel

end CroCOS.Core.Rcu
