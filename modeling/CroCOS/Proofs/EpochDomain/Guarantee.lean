/-
What a step owes the others, and why that is enough for them: every
assertion a frame makes survives a step of another agent. The shared
invariant is kept by each kind of step in Actions.lean; here is the
interface between the two.
-/
import CroCOS.Proofs.EpochDomain.Invariant

namespace CroCOS.Core.Rcu

open Lib

variable {n : Node} {o : BagId} {stack : List Frame} {t tag : Nat}

-- ==== the guarantee

/-- What agent `b` relies on: its node, its bag and its deleter are
its own, epochs only grow, and no epoch load is forgotten. -/
structure KeepsFor (b : Agent) (d d' : Shared) : Prop where
  slotCount : d'.slotCount = d.slotCount
  epoch : d.globalEpoch ≤ d'.globalEpoch
  pushing : ∀ n, d'.place n = .pushing b ↔ d.place n = .pushing b
  seen : ∀ n, d.place n ≠ .fresh → d'.seen n = d.seen n
  holds : ∀ o, d.holder o = some b → d'.holder o = some b
    ∧ d'.bagTagState o = d.bagTagState o ∧ d'.bagHead o = d.bagHead o
  running : ∀ n o, d'.place n = .running o b ↔ d.place n = .running o b
  bagged : ∀ o, d.holder o = some b → d'.bag o = d.bag o
  starts : ∀ n o, d.place n = .running o b → d'.starts n = d.starts n
  observed : ∀ o ∈ d.observed, o ∈ d'.observed
  clear : ∀ e i, e ≤ d.globalEpoch → d.Clear e i → d'.Clear e i

/-- What the thread of slot `t` relies on: nobody else writes its free
and open bags. -/
structure KeepsSlot (t : Nat) (d d' : Shared) : Prop where
  openBagIndex : d'.openBagIndex t = d.openBagIndex t
  inDrain : d'.inDrain t = d.inDrain t
  scope : d'.scope t = d.scope t
  rotating : d'.rotating t = d.rotating t
  bags : ∀ b, d.bagState (t, b) = .free ∨ d.bagState (t, b) = .opened →
    d'.bagTagState (t, b) = d.bagTagState (t, b)
      ∧ d'.bagHead (t, b) = d.bagHead (t, b) ∧ d'.bag (t, b) = d.bag (t, b)

/-- The bag state machine: what one step of agent `a` can do to bag
`o`. -/
inductive BagMove (a : Agent) (d d' : Shared) (o : BagId) : Prop
  /-- Nothing. -/
  | still (hw : d'.bagTagState o = d.bagTagState o) (hb : d'.bag o = d.bag o)
  /-- Free to open, by the owner. -/
  | opens (howner : o.1 = a.thread) (hold : d.bagState o = .free)
      (hnew : d'.bagState o = .opened) (hempty : d.bag o = [])
      (hb : d'.bag o = d.bag o)
  /-- The open bag's tag goes up, by the owner. -/
  | bumps (howner : o.1 = a.thread) (hold : d.bagState o = .opened)
      (hnew : d'.bagState o = .opened) (htag : d.bagTag o ≤ d'.bagTag o)
      (hb : d'.bag o = d.bag o)
  /-- A push to the open and designated bag, by the owner. -/
  | pushes (n : Node) (howner : o = (a.thread, d.openBagIndex a.thread))
      (hold : d.bagState o = .opened) (hw : d'.bagTagState o = d.bagTagState o)
      (hb : d'.bag o = n :: d.bag o)
  /-- Open to sealed, by the owner. -/
  | seals (howner : o.1 = a.thread) (hold : d.bagState o = .opened)
      (hnew : d'.bagState o = .sealed) (htag : d'.bagTag o = d.bagTag o)
      (hb : d'.bag o = d.bag o)
  /-- Sealed to claimed, once two epochs have passed. -/
  | claims (hold : d.bagState o = .sealed) (hnew : d'.bagState o = .claimed)
      (htag : d'.bagTag o = d.bagTag o)
      (hexpired : d.bagTag o + 2 ≤ d.globalEpoch)
      (hholder : d'.holder o = some a) (hb : d'.bag o = d.bag o)
  /-- A pop of the head, by the claim winner. -/
  | pops (n : Node) (hold : d.bagState o = .claimed)
      (hholder : d.holder o = some a)
      (hw : d'.bagTagState o = d.bagTagState o) (hb : d.bag o = n :: d'.bag o)
  /-- Claimed back to sealed, tag and remainder as they were. -/
  | reseals (hold : d.bagState o = .claimed) (hholder : d.holder o = some a)
      (hnew : d'.bagState o = .sealed) (htag : d'.bagTag o = d.bagTag o)
      (hb : d'.bag o = d.bag o)
  /-- Claimed to free, emptied. -/
  | releases (hold : d.bagState o = .claimed) (hholder : d.holder o = some a)
      (hnew : d'.bagState o = .free) (hempty : d.bag o = [])
      (hrest : ∀ n b, d.place n ≠ .running o b) (hb : d'.bag o = d.bag o)

/-- The life of a node: what one step of agent `a` can do to `n`. -/
inductive NodeMove (a : Agent) (d d' : Shared) (n : Node) : Prop
  | still (hp : d'.place n = d.place n) (hs : d'.starts n = d.starts n)
  | retires (hold : d.place n = .fresh) (hnew : d'.place n = .pushing a)
      (hs : d'.starts n = d.starts n)
  | pushes (o : BagId) (hold : d.place n = .pushing a)
      (hnew : d'.place n = .queued o) (hs : d'.starts n = d.starts n)
  | pops (o : BagId) (hold : d.place n = .queued o)
      (hnew : d'.place n = .running o a) (hs : d'.starts n = d.starts n)
  /-- The deleter starts, two epochs after the retire. -/
  | starts (o : BagId) (hold : d.place n = .running o a)
      (hnew : d'.place n = .running o a)
      (hexpired : (d.seen n).epoch + 2 ≤ d.globalEpoch)
      (hz : d.starts n = 0) (hs : d'.starts n = 1)
  | returns (o : BagId) (hold : d.place n = .running o a)
      (hnew : d'.place n = .returned) (hs : d'.starts n = d.starts n)

/-- What a step of agent `a` owes everyone. -/
structure Does (a : Agent) (d d' : Shared) : Prop where
  good : Good d'
  others : ∀ b, b ≠ a → KeepsFor b d d'
  slots : ∀ t, t ≠ a.thread → KeepsSlot t d d'
  moves : ∀ o, BagMove a d d' o
  nodes : ∀ n, NodeMove a d d' n

-- ==== assertions are stable

section Keep

variable {d d' : Shared} {b : Agent}

theorem Pushing.keep (hk : KeepsFor b d d') {e : Nat} (h : Pushing d b n e) :
    Pushing d' b n e := by
  refine ⟨(hk.pushing n).mpr h.1, ?_⟩
  rw [hk.seen n (by rw [h.1]; exact Place.noConfusion)]
  exact h.2

theorem Holds.keep (hk : KeepsFor b d d') (h : Holds d b o tag) :
    Holds d' b o tag := by
  obtain ⟨hh, hw, he⟩ := h
  obtain ⟨hh', hw', -⟩ := hk.holds o hh
  refine ⟨hh', ?_, Nat.le_trans he hk.epoch⟩
  rw [hw', hw]

theorem Holds.head (hk : KeepsFor b d d') (h : Holds d b o tag) :
    d'.bagHead o = d.bagHead o :=
  (hk.holds o h.1).2.2

theorem Rests.keep (hk : KeepsFor b d d') (h : Rests d b) : Rests d' b := by
  intro n o hr
  exact h n o ((hk.running n o).mp hr)

theorem Runs.keep (hk : KeepsFor b d d') (h : Runs d b o n) :
    Runs d' b o n := by
  intro n' o'
  rw [hk.running n' o']
  exact h n' o'

theorem Runs.place (h : Runs d b o n) : d.place n = .running o b :=
  (h n o).mpr ⟨rfl, rfl⟩

theorem InHand.keep (hk : KeepsFor b d d') : InHand d' b n ↔ InHand d b n := by
  unfold InHand
  rw [hk.pushing n]
  simp only [hk.running n]

theorem OpenAt.keep {i : Nat} (hs : KeepsSlot t d d') (h : OpenAt d t i tag) :
    OpenAt d' t i tag := by
  obtain ⟨hi, hw, hr⟩ := h
  have hopen : d.bagState (t, i) = .opened := by
    unfold Shared.bagState
    rw [hw, bagStateOf_packBag]
  refine ⟨by rw [hs.openBagIndex, hi], ?_, by rw [hs.rotating, hr]⟩
  rw [(hs.bags i (Or.inr hopen)).1, hw]

theorem After.Ok.keep (hk : KeepsFor b d d') {e : Nat} {c : After}
    (h : c.Ok d b e) : c.Ok d' b e := by
  cases c with
  | push n => exact Pushing.keep hk h
  | barrier => trivial

theorem Search.Ok.keep (hk : KeepsFor b d d') (hs : KeepsSlot b.thread d d')
    {s : Search} (h : s.Ok d b) : s.Ok d' b := by
  cases s with
  | prepare n e allow i t =>
    obtain ⟨hp, he, ho, hlt⟩ := h
    exact ⟨hp.keep hk, Nat.le_trans he hk.epoch, ho.keep hs, hlt⟩
  | rotate i t => exact OpenAt.keep hs h
  | again => trivial

/-- A bag state the owner relies on is kept. -/
theorem KeepsSlot.free {b : Nat} (hs : KeepsSlot t d d')
    (h : d.bagState (t, b) = .free) : d'.bagState (t, b) = .free := by
  unfold Shared.bagState
  rw [(hs.bags b (Or.inl h)).1]
  exact h

/-- The low frames survive any step of another agent. -/
theorem FrameOk.keep_low (hk : KeepsFor b d d') {f : Frame}
    (hlow : f.low = true) (h : FrameOk d b f) : FrameOk d' b f := by
  cases f with
  | prepareLoad n e allow => exact ⟨h.1.keep hk, Nat.le_trans h.2 hk.epoch⟩
  | findFree s i =>
    cases s with
    | again => exact h
    | prepare n e allow i t | rotate i t => cases hlow
  | drainDeleter o tag n nx w =>
    obtain ⟨he, hh, hr, hn, hs⟩ := h
    exact ⟨Nat.le_trans he hk.epoch, hh.keep hk, hr.keep hk,
      by rw [hh.head hk]; exact hn, by rw [hk.starts n o hr.place, hs]⟩
  | syncLoop seen => exact hk.observed seen h
  | sealLoad | barrierLoop e0 => trivial
  | _ => cases hlow

/-- Every frame survives a step of another thread. -/
theorem FrameOk.keep (hk : KeepsFor b d d') (hs : KeepsSlot b.thread d d')
    {f : Frame} (h : FrameOk d b f) : FrameOk d' b f := by
  have hle : ∀ {e : Nat}, e ≤ d.globalEpoch → e ≤ d'.globalEpoch :=
    fun he => Nat.le_trans he hk.epoch
  cases f with
  | readLockStore e | advanceOwn e | claimLoad w => exact hle h
  | prepareLoad n e allow => exact ⟨h.1.keep hk, hle h.2⟩
  | prepareStore n e i =>
    obtain ⟨hp, he, hi, hr, hst⟩ := h
    refine ⟨hp.keep hk, hle he, by rw [hs.openBagIndex, hi],
      by rw [hs.rotating, hr], ?_⟩
    have hb := (hs.bags i (hst.imp_right And.left)).1
    unfold Shared.bagState Shared.bagTag
    rw [hb]
    exact hst
  | findFree s i => exact ⟨h.1.keep hk hs, h.2⟩
  | rotateOpen c e i t j =>
    obtain ⟨hc, he, ho, hf, hj⟩ := h
    exact ⟨hc.keep hk, hle he, ho.keep hs, hs.free hf, hj⟩
  | rotateSeal c e i t j =>
    obtain ⟨hc, hi, hw, hr, hwj, hb, hj, hne⟩ := h
    have hoi : d.bagState (b.thread, i) = .opened := by
      unfold Shared.bagState
      rw [hw, bagStateOf_packBag]
    have hoj : d.bagState (b.thread, j) = .opened := by
      unfold Shared.bagState
      rw [hwj, bagStateOf_packBag]
    refine ⟨hc.keep hk, by rw [hs.openBagIndex, hi], ?_,
      by rw [hs.rotating, hr], ?_, ?_, hj, hne⟩
    · rw [(hs.bags i (Or.inr hoi)).1, hw]
    · rw [(hs.bags j (Or.inr hoj)).1, hwj]
    · rw [(hs.bags j (Or.inr hoj)).2.2, hb]
  | pushLoad n i v =>
    obtain ⟨hp, hi, hw, ho, ht⟩ := h
    have hst : d.bagState (b.thread, i) = .opened := by
      unfold Shared.bagState
      rw [hw, ho]
    refine ⟨(hk.pushing n).mpr hp, by rw [hs.openBagIndex, hi], ?_, ho, ?_⟩
    · rw [(hs.bags i (Or.inr hst)).1, hw]
    · rw [hk.seen n (by rw [hp]; exact Place.noConfusion)]
      exact ht
  | pushCas n i v old =>
    obtain ⟨hp, hi, hw, ho, ht, hold⟩ := h
    have hst : d.bagState (b.thread, i) = .opened := by
      unfold Shared.bagState
      rw [hw, ho]
    refine ⟨(hk.pushing n).mpr hp, by rw [hs.openBagIndex, hi], ?_, ho, ?_, ?_⟩
    · rw [(hs.bags i (Or.inr hst)).1, hw]
    · rw [hk.seen n (by rw [hp]; exact Place.noConfusion)]
      exact ht
    · rw [(hs.bags i (Or.inr hst)).2.1, hold]
  | retireCheck i v =>
    obtain ⟨hw, ho⟩ := h
    have hst : d.bagState (b.thread, i) = .opened := by
      unfold Shared.bagState
      rw [hw, ho]
    exact ⟨by rw [(hs.bags i (Or.inr hst)).1, hw], ho⟩
  | advanceLoad | sweepLoad | manufactureLoad | sealLoad | barrierLoad
  | barrierLoop e0 | pendingTag e0 todo | pendingHead e0 o todo => trivial
  | advanceScan e i => exact ⟨hle h.1, hk.clear e i h.1 h.2⟩
  | advanceCas e =>
    refine ⟨hle h.1, ?_⟩
    rw [hk.slotCount]
    exact hk.clear e _ h.1 h.2
  | claimCas o v w => exact ⟨hle h.1, h.2.1, hle h.2.2⟩
  | drainLoad o tag w | drainCheck o tag w =>
    exact ⟨hle h.1, h.2.1.keep hk, h.2.2.keep hk⟩
  | drainPop o tag n w =>
    obtain ⟨he, hh, hr, hn⟩ := h
    exact ⟨hle he, hh.keep hk, hr.keep hk, by rw [hh.head hk]; exact hn⟩
  | drainRun o tag n nx w =>
    obtain ⟨he, hh, hr, hn, hz, ht⟩ := h
    refine ⟨hle he, hh.keep hk, hr.keep hk, by rw [hh.head hk]; exact hn,
      ?_, ?_⟩
    · rw [hk.starts n o hr.place, hz]
    · rw [hk.seen n (by rw [hr.place]; exact Place.noConfusion)]
      exact ht
  | drainDeleter o tag n nx w => exact h.keep_low hk rfl
  | drainRelease o tag st w =>
    obtain ⟨he, hh, hr, hst⟩ := h
    refine ⟨hle he, hh.keep hk, hr.keep hk, ?_⟩
    rw [hk.bagged o hh.1]
    exact hst
  | syncLoop seen => exact hk.observed seen h
  | sealHead i t => exact OpenAt.keep hs h
  | sealEpoch i t j => exact ⟨h.1.keep hs, hs.free h.2.1, h.2.2⟩

end Keep

-- ==== whole stacks

/-- The frames below a stepping frame survive its step. -/
theorem Below.keep {d d' : Shared} {k : Nat} (hd : Does ⟨t, k⟩ d d')
    (hk : stack.length ≤ k) (h : Below d t stack) : Below d' t stack := by
  induction stack with
  | nil => trivial
  | cons f rest ih =>
    obtain ⟨hlow, hf, hrest⟩ := h
    rw [List.length_cons] at hk
    refine ⟨hlow, hf.keep_low (hd.others _ ?_) hlow, ih (by omega) hrest⟩
    intro he
    cases he
    omega

/-- The frames below a frame of another thread survive. -/
theorem Below.other {a : Agent} {d d' : Shared} (hd : Does a d d')
    (ht : t ≠ a.thread) (h : Below d t stack) : Below d' t stack := by
  induction stack with
  | nil => trivial
  | cons f rest ih =>
    obtain ⟨hlow, hf, hrest⟩ := h
    refine ⟨hlow, hf.keep_low (hd.others _ ?_) hlow, ih hrest⟩
    intro he
    rw [← he] at ht
    exact ht rfl

/-- A step leaves every other thread's assertion standing. -/
theorem Own.other {a : Agent} {d d' : Shared} (hd : Does a d d')
    (ht : t ≠ a.thread) (h : Own t d stack) : Own t d' stack := by
  have hslot := hd.slots t ht
  have hne : ∀ k, (⟨t, k⟩ : Agent) ≠ a := by
    intro k he
    rw [← he] at ht
    exact ht rfl
  refine ⟨?_, by rw [hslot.rotating, h.rotating], ?_, ?_,
    by rw [hslot.inDrain, h.drains]⟩
  · rw [(hd.others _ (hne 0)).slotCount]
    exact h.inRange
  · cases stack with
    | nil => trivial
    | cons f rest =>
      exact ⟨h.frames.1.keep (hd.others _ (hne _)) hslot,
        h.frames.2.other hd ht⟩
  · intro k n hn
    exact h.hands k n ((InHand.keep (hd.others _ (hne k))).mp hn)

end CroCOS.Core.Rcu
