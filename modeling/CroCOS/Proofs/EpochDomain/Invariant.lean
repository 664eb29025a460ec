/-
The invariant of the epoch domain, in the rely-guarantee shape.

# What is shared

`Good` says what holds of the shared state at every step: the bags
spell the lists the history keeps, a node is in the bag its place
names, tags lie between the retires in the bag and the current epoch,
a claimed bag has one holder, the designated bag is free or open, and
(`guarded`) as long as a section that some epoch load `o` saw active
is still active, the epoch is at most one past what `o` loaded.

# What a frame knows

`FrameOk d a f` is what the thread knows at frame `f`. A frame that
other frames can be stacked on (`Frame.low`) knows only what belongs to
its agent: the node it is pushing, the bag it has claimed, the node it
is running. The frames on top may know more about the thread's own
slot, because only the owner writes a free or open bag.

# What a step guarantees

`Does a d d'` is what every step owes the others: the shared invariant
again, every other agent's possessions untouched (`KeepsFor`), every
other slot's free and open bags untouched (`KeepsSlot`), and each bag
moved along the table of the source, or left alone (`BagMove`).
-/
import CroCOS.EpochDomain
import CroCOS.Lib.SList

namespace CroCOS.Core.Rcu

open Function Lib

-- ==== words

theorem makeActive_eq (e : Nat) : makeActive e = 2 * e + 1 := by
  unfold makeActive
  rw [← Nat.shiftLeft_add_eq_or_of_lt (by omega)]
  omega

@[simp] theorem epochOf_makeActive (e : Nat) : epochOf (makeActive e) = e := by
  unfold epochOf
  rw [makeActive_eq]
  omega

theorem packBag_eq (tag : Nat) (st : BagState) :
    packBag tag st = 4 * tag + st.code := by
  have hlt : st.code < 2 ^ 2 := by
    cases st with
    | free => exact (by decide : (0 : Nat) < 4)
    | opened => exact (by decide : (1 : Nat) < 4)
    | sealed => exact (by decide : (2 : Nat) < 4)
    | claimed => exact (by decide : (3 : Nat) < 4)
  unfold packBag
  rw [← Nat.shiftLeft_add_eq_or_of_lt hlt]
  omega

@[simp] theorem bagTagOf_packBag (tag : Nat) (st : BagState) :
    bagTagOf (packBag tag st) = tag := by
  unfold bagTagOf
  rw [packBag_eq]
  cases st with
  | free | opened | sealed | claimed => simp only [BagState.code]; omega

@[simp] theorem bagStateOf_packBag (tag : Nat) (st : BagState) :
    bagStateOf (packBag tag st) = st := by
  have hmod : packBag tag st &&& 3 = st.code := by
    rw [packBag_eq, show (3 : Nat) = 2 ^ 2 - 1 from rfl,
      Nat.and_two_pow_sub_one_eq_mod]
    cases st with
    | free | opened | sealed | claimed => simp only [BagState.code]; omega
  unfold bagStateOf
  rw [hmod]
  cases st with
  | free | opened | sealed | claimed => rfl

/-- A word is its tag and its state. -/
theorem packBag_eta (v : Nat) : packBag (bagTagOf v) (bagStateOf v) = v := by
  have hcode : (bagStateOf v).code = v % 4 := by
    unfold bagStateOf
    rw [show (3 : Nat) = 2 ^ 2 - 1 from rfl, Nat.and_two_pow_sub_one_eq_mod]
    have hlt : v % 2 ^ 2 < 4 := Nat.mod_lt _ (by decide)
    generalize v % 2 ^ 2 = k at hlt
    rcases (by omega : k = 0 ∨ k = 1 ∨ k = 2 ∨ k = 3) with h | h | h | h <;>
      rw [h] <;> rfl
  rw [packBag_eq]
  unfold bagTagOf
  omega

theorem eq_packBag {v : Nat} {st : BagState} (h : bagStateOf v = st) :
    v = packBag (bagTagOf v) st := by
  rw [← h, packBag_eta]

-- ==== the shared state

namespace Shared

/-- The state of a bag. -/
abbrev bagState (d : Shared) (o : BagId) : BagState :=
  bagStateOf (d.bagTagState o)

/-- The tag of a bag. -/
abbrev bagTag (d : Shared) (o : BagId) : Nat := bagTagOf (d.bagTagState o)

/-- A scan that loaded epoch `e` and has passed the slots below `i`
passed no section that an earlier epoch load is owed. -/
def Clear (d : Shared) (e i : Nat) : Prop :=
  ∀ o ∈ d.observed, ∀ s, s < i → d.Live o s → e ≤ o.epoch

theorem home_eq_iff {d : Shared} {n : Node} {o : BagId} : d.home n = some o
      ↔ d.place n = .queued o ∨ ∃ a, d.place n = .running o a := by
  unfold home
  cases hp : d.place n with
  | fresh | pushing a | queued o' | running o' a | returned => simp

end Shared

/-- What every step of every thread keeps of the shared state. -/
structure Good (d : Shared) : Prop where
  spells : ∀ o, Spells d.next (d.bagHead o) (d.bag o)
  nodup : ∀ o, (d.bag o).Nodup
  queued : ∀ o n, n ∈ d.bag o ↔ d.place n = .queued o
  freeEmpty : ∀ o, d.bagState o = .free → d.bag o = []
  tagged : ∀ o n, n ∈ d.bag o → (d.seen n).epoch ≤ d.bagTag o
  past : ∀ o, d.bagTag o ≤ d.globalEpoch
  claimed : ∀ o, d.bagState o = .claimed ↔ ∃ a, d.holder o = some a
  running : ∀ n o a, d.place n = .running o a → d.holder o = some a
  openOnly : ∀ s b, d.bagState (s, b) = .opened →
    b = d.openBagIndex s ∨ d.rotating s = some b
  designated : ∀ s, d.bagState (s, d.openBagIndex s) = .free
    ∨ d.bagState (s, d.openBagIndex s) = .opened
  index : ∀ s, d.openBagIndex s < kBagCount
  inRange : ∀ n o, d.home n = some o → o.1 < d.slotCount ∧ o.2 < kBagCount
  unlinked : ∀ n, d.place n = .fresh → d.next n = none
  retired : ∀ n, n ∈ d.retired ↔ d.place n ≠ .fresh
  slot : ∀ n, (∀ a, d.place n = .pushing a → d.slotOf n = a.thread)
    ∧ ∀ o, d.home n = some o → d.slotOf n = o.1
  started : ∀ n, d.starts n ≤ 1
  finished : ∀ n, d.place n = .returned → d.starts n = 1
  unstarted : ∀ n, d.place n = .fresh ∨ (∃ a, d.place n = .pushing a)
    ∨ (∃ o, d.place n = .queued o) → d.starts n = 0
  snapshot : ∀ s, isActive (d.state s) = true →
    epochOf (d.state s) ≤ d.globalEpoch
  seen : ∀ n, d.place n ≠ .fresh → d.seen n ∈ d.observed
  entered : ∀ o ∈ d.observed, ∀ p ∈ o.sections,
    p.1 < d.slotCount ∧ p.2 ≤ d.entries p.1
  guarded : ∀ o ∈ d.observed, ∀ s, d.Live o s →
    epochOf (d.state s) ≤ o.epoch ∧ d.globalEpoch ≤ o.epoch + 1

-- ==== what a frame knows

/-- Agent `a` is pushing the node `n`, retired at epoch `e`. -/
def Pushing (d : Shared) (a : Agent) (n : Node) (e : Nat) : Prop :=
  d.place n = .pushing a ∧ (d.seen n).epoch = e

/-- Agent `a` has claimed bag `o`, tagged `tag` and expired. -/
def Holds (d : Shared) (a : Agent) (o : BagId) (tag : Nat) : Prop :=
  d.holder o = some a ∧ d.bagTagState o = packBag tag .claimed
    ∧ tag + 2 ≤ d.globalEpoch

/-- Agent `a` has popped no node whose deleter has not returned. -/
def Rests (d : Shared) (a : Agent) : Prop :=
  ∀ n o, d.place n ≠ .running o a

/-- The only node agent `a` has popped and not seen off is `n`. -/
def Runs (d : Shared) (a : Agent) (o : BagId) (n : Node) : Prop :=
  ∀ n' o', d.place n' = .running o' a ↔ n' = n ∧ o' = o

/-- Bag `i` of slot `t`, tagged `tag`, is its open and designated one. -/
def OpenAt (d : Shared) (t i tag : Nat) : Prop :=
  d.openBagIndex t = i ∧ d.bagTagState (t, i) = packBag tag .opened
    ∧ d.rotating t = none

/-- What follows a rotation, and what it needs of the frame. -/
def After.Ok (d : Shared) (a : Agent) (e : Nat) : After → Prop
  | .push n => Pushing d a n e
  | .barrier => True

/-- What a search for a free bag knows. -/
def Search.Ok (d : Shared) (a : Agent) : Search → Prop
  | .prepare n e _ i t =>
    Pushing d a n e ∧ e ≤ d.globalEpoch ∧ OpenAt d a.thread i t ∧ t < e
  | .rotate i t => OpenAt d a.thread i t
  | .again => True

/-- The frames that other frames are stacked on. -/
def Frame.low : Frame → Bool
  | .prepareLoad .. => true
  | .findFree .again _ => true
  | .drainDeleter .. => true
  | .syncLoop _ => true
  | .sealLoad => true
  | .barrierLoop _ => true
  | _ => false

/-- What agent `a` knows when its frame is `f`. -/
def FrameOk (d : Shared) (a : Agent) : Frame → Prop
  | .readLockStore e => e ≤ d.globalEpoch
  | .prepareLoad n e _ => Pushing d a n e ∧ e ≤ d.globalEpoch
  | .prepareStore n e i =>
    Pushing d a n e ∧ e ≤ d.globalEpoch ∧ d.openBagIndex a.thread = i
      ∧ d.rotating a.thread = none
      ∧ (d.bagState (a.thread, i) = .free
        ∨ d.bagState (a.thread, i) = .opened ∧ d.bagTag (a.thread, i) ≤ e)
  | .findFree s b => s.Ok d a ∧ b < kBagCount
  | .rotateOpen c e i t j =>
    c.Ok d a e ∧ e ≤ d.globalEpoch ∧ OpenAt d a.thread i t
      ∧ d.bagState (a.thread, j) = .free ∧ j < kBagCount
  | .rotateSeal c e i t j =>
    c.Ok d a e ∧ d.openBagIndex a.thread = i
      ∧ d.bagTagState (a.thread, i) = packBag t .opened
      ∧ d.rotating a.thread = some j
      ∧ d.bagTagState (a.thread, j) = packBag e .opened
      ∧ d.bag (a.thread, j) = [] ∧ j < kBagCount ∧ i ≠ j
  | .pushLoad n i v =>
    d.place n = .pushing a ∧ d.openBagIndex a.thread = i
      ∧ d.bagTagState (a.thread, i) = v ∧ bagStateOf v = .opened
      ∧ (d.seen n).epoch ≤ bagTagOf v
  | .pushCas n i v old =>
    d.place n = .pushing a ∧ d.openBagIndex a.thread = i
      ∧ d.bagTagState (a.thread, i) = v ∧ bagStateOf v = .opened
      ∧ (d.seen n).epoch ≤ bagTagOf v
      ∧ d.bagHead (a.thread, i) = old
  | .retireCheck i v =>
    d.bagTagState (a.thread, i) = v ∧ bagStateOf v = .opened
  | .advanceLoad => True
  | .advanceOwn e => e ≤ d.globalEpoch
  | .advanceScan e i => e ≤ d.globalEpoch ∧ d.Clear e i
  | .advanceCas e => e ≤ d.globalEpoch ∧ d.Clear e d.slotCount
  | .sweepLoad => True
  | .manufactureLoad => True
  | .claimLoad w => w.epoch ≤ d.globalEpoch
  | .claimCas _ v w =>
    w.epoch ≤ d.globalEpoch ∧ bagStateOf v = .sealed
      ∧ bagTagOf v + 2 ≤ d.globalEpoch
  | .drainLoad o tag w =>
    w.epoch ≤ d.globalEpoch ∧ Holds d a o tag ∧ Rests d a
  | .drainPop o tag n w =>
    w.epoch ≤ d.globalEpoch ∧ Holds d a o tag ∧ Rests d a
      ∧ n = d.bagHead o
  | .drainRun o tag n nx w =>
    w.epoch ≤ d.globalEpoch ∧ Holds d a o tag ∧ Runs d a o n
      ∧ nx = d.bagHead o ∧ d.starts n = 0 ∧ (d.seen n).epoch ≤ tag
  | .drainDeleter o tag n nx w =>
    w.epoch ≤ d.globalEpoch ∧ Holds d a o tag ∧ Runs d a o n
      ∧ nx = d.bagHead o ∧ d.starts n = 1
  | .drainCheck o tag w =>
    w.epoch ≤ d.globalEpoch ∧ Holds d a o tag ∧ Rests d a
  | .drainRelease o tag st w =>
    w.epoch ≤ d.globalEpoch ∧ Holds d a o tag ∧ Rests d a
      ∧ (st = .sealed ∨ st = .free ∧ d.bag o = [])
  | .syncLoop seen => seen ∈ d.observed
  | .sealLoad => True
  | .sealHead i t => OpenAt d a.thread i t
  | .sealEpoch i t j =>
    OpenAt d a.thread i t ∧ d.bagState (a.thread, j) = .free
      ∧ j < kBagCount
  | .barrierLoad => True
  | .barrierLoop _ => True
  | .pendingTag _ _ => True
  | .pendingHead _ _ _ => True

/-- The frames below the top, each of them low. -/
def Below (d : Shared) (t : Nat) : List Frame → Prop
  | [] => True
  | f :: rest => f.low = true ∧ FrameOk d ⟨t, rest.length⟩ f ∧ Below d t rest

/-- The stack of a thread. -/
def StackOk (d : Shared) (t : Nat) : List Frame → Prop
  | [] => True
  | f :: rest => FrameOk d ⟨t, rest.length⟩ f ∧ Below d t rest

/-- The bag a rotation has opened but not yet switched to. -/
def rotationOf : List Frame → Option Nat
  | .rotateSeal _ _ _ _ j :: _ => some j
  | _ => none

/-- The node a frame has in its hands: retired and not yet pushed, or
popped and its deleter not returned. -/
def Frame.node : Frame → Option Node
  | .prepareLoad n _ _ => some n
  | .prepareStore n _ _ => some n
  | .findFree (.prepare n _ _ _ _) _ => some n
  | .rotateOpen (.push n) _ _ _ _ => some n
  | .rotateSeal (.push n) _ _ _ _ => some n
  | .pushLoad n _ _ => some n
  | .pushCas n _ _ _ => some n
  | .drainRun _ _ n _ _ => some n
  | .drainDeleter _ _ n _ _ => some n
  | _ => none

/-- The frames of a drain, during which `inDrain` is set. -/
def Frame.draining : Frame → Bool
  | .manufactureLoad => true
  | .claimLoad _ => true
  | .claimCas .. => true
  | .drainLoad .. => true
  | .drainPop .. => true
  | .drainRun .. => true
  | .drainDeleter .. => true
  | .drainCheck .. => true
  | .drainRelease .. => true
  | _ => false

/-- Node `n` is in the hands of agent `a`. -/
def InHand (d : Shared) (a : Agent) (n : Node) : Prop :=
  d.place n = .pushing a ∨ ∃ o, d.place n = .running o a

/-- What thread `t` knows. -/
structure Own (t : Nat) (d : Shared) (stack : List Frame) : Prop where
  inRange : stack ≠ [] → t < d.slotCount
  rotating : d.rotating t = rotationOf stack
  frames : StackOk d t stack
  hands : ∀ k n, InHand d ⟨t, k⟩ n →
    ∃ f, stack.reverse[k]? = some f ∧ f.node = some n
  drains : stack.countP Frame.draining = (d.inDrain t).toNat

-- ==== what a step is

variable {a : Agent} {d d' : Shared} {f : Frame} {fs stack stack' : List Frame}
variable {t : Nat} {c : Choice} {r : Unit}

/-- What a step of a thread is. -/
inductive Moves (t : Nat) (d d' : Shared) (stack stack' : List Frame) :
    Choice → Prop
  /-- A choice that does not apply. -/
  | stays (c : Choice) (hd : d' = d) (hs : stack' = stack) :
      Moves t d d' stack stack' c
  | calls (op : Op) (fs : List Frame) (hin : inClient stack = true)
      (hl : legal d t op = true)
      (hcall : callStep ⟨t, stack.length⟩ d op = .ok (d', fs))
      (hs : stack' = fs ++ stack) : Moves t d d' stack stack' (.call op)
  | steps (f : Frame) (rest fs : List Frame) (hold : stack = f :: rest)
      (hstep : frameStep ⟨t, rest.length⟩ d f = .ok (d', fs))
      (hs : stack' = fs ++ rest) : Moves t d d' stack stack' .step
  | finishes (o : BagId) (tag : Nat) (n : Node) (nx : Option Node)
      (w : Sweep) (rest : List Frame)
      (hold : stack = .drainDeleter o tag n nx w :: rest)
      (hd : d' = { d with place := update d.place n .returned })
      (hs : stack' = .drainPop o tag nx w :: rest) :
      Moves t d d' stack stack' .finish

theorem next_moves (h : next t d stack c = .ok (d', stack', r)) :
    Moves t d d' stack stack' c := by
  unfold next at h
  by_cases hlt : t < d.slotCount
  · rw [if_pos hlt] at h
    cases c with
    | call op =>
      simp only at h
      split_ifs at h with hcl
      · cases hc : callStep ⟨t, stack.length⟩ d op with
        | error e => rw [hc] at h; cases h
        | ok p =>
          rw [hc] at h
          cases h
          rw [Bool.and_eq_true] at hcl
          exact .calls op p.2 hcl.1 hcl.2 hc rfl
      · cases h
        exact .stays _ rfl rfl
    | step =>
      cases stack with
      | nil =>
        cases h
        exact .stays _ rfl rfl
      | cons f rest =>
        simp only at h
        cases hf : frameStep ⟨t, rest.length⟩ d f with
        | error e => rw [hf] at h; cases h
        | ok p =>
          rw [hf] at h
          cases h
          exact .steps f rest p.2 rfl hf rfl
    | finish =>
      cases stack with
      | nil =>
        cases h
        exact .stays _ rfl rfl
      | cons f rest =>
        cases f with
        | drainDeleter o tag n nx w =>
          cases h
          exact .finishes o tag n nx w rest rfl rfl rfl
        | _ =>
          cases h
          exact .stays _ rfl rfl
  · rw [if_neg hlt] at h
    cases h
    exact .stays _ rfl rfl

theorem Search.missed_scope (s : Search) :
    (s.missed d t).1.scope = d.scope := by
  cases s with
  | prepare n e allow i tag | rotate i tag =>
    simp only [Search.missed]
    split <;> rfl
  | again => rfl

/-- No step of the engine touches what a barrier answers for. -/
theorem frameStep_scope (h : frameStep a d f = .ok (d', fs)) :
    d'.scope = d.scope := by
  cases f with
  | findFree s b =>
    simp only [frameStep] at h
    split at h
    · cases h
      rfl
    · split at h
      · cases h
        rfl
      · injection h with h
        have hs := s.missed_scope (d := d) (t := a.thread)
        rwa [h] at hs
  | drainPop o tag n w =>
    cases n with
    | none => cases h; rfl
    | some n =>
      simp only [frameStep] at h
      split at h <;> cases h <;> rfl
  | pendingTag e0 todo =>
    cases todo with
    | nil => cases h; rfl
    | cons o rest =>
      simp only [frameStep] at h
      split at h <;> cases h <;> rfl
  | _ =>
    simp only [frameStep] at h
    (repeat' split at h) <;> cases h <;> rfl

end CroCOS.Core.Rcu
