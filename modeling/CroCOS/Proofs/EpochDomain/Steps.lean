/-
Every step of a thread, frame by frame: it does not fault, it is one of
the kinds of steps of Actions.lean and Bags.lean, and the frames it
leaves know what they claim to know. `At a d f` gathers what the thread
knows when `f` is its top frame, `Continues` what it owes itself after
the step; `Own.continue` puts the untouched frames back underneath.
-/
import CroCOS.Proofs.EpochDomain.Bags

namespace CroCOS.Core.Rcu

open Function Lib

variable {e e0 i j t tag v : Nat} {f : Frame} {fs rest : List Frame}
variable {n : Node} {o : BagId} {w : Sweep}

-- ==== what a step owes itself

/-- The frames that replace the top one, the deepest of them at the
depth of agent `a`. -/
def FramesOk (d : Shared) (a : Agent) : List Frame → Prop
  | [] => True
  | [f] => FrameOk d a f
  | [f, g] => FrameOk d ⟨a.thread, a.depth + 1⟩ f ∧ g.low = true
      ∧ FrameOk d a g
  | _ => False

/-- What the thread of `a` owes itself when the frames `fs` take the
place of `old`. -/
structure Continues (a : Agent) (d d' : Shared) (old fs : List Frame) :
    Prop where
  does : Does a d d'
  frames : FramesOk d' a fs
  rotating : d'.rotating a.thread = rotationOf fs
  hands : ∀ n, InHand d' a n → ∃ f, fs.getLast? = some f ∧ f.node = some n
  drains : fs.countP Frame.draining + (d.inDrain a.thread).toNat
    = old.countP Frame.draining + (d'.inDrain a.thread).toNat

/-- The frames below the top are no rotation. -/
theorem Below.rotationOf_eq {d : Shared} (h : Below d t rest) :
    rotationOf rest = none := by
  cases rest with
  | nil => rfl
  | cons f rest =>
    cases f with
    | rotateSeal c e i t j => exact absurd h.1 Bool.noConfusion
    | _ => rfl

theorem rotationOf_append {d : Shared} (h : Below d t rest) :
    rotationOf (fs ++ rest) = rotationOf fs := by
  cases fs with
  | nil => rw [List.nil_append, h.rotationOf_eq]; rfl
  | cons f fs =>
    cases f with
    | _ => rfl

/-- The new frames over the old ones. -/
theorem FramesOk.stack {d : Shared} (h : FramesOk d ⟨t, rest.length⟩ fs)
    (hrest : Below d t rest) : StackOk d t (fs ++ rest) := by
  cases fs with
  | nil =>
    cases rest with
    | nil => trivial
    | cons g rest => exact ⟨hrest.2.1, hrest.2.2⟩
  | cons f fs =>
    cases fs with
    | nil => exact ⟨h, hrest⟩
    | cons g fs =>
      cases fs with
      | nil => exact ⟨h.1, h.2.1, h.2.2, hrest⟩
      | cons k fs => exact h.elim

/-- A step of the top of the stack, seen by the thread itself. -/
theorem Own.continue {d d' : Shared} (old : List Frame)
    (h : Own t d (old ++ rest)) (hlt : t < d.slotCount)
    (hold : old.length ≤ 1) (hrest : Below d t rest)
    (hc : Continues ⟨t, rest.length⟩ d d' old fs) :
    Own t d' (fs ++ rest) := by
  have hother : ∀ k, k ≠ rest.length → KeepsFor ⟨t, k⟩ d d' := by
    intro k hk
    refine hc.does.others _ fun he => hk ?_
    cases he
    rfl
  have hrest' : Below d' t rest := hrest.keep hc.does le_rfl
  refine ⟨?_, ?_, hc.frames.stack hrest', ?_, ?_⟩
  · intro _
    rw [(hother (rest.length + 1) (by omega)).slotCount]
    exact hlt
  · rw [rotationOf_append hrest']
    exact hc.rotating
  · intro k n hn
    rw [List.reverse_append]
    by_cases hk : k = rest.length
    · subst hk
      obtain ⟨f, hf, hfn⟩ := hc.hands n hn
      refine ⟨f, ?_, hfn⟩
      rw [List.getElem?_append_right (by rw [List.length_reverse]),
        List.length_reverse, Nat.sub_self, ← List.head?_eq_getElem?,
        List.head?_reverse]
      exact hf
    · -- another frame's node: that frame is still where it was
      obtain ⟨f, hf, hfn⟩ :=
        h.hands k n ((InHand.keep (hother k hk)).mp hn)
      rw [List.reverse_append] at hf
      have hlt' : k < rest.length := by
        by_contra hge
        rw [List.getElem?_eq_none] at hf
        · cases hf
        · rw [List.length_append, List.length_reverse, List.length_reverse]
          omega
      rw [List.getElem?_append_left (by rw [List.length_reverse]; omega)]
        at hf ⊢
      exact ⟨f, hf, hfn⟩
  · have hd := h.drains
    have hc' := hc.drains
    rw [List.countP_append] at hd ⊢
    dsimp only at hc'
    omega

-- ==== what the top knows

/-- What the thread knows when `f` is its top frame. -/
structure At (a : Agent) (d : Shared) (f : Frame) : Prop where
  good : Good d
  lt : a.thread < d.slotCount
  ok : FrameOk d a f
  rotating : d.rotating a.thread = rotationOf [f]
  hands : ∀ n, InHand d a n → f.node = some n
  drains : f.draining = true → d.inDrain a.thread = true

/-- What the step of the frames `old` comes to is not a fault, and
continues. -/
abbrev Continued (a : Agent) (d : Shared) (old : List Frame)
    (x : Except Fault (Shared × List Frame)) : Prop :=
  ∃ d' fs, x = .ok (d', fs) ∧ Continues a d d' old fs

def Steps (a : Agent) (d : Shared) (f : Frame) : Prop :=
  Continued a d [f] (frameStep a d f)

variable {a : Agent} {d : Shared}

/-- A frame with no node in hand has none. -/
theorem At.emptyHanded (h : At a d f) (hf : f.node = none) (n : Node) :
    ¬ InHand d a n := by
  intro hn
  have hx := h.hands n hn
  rw [hf] at hx
  cases hx

/-- A step that leaves the node in hand and the rotation as they are. -/
theorem At.moves {d' : Shared} (h : At a d f)
    (hsame : (d'.place, d'.rotating, rotationOf fs,
        fs.getLast?.bind Frame.node)
      = (d.place, d.rotating, rotationOf [f], f.node))
    (hdrains : fs.countP Frame.draining + (d.inDrain a.thread).toNat
      = [f].countP Frame.draining + (d'.inDrain a.thread).toNat)
    (hd : Does a d d') (hfs : FramesOk d' a fs) :
    Continued a d [f] (.ok (d', fs)) := by
  simp only [Prod.mk.injEq] at hsame
  obtain ⟨hplace, hrot, hrot', hnode⟩ := hsame
  refine ⟨_, _, rfl, hd, hfs, by rw [hrot, hrot', h.rotating], fun n hn => ?_,
    hdrains⟩
  unfold InHand at hn
  rw [hplace] at hn
  have hf := h.hands n hn
  rw [← hnode] at hf
  exact Option.bind_eq_some_iff.mp hf

/-- A step that only reads. -/
theorem At.reads (h : At a d f)
    (hsame : (rotationOf fs, fs.getLast?.bind Frame.node,
        fs.countP Frame.draining)
      = (rotationOf [f], f.node, [f].countP Frame.draining))
    (hfs : FramesOk d a fs) : Continued a d [f] (.ok (d, fs)) := by
  simp only [Prod.mk.injEq] at hsame
  obtain ⟨hrot, hnode, hcount⟩ := hsame
  exact h.moves (by rw [hrot, hnode]) (by rw [hcount]) (.refl h.good) hfs

-- ==== retires

theorem At.prepareLoad {allow : Bool} (h : At a d (.prepareLoad n e allow)) :
    Steps a d (.prepareLoad n e allow) := by
  obtain ⟨hp, he⟩ := h.ok
  have hdes := h.good.designated a.thread
  unfold Steps
  simp only [frameStep]
  by_cases hfree : bagStateOf (d.bagTagState
      (a.thread, d.openBagIndex a.thread)) = .free
  · rw [if_pos hfree]
    exact h.reads rfl ⟨hp, he, rfl, h.rotating, Or.inl hfree⟩
  · have hopen := hdes.resolve_left hfree
    rw [if_neg hfree, if_neg (not_not.mpr hopen)]
    have hw := eq_packBag hopen
    by_cases hle : e ≤ d.bagTag (a.thread, d.openBagIndex a.thread)
    · rw [if_pos hle]
      refine h.reads rfl ⟨hp.1, rfl, rfl, hopen, ?_⟩
      rw [hp.2]
      exact hle
    · rw [if_neg hle]
      exact h.reads rfl ⟨⟨hp, he, ⟨rfl, hw, h.rotating⟩,
        Nat.lt_of_not_le hle⟩, by decide⟩

theorem At.findFree {s : Search} {b : Nat} (h : At a d (.findFree s b)) :
    Steps a d (.findFree s b) := by
  obtain ⟨hs, hb⟩ := h.ok
  unfold Steps
  simp only [frameStep]
  by_cases hfree : bagStateOf (d.bagTagState (a.thread, b)) = .free
  · rw [if_pos hfree]
    cases s with
    | prepare n e allow i t =>
      obtain ⟨hp, he, ho, -⟩ := hs
      exact h.reads rfl ⟨hp, he, ho, hfree, hb⟩
    | rotate i t =>
      exact h.reads rfl ⟨hs, hfree, hb⟩
    | again => exact h.reads rfl trivial
  · rw [if_neg hfree]
    by_cases hlt : b + 1 < kBagCount
    · rw [if_pos hlt]
      refine h.reads ?_ ⟨hs, hlt⟩
      cases s with
      | _ => rfl
    · rw [if_neg hlt]
      cases s with
      | prepare n e allow i t =>
        obtain ⟨hp, he, ho, hlt'⟩ := hs
        rw [Search.missed]
        split
        · rename_i hin
          refine h.moves rfl ?_ (.flags h.good true) ⟨trivial, rfl, hp, he⟩
          rw [Bool.and_eq_true, Bool.not_eq_true'] at hin
          simp [List.countP_cons, Frame.draining, hin.2]
        · -- the tag of the open bag is bumped
          refine h.reads rfl ⟨hp, he, ho.1, ho.2.2,
            Or.inr ⟨?_, ?_⟩⟩
          · unfold Shared.bagState
            rw [ho.2.1, bagStateOf_packBag]
          · unfold Shared.bagTag
            rw [ho.2.1, bagTagOf_packBag]
            omega
      | rotate i t =>
        rw [Search.missed]
        split
        · rename_i hin
          refine h.moves rfl ?_ (.flags h.good true)
            ⟨trivial, rfl, trivial, by decide⟩
          rw [Bool.not_eq_true'] at hin
          simp [List.countP_cons, Frame.draining, hin]
        · exact h.reads rfl ⟨trivial, by decide⟩
      | again =>
        exact h.reads rfl ⟨trivial, rfl, trivial⟩

theorem At.rotateOpen {c : After} (h : At a d (.rotateOpen c e i t j)) :
    Steps a d (.rotateOpen c e i t j) := by
  obtain ⟨hc, he, ho, hf, hj⟩ := h.ok
  have hij : i ≠ j := by
    intro hij
    have hw := ho.2.1
    rw [hij] at hw
    unfold Shared.bagState at hf
    rw [hw, bagStateOf_packBag] at hf
    cases hf
  have hne : ((a.thread, i) : BagId) ≠ (a.thread, j) := by
    intro hx
    cases hx
    exact hij rfl
  refine ⟨_, _, rfl, .opensNext h.good ho hf he,
    ⟨?_, ho.1, (word_ne hne).trans ho.2.1, update_self .., word_self,
      h.good.freeEmpty _ hf, hj, hij⟩, update_self .., ?_, rfl⟩
  · cases c with
    | push n => exact hc
    | barrier => trivial
  · intro n hn
    exact ⟨_, rfl, by
      have hx := h.hands n hn
      cases c with
      | push m => exact hx
      | barrier => exact hx⟩

theorem At.rotateSeal {c : After} (h : At a d (.rotateSeal c e i t j)) :
    Steps a d (.rotateSeal c e i t j) := by
  obtain ⟨hc, hi, hw, hr, hwj, -, hj, hij⟩ := h.ok
  have hne : ((a.thread, j) : BagId) ≠ (a.thread, i) := by
    intro hx
    cases hx
    exact hij rfl
  cases c with
  | push n =>
    refine ⟨_, _, rfl, .sealsOld h.good hi hw hr hwj hj hij,
      ⟨hc.1, update_self .., (word_ne hne).trans hwj,
        bagStateOf_packBag .., ?_⟩, update_self .., ?_, rfl⟩
    · rw [bagTagOf_packBag, ← hc.2]
    · intro n' hn
      exact ⟨_, rfl, h.hands n' hn⟩
  | barrier =>
    refine ⟨_, _, rfl, .sealsOld h.good hi hw hr hwj hj hij, trivial,
      update_self .., ?_, rfl⟩
    intro n' hn
    exact absurd hn (h.emptyHanded rfl n')

/-- Nobody else writes the head of an open bag: the exchange succeeds
and the node is in the bag. -/
theorem At.pushCas {old : Option Node} (h : At a d (.pushCas n i v old)) :
    Steps a d (.pushCas n i v old) := by
  obtain ⟨hp, hi, hw, ho, ht, rfl⟩ := h.ok
  have hopen : d.bagState (a.thread, i) = .opened := by
    unfold Shared.bagState
    rw [hw, ho]
  have htag : (d.seen n).epoch ≤ d.bagTag (a.thread, i) := by
    unfold Shared.bagTag
    rw [hw]
    exact ht
  unfold Steps
  simp only [frameStep]
  refine ⟨_, _, rfl, .pushes h.good h.lt hp hi hopen htag, ⟨hw, ho⟩,
    h.rotating, ?_, rfl⟩
  intro n' hn
  have hn' : n' ≠ n := by
    intro he
    subst he
    rcases hn with hn | ⟨o, hn⟩
    · change update d.place n' _ n' = _ at hn
      rw [place_self] at hn
      cases hn
    · change update d.place n' _ n' = _ at hn
      rw [place_self] at hn
      cases hn
  have hx : InHand d a n' := by
    change update d.place n _ n' = _
      ∨ (∃ o, update d.place n _ n' = _) at hn
    rw [place_ne hn'] at hn
    exact hn
  exact absurd (Option.some.inj (h.hands n' hx)).symm hn'

theorem At.retireCheck (h : At a d (.retireCheck i v)) :
    Steps a d (.retireCheck i v) := by
  obtain ⟨hw, -⟩ := h.ok
  unfold Steps
  simp only [frameStep]
  rw [if_neg (not_not.mpr hw)]
  by_cases hc : kRetireAdvanceThreshold ≤ d.retireCount a.thread + 1
  · rw [if_pos hc]
    exact h.moves rfl rfl (.counts h.good _ _) trivial
  · rw [if_neg hc]
    exact h.moves rfl rfl (.counts h.good _ _) trivial

-- ==== advances

/-- A slot that does not block the scan holds no section an earlier
epoch load is owed. -/
theorem clear_succ (h : Good d) (hc : d.Clear e i)
    (hs : ¬ (isActive (d.state i) && epochOf (d.state i) != e) = true) :
    d.Clear e (i + 1) := by
  intro o ho s hlt hl
  by_cases hsi : s = i
  · subst hsi
    rw [hl.1] at hs
    have he : epochOf (d.state s) = e := by simpa using hs
    rw [← he]
    exact (h.guarded o ho s hl).1
  · exact hc o ho s (by omega) hl

theorem At.advanceScan (h : At a d (.advanceScan e i)) :
    Steps a d (.advanceScan e i) := by
  obtain ⟨he, hc⟩ := h.ok
  unfold Steps
  simp only [frameStep]
  split
  · exact h.reads rfl trivial
  · rename_i hs
    have hc' := clear_succ h.good hc hs
    split
    · exact h.reads rfl ⟨he, hc'⟩
    · rename_i hlt
      refine h.reads rfl ⟨he, ?_⟩
      intro o ho s hs' hl
      exact hc' o ho s (by omega) hl

-- ==== sweeps

/-- A sweep that is done clears the flag. -/
theorem At.sweepDone (h : At a d (.claimLoad w)) :
    Continued a d [.claimLoad w]
      (.ok ({ d with inDrain := update d.inDrain a.thread false }, [])) :=
  h.moves rfl (by simp [Frame.draining, h.drains rfl]) (.flags h.good false)
    trivial

theorem At.claimLoad (h : At a d (.claimLoad w)) :
    Steps a d (.claimLoad w) := by
  obtain ⟨e, todo, budget⟩ := w
  have he : e ≤ d.globalEpoch := h.ok
  unfold Steps
  cases todo with
  | nil => exact h.sweepDone
  | cons o rest =>
    simp only [frameStep]
    split
    · exact h.sweepDone
    · split
      · rename_i hv
        exact h.reads rfl ⟨he, hv.1, Nat.le_trans hv.2 he⟩
      · exact h.reads rfl he

/-- The agent whose frame has no node in hand runs none. -/
theorem At.rests (h : At a d f) (hf : f.node = none) : Rests d a := by
  intro n o hr
  exact h.emptyHanded hf n (Or.inr ⟨o, hr⟩)

theorem At.claimCas (h : At a d (.claimCas o v w)) :
    Steps a d (.claimCas o v w) := by
  obtain ⟨he, hv, hexp⟩ := h.ok
  unfold Steps
  simp only [frameStep]
  split
  · rename_i hw
    exact h.moves rfl rfl (.claims h.good hw hv hexp)
      ⟨he, ⟨update_self .., word_self, hexp⟩, h.rests rfl⟩
  · exact h.reads rfl he

-- ==== drains

theorem At.drainPop {n : Option Node} (h : At a d (.drainPop o tag n w)) :
    Steps a d (.drainPop o tag n w) := by
  obtain ⟨he, hh, hr, hn⟩ := h.ok
  unfold Steps
  cases n with
  | none => exact h.reads rfl ⟨he, hh, hr⟩
  | some n =>
    simp only [frameStep]
    split
    · exact h.reads rfl ⟨he, hh, hr⟩
    · have hmem : n ∈ d.bag o := by
        have hs := h.good.spells o
        rw [← hn] at hs
        obtain ⟨xs, hxs, -⟩ := hs.cons_of_some
        rw [hxs]
        exact List.mem_cons_self
      have hq := (h.good.queued o n).mp hmem
      have hruns : ∀ n' o', update d.place n (.running o a) n' = .running o' a
            ↔ n' = n ∧ o' = o := by
        intro n' o'
        by_cases hn' : n' = n
        · subst hn'
          rw [place_self]
          constructor
          · intro hx
            exact ⟨rfl, (Place.running.inj hx).1.symm⟩
          · intro hx
            rw [hx.2]
        · rw [place_ne hn']
          exact ⟨fun hx => absurd hx (hr n' o'),
            fun hx => absurd hx.1 hn'⟩
      refine ⟨_, _, rfl, .pops h.good hh hn.symm,
        ⟨he, hh, hruns, (update_self o (d.next n) d.bagHead).symm,
          h.good.unstarted n (Or.inr (Or.inr ⟨o, hq⟩)), ?_⟩,
        h.rotating, ?_, rfl⟩
      · have ht := h.good.tagged o n hmem
        unfold Shared.bagTag at ht
        rw [hh.2.1, bagTagOf_packBag] at ht
        exact ht
      · intro n' hn'
        refine ⟨_, rfl, ?_⟩
        rcases hn' with hn' | ⟨o', hn'⟩
        · change update d.place n _ n' = _ at hn'
          by_cases hx : n' = n
          · subst hx
            rw [place_self] at hn'
            cases hn'
          · rw [place_ne hx] at hn'
            exact absurd (Or.inl hn') (h.emptyHanded rfl n')
        · rw [((hruns n' o').mp hn').1]
          rfl

theorem At.drainRun {nx : Option Node} (h : At a d (.drainRun o tag n nx w)) :
    Steps a d (.drainRun o tag n nx w) := by
  obtain ⟨he, hh, hr, hn, hz, ht⟩ := h.ok
  have hexp : (d.seen n).epoch + 2 ≤ d.globalEpoch := by
    have := hh.2.2
    omega
  refine h.moves rfl rfl (.starts h.good hr hz hexp) ⟨he, hh, hr, hn, ?_⟩
  show update d.starts n _ n = 1
  rw [update_self, hz]

theorem At.drainCheck (h : At a d (.drainCheck o tag w)) :
    Steps a d (.drainCheck o tag w) := by
  obtain ⟨he, hh, hr⟩ := h.ok
  refine h.reads rfl ⟨he, hh, hr, ?_⟩
  cases hb : d.bagHead o with
  | none =>
    right
    exact ⟨rfl, (h.good.spells o).eq_nil_iff.mpr hb⟩
  | some n => exact Or.inl rfl

-- ==== waiting for readers

theorem At.sealLoad (h : At a d .sealLoad) : Steps a d .sealLoad := by
  have hdes := h.good.designated a.thread
  unfold Steps
  simp only [frameStep]
  by_cases hfree : bagStateOf (d.bagTagState
      (a.thread, d.openBagIndex a.thread)) = .free
  · rw [if_pos hfree]
    exact h.reads rfl trivial
  · have hopen := hdes.resolve_left hfree
    rw [if_neg hfree, if_neg (not_not.mpr hopen)]
    exact h.reads rfl ⟨rfl, eq_packBag hopen, h.rotating⟩

/-- No frame's step faults, and every one continues. -/
theorem At.steps (h : At a d f) : Steps a d f := by
  unfold Steps
  cases f with
  | readLockStore e =>
    exact h.moves rfl rfl (.activate h.good h.ok) trivial
  | prepareLoad n e allow => exact h.prepareLoad
  | prepareStore n e i =>
    obtain ⟨hp, he, hi, hr, hst⟩ := h.ok
    refine h.moves rfl rfl (.opensOrBumps h.good hi he hst) ⟨hp.1, hi,
      word_self, bagStateOf_packBag .., ?_⟩
    rw [bagTagOf_packBag, ← hp.2]
  | findFree s b => exact h.findFree
  | rotateOpen c e i t j => exact h.rotateOpen
  | rotateSeal c e i t j => exact h.rotateSeal
  | pushLoad n i v =>
    obtain ⟨hp, hi, hw, ho, ht⟩ := h.ok
    exact h.reads rfl ⟨hp, hi, hw, ho, ht, rfl⟩
  | pushCas n i v old => exact h.pushCas
  | retireCheck i v => exact h.retireCheck
  | advanceLoad =>
    simp only [frameStep]
    split
    · exact h.reads rfl trivial
    · exact h.reads rfl le_rfl
  | advanceOwn e =>
    simp only [frameStep]
    split
    · exact h.reads rfl trivial
    · exact h.reads rfl ⟨h.ok, fun o _ s hs =>
        absurd hs (Nat.not_lt_zero s)⟩
  | advanceScan e i => exact h.advanceScan
  | advanceCas e =>
    simp only [frameStep]
    split
    · rename_i he
      exact h.moves rfl rfl (.advances h.good he h.ok.2) trivial
    · exact h.reads rfl trivial
  | sweepLoad =>
    simp only [frameStep]
    split
    · exact h.reads rfl trivial
    · rename_i hin
      exact h.moves rfl (by simp [Frame.draining, hin]) (.flags h.good true)
        le_rfl
  | manufactureLoad =>
    exact h.reads rfl (Nat.le_refl d.globalEpoch)
  | claimLoad w => exact h.claimLoad
  | claimCas o v w => exact h.claimCas
  | drainLoad o tag w =>
    obtain ⟨he, hh, hr⟩ := h.ok
    exact h.reads rfl ⟨he, hh, hr, rfl⟩
  | drainPop o tag n w => exact h.drainPop
  | drainRun o tag n nx w => exact h.drainRun
  | drainDeleter o tag n nx w =>
    exact h.reads rfl h.ok
  | drainCheck o tag w => exact h.drainCheck
  | drainRelease o tag st w =>
    obtain ⟨he, hh, hr, hst⟩ := h.ok
    exact h.moves rfl rfl (.gives h.good hh hr hst) he
  | syncLoop seen =>
    simp only [frameStep]
    split
    · exact h.reads rfl ⟨trivial, rfl, h.ok⟩
    · exact h.reads rfl trivial
  | sealLoad => exact h.sealLoad
  | sealHead i t =>
    simp only [frameStep]
    split
    · exact h.reads rfl trivial
    · exact h.reads rfl ⟨h.ok, by decide⟩
  | sealEpoch i t j =>
    obtain ⟨ho, hf, hj⟩ := h.ok
    exact h.reads rfl ⟨trivial, le_rfl, ho, hf, hj⟩
  | barrierLoad => exact h.reads rfl trivial
  | barrierLoop e0 | pendingHead e0 o todo =>
    simp only [frameStep]
    split
    · exact h.reads rfl ⟨trivial, rfl, trivial⟩
    · exact h.reads rfl trivial
  | pendingTag e0 todo =>
    cases todo with
    | nil => exact h.reads rfl trivial
    | cons o rest =>
      simp only [frameStep]
      split
      · exact h.reads rfl trivial
      · exact h.reads rfl trivial

end CroCOS.Core.Rcu
