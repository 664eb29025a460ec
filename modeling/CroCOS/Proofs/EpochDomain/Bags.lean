/-
What a step does to a bag: its word, by the owner or by the winner of
a claim, its nodes, and the deleters of the nodes popped from it.
-/
import CroCOS.Proofs.EpochDomain.Actions

namespace CroCOS.Core.Rcu

open Function Lib

variable {a : Agent} {d : Shared}
variable {e i tag : Nat} {n : Node}

-- ==== bag words

section Words

variable {o : BagId} {v : Nat}

/-- A word stored over bag `o`. -/
theorem word_self : update d.bagTagState o v o = v :=
  update_self ..

theorem word_ne {o' : BagId} (h : o' ≠ o) :
    update d.bagTagState o v o' = d.bagTagState o' :=
  update_of_ne h ..

theorem bagState_of_word {st : BagState} (h : d.bagTagState o = packBag tag st) :
    d.bagState o = st ∧ d.bagTag o = tag := by
  unfold Shared.bagState Shared.bagTag
  rw [h]
  exact ⟨bagStateOf_packBag .., bagTagOf_packBag ..⟩

/-- A held bag is another than one that is not claimed. -/
theorem Good.held_ne (h : Good d) (hold : d.bagState o ≠ .claimed)
    {o' : BagId} {b : Agent} (hb : d.holder o' = some b) : o' ≠ o := by
  intro he
  subst he
  exact hold ((h.claimed o').mpr ⟨b, hb⟩)

/-- What the word of a bag says after a store. -/
theorem forall_word {P : BagId → BagState → Nat → Prop} {st : BagState}
    (hself : P o st tag)
    (hother : ∀ o', o' ≠ o → P o' (d.bagState o') (d.bagTag o')) (o' : BagId) :
    P o' (bagStateOf (update d.bagTagState o (packBag tag st) o'))
      (bagTagOf (update d.bagTagState o (packBag tag st) o')) := by
  by_cases ho : o' = o
  · rw [ho, word_self, bagStateOf_packBag, bagTagOf_packBag]
    exact hself
  · rw [word_ne ho]
    exact hother o' ho

end Words

/-- A store of the owner over a bag that is not claimed, and over the
index and the rotation of its slot. -/
theorem Does.stores (h : Good d) {st : BagState} {openBagIndex : Nat → Nat}
    {rotating : Nat → Option Nat}
    (hold : d.bagState (a.thread, i) ≠ .claimed)
    (hst : st = .opened ∨ st = .sealed)
    (htag : ∀ n ∈ d.bag (a.thread, i), (d.seen n).epoch ≤ tag)
    (hpast : tag ≤ d.globalEpoch)
    (hindex : ∀ t, t ≠ a.thread → openBagIndex t = d.openBagIndex t)
    (hrotating : ∀ t, t ≠ a.thread → rotating t = d.rotating t)
    (hopen : ∀ b, (if b = i then st else d.bagState (a.thread, b)) = .opened →
      b = openBagIndex a.thread ∨ rotating a.thread = some b)
    (hdes : if openBagIndex a.thread = i then st = .opened
      else d.bagState (a.thread, openBagIndex a.thread) = .free
        ∨ d.bagState (a.thread, openBagIndex a.thread) = .opened)
    (hlt : openBagIndex a.thread < kBagCount)
    (hmove : ∀ {d' : Shared}, d'.bagState (a.thread, i) = st →
      d'.bagTag (a.thread, i) = tag →
      d'.bag (a.thread, i) = d.bag (a.thread, i) →
      BagMove a d d' (a.thread, i)) :
    Does a d { d with
      bagTagState := update d.bagTagState (a.thread, i) (packBag tag st)
      openBagIndex := openBagIndex
      rotating := rotating } := by
  have hnc : st ≠ .claimed ∧ st ≠ .free := by
    rcases hst with rfl | rfl <;> decide
  have hne : ∀ {t b}, t ≠ a.thread → ((t, b) : BagId) ≠ (a.thread, i) := by
    rintro t b ht ⟨⟩
    exact ht rfl
  have hother : ∀ {b}, b ≠ i → ((a.thread, b) : BagId) ≠ (a.thread, i) := by
    rintro b hb ⟨⟩
    exact hb rfl
  refine ⟨{ h with
      freeEmpty := forall_word (P := fun o st _ => st = .free → d.bag o = [])
        (fun hf => absurd hf hnc.2) fun o _ => h.freeEmpty o
      tagged := forall_word (P := fun o _ tag => ∀ n ∈ d.bag o,
        (d.seen n).epoch ≤ tag) htag fun o _ => h.tagged o
      past := forall_word (P := fun _ _ tag => tag ≤ d.globalEpoch) hpast
        fun o _ => h.past o
      claimed := forall_word (P := fun o st _ => st = .claimed
        ↔ ∃ b, d.holder o = some b)
        ⟨fun hc => absurd hc hnc.1, fun hb => absurd ((h.claimed _).mpr hb)
          hold⟩ fun o _ => h.claimed o
      openOnly := fun t b hb => ?_
      designated := fun t => ?_
      index := fun t => ?_ },
    fun b _ => { KeepsFor.refl b d with
      holds := fun o ho => ⟨ho, word_ne (h.held_ne hold ho), rfl⟩ },
    fun t ht => ⟨hindex t ht, rfl, rfl, hrotating t ht, fun b _ =>
      ⟨word_ne (hne ht), rfl, rfl⟩⟩,
    fun o => ?_, fun _ => .still rfl rfl⟩
  · change bagStateOf (update d.bagTagState _ _ (t, b)) = _ at hb
    by_cases ht : t = a.thread
    · subst ht
      apply hopen b
      by_cases hbi : b = i
      · rw [hbi, word_self, bagStateOf_packBag] at hb
        rw [if_pos hbi, hb]
      · rw [word_ne (hother hbi)] at hb
        rw [if_neg hbi]
        exact hb
    · rw [word_ne (hne ht)] at hb
      show b = openBagIndex t ∨ rotating t = _
      rw [hindex t ht, hrotating t ht]
      exact h.openOnly t b hb
  · show bagStateOf (update d.bagTagState _ _ (t, openBagIndex t)) = _
      ∨ bagStateOf (update d.bagTagState _ _ (t, openBagIndex t)) = _
    by_cases ht : t = a.thread
    · subst ht
      split at hdes
      · rename_i hi
        rw [hi, word_self, bagStateOf_packBag]
        exact Or.inr hdes
      · rename_i hi
        rw [word_ne (hother hi)]
        exact hdes
    · rw [word_ne (hne ht), hindex t ht]
      exact h.designated t
  · by_cases ht : t = a.thread
    · subst ht
      exact hlt
    · show openBagIndex t < _
      rw [hindex t ht]
      exact h.index t
  · by_cases ho : o = (a.thread, i)
    · subst ho
      have hnew := bagState_of_word (d := { d with
        bagTagState := update d.bagTagState (a.thread, i) (packBag tag st) })
        (o := (a.thread, i)) word_self
      exact hmove hnew.1 hnew.2 rfl
    · exact .still (word_ne ho) rfl

/-- The designated bag opens, or its tag goes up. -/
theorem Does.opensOrBumps (h : Good d) (hi : d.openBagIndex a.thread = i)
    (he : e ≤ d.globalEpoch) (hst : d.bagState (a.thread, i) = .free
      ∨ d.bagState (a.thread, i) = .opened ∧ d.bagTag (a.thread, i) ≤ e) :
    Does a d { d with
      bagTagState := update d.bagTagState (a.thread, i)
        (packBag e .opened) } := by
  refine .stores h ?_ (Or.inl rfl) ?_ he (fun _ _ => rfl) (fun _ _ => rfl)
    ?_ (by rw [if_pos hi]) (h.index _) ?_
  · rcases hst with hs | ⟨hs, -⟩ <;> rw [hs] <;> exact BagState.noConfusion
  · intro n hn
    rcases hst with hs | ⟨-, ht⟩
    · rw [h.freeEmpty _ hs] at hn
      cases hn
    · exact Nat.le_trans (h.tagged _ n hn) ht
  · intro b hb
    by_cases hbi : b = i
    · exact Or.inl (hbi.trans hi.symm)
    · rw [if_neg hbi] at hb
      exact h.openOnly _ b hb
  · intro d' hnew htag hb
    rcases hst with hs | ⟨hs, ht⟩
    · exact .opens rfl hs hnew (h.freeEmpty _ hs) hb
    · exact .bumps rfl hs hnew (by rw [htag]; exact ht) hb

/-- A rotation opens the next bag. -/
theorem Does.opensNext (h : Good d) {j : Nat} (ho : OpenAt d a.thread i tag)
    (hj : d.bagState (a.thread, j) = .free) (he : e ≤ d.globalEpoch) :
    Does a d { d with
      bagTagState := update d.bagTagState (a.thread, j) (packBag e .opened)
      rotating := update d.rotating a.thread (some j) } := by
  obtain ⟨hi, hw, hr⟩ := ho
  refine .stores h ?_ (Or.inl rfl) ?_ he (fun _ _ => rfl)
    (fun _ ht => update_of_ne ht ..) ?_ ?_ (h.index _)
    fun hnew _ hb => .opens rfl hj hnew (h.freeEmpty _ hj) hb
  · rw [hj]
    exact BagState.noConfusion
  · intro n hn
    rw [h.freeEmpty _ hj] at hn
    cases hn
  · intro b hb
    rw [update_self]
    by_cases hbj : b = j
    · exact Or.inr (by rw [hbj])
    · rw [if_neg hbj] at hb
      rcases h.openOnly _ b hb with hb' | hb'
      · exact Or.inl hb'
      · rw [hr] at hb'
        cases hb'
  · split
    · rfl
    · exact h.designated _

/-- A rotation seals the old bag and designates the new one. -/
theorem Does.sealsOld (h : Good d) {j : Nat} (hi : d.openBagIndex a.thread = i)
    (hw : d.bagTagState (a.thread, i) = packBag tag .opened)
    (hr : d.rotating a.thread = some j)
    (hwj : d.bagTagState (a.thread, j) = packBag e .opened)
    (hj : j < kBagCount) (hij : i ≠ j) : Does a d { d with
      bagTagState := update d.bagTagState (a.thread, i) (packBag tag .sealed)
      openBagIndex := update d.openBagIndex a.thread j
      rotating := update d.rotating a.thread none } := by
  obtain ⟨hopen, htag⟩ := bagState_of_word hw
  refine .stores h ?_ (Or.inr rfl) ?_ ?_ (fun _ ht => update_of_ne ht ..)
    (fun _ ht => update_of_ne ht ..) ?_ ?_ ?_
    fun hnew htag' hb => .seals rfl hopen hnew (htag'.trans htag.symm) hb
  · rw [hopen]
    exact BagState.noConfusion
  · rw [← htag]
    exact h.tagged _
  · rw [← htag]
    exact h.past _
  · intro b hb
    rw [update_self]
    by_cases hbi : b = i
    · rw [if_pos hbi] at hb
      cases hb
    · rw [if_neg hbi] at hb
      rcases h.openOnly _ b hb with hb' | hb'
      · exact absurd (hb'.trans hi) hbi
      · rw [hr] at hb'
        exact Or.inl (Option.some.inj hb').symm
  · rw [update_self, if_neg hij.symm]
    exact Or.inr (bagState_of_word hwj).1
  · rw [update_self]
    exact hj

/-- A bag that is neither free nor open changes hands. -/
theorem Does.handsOver (h : Good d) {o : BagId} {st : BagState}
    {b₁ : Option Agent}
    (hshut : ¬ (d.bagState o = .free ∨ d.bagState o = .opened))
    (htag : d.bagTag o = tag) (hfree : st = .free → d.bag o = [])
    (hopen : st ≠ .opened) (hclaimed : st = .claimed ↔ ∃ b, b₁ = some b)
    (hmine : ∀ b, d.holder o = some b → b = a)
    (hrun : ∀ n b, d.place n = .running o b → b₁ = some b)
    (hmove : ∀ {d' : Shared}, d'.bagState o = st → d'.bagTag o = d.bagTag o →
      d'.holder o = b₁ → d'.bag o = d.bag o → BagMove a d d' o) :
    Does a d { d with
      bagTagState := update d.bagTagState o (packBag tag st)
      holder := update d.holder o b₁ } := by
  have hne : ∀ {o'}, d.bagState o' = .free ∨ d.bagState o' = .opened →
      o' ≠ o := by
    rintro o' hs rfl
    exact hshut hs
  refine ⟨{ h with
      freeEmpty := forall_word (P := fun o st _ => st = .free → d.bag o = [])
        hfree fun o _ => h.freeEmpty o
      tagged := forall_word (P := fun o _ tag => ∀ n ∈ d.bag o,
        (d.seen n).epoch ≤ tag) (htag ▸ h.tagged o) fun o _ => h.tagged o
      past := forall_word (P := fun _ _ tag => tag ≤ d.globalEpoch)
        (htag ▸ h.past o) fun o _ => h.past o
      claimed := forall_word (P := fun o' st _ => st = .claimed
        ↔ ∃ b, update d.holder o b₁ o' = some b)
        (by rw [update_self]; exact hclaimed) fun o' ho => by
          rw [update_of_ne ho]
          exact h.claimed o'
      running := fun n o' b hr => ?_
      openOnly := fun t b hb => h.openOnly t b ?_
      designated := fun t => by
        have hw := congrArg bagStateOf (word_ne (d := d)
          (v := packBag tag st) (hne (h.designated t)))
        exact (h.designated t).imp hw.trans hw.trans },
    fun b hb => { KeepsFor.refl b d with holds := fun o' ho => ?_ },
    fun t _ => { KeepsSlot.refl t d with
      bags := fun b hb => ⟨word_ne (hne hb), rfl, rfl⟩ },
    fun o' => ?_, fun _ => .still rfl rfl⟩
  · have hb := h.running n o' b hr
    show update d.holder o b₁ o' = _
    by_cases ho : o' = o
    · subst ho
      rw [update_self]
      exact hrun n b hr
    · rw [update_of_ne ho]
      exact hb
  · change bagStateOf (update d.bagTagState _ _ (t, b)) = _ at hb
    by_cases ho : ((t, b) : BagId) = o
    · rw [ho, word_self, bagStateOf_packBag] at hb
      exact absurd hb hopen
    · rwa [word_ne ho] at hb
  · have hoo : o' ≠ o := by
      rintro rfl
      exact hb (hmine b ho)
    exact ⟨(update_of_ne hoo ..).trans ho, word_ne hoo, rfl⟩
  · by_cases ho : o' = o
    · subst ho
      have hnew := bagState_of_word (d := { d with
        bagTagState := update d.bagTagState o' (packBag tag st) })
        (o := o') word_self
      exact hmove hnew.1 (hnew.2.trans htag.symm) (update_self ..) rfl
    · exact .still (word_ne ho) rfl

/-- The claim of an expired sealed bag. -/
theorem Does.claims (h : Good d) {o : BagId} {v : Nat}
    (hw : d.bagTagState o = v) (hv : bagStateOf v = .sealed)
    (hexp : bagTagOf v + 2 ≤ d.globalEpoch) :
    Does a d { d with
      bagTagState := update d.bagTagState o (packBag (bagTagOf v) .claimed)
      holder := update d.holder o (some a) } := by
  subst hw
  have hfree : ∀ b, d.holder o ≠ some b := by
    intro b hb
    have hc := (h.claimed o).mpr ⟨b, hb⟩
    rw [Shared.bagState, hv] at hc
    cases hc
  refine .handsOver h ?_ rfl (fun hf => by cases hf) BagState.noConfusion
    ⟨fun _ => ⟨a, rfl⟩, fun _ => rfl⟩ (fun b hb => absurd hb (hfree b))
    (fun n b hr => absurd (h.running n o b hr) (hfree b))
    fun hnew htag hh hb => .claims hv hnew htag hexp hh hb
  rw [Shared.bagState, hv]
  rintro (hs | hs) <;> cases hs

/-- The claim winner gives the bag back. -/
theorem Does.gives (h : Good d) {o : BagId} {st : BagState}
    (hh : Holds d a o tag) (hrest : Rests d a)
    (hst : st = .sealed ∨ st = .free ∧ d.bag o = []) : Does a d { d with
      bagTagState := update d.bagTagState o (packBag tag st)
      holder := update d.holder o none } := by
  obtain ⟨hold, hw, -⟩ := hh
  obtain ⟨hclaimed, htag⟩ := bagState_of_word hw
  have hmine : ∀ b, d.holder o = some b → b = a := by
    intro b hb
    rw [hold] at hb
    exact (Option.some.inj hb).symm
  have hnone : ∀ n b, d.place n ≠ .running o b := by
    intro n b hr
    rw [hmine b (h.running n o b hr)] at hr
    exact hrest n o hr
  refine .handsOver h ?_ htag ?_ ?_ ?_ hmine
    (fun n b hr => absurd hr (hnone n b)) fun hnew htag' _ hb => ?_
  · rw [hclaimed]
    rintro (hs | hs) <;> cases hs
  · rcases hst with rfl | ⟨-, he⟩
    · exact fun hf => by cases hf
    · exact fun _ => he
  · rcases hst with rfl | ⟨rfl, -⟩ <;> exact BagState.noConfusion
  · rcases hst with rfl | ⟨rfl, -⟩ <;> simp
  · rcases hst with rfl | ⟨rfl, he⟩
    · exact .reseals hclaimed hold hnew htag' hb
    · exact .releases hclaimed hold hnew he hnone hb

-- ==== bag contents

/-- Agent `a` moves the node `n`, which no deleter was started for, on or
off the bag `o`; the others keep off the bag. -/
theorem Does.movesNode (h : Good d) {o : BagId} {p : Place} {l : List Node}
    {head link : Option Node} (hp : p = .queued o ∨ p = .running o a)
    (hspells : Spells (update d.next n link) head l) (hnodup : l.Nodup)
    (hmem : ∀ n', n' ∈ l ↔ if n' = n then p = .queued o else n' ∈ d.bag o)
    (hout : ∀ o', o' ≠ o → n ∉ d.bag o') (hfree : d.bagState o ≠ .free)
    (htag : (d.seen n).epoch ≤ d.bagTag o)
    (hrun : p = .running o a → d.holder o = some a)
    (hrange : o.1 < d.slotCount ∧ o.2 < kBagCount) (hslot : d.slotOf n = o.1)
    (hfresh : d.place n ≠ .fresh) (hzero : d.starts n = 0)
    (hpush : ∀ b, d.place n = .pushing b → b = a)
    (hidle : ∀ o' b, d.place n ≠ .running o' b)
    (hmine : ∀ b, d.holder o = some b → b = a)
    (hown : ∀ t, t ≠ a.thread → ∀ b, d.bagState (t, b) = .free
      ∨ d.bagState (t, b) = .opened → (t, b) ≠ o)
    (hbag : ∀ {d' : Shared}, d'.bagTagState o = d.bagTagState o →
      d'.bag o = l → BagMove a d d' o)
    (hnode : ∀ {d' : Shared}, d'.place n = p → d'.starts n = d.starts n →
      NodeMove a d d' n) :
    Does a d { d with
      bagHead := update d.bagHead o head
      next := update d.next n link
      bag := update d.bag o l
      place := update d.place n p } := by
  have hlater : p ≠ .fresh ∧ p ≠ .returned ∧ ∀ b, p ≠ .pushing b := by
    rcases hp with rfl | rfl <;> simp
  have hhome : ∀ {o'}, p = .queued o' ∨ (∃ b, p = .running o' b) → o' = o := by
    rcases hp with rfl | rfl <;> simp +contextual [eq_comm]
  have hheld : ∀ {o' b}, b ≠ a → d.holder o' = some b → o' ≠ o := by
    rintro o' b hb ho rfl
    exact hb (hmine b ho)
  have hplaced := h.placed_update (n := n) (p := p) ⟨fun o' b hr => by
      rcases hp with rfl | rfl
      · cases hr
      · cases hr
        exact hrun rfl, fun o' ho => hhome ho ▸ hrange,
    fun b hx => absurd hx (hlater.2.2 b), fun o' ho => hhome ho ▸ hslot,
    fun hx => absurd hx hlater.2.1, fun _ => hzero⟩
  refine ⟨{ h with
      spells := ?_, nodup := ?_, queued := ?_, freeEmpty := ?_, tagged := ?_
      running := fun n' => (hplaced n').running
      inRange := fun n' o' ho => (hplaced n').inRange o'
        (Shared.home_eq_iff.mp ho)
      unlinked := ?_
      retired := fun n' => (h.retired n').trans
        (retired_place hfresh hlater.1 n').symm
      unstarted := fun n' => (hplaced n').unstarted
      slot := fun n' => ⟨(hplaced n').pushing, fun o' ho =>
        (hplaced n').home o' (Shared.home_eq_iff.mp ho)⟩
      finished := fun n' => (hplaced n').finished
      seen := fun n' hp => h.seen n'
        ((retired_place hfresh hlater.1 n').mp hp) },
    fun b hb => { KeepsFor.refl b d with
      pushing := pushing_other hb hpush fun b' hx => absurd hx (hlater.2.2 b')
      holds := fun o' ho => ⟨ho, rfl, update_of_ne (hheld hb ho) ..⟩
      running := running_other hb (fun o' b' hr => absurd hr (hidle o' b'))
        fun o' b' hr => ?_
      bagged := fun o' ho => update_of_ne (hheld hb ho) .. },
    fun t ht => { KeepsSlot.refl t d with
      bags := fun b hb => ⟨rfl, update_of_ne (hown t ht b hb) ..,
        update_of_ne (hown t ht b hb) ..⟩ }, fun o' => ?_, fun n' => ?_⟩
  · intro o'
    show Spells _ (update d.bagHead o head o') (update d.bag o l o')
    by_cases ho : o' = o
    · rw [ho, update_self, update_self]
      exact hspells
    · rw [update_of_ne ho, update_of_ne ho]
      exact (h.spells o').update (hout o' ho) link
  · exact (forall_update_iff d.bag fun _ l => l.Nodup).mpr
      ⟨hnodup, fun o' _ => h.nodup o'⟩
  · intro o' n'
    show n' ∈ update d.bag o l o' ↔ update d.place n p n' = _
    by_cases ho : o' = o
    · rw [ho, update_self, hmem n']
      split
      · rename_i hn
        rw [hn, place_self]
      · rename_i hn
        rw [place_ne hn]
        exact h.queued o n'
    · rw [update_of_ne ho]
      by_cases hn : n' = n
      · rw [hn, place_self]
        exact ⟨fun hm => absurd hm (hout o' ho),
          fun hq => absurd (hhome (Or.inl hq)) ho⟩
      · rw [place_ne hn]
        exact h.queued o' n'
  · exact (forall_update_iff d.bag fun o' l => d.bagState o' = .free →
      l = []).mpr ⟨fun hf => absurd hf hfree, fun o' _ => h.freeEmpty o'⟩
  · refine (forall_update_iff d.bag fun o' l => ∀ n' ∈ l,
      (d.seen n').epoch ≤ d.bagTag o').mpr ⟨fun n' hn' => ?_,
        fun o' _ => h.tagged o'⟩
    have hin := (hmem n').mp hn'
    split at hin
    · rename_i hn
      rw [hn]
      exact htag
    · exact h.tagged o n' hin
  · intro n' hn'
    change update d.place n p n' = _ at hn'
    show update d.next n link n' = none
    by_cases hn : n' = n
    · rw [hn, place_self] at hn'
      exact absurd hn' hlater.1
    · rw [place_ne hn] at hn'
      rw [update_of_ne hn]
      exact h.unlinked n' hn'
  · rcases hp with rfl | rfl
    · cases hr
    · exact (Place.running.inj hr).2.symm
  · by_cases ho : o' = o
    · rw [ho]
      exact hbag rfl (update_self ..)
    · exact .still rfl (update_of_ne ho ..)
  · by_cases hn : n' = n
    · rw [hn]
      exact hnode place_self rfl
    · exact .still (place_ne hn) rfl

/-- A push to the open bag the slot designates. -/
theorem Does.pushes (h : Good d) (hlt : a.thread < d.slotCount)
    (hn : d.place n = .pushing a) (hi : d.openBagIndex a.thread = i)
    (ho : d.bagState (a.thread, i) = .opened)
    (ht : (d.seen n).epoch ≤ d.bagTag (a.thread, i)) : Does a d { d with
      next := update d.next n (d.bagHead (a.thread, i))
      bagHead := update d.bagHead (a.thread, i) (some n)
      bag := update d.bag (a.thread, i) (n :: d.bag (a.thread, i))
      place := update d.place n (.queued (a.thread, i)) } := by
  have hout : ∀ o, n ∉ d.bag o := by
    intro o hm
    have hq := (h.queued o n).mp hm
    rw [hn] at hq
    cases hq
  refine .movesNode h (Or.inl rfl) ((h.spells _).push (hout _))
    (List.nodup_cons.mpr ⟨hout _, h.nodup _⟩) (fun n' => ?_)
    (fun o' _ => hout o') (by rw [ho]; exact BagState.noConfusion) ht
    (fun hr => by cases hr) ⟨hlt, by rw [← hi]; exact h.index a.thread⟩
    ((h.slot n).1 a hn) (by rw [hn]; exact Place.noConfusion)
    (h.unstarted n (Or.inr (Or.inl ⟨a, hn⟩))) (fun b hb => ?_)
    (fun o' b hr => by rw [hn] at hr; cases hr) (fun b hb => ?_) ?_
    (fun hw hb => .pushes n (by rw [hi]) ho hw hb)
    fun hp hs => .pushes _ hn hp hs
  · rw [List.mem_cons]
    split
    · rename_i he
      simp [he]
    · rename_i he
      simp [he]
  · rw [hn] at hb
    exact (Place.pushing.inj hb).symm
  · have hc := (h.claimed _).mpr ⟨b, hb⟩
    rw [ho] at hc
    cases hc
  · rintro t ht b - ⟨⟩
    exact ht rfl

/-- The claim winner pops the head. -/
theorem Does.pops (h : Good d) {o : BagId} (hh : Holds d a o tag)
    (hn : d.bagHead o = some n) : Does a d { d with
      bagHead := update d.bagHead o (d.next n)
      next := update d.next n none
      bag := update d.bag o (d.bag o).tail
      place := update d.place n (.running o a) } := by
  obtain ⟨hold, hw, -⟩ := hh
  have hclaimed := (bagState_of_word hw).1
  have hspell := h.spells o
  rw [hn] at hspell
  obtain ⟨xs, hxs, -⟩ := hspell.cons_of_some
  have hq : d.place n = .queued o := by
    rw [← h.queued, hxs]
    exact List.mem_cons_self
  have hhome := Shared.home_eq_iff.mpr (Or.inl hq)
  have hnd := h.nodup o
  rw [hxs, List.nodup_cons] at hnd
  rw [hxs] at hspell
  rw [hxs, List.tail_cons]
  refine .movesNode h (Or.inr rfl) (hspell.pop hnd.1) hnd.2 (fun n' => ?_)
    (fun o' ho hm => ?_) (by rw [hclaimed]; exact BagState.noConfusion)
    (h.tagged o n ((h.queued o n).mpr hq)) (fun _ => hold)
    (h.inRange n o hhome) ((h.slot n).2 o hhome)
    (by rw [hq]; exact Place.noConfusion)
    (h.unstarted n (Or.inr (Or.inr ⟨o, hq⟩)))
    (fun b hp => by rw [hq] at hp; cases hp)
    (fun o' b hr => by rw [hq] at hr; cases hr) (fun b hb => ?_) ?_
    (fun hw hb => .pops n hclaimed hold hw (hxs.trans (by rw [hb])))
    fun hp hs => .pops o hq hp hs
  · split
    · rename_i he
      rw [he]
      exact ⟨fun hm => absurd hm hnd.1, fun hp => (by cases hp)⟩
    · rename_i he
      rw [hxs, List.mem_cons]
      exact ⟨Or.inr, fun hm => hm.resolve_left he⟩
  · have hq' := (h.queued o' n).mp hm
    rw [hq] at hq'
    exact ho (Place.queued.inj hq').symm
  · rw [hold] at hb
    exact (Option.some.inj hb).symm
  · rintro t - b hb rfl
    rw [hclaimed] at hb
    rcases hb with hb | hb <;> cases hb

-- ==== deleters

/-- The deleter of the popped node is started. -/
theorem Does.starts (h : Good d) {o : BagId} (hr : Runs d a o n)
    (hz : d.starts n = 0) (hexp : (d.seen n).epoch + 2 ≤ d.globalEpoch) :
    Does a d { d with
      starts := update d.starts n (d.starts n + 1) } := by
  have hne : ∀ {n'}, n' ≠ n →
      update d.starts n (d.starts n + 1) n' = d.starts n' :=
    fun hn' => update_of_ne hn' ..
  have hp := hr.place
  refine ⟨{ h with started := ?_, unstarted := ?_, finished := ?_ },
    fun b hb => { KeepsFor.refl b d with starts := ?_ },
    fun t _ => { KeepsSlot.refl t d with }, fun _ => .still rfl rfl, ?_⟩
  · exact (forall_update_iff d.starts fun _ k => k ≤ 1).mpr
      ⟨by omega, fun n' _ => h.started n'⟩
  · refine (forall_update_iff d.starts fun n' k => d.place n' = .returned →
      k = 1).mpr ⟨fun hn => ?_, fun n' _ => h.finished n'⟩
    rw [hp] at hn
    cases hn
  · refine (forall_update_iff d.starts fun n' k => d.place n' = .fresh
      ∨ (∃ b, d.place n' = .pushing b) ∨ (∃ o, d.place n' = .queued o) →
      k = 0).mpr ⟨fun hn => ?_, fun n' _ => h.unstarted n'⟩
    simp [hp] at hn
  · intro n' o' hr'
    refine hne fun he => hb ?_
    rw [he, hp] at hr'
    exact (Place.running.inj hr').2.symm
  · intro n'
    by_cases hn' : n' = n
    · subst hn'
      refine .starts o hp hp hexp hz ?_
      show update d.starts n' _ n' = 1
      rw [update_self, hz]
    · exact .still rfl (hne hn')

/-- The deleter of the popped node returns. -/
theorem Does.returns (h : Good d) {o : BagId} (hr : Runs d a o n)
    (hs : d.starts n = 1) :
    Does a d { d with place := update d.place n .returned } := by
  have hp := hr.place
  have hfresh : d.place n ≠ .fresh := by
    rw [hp]
    exact Place.noConfusion
  have hplaced := h.placed_update (n := n) (p := .returned)
    ⟨fun o b hx => (by cases hx), fun o ho => (by simp at ho),
      fun b hx => (by cases hx), fun o ho => (by simp at ho), fun _ => hs,
      fun hx => (by simp at hx)⟩
  refine ⟨{ h with
      queued := ?_
      running := fun n' => (hplaced n').running
      inRange := fun n' o' ho => (hplaced n').inRange o'
        (Shared.home_eq_iff.mp ho)
      unlinked := ?_
      retired := fun n' => (h.retired n').trans
        (retired_place hfresh Place.noConfusion n').symm
      unstarted := fun n' => (hplaced n').unstarted
      slot := fun n' => ⟨(hplaced n').pushing, fun o' ho =>
        (hplaced n').home o' (Shared.home_eq_iff.mp ho)⟩
      finished := fun n' => (hplaced n').finished
      seen := fun n' hp => h.seen n'
        ((retired_place hfresh Place.noConfusion n').mp hp) },
    fun b hb => { KeepsFor.refl b d with
      pushing := pushing_other hb (fun b' hx => by rw [hp] at hx; cases hx)
        (fun b' hx => by cases hx)
      running := running_other hb (fun o b' hr' => by
        rw [hp] at hr'
        exact (Place.running.inj hr').2.symm) (fun o b' hr => by cases hr) },
    fun t _ => { KeepsSlot.refl t d with }, fun _ => .still rfl rfl, ?_⟩
  · intro o'
    refine (forall_update_iff d.place fun n' p => n' ∈ d.bag o'
      ↔ p = .queued o').mpr ⟨?_, fun n' _ => h.queued o' n'⟩
    rw [h.queued o' n, hp]
    simp
  · exact (forall_update_iff d.place fun n' p => p = .fresh →
      d.next n' = none).mpr ⟨fun hx => (by cases hx), fun n' _ => h.unlinked n'⟩
  · intro n'
    by_cases hn' : n' = n
    · rw [hn']
      exact .returns o hp place_self rfl
    · exact .still (place_ne hn') rfl

end CroCOS.Core.Rcu
