/-
The kinds of steps that touch no bag, one lemma for each: what the step
needs to find, and that it then keeps the shared invariant and
everything the other agents rely on.
-/
import CroCOS.Proofs.EpochDomain.Guarantee

namespace CroCOS.Core.Rcu

open Function Lib

variable {a : Agent} {d : Shared}
variable {e : Nat}

theorem KeepsFor.refl (b : Agent) (d : Shared) : KeepsFor b d d :=
  ⟨rfl, le_rfl, fun _ => Iff.rfl, fun _ _ => rfl,
    fun _ h => ⟨h, rfl, rfl⟩, fun _ _ => Iff.rfl, fun _ _ => rfl,
    fun _ _ _ => rfl, fun _ h => h, fun _ _ _ h => h⟩

theorem KeepsSlot.refl (t : Nat) (d : Shared) : KeepsSlot t d d :=
  ⟨rfl, rfl, rfl, rfl, fun _ _ => ⟨rfl, rfl, rfl⟩⟩

-- ==== plain owner-only data

/-- A step that reads, or writes only the slot's plain counters and
flags. -/
theorem Does.quiet (h : Good d) (nesting retireCount : Nat → Nat)
    (inDrain : Nat → Bool) (scope : Nat → List Node)
    (hdrain : ∀ t, t ≠ a.thread → inDrain t = d.inDrain t)
    (hscope : ∀ t, t ≠ a.thread → scope t = d.scope t) :
    Does a d { d with
      nesting := nesting, retireCount := retireCount, inDrain := inDrain
      scope := scope } :=
  ⟨{ h with }, fun b _ => { KeepsFor.refl b d with },
    fun t ht => { KeepsSlot.refl t d with
      inDrain := hdrain t ht, scope := hscope t ht },
    fun _ => .still rfl rfl, fun _ => .still rfl rfl⟩

/-- Counting, on the thread's own slot. -/
theorem Does.counts (h : Good d) (nesting retireCount : Nat → Nat) :
    Does a d { d with nesting := nesting, retireCount := retireCount } :=
  .quiet h nesting retireCount d.inDrain d.scope (fun _ _ => rfl)
    fun _ _ => rfl

/-- Entering or leaving a drain. -/
theorem Does.flags (h : Good d) (b : Bool) :
    Does a d { d with inDrain := update d.inDrain a.thread b } :=
  .quiet h d.nesting d.retireCount _ d.scope
    (fun _ ht => update_of_ne ht ..) fun _ _ => rfl

theorem Does.refl (h : Good d) : Does a d d :=
  ⟨h, fun b _ => .refl b d, fun t _ => .refl t d, fun _ => .still rfl rfl,
    fun _ => .still rfl rfl⟩

-- ==== sections

/-- Entering a section: no earlier epoch load has seen it. -/
theorem Does.activate (h : Good d) (he : e ≤ d.globalEpoch) : Does a d { d with
      state := update d.state a.thread (makeActive e)
      entries := update d.entries a.thread (d.entries a.thread + 1) } := by
  -- a live section of the new state was live before, on another slot
  have hlive : ∀ o ∈ d.observed, ∀ s, Shared.Live { d with
      state := update d.state a.thread (makeActive e)
      entries := update d.entries a.thread
        (d.entries a.thread + 1) } o s → s ≠ a.thread ∧ d.Live o s := by
    intro o ho s hl
    obtain ⟨hact, hmem⟩ := hl
    by_cases hs : s = a.thread
    · subst hs
      change (a.thread, update d.entries a.thread _ a.thread)
        ∈ o.sections at hmem
      rw [update_self] at hmem
      have := (h.entered o ho _ hmem).2
      dsimp only at this
      omega
    · change isActive (update d.state a.thread _ s) = true at hact
      change (s, update d.entries a.thread _ s) ∈ o.sections at hmem
      rw [update_of_ne hs] at hact hmem
      exact ⟨hs, hact, hmem⟩
  refine ⟨{ h with snapshot := ?_, entered := ?_, guarded := ?_ },
    fun b _ => { KeepsFor.refl b d with clear := ?_ },
    fun t _ => { KeepsSlot.refl t d with }, fun _ => .still rfl rfl,
    fun _ => .still rfl rfl⟩
  · intro s hact
    by_cases hs : s = a.thread
    · subst hs
      show epochOf (update d.state a.thread _ a.thread) ≤ _
      rw [update_self, epochOf_makeActive]
      exact he
    · change isActive (update d.state a.thread _ s) = true at hact
      show epochOf (update d.state a.thread _ s) ≤ _
      rw [update_of_ne hs] at hact ⊢
      exact h.snapshot s hact
  · intro o ho p hp
    obtain ⟨hlt, hle⟩ := h.entered o ho p hp
    refine ⟨hlt, ?_⟩
    show p.2 ≤ update d.entries a.thread _ p.1
    by_cases hs : p.1 = a.thread
    · rw [hs, update_self]
      rw [hs] at hle
      omega
    · rw [update_of_ne hs]
      exact hle
  · intro o ho s hl
    obtain ⟨hs, hl'⟩ := hlive o ho s hl
    show epochOf (update d.state a.thread _ s) ≤ _ ∧ _
    rw [update_of_ne hs]
    exact h.guarded o ho s hl'
  · intro e' i _ hc o ho s hlt hl
    exact hc o ho s hlt (hlive o ho s hl).2

/-- Leaving a section. -/
theorem Does.deactivate (h : Good d) (nesting : Nat → Nat) : Does a d { d with
      nesting := nesting
      state := update d.state a.thread kInactive } := by
  have hact : ∀ s, isActive (update d.state a.thread kInactive s)
      = true → s ≠ a.thread := by
    intro s hs he
    subst he
    rw [update_self] at hs
    cases hs
  have hlive : ∀ o s, Shared.Live { d with
      nesting := nesting
      state := update d.state a.thread kInactive } o s →
      s ≠ a.thread ∧ d.Live o s := by
    intro o s hl
    have hs := hact s hl.1
    obtain ⟨h1, h2⟩ := hl
    change isActive (update d.state a.thread _ s) = true at h1
    rw [update_of_ne hs] at h1
    exact ⟨hs, h1, h2⟩
  refine ⟨{ h with snapshot := ?_, guarded := ?_ },
    fun b _ => { KeepsFor.refl b d with clear := ?_ },
    fun t _ => { KeepsSlot.refl t d with }, fun _ => .still rfl rfl,
    fun _ => .still rfl rfl⟩
  · intro s hs
    have hne := hact s hs
    change isActive (update d.state a.thread _ s) = true at hs
    show epochOf (update d.state a.thread _ s) ≤ _
    rw [update_of_ne hne] at hs ⊢
    exact h.snapshot s hs
  · intro o ho s hl
    obtain ⟨hs, hl'⟩ := hlive o s hl
    show epochOf (update d.state a.thread _ s) ≤ _ ∧ _
    rw [update_of_ne hs]
    exact h.guarded o ho s hl'
  · intro e i _ hc o ho s hlt hl
    exact hc o ho s hlt (hlive o s hl).2

-- ==== places

section Places

variable {n : Node} {p : Place}

theorem place_self : update d.place n p n = p :=
  update_self ..

theorem place_ne {n' : Node} (h : n' ≠ n) :
    update d.place n p n' = d.place n' :=
  update_of_ne h ..

/-- What the holders, the slots and the deleters know of a node at the
place `p`. -/
structure Placed (d : Shared) (n : Node) (p : Place) : Prop where
  running : ∀ o b, p = .running o b → d.holder o = some b
  inRange : ∀ o, p = .queued o ∨ (∃ b, p = .running o b) →
    o.1 < d.slotCount ∧ o.2 < kBagCount
  pushing : ∀ b, p = .pushing b → d.slotOf n = b.thread
  home : ∀ o, p = .queued o ∨ (∃ b, p = .running o b) → d.slotOf n = o.1
  finished : p = .returned → d.starts n = 1
  unstarted : p = .fresh ∨ (∃ b, p = .pushing b) ∨ (∃ o, p = .queued o) →
    d.starts n = 0

theorem Good.placed (h : Good d) (n : Node) : Placed d n (d.place n) :=
  ⟨h.running n, fun o ho => h.inRange n o (Shared.home_eq_iff.mpr ho),
    (h.slot n).1, fun o ho => (h.slot n).2 o (Shared.home_eq_iff.mpr ho),
    h.finished n, h.unstarted n⟩

theorem Good.placed_update (h : Good d) (hp : Placed d n p) :
    ∀ n', Placed d n' (update d.place n p n') :=
  (forall_update_iff d.place (Placed d)).mpr ⟨hp, fun n' _ => h.placed n'⟩

/-- A node that was retired stays so. -/
theorem retired_place (hn : d.place n ≠ .fresh) (hp : p ≠ .fresh) :
    ∀ n', update d.place n p n' ≠ .fresh ↔ d.place n' ≠ .fresh :=
  (forall_update_iff d.place fun n' p => p ≠ .fresh
    ↔ d.place n' ≠ .fresh).mpr ⟨⟨fun _ => hn, fun _ => hp⟩, fun _ _ => .rfl⟩

/-- A node that agent `a` moves was not another agent's, and is not. -/
theorem running_other {b : Agent} (hb : b ≠ a)
    (hold : ∀ o b', d.place n = .running o b' → b' = a)
    (hnew : ∀ o b', p = .running o b' → b' = a) (n' : Node) (o : BagId) :
    update d.place n p n' = .running o b
      ↔ d.place n' = .running o b := by
  by_cases hn' : n' = n
  · subst hn'
    rw [place_self]
    exact ⟨fun hr => absurd (hnew o b hr) hb,
      fun hr => absurd (hold o b hr) hb⟩
  · rw [place_ne hn']

theorem pushing_other {b : Agent} (hb : b ≠ a)
    (hold : ∀ b', d.place n = .pushing b' → b' = a)
    (hnew : ∀ b', p = .pushing b' → b' = a) (n' : Node) :
    update d.place n p n' = .pushing b
      ↔ d.place n' = .pushing b := by
  by_cases hn' : n' = n
  · subst hn'
    rw [place_self]
    exact ⟨fun hr => absurd (hnew b hr) hb, fun hr => absurd (hold b hr) hb⟩
  · rw [place_ne hn']

end Places

-- ==== epoch loads

theorem mem_activeSections {p : Nat × Nat} : p ∈ d.activeSections
      ↔ p.1 < d.slotCount ∧ isActive (d.state p.1) = true
        ∧ p.2 = d.entries p.1 := by
  unfold Shared.activeSections
  simp only [List.mem_map, List.mem_filter, List.mem_range]
  constructor
  · intro hp
    obtain ⟨s, ⟨hlt, hact⟩, rfl⟩ := hp
    exact ⟨hlt, hact, rfl⟩
  · intro hp
    obtain ⟨hlt, hact, he⟩ := hp
    exact ⟨p.1, ⟨hlt, hact⟩, by rw [← he]⟩

/-- A new epoch load names sections that exist. -/
theorem Good.entered_observe (h : Good d) :
    ∀ o ∈ d.observe :: d.observed, ∀ p ∈ o.sections,
      p.1 < d.slotCount ∧ p.2 ≤ d.entries p.1 := by
  intro o ho p hp
  rcases List.mem_cons.mp ho with rfl | ho'
  · obtain ⟨hlt, -, he⟩ := mem_activeSections.mp hp
    exact ⟨hlt, Nat.le_of_eq he⟩
  · exact h.entered o ho' p hp

/-- The sections a new epoch load sees have snapshots no later. -/
theorem Good.guarded_observe (h : Good d) :
    ∀ o ∈ d.observe :: d.observed, ∀ s, d.Live o s →
      epochOf (d.state s) ≤ o.epoch ∧ d.globalEpoch ≤ o.epoch + 1 := by
  intro o ho s hl
  rcases List.mem_cons.mp ho with rfl | ho'
  · exact ⟨h.snapshot s hl.1, Nat.le_succ _⟩
  · exact h.guarded o ho' s hl

/-- A scan in flight owes nothing to a new epoch load. -/
theorem clear_observe {i : Nat} (he : e ≤ d.globalEpoch) (hc : d.Clear e i) :
    ∀ o ∈ d.observe :: d.observed, ∀ s, s < i → d.Live o s → e ≤ o.epoch := by
  intro o ho s hlt hl
  rcases List.mem_cons.mp ho with rfl | ho'
  · exact he
  · exact hc o ho' s hlt hl

/-- The epoch load of a synchronize. -/
theorem Does.observes (h : Good d) :
    Does a d { d with observed := d.observe :: d.observed } :=
  ⟨{ h with
      seen := fun n hn => List.mem_cons_of_mem _ (h.seen n hn)
      entered := h.entered_observe
      guarded := h.guarded_observe },
    fun b _ => { KeepsFor.refl b d with
      observed := fun _ ho => List.mem_cons_of_mem _ ho
      clear := fun _ _ he hc => clear_observe he hc },
    fun t _ => { KeepsSlot.refl t d with }, fun _ => .still rfl rfl,
    fun _ => .still rfl rfl⟩

/-- The epoch load of a retire. -/
theorem Does.retires (h : Good d) {n : Node} (hn : d.place n = .fresh) :
    Does a d { d with
      observed := d.observe :: d.observed
      seen := update d.seen n d.observe
      slotOf := update d.slotOf n a.thread
      retired := n :: d.retired
      place := update d.place n (.pushing a) } := by
  have hseen : ∀ {n'}, n' ≠ n → update d.seen n d.observe n' = d.seen n' :=
    fun hn' => update_of_ne hn' ..
  have hbag : ∀ o n', n' ∈ d.bag o → n' ≠ n := by
    rintro o n' hm rfl
    have hq := (h.queued o n').mp hm
    rw [hn] at hq
    cases hq
  have hplaced : ∀ n', Placed { d with
      slotOf := update d.slotOf n a.thread } n'
        (update d.place n (.pushing a) n') := by
    refine (forall_update_iff d.place (Placed _)).mpr ⟨⟨fun o b hp => ?_,
      fun o ho => ?_, fun b hp => ?_, fun o ho => ?_, fun hp => ?_,
      fun _ => h.unstarted n (Or.inl hn)⟩, fun n' hn' => { h.placed n' with
        pushing := ?_, home := ?_ }⟩
    · cases hp
    · rcases ho with ho | ⟨b, ho⟩ <;> cases ho
    · cases hp
      exact update_self ..
    · rcases ho with ho | ⟨b, ho⟩ <;> cases ho
    · cases hp
    · intro b hb
      exact (update_of_ne hn' ..).trans ((h.placed n').pushing b hb)
    · intro o ho
      exact (update_of_ne hn' ..).trans ((h.placed n').home o ho)
  refine ⟨{ h with
      queued := ?_, tagged := ?_
      running := fun n' => (hplaced n').running
      inRange := fun n' o ho => (hplaced n').inRange o
        (Shared.home_eq_iff.mp ho)
      unlinked := ?_, retired := ?_
      slot := fun n' => ⟨(hplaced n').pushing, fun o ho =>
        (hplaced n').home o (Shared.home_eq_iff.mp ho)⟩
      finished := fun n' => (hplaced n').finished
      unstarted := fun n' => (hplaced n').unstarted
      seen := ?_
      entered := h.entered_observe, guarded := h.guarded_observe },
    fun b hb => { KeepsFor.refl b d with
      pushing := pushing_other hb (fun b' hp => by rw [hn] at hp; cases hp)
        (fun b' hp => (Place.pushing.inj hp).symm)
      seen := ?_
      running := running_other hb (fun o b' hr => by rw [hn] at hr; cases hr)
        (fun o b' hr => by cases hr)
      starts := fun _ _ _ => rfl
      observed := fun _ ho => List.mem_cons_of_mem _ ho
      clear := fun _ _ he hc => clear_observe he hc },
    fun t _ => { KeepsSlot.refl t d with }, fun _ => .still rfl rfl, ?_⟩
  · intro o n'
    show n' ∈ d.bag o ↔ update d.place n _ n' = _
    by_cases hn' : n' = n
    · subst hn'
      rw [place_self]
      exact ⟨fun hm => absurd rfl (hbag o n' hm), fun hp => (by cases hp)⟩
    · rw [place_ne hn']
      exact h.queued o n'
  · intro o n' hm
    show (update d.seen n _ n').epoch ≤ _
    rw [hseen (hbag o n' hm)]
    exact h.tagged o n' hm
  · exact (forall_update_iff d.place fun n' p => p = .fresh →
      d.next n' = none).mpr ⟨fun hp => (by cases hp), fun n' _ => h.unlinked n'⟩
  · refine (forall_update_iff d.place fun n' p => n' ∈ n :: d.retired
      ↔ p ≠ .fresh).mpr ⟨by simp, fun n' hn' => ?_⟩
    rw [List.mem_cons, or_iff_right hn']
    exact h.retired n'
  · intro n' hp
    show update d.seen n _ n' ∈ _
    by_cases hn' : n' = n
    · rw [hn', update_self]
      exact List.mem_cons_self
    · change update d.place n _ n' ≠ _ at hp
      rw [place_ne hn'] at hp
      rw [hseen hn']
      exact List.mem_cons_of_mem _ (h.seen n' hp)
  · intro n' hp
    refine hseen fun he => hp ?_
    rw [he]
    exact hn
  · intro n'
    by_cases hn' : n' = n
    · rw [hn']
      exact .retires hn place_self rfl
    · exact .still (place_ne hn') rfl

/-- The epoch goes up by one when the scan found no section that an
earlier epoch load is owed. -/
theorem Does.advances (h : Good d) (he : d.globalEpoch = e)
    (hc : d.Clear e d.slotCount) :
    Does a d { d with globalEpoch := e + 1 } := by
  subst he
  refine ⟨{ h with past := ?_, snapshot := ?_, guarded := ?_ },
    fun b _ => { KeepsFor.refl b d with epoch := Nat.le_succ _, clear := ?_ },
    fun t _ => { KeepsSlot.refl t d with }, fun _ => .still rfl rfl,
    fun _ => .still rfl rfl⟩
  · intro o
    exact Nat.le_succ_of_le (h.past o)
  · intro s hs
    exact Nat.le_succ_of_le (h.snapshot s hs)
  · intro o ho s hl
    refine ⟨(h.guarded o ho s hl).1, ?_⟩
    exact Nat.succ_le_succ (hc o ho s (h.entered o ho _ hl.2).1 hl)
  · intro e i _ hc' o ho s hlt hl
    exact hc' o ho s hlt hl

end CroCOS.Core.Rcu
