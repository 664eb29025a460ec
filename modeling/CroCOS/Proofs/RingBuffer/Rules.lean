/-
The rules by which the steps keep the invariant. `SideInv.step` is the
one for a side: the stepping thread publishes some of what it holds and
claims what lies beyond the claim head. `SideInv.same` is its case for
a side that is left alone. `Own.mono` says that what a thread knows
survives the steps of the others: the heads, the published and the done
positions only grow, and the new ones were held by somebody else.
`Inv.step` puts the parts together.
-/
import CroCOS.Proofs.RingBuffer.Invariant

namespace CroCOS.RingBuffer

open Function Lib

variable {Item : Type} {cfg : Config} {m : Machine Item}
variable {s s' : Shared Item} {log log' : List (Event Item)}
variable {side : Side} {t : Nat} {l : Option (Frame Item)}
variable {e : Option (Event Item)}
variable {k : Option (Frame Item)}

-- ==== a side

theorem SideInv.step (h : SideInv cfg side m log) (New : Nat → Prop)
    (hpub : ∀ p, Published cfg s' side p
      ↔ Published cfg m.shared side p ∨ New p)
    (hnew : ∀ p, New p → Holds side (m.own t) p ∧ Done log' side p)
    (hhold : ∀ p, Holds side l p ↔ Holds side (m.own t) p ∧ ¬ New p
      ∨ m.shared.claimHead side ≤ p ∧ p < s'.claimHead side)
    (hclaim : m.shared.claimHead side ≤ s'.claimHead side)
    (hdone : ∀ p, Done log side p → Done log' side p)
    (hlt : ∀ p, Done log' side p → p < s'.claimHead side)
    (hbelow : ∀ p, p < s'.head side → Published cfg s' side p)
    (hresp : cfg.ScanOnComplete = true → Published cfg s' side (s'.head side) →
      ∃ u, Responsible side (update m.own t l u) (s'.head side)) :
    SideInv cfg side ⟨s', update m.own t l⟩ log' := by
  have hself : ∀ p, Holds side (update m.own t l t) p
      ↔ Holds side l p := fun p => by rw [update_self]
  have hother : ∀ u, u ≠ t → update m.own t l u = m.own u :=
    fun u hu => update_of_ne hu _ _
  -- what is claimed now was published by nobody
  have hunclaimed : ∀ p, m.shared.claimHead side ≤ p →
      ¬ Published cfg s' side p := by
    intro p hp hpp
    cases (hpub p).mp hpp with
    | inl hx =>
      have := h.done_lt p (h.done_of p hx)
      omega
    | inr hx =>
      have := (h.fresh t p (hnew p hx).1).1
      omega
  refine ⟨hlt, fun p hp => ?_, hbelow, fun p hp => ?_, fun u p hp => ?_,
    fun u v p hu hv => ?_, hresp⟩
  · cases (hpub p).mp hp with
    | inl hx => exact hdone p (h.done_of p hx)
    | inr hx => exact (hnew p hx).2
  · by_cases hold : p < m.shared.claimHead side
    · rcases h.held p hold with hx | ⟨u, hu⟩
      · exact .inl ((hpub p).mpr (.inl hx))
      · by_cases hut : u = t
        · rw [hut] at hu
          by_cases hn : New p
          · exact .inl ((hpub p).mpr (.inr hn))
          · exact .inr ⟨t, (hself p).mpr ((hhold p).mpr (.inl ⟨hu, hn⟩))⟩
        · refine .inr ⟨u, ?_⟩
          show Holds side (update m.own t l u) p
          rw [hother u hut]
          exact hu
    · exact .inr ⟨t, (hself p).mpr ((hhold p).mpr
        (.inr ⟨Nat.not_lt.mp hold, hp⟩))⟩
  · by_cases hut : u = t
    · rw [hut] at hp
      cases (hhold p).mp ((hself p).mp hp) with
      | inl hx =>
        obtain ⟨hlt, hnot⟩ := h.fresh t p hx.1
        exact ⟨Nat.lt_of_lt_of_le hlt hclaim, fun hpp =>
          ((hpub p).mp hpp).elim hnot hx.2⟩
      | inr hx => exact ⟨hx.2, hunclaimed p hx.1⟩
    · have hp : Holds side (update m.own t l u) p := hp
      rw [hother u hut] at hp
      obtain ⟨hlt, hnot⟩ := h.fresh u p hp
      refine ⟨Nat.lt_of_lt_of_le hlt hclaim, fun hpp => ?_⟩
      cases (hpub p).mp hpp with
      | inl hx => exact hnot hx
      | inr hx => exact hut (h.exclusive u t p hp (hnew p hx).1)
  · refine Pool.exclusive_update h.exclusive (fun w q hw hl hx => ?_) u v p hu
      hv
    rcases (hhold q).mp hl with hy | hy
    · exact hw (h.exclusive w t q hx hy.1)
    · have := (h.fresh w q hx).1
      omega

/-- A responsibility is passed on by a step that keeps the head. -/
theorem SideInv.responsible_update (h : SideInv cfg side m log)
    (hscan : cfg.ScanOnComplete = true)
    (hpub : Published cfg m.shared side (m.shared.head side))
    (hpass : Responsible side (m.own t) (m.shared.head side) →
      Responsible side l (m.shared.head side)) :
    ∃ u, Responsible side (update m.own t l u) (m.shared.head side) :=
  Pool.exists_update (P := fun k => Responsible side k _)
    (h.responsible hscan hpub) hpass

/-- A side that the step leaves alone. -/
theorem SideInv.same (h : SideInv cfg side m log)
    (hpub : ∀ p, Published cfg s' side p ↔ Published cfg m.shared side p)
    (hclaim : s'.claimHead side = m.shared.claimHead side)
    (hhead : s'.head side = m.shared.head side)
    (hdone : ∀ p, Done log' side p ↔ Done log side p)
    (hhold : ∀ p, Holds side l p ↔ Holds side (m.own t) p)
    (hpass : cfg.ScanOnComplete = true →
      Published cfg m.shared side (m.shared.head side) →
      Responsible side (m.own t) (m.shared.head side) →
      Responsible side l (m.shared.head side)) :
    SideInv cfg side ⟨s', update m.own t l⟩ log' := by
  refine h.step (fun _ => False) (fun p => by rw [hpub p, or_false])
    (fun p hp => hp.elim) (fun p => ?_) (Nat.le_of_eq hclaim.symm)
    (fun p => (hdone p).mpr) (fun p hp => ?_) (fun p hp => ?_)
    (fun hscan hp => ?_)
  · rw [hhold p]
    constructor
    · exact fun hx => .inl ⟨hx, id⟩
    · rintro (hx | hx)
      · exact hx.1
      · omega
  · rw [hclaim]
    exact h.done_lt p ((hdone p).mp hp)
  · rw [hhead] at hp
    exact (hpub p).mpr (h.below p hp)
  · rw [hhead] at hp ⊢
    have hp := (hpub _).mp hp
    exact h.responsible_update hscan hp (hpass hscan hp)

-- ==== the others

/-- What only grows. -/
structure Grows (cfg : Config) (s s' : Shared Item)
    (log log' : List (Event Item)) : Prop where
  writeHead : s.writeHead ≤ s'.writeHead
  writtenHead : s.writtenHead ≤ s'.writtenHead
  readingHead : s.readingHead ≤ s'.readingHead
  readHead : s.readHead ≤ s'.readHead
  published : ∀ side p, Published cfg s side p → Published cfg s' side p
  done : ∀ side p, Done log side p → Done log' side p

theorem Grows.claimHead (h : Grows cfg s s' log log') (side : Side) :
    s.claimHead side ≤ s'.claimHead side := by
  cases side with
  | write => exact h.writeHead
  | read => exact h.readingHead

theorem Grows.head (h : Grows cfg s s' log log') (side : Side) :
    s.head side ≤ s'.head side := by
  cases side with
  | write => exact h.writtenHead
  | read => exact h.readHead

theorem Grows.spaceBound (h : Grows cfg s s' log log') (mode : WriteMode) :
    spaceBound s mode ≤ spaceBound s' mode := by
  cases mode with
  | bulkWrite => exact h.readingHead
  | tryBulkWrite | bulkWriteBestEffort => exact h.readHead

theorem Doing.mono {b : Batch} {i : Nat} (h : Doing log side b i)
    (hg : Grows cfg s s' log log')
    (hfresh : ∀ p, b.From 0 p → Done log' side p → Done log side p) :
    Doing log' side b i :=
  ⟨h.lt, fun j hj => hg.done side _ (h.done j hj), fun p hp hd =>
    h.todo p hp (hfresh p ⟨Nat.le_trans (Nat.le_add_right _ _) hp.1, hp.2⟩ hd)⟩

theorem AllDone.mono {b : Batch} (h : AllDone s log side b)
    (hg : Grows cfg s s' log log') : AllDone s' log' side b :=
  ⟨fun p hp => hg.done side p (h.done p hp),
    Nat.le_trans h.limit_le (hg.claimHead side)⟩

theorem Scanned.mono {lo hi : Nat} (h : Scanned cfg s side lo hi)
    (hg : Grows cfg s s' log log') : Scanned cfg s' side lo hi :=
  ⟨h.le, Nat.le_trans h.head (hg.head side),
    Nat.le_trans h.limit_le (hg.claimHead side),
    fun p hlo hhi => hg.published side p (h.published p hlo hhi)⟩

/-- What a thread knows survives a step in which nothing it holds is
done. -/
theorem Own.mono (hg : Grows cfg s s' log log') {f : Frame Item}
    (h : Own cfg s log f)
    (hfresh : ∀ side p, Holds side (some f) p → Done log' side p →
      Done log side p) : Own cfg s' log' f := by
  cases f with
  | loadWriteHead mode items | loadReadingHead mode count => trivial
  | checkSpace mode items claimed => exact Nat.le_trans h hg.writeHead
  | claimWrite mode items claimed count =>
    obtain ⟨h₁, h₂, h₃⟩ := h
    refine ⟨Nat.le_trans h₁ hg.writeHead, h₂, fun he => ?_⟩
    have := hg.writeHead
    have := hg.spaceBound mode
    omega
  | waitForSlotReadable b i items =>
    exact ⟨h.1.mono hg fun p hp => hfresh .write p ⟨rfl, hp⟩, h.2⟩
  | writeSlot wait b i items =>
    obtain ⟨h₁, h₂, h₃, h₄⟩ := h
    have := hg.readHead
    refine ⟨h₁.mono hg fun p hp => hfresh .write p ⟨rfl, hp⟩, h₂, by omega,
      fun hw => ?_⟩
    have := h₄ hw
    omega
  | checkItems mode count claimed => exact Nat.le_trans h hg.readingHead
  | claimRead mode count claimed actual =>
    refine ⟨Nat.le_trans h.1 hg.readingHead, fun he => ?_⟩
    have := hg.readingHead
    have := hg.writtenHead
    have := h.1
    have := h.2 (by omega)
    omega
  | readSlot b i =>
    exact Doing.mono h hg fun p hp => hfresh .read p ⟨rfl, hp⟩
  | advanceCompletionHead side b => exact ⟨h.1.mono hg, h.2⟩
  | storeGen side b i =>
    exact ⟨h.1.mono hg, h.2.1, h.2.2.1, fun j hj =>
      hg.published side _ (h.2.2.2 j hj)⟩
  | advanceWithScan side b current =>
    obtain ⟨h₁, h₂, h₃, h₄, h₅⟩ := h
    exact ⟨h₁, h₂, h₃, Nat.le_trans h₄ (hg.claimHead side),
      fun p hp => hg.published side p (h₅ p hp)⟩
  | scan side b desired scanPos | advanceScanned side b desired scanPos =>
    exact ⟨h.1, h.2.mono hg⟩

-- ==== together

/-- A step of thread `t`, from its parts. -/
theorem Inv.step (h : Inv cfg m log) (hg : Grows cfg m.shared s' log log')
    (hlawful : Lawful cfg.cap log')
    (hside : ∀ side, SideInv cfg side ⟨s', update m.own t l⟩ log')
    (hreading : s'.readingHead ≤ s'.writtenHead)
    (hspace : s'.writeHead ≤ s'.readingHead + cfg.cap)
    (hwindow : ∀ p, Done log' .write p → p < s'.readHead + cfg.cap)
    (hslots : ∀ p x, .wrote p x ∈ log' → s'.readHead ≤ p →
      s'.buffer (p % cfg.cap) = some x)
    (hown : ∀ f, l = some f → Own cfg s' log' f)
    (hnew : ∀ side p, Done log' side p →
      Done log side p ∨ Holds side (m.own t) p) :
    Inv cfg ⟨s', update m.own t l⟩ log' := by
  refine ⟨hlawful, hside, hreading, hspace, hwindow, hslots, fun u f hf => ?_⟩
  have hf : update m.own t l u = some f := hf
  by_cases hut : u = t
  · rw [hut, update_self] at hf
    exact hown f hf
  · rw [update_of_ne hut] at hf
    refine (h.own u f hf).mono hg fun side p hp hd => ?_
    cases hnew side p hd with
    | inl hx => exact hx
    | inr hx =>
      rw [← hf] at hp
      exact absurd ((h.side side).exclusive u t p hp hx) hut

/-- The step shows no access to a slot. -/
def Silent (e : Option (Event Item)) : Prop :=
  e = none ∨ ∃ r, e = some (.returned r)

theorem Silent.done (h : Silent e) (p : Nat) :
    Done (after log e) side p ↔ Done log side p := by
  rcases h with rfl | ⟨r, rfl⟩
  · unfold after
    rw [Option.toList_none, List.append_nil]
  · cases side with
    | write | read => simp [Done, after]

theorem Silent.lawful {cap : Nat} (h : Silent e) (hl : Lawful cap log) :
    Lawful cap (after log e) := by
  rcases h with rfl | ⟨r, rfl⟩
  · unfold after
    rw [Option.toList_none, List.append_nil]
    exact hl
  · exact hl.returned

theorem Silent.wrote (h : Silent e) {p : Nat} {x : Item} :
    .wrote p x ∈ after log e ↔ .wrote p x ∈ log := by
  rcases h with rfl | ⟨r, rfl⟩
  · simp [after]
  · simp [after]

/-- The parts that a silent step which keeps the completion heads does
not touch. -/
theorem Inv.silent (h : Inv cfg m log) (he : Silent e)
    (hg : Grows cfg m.shared s' log (after log e))
    (hside : ∀ side, SideInv cfg side ⟨s', update m.own t l⟩
      (after log e)) (hbuffer : s'.buffer = m.shared.buffer)
    (hreading : s'.readingHead ≤ s'.writtenHead)
    (hspace : s'.writeHead ≤ s'.readingHead + cfg.cap)
    (hown : ∀ f, l = some f → Own cfg s' (after log e) f) :
    Inv cfg ⟨s', update m.own t l⟩ (after log e) := by
  refine h.step hg (he.lawful h.lawful) hside hreading hspace
    (fun p hp => ?_) (fun p x hx hp => ?_) hown
    (fun side p hd => .inl ((he.done p).mp hd))
  · have := h.window p ((he.done p).mp hp)
    have := hg.readHead
    omega
  · rw [hbuffer]
    exact h.slots p x (he.wrote.mp hx) (Nat.le_trans hg.readHead hp)

/-- A step that changes only what the thread does next. -/
theorem Inv.move (h : Inv cfg m log) (he : Silent e)
    (hhold : ∀ side p, Holds side l p ↔ Holds side (m.own t) p)
    (hpass : ∀ side, cfg.ScanOnComplete = true →
      Published cfg m.shared side (m.shared.head side) →
      Responsible side (m.own t) (m.shared.head side) →
      Responsible side l (m.shared.head side))
    (hown : ∀ f, l = some f → Own cfg m.shared log f) :
    Inv cfg ⟨m.shared, update m.own t l⟩ (after log e) := by
  have hg : Grows cfg m.shared m.shared log (after log e) :=
    ⟨le_rfl, le_rfl, le_rfl, le_rfl,
      fun _ _ hp => hp, fun _ p => (he.done p).mpr⟩
  refine h.silent he hg (fun side => ?_) rfl h.reading_le h.space
    (fun f hf => ?_)
  · exact (h.side side).same (fun p => Iff.rfl) rfl rfl (fun p => he.done p)
      (hhold side) (hpass side)
  · exact (hown f hf).mono hg fun side p _ => (he.done p).mp

/-- The thread holds nothing and is responsible for nothing. -/
def Free (l : Option (Frame Item)) : Prop :=
  ∀ side p, ¬ Holds side l p ∧ ¬ Responsible side l p

theorem Inv.moveFree (h : Inv cfg m log) (hk : m.own t = k) (he : Silent e)
    (hfree : ∀ side p, (¬ Holds side k p ∧ ¬ Responsible side k p)
      ∧ ¬ Holds side l p)
    (hown : ∀ f, l = some f → Own cfg m.shared log f) :
    Inv cfg ⟨m.shared, update m.own t l⟩ (after log e) := by
  refine h.move he (fun side p => ?_) (fun side _ _ hr => ?_) hown
  · rw [hk]
    exact ⟨fun hx => absurd hx (hfree side p).2,
      fun hx => absurd hx (hfree side p).1.1⟩
  · rw [hk] at hr
    exact absurd hr (hfree side _).1.2

/-- A thread that held nothing raises the claim head of side `c`. -/
theorem Inv.claim (h : Inv cfg m log) (c : Side) (hk : m.own t = k)
    (hold : Free k) (hclaim : m.shared.claimHead c ≤ s'.claimHead c)
    (hsame : ∀ S, (S ≠ c → s'.claimHead S = m.shared.claimHead S)
      ∧ s'.head S = m.shared.head S
      ∧ ∀ p, Published cfg s' S p ↔ Published cfg m.shared S p)
    (hhold : ∀ S p, Holds S l p ↔ S = c
      ∧ m.shared.claimHead c ≤ p ∧ p < s'.claimHead c) (S : Side) :
    SideInv cfg S ⟨s', update m.own t l⟩ (after log none) := by
  obtain ⟨hother, hhead, hpub⟩ := hsame S
  have hdone : ∀ p, Done (after log none) S p ↔ Done log S p :=
    fun p => Silent.done (.inl rfl) p
  have hfree : ∀ p, ¬ Holds S (m.own t) p ∧ ¬ Responsible S (m.own t) p := by
    rw [hk]
    exact hold S
  by_cases hS : S = c
  · subst hS
    refine (h.side S).step (fun _ => False)
      (fun p => by rw [or_false]; exact hpub p) (fun p hp => hp.elim)
      (fun p => ?_) hclaim (fun p => (hdone p).mpr) (fun p hp => ?_)
      (fun p hp => ?_) fun hscan hp => ?_
    · rw [hhold S p]
      constructor
      · exact fun hx => .inr hx.2
      · rintro (hx | hx)
        · exact absurd hx.1 (hfree p).1
        · exact ⟨rfl, hx⟩
    · exact Nat.lt_of_lt_of_le ((h.side S).done_lt p ((hdone p).mp hp)) hclaim
    · rw [hhead] at hp
      exact (hpub p).mpr ((h.side S).below p hp)
    · rw [hhead] at hp ⊢
      exact (h.side S).responsible_update hscan ((hpub _).mp hp) fun hr =>
        absurd hr (hfree _).2
  · refine (h.side S).same hpub (hother hS) hhead hdone
      (fun p => ?_) fun _ _ hr => absurd hr (hfree _).2
    rw [hhold S p]
    exact ⟨fun hx => absurd hx.1 hS, fun hx => absurd hx (hfree p).1⟩

/-- The slot of a position that the thread holds on side `c` is
accessed. -/
theorem Inv.access (h : Inv cfg m log) (c : Side) {p : Nat}
    (hp : Holds c (m.own t) p)
    (hdone : ∀ S q, Done log' S q ↔ Done log S q ∨ S = c ∧ q = p)
    (hclaim : ∀ S, s'.claimHead S = m.shared.claimHead S)
    (hhead : ∀ S, s'.head S = m.shared.head S)
    (hpub : ∀ S q, Published cfg s' S q ↔ Published cfg m.shared S q)
    (hhold : ∀ S q, Holds S l q ↔ Holds S (m.own t) q)
    (hresp : ∀ S q, ¬ Responsible S (m.own t) q) (S : Side) :
    SideInv cfg S ⟨s', update m.own t l⟩ log' := by
  refine (h.side S).step (fun _ => False)
    (fun q => by rw [or_false]; exact hpub S q) (fun q hq => hq.elim)
    (fun q => ?_) (Nat.le_of_eq (hclaim S).symm)
    (fun q hq => (hdone S q).mpr (.inl hq)) (fun q hq => ?_) (fun q hq => ?_)
    fun hscan hq => ?_
  · rw [hhold S q, hclaim S]
    constructor
    · exact fun hx => .inl ⟨hx, id⟩
    · rintro (hx | hx)
      · exact hx.1
      · omega
  · rw [hclaim S]
    rcases (hdone S q).mp hq with hx | ⟨rfl, rfl⟩
    · exact (h.side S).done_lt q hx
    · exact ((h.side S).fresh t q hp).1
  · rw [hhead S] at hq
    exact (hpub S q).mpr ((h.side S).below q hq)
  · rw [hhead S] at hq ⊢
    exact (h.side S).responsible_update hscan ((hpub S _).mp hq) fun hr =>
      absurd hr (hresp S _)

end CroCOS.RingBuffer
