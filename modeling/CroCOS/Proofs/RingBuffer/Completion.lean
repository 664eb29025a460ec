/-
The completion of a batch: the CAS of `advanceCompletionHead`, and the
stores, CASes and loads of `advanceCompletionHeadWithScan`. They are
about one side, and ask for no more than its invariant and the window:
`Completes` says what such a step does to its side and that it leaves the
other one alone.
-/
import CroCOS.Proofs.RingBuffer.Steps

namespace CroCOS.RingBuffer

open Function Lib

variable {Item : Type} {cfg : Config} {m : Machine Item}
variable {s : Shared Item} {log : List (Event Item)}
variable {side : Side} {t : Nat} {l : Option (Frame Item)}
variable {b : Batch} {e : Option (Event Item)}

-- ==== the heads

theorem head_setHead (s : Shared Item) (c S : Side) (hi : Nat) :
    (s.setHead c hi).head S = if S = c then hi else s.head S := by
  cases c <;> cases S <;> rfl

theorem claimHead_setHead (s : Shared Item) (c S : Side) (hi : Nat) :
    (s.setHead c hi).claimHead S = s.claimHead S := by
  cases c <;> cases S <;> rfl

theorem published_setHead (hscan : cfg.ScanOnComplete = true)
    (s : Shared Item) (c S : Side) (hi p : Nat) :
    Published cfg (s.setHead c hi) S p ↔ Published cfg s S p := by
  unfold Published
  rw [if_pos hscan, if_pos hscan]
  cases c <;> cases S <;> exact Iff.rfl

-- ==== one side

/-- A step of a completion on side `c` by thread `t`. -/
structure Completes (cfg : Config) (c : Side) (m : Machine Item)
    (log : List (Event Item)) (t : Nat) (s' : Shared Item)
    (l : Option (Frame Item)) (e : Option (Event Item)) : Prop where
  silent : Silent e
  side : SideInv cfg c ⟨s', update m.own t l⟩ (after log e)
  head_le : m.shared.head c ≤ s'.head c
  claimHead : ∀ S, s'.claimHead S = m.shared.claimHead S
  buffer : s'.buffer = m.shared.buffer
  published : ∀ p, Published cfg m.shared c p → Published cfg s' c p
  own : ∀ f, l = some f → Own cfg s' (after log e) f
  other_head : ∀ S, S ≠ c → s'.head S = m.shared.head S
  other_published : ∀ S, S ≠ c → ∀ p,
    Published cfg s' S p ↔ Published cfg m.shared S p
  other_holds : ∀ S, S ≠ c → ∀ p, Holds S l p ↔ Holds S (m.own t) p
  other_responsible : ∀ S, S ≠ c → ∀ q, ¬ Responsible S (m.own t) q

/-- What a step of thread `t` on side `c` owes. -/
def CompletionSteps (cfg : Config) (c : Side) (m : Machine Item)
    (log : List (Event Item)) (t : Nat) (f : Frame Item) : Prop :=
  ∃ s' l e, frameStep cfg m.shared f = .ok (s', l, e)
    ∧ Completes cfg c m log t s' l e

theorem Completes.grows {s' : Shared Item}
    (h : Completes cfg side m log t s' l e) :
    Grows cfg m.shared s' log (after log e) := by
  have hhead : ∀ S, m.shared.head S ≤ s'.head S := fun S => by
    by_cases hS : S = side
    · rw [hS]
      exact h.head_le
    · rw [h.other_head S hS]
  refine ⟨Nat.le_of_eq (h.claimHead .write).symm, hhead .write,
    Nat.le_of_eq (h.claimHead .read).symm, hhead .read, fun S p hp => ?_,
    fun S p => (h.silent.done p).mpr⟩
  by_cases hS : S = side
  · subst hS
    exact h.published p hp
  · exact (h.other_published S hS p).mpr hp

theorem Inv.completes (h : Inv cfg m log) {s' : Shared Item}
    (hc : Completes cfg side m log t s' l e) :
    Inv cfg ⟨s', update m.own t l⟩ (after log e) := by
  have hg := hc.grows
  have hreading : s'.readingHead = m.shared.readingHead := hc.claimHead .read
  have hwrite : s'.writeHead = m.shared.writeHead := hc.claimHead .write
  refine h.silent hc.silent hg (fun S => ?_) hc.buffer ?_ ?_ hc.own
  · by_cases hS : S = side
    · rw [hS]
      exact hc.side
    · exact (h.side S).same (hc.other_published S hS) (hc.claimHead S)
        (hc.other_head S hS) (fun p => hc.silent.done p)
        (hc.other_holds S hS) fun _ _ hr =>
          absurd hr (hc.other_responsible S hS _)
  · rw [hreading]
    exact Nat.le_trans h.reading_le hg.writtenHead
  · rw [hreading, hwrite]
    exact h.space

/-- A step that changes only what the thread does next. -/
theorem SideInv.stay (h : SideInv cfg side m log) (he : Silent e)
    (hhold : ∀ S p, Holds S l p ↔ Holds S (m.own t) p)
    (hpass : Published cfg m.shared side (m.shared.head side) →
      Responsible side (m.own t) (m.shared.head side) →
      Responsible side l (m.shared.head side))
    (hother : ∀ S, S ≠ side → ∀ q, ¬ Responsible S (m.own t) q)
    (hown : ∀ f, l = some f → Own cfg m.shared log f) :
    Completes cfg side m log t m.shared l e where
  silent := he
  side := h.same (fun _ => Iff.rfl) rfl rfl (fun p => he.done p)
    (hhold side) fun _ => hpass
  head_le := le_rfl
  claimHead := fun _ => rfl
  buffer := rfl
  published := fun _ hp => hp
  own := fun f hf => (hown f hf).mono ⟨le_rfl, le_rfl, le_rfl, le_rfl,
      fun _ _ hp => hp, fun _ p => (he.done p).mpr⟩
    fun _ p _ => (he.done p).mp
  other_head := fun _ _ => rfl
  other_published := fun _ _ _ => Iff.rfl
  other_holds := fun S _ => hhold S
  other_responsible := hother

/-- The completion head moves to `hi`, past positions that are published
or become so. -/
theorem SideInv.raise (h : SideInv cfg side m log) {hi : Nat}
    (he : Silent e) (New : Nat → Prop) (hle : m.shared.head side ≤ hi)
    (hpub : ∀ S p, Published cfg (m.shared.setHead side hi) S p
      ↔ Published cfg m.shared S p ∨ S = side ∧ New p)
    (hnew : ∀ p, New p → Holds side (m.own t) p ∧ Done log side p)
    (hhold : ∀ S p, Holds S l p
      ↔ Holds S (m.own t) p ∧ ¬ (S = side ∧ New p))
    (hbelow : ∀ p, p < hi → Published cfg m.shared side p ∨ New p)
    (hresp : cfg.ScanOnComplete = true → Responsible side l hi)
    (hother : ∀ S, S ≠ side → ∀ q, ¬ Responsible S (m.own t) q)
    (hown : ∀ f, l = some f →
      Own cfg (m.shared.setHead side hi) (after log e) f) :
    Completes cfg side m log t (m.shared.setHead side hi) l e := by
  have hself : (m.shared.setHead side hi).head side = hi := by
    rw [head_setHead, if_pos rfl]
  refine ⟨he, ?_, by rw [hself]; exact hle, fun S => claimHead_setHead _ _ _ _, ?_,
    fun p hp => (hpub side p).mpr (.inl hp), hown,
    fun S hS => by rw [head_setHead, if_neg hS], fun S hS p => ?_,
    fun S hS p => ?_, hother⟩
  · refine h.step New (fun p => by rw [hpub side p]; simp)
      (fun p hp => ⟨(hnew p hp).1, (he.done p).mpr (hnew p hp).2⟩)
      (fun p => ?_) (Nat.le_of_eq (claimHead_setHead _ _ _ _).symm)
      (fun p => (he.done p).mpr) (fun p hp => ?_) (fun p hp => ?_)
      fun hscan _ => ?_
    · rw [hhold side p, claimHead_setHead]
      constructor
      · exact fun hx => .inl ⟨hx.1, fun hn => hx.2 ⟨rfl, hn⟩⟩
      · rintro (hx | hx)
        · exact ⟨hx.1, fun hn => hx.2 hn.2⟩
        · omega
    · rw [claimHead_setHead]
      exact h.done_lt p ((he.done p).mp hp)
    · rw [hself] at hp
      exact (hpub side p).mpr ((hbelow p hp).imp_right fun hn => ⟨rfl, hn⟩)
    · refine ⟨t, ?_⟩
      rw [update_self, hself]
      exact hresp hscan
  · cases side <;> rfl
  · rw [hpub S p]
    exact ⟨fun hx => hx.resolve_right fun hx => hS hx.1, .inl⟩
  · rw [hhold S p]
    exact ⟨And.left, fun hx => ⟨hx, fun hn => hS hn.1⟩⟩

-- ==== without the scan

theorem step_advanceCompletionHead (h : SideInv cfg side m log)
    (hf : m.own t = some (.advanceCompletionHead side b))
    (hown : Own cfg m.shared log (.advanceCompletionHead side b)) :
    CompletionSteps cfg side m log t (.advanceCompletionHead side b) := by
  obtain ⟨hall, hscan⟩ := hown
  have hheld : ∀ S p, Holds S (m.own t) p ↔ S = side ∧ b.From 0 p := by
    intro S p
    rw [hf]
    exact Iff.rfl
  have hresp : ∀ S q, ¬ Responsible S (m.own t) q := by
    intro S q
    rw [hf]
    exact id
  have hpub : ∀ s' : Shared Item, ∀ S p,
      Published cfg s' S p ↔ p < s'.head S := by
    intro s' S p
    unfold Published
    rw [if_neg (by rw [hscan]; decide)]
  by_cases heq : m.shared.head side = b.claimed
  · have hle : m.shared.head side ≤ b.limit := by
      rw [heq]
      exact Nat.le_add_right _ _
    refine ⟨m.shared.setHead side b.limit, none, some (.returned b.result),
      by simp only [frameStep, if_pos heq, finish],
      h.raise (.inr ⟨_, rfl⟩) (b.From 0) hle (fun S p => ?_)
        (fun p hp => ⟨(hheld side p).mpr ⟨rfl, hp⟩, hall.done p hp⟩)
        (fun S p => ?_) (fun p hp => ?_)
        (fun hx => by rw [hscan] at hx; cases hx) (fun S _ => hresp S)
        fun f hf' => by cases hf'⟩
    · rw [hpub, hpub, head_setHead]
      unfold Batch.From
      by_cases hS : S = side
      · rw [heq] at hle
        simp only [hS, if_true, true_and]
        omega
      · rw [if_neg hS]
        simp [hS]
    · rw [hheld S p]
      exact ⟨fun hx => hx.elim, fun hx => absurd hx.1 hx.2⟩
    · rw [hpub]
      unfold Batch.From
      omega
  · by_cases hge : m.shared.head side ≥ b.limit
    · -- only of an empty batch
      refine ⟨m.shared, none, some (.returned b.result),
        by simp only [frameStep, if_neg heq, if_pos hge, finish],
        h.stay (.inr ⟨_, rfl⟩) (fun S p => ?_)
          (fun _ hr => absurd hr (hresp side _)) (fun S _ => hresp S)
          fun f hf' => by cases hf'⟩
      refine ⟨fun hx => hx.elim, fun hx => ?_⟩
      obtain ⟨rfl, hp⟩ := (hheld S p).mp hx
      have hlow := h.held_ge hx
      have := hp.2
      omega
    · refine ⟨m.shared, some (.advanceCompletionHead side b), none,
        by simp only [frameStep, if_neg heq, if_neg hge],
        h.stay (.inl rfl) (fun S p => by rw [hf])
          (fun _ hr => absurd hr (hresp side _)) (fun S _ => hresp S)
          fun f hf' => ?_⟩
      cases hf'
      exact ⟨hall, hscan⟩

-- ==== with the scan

/-- Along one slot the generations order the positions. -/
theorem genOf_le_iff {p q : Nat} (h : q % cfg.cap = p % cfg.cap) :
    genOf cfg q ≤ genOf cfg p ↔ q ≤ p := by
  have hq := Nat.div_add_mod q cfg.cap
  have hp := Nat.div_add_mod p cfg.cap
  constructor
  · intro hle
    have := Nat.mul_le_mul_left cfg.cap (Nat.le_of_succ_le_succ hle)
    omega
  · intro hle
    exact Nat.succ_le_succ (Nat.div_le_div_right hle)

/-- The counter of a held position is stored: it is published, and no
other position is by that, nor ceases to be. -/
theorem SideInv.published_storeGen (h : SideInv cfg side m log)
    (hwindow : m.shared.claimHead side ≤ m.shared.head side + cfg.cap)
    (hscan : cfg.ScanOnComplete = true) {p : Nat}
    (hp : Holds side (m.own t) p) (S : Side) (q : Nat) :
    Published cfg (m.shared.storeGen side (p % cfg.cap) (genOf cfg p)) S q
      ↔ Published cfg m.shared S q ∨ S = side ∧ q = p := by
  have hgen : Published cfg
      (m.shared.storeGen side (p % cfg.cap) (genOf cfg p)) S q
      ↔ genOf cfg q ≤ if S = side ∧ q % cfg.cap = p % cfg.cap
        then genOf cfg p else m.shared.genCounters S (q % cfg.cap) := by
    unfold Published
    rw [if_pos hscan]
    by_cases hS : S = side
    · subst hS
      by_cases hq : q % cfg.cap = p % cfg.cap
      · rw [hq]
        cases S with
        | write | read => simp [Shared.storeGen, Shared.genCounters]
      · rw [if_neg fun hx => hq hx.2]
        cases S with
        | write | read => simp [Shared.storeGen, Shared.genCounters, hq]
    · rw [if_neg fun hx => hS hx.1]
      cases S <;> cases side <;> first | exact absurd rfl hS | exact Iff.rfl
  have hold : Published cfg m.shared S q
      ↔ genOf cfg q ≤ m.shared.genCounters S (q % cfg.cap) := by
    unfold Published
    rw [if_pos hscan]
  rw [hgen]
  by_cases hS : S = side ∧ q % cfg.cap = p % cfg.cap
  · rw [if_pos hS]
    obtain ⟨rfl, hq⟩ := hS
    have hlow := h.held_ge hp
    have hclaimed := (h.fresh t p hp).1
    rw [genOf_le_iff hq]
    -- within the window the slot has one position
    have hone : m.shared.head S ≤ q → q < m.shared.claimHead S → q = p :=
      fun hlo hhi => eq_of_mod_eq hq hlo (by omega) hlow (by omega)
    constructor
    · intro hle
      by_cases hlt : q < m.shared.head S
      · exact .inl (h.below q hlt)
      · exact .inr ⟨rfl, hone (by omega) (by omega)⟩
    · rintro (hx | ⟨-, rfl⟩)
      · have hlt := h.done_lt q (h.done_of q hx)
        by_contra hgt
        omega
      · exact le_rfl
  · rw [if_neg hS, hold]
    constructor
    · exact .inl
    · rintro (hx | ⟨hx, rfl⟩)
      · exact hx
      · exact absurd ⟨hx, rfl⟩ hS

theorem head_storeGen (s : Shared Item) (c S : Side) (slot gen : Nat) :
    (s.storeGen c slot gen).head S = s.head S := by
  cases c <;> cases S <;> rfl

theorem claimHead_storeGen (s : Shared Item) (c S : Side) (slot gen : Nat) :
    (s.storeGen c slot gen).claimHead S = s.claimHead S := by
  cases c <;> cases S <;> rfl

theorem step_storeGen (h : SideInv cfg side m log)
    (hwindow : m.shared.claimHead side ≤ m.shared.head side + cfg.cap)
    {i : Nat} (hf : m.own t = some (.storeGen side b i))
    (hown : Own cfg m.shared log (.storeGen side b i)) :
    CompletionSteps cfg side m log t (.storeGen side b i) := by
  obtain ⟨hall, hscan, hi, hprev⟩ := hown
  have hheld : ∀ S p, Holds S (m.own t) p ↔ S = side ∧ b.From i p := by
    intro S p
    rw [hf]
    exact Iff.rfl
  have hresp : ∀ S q, Responsible S (m.own t) q ↔ S = side ∧ b.From 0 q := by
    intro S q
    rw [hf]
    exact Iff.rfl
  have hfrom : b.From i (b.claimed + i) := by
    unfold Batch.From Batch.limit
    omega
  have hfrom0 : b.From 0 (b.claimed + i) :=
    ⟨Nat.le_add_right _ _, hfrom.2⟩
  have hp : Holds side (m.own t) (b.claimed + i) :=
    (hheld side _).mpr ⟨rfl, hfrom⟩
  have hcap : 0 < cfg.cap := by
    have := h.held_ge hp
    have := (h.fresh t _ hp).1
    omega
  have hpub := h.published_storeGen hwindow hscan hp
  have hquiet : Silent (none : Option (Event Item)) := .inl rfl
  refine ⟨m.shared.storeGen side ((b.claimed + i) % cfg.cap)
      (genOf cfg (b.claimed + i)), some (genLoop side b (i + 1)), none,
    by simp only [frameStep, slotOf_eq hcap]; rfl, hquiet, ?_, ?_,
    fun S => claimHead_storeGen _ _ _ _ _, ?_,
    fun q hq => (hpub side q).mpr (.inl hq), fun f hf' => ?_,
    fun S _ => head_storeGen _ _ _ _ _, fun S hS q => ?_, fun S hS q => ?_,
    fun S hS q hr => hS ((hresp S q).mp hr).1⟩
  · refine h.step (fun q => q = b.claimed + i)
      (fun q => by rw [hpub side q]; simp) ?_ (fun q => ?_)
      (Nat.le_of_eq (claimHead_storeGen _ _ _ _ _).symm)
      (fun q => (hquiet.done q).mpr) (fun q hq => ?_) (fun q hq => ?_)
      fun _ hq => ?_
    · rintro q rfl
      exact ⟨hp, (hquiet.done _).mpr (hall.done _ hfrom0)⟩
    · rw [holds_genLoop, hheld side q, claimHead_storeGen]
      constructor
      · rintro ⟨hS, hlo, hhi⟩
        exact .inl ⟨⟨hS, by omega, hhi⟩, by omega⟩
      · rintro (⟨⟨hS, hlo, hhi⟩, hne⟩ | hx)
        · exact ⟨hS, by omega, hhi⟩
        · omega
    · rw [claimHead_storeGen]
      exact h.done_lt q ((hquiet.done q).mp hq)
    · rw [head_storeGen] at hq
      exact (hpub side q).mpr (.inl (h.below q hq))
    · rw [head_storeGen] at hq ⊢
      rcases (hpub side _).mp hq with hx | ⟨-, hx⟩
      · exact h.responsible_update hscan hx fun hr =>
          responsible_genLoop.mpr ((hresp side _).mp hr)
      · refine ⟨t, ?_⟩
        rw [update_self, hx]
        exact responsible_genLoop.mpr ⟨rfl, hfrom0⟩
  · rw [head_storeGen]
  · cases side <;> rfl
  · cases hf'
    have hall' : AllDone (m.shared.storeGen side
        ((b.claimed + i) % cfg.cap) (genOf cfg (b.claimed + i)))
        (after log none) side b :=
      ⟨fun q hq => (hquiet.done q).mpr (hall.done q hq), by
        rw [claimHead_storeGen]
        exact hall.limit_le⟩
    refine own_genLoop hall' hscan hi fun j hj => ?_
    rw [hpub]
    by_cases hji : j = i
    · exact .inr ⟨rfl, by rw [hji]⟩
    · exact .inl (hprev j (by omega))
  · rw [hpub S q]
    exact ⟨fun hx => hx.resolve_right fun hx => hS hx.1, .inl⟩
  · rw [holds_genLoop, hheld S q]
    exact ⟨fun hx => absurd hx.1 hS, fun hx => absurd hx.1 hS⟩

/-- Thread `t` holds nothing and answers for the positions `Q`. -/
structure Scans (side : Side) (m : Machine Item) (t : Nat)
    (Q : Nat → Prop) : Prop where
  holds : ∀ S p, ¬ Holds S (m.own t) p
  responsible : ∀ S q, Responsible S (m.own t) q ↔ S = side ∧ Q q

section scan

variable (h : SideInv cfg side m log) {Q : Nat → Prop}
variable (hs : Scans side m t Q)
include h hs

/-- A load of the scan, or a CAS of it that failed. -/
theorem SideInv.goOn (he : Silent e) (hl : ∀ S p, ¬ Holds S l p)
    (hpass : Published cfg m.shared side (m.shared.head side) →
      Q (m.shared.head side) → Responsible side l (m.shared.head side))
    (hown : ∀ f, l = some f → Own cfg m.shared log f) :
    Completes cfg side m log t m.shared l e :=
  h.stay he (fun S p => ⟨fun hx => absurd hx (hl S p),
      fun hx => absurd hx (hs.holds S p)⟩)
    (fun hx hr => hpass hx ((hs.responsible side _).mp hr).2)
    (fun S hS q hr => hS ((hs.responsible S q).mp hr).1) hown

/-- The scan ends; nothing at the head is the thread's business. -/
theorem SideInv.leave {r : Result}
    (hout : Published cfg m.shared side (m.shared.head side) →
      ¬ Q (m.shared.head side)) :
    Completes cfg side m log t m.shared none (some (.returned r)) :=
  h.goOn hs (.inr ⟨_, rfl⟩) (fun _ _ => id)
    (fun hx hq => absurd hq (hout hx)) fun f hf' => by cases hf'

/-- The head moves past published positions, and the scan starts there. -/
theorem SideInv.scanFrom (hscan : cfg.ScanOnComplete = true) {hi : Nat}
    (hle : m.shared.head side ≤ hi) (hlimit : hi ≤ m.shared.claimHead side)
    (hpub : ∀ p, m.shared.head side ≤ p → p < hi →
      Published cfg m.shared side p) :
    Completes cfg side m log t (m.shared.setHead side hi)
      (some (.scan side b hi hi)) none := by
  refine h.raise (.inl rfl) (fun _ => False) hle (fun S p => ?_)
    (fun p hp => hp.elim)
    (fun S p => ⟨fun hx => hx.elim, fun hx => absurd hx.1 (hs.holds S p)⟩)
    (fun p hp => .inl ?_) (fun _ => ⟨rfl, rfl⟩)
    (fun S hS q hr => hS ((hs.responsible S q).mp hr).1) fun f hf' => ?_
  · rw [published_setHead hscan, and_false, or_false]
  · by_cases hp' : p < m.shared.head side
    · exact h.below p hp'
    · exact hpub p (by omega) hp
  · cases hf'
    refine ⟨hscan, le_rfl, ?_, ?_, fun p hx hy => by omega⟩
    · rw [head_setHead, if_pos rfl]
    · rw [claimHead_setHead]
      exact hlimit

end scan

theorem step_advanceWithScan (h : SideInv cfg side m log) {current : Nat}
    (hf : m.own t = some (.advanceWithScan side b current))
    (hown : Own cfg m.shared log (.advanceWithScan side b current)) :
    CompletionSteps cfg side m log t (.advanceWithScan side b current) := by
  obtain ⟨hscan, hlo, hhi, hlimit, hpub⟩ := hown
  have hs : Scans side m t (b.From 0) := by
    refine ⟨fun S p => ?_, fun S q => ?_⟩ <;> rw [hf]
    · exact id
    · exact Iff.rfl
  by_cases heq : m.shared.head side = current
  · exact ⟨m.shared.setHead side b.limit,
      some (.scan side b b.limit b.limit), none,
      by simp only [frameStep, if_pos heq],
      h.scanFrom hs hscan (by omega) hlimit fun p hlo' hp =>
        hpub p ⟨by omega, hp⟩⟩
  · by_cases hge : m.shared.head side ≥ b.limit
    · exact ⟨m.shared, none, some (.returned b.result),
        by simp only [frameStep, if_neg heq, if_pos hge, finish],
        h.leave hs fun _ hx => Nat.not_lt.mpr hge hx.2⟩
    · by_cases hlt : m.shared.head side < b.claimed
      · exact ⟨m.shared, none, some (.returned b.result),
          by simp only [frameStep, if_neg heq, if_neg hge, if_pos hlt, finish],
          h.leave hs fun _ hx => Nat.not_le.mpr hlt hx.1⟩
      · refine ⟨m.shared,
          some (.advanceWithScan side b (m.shared.head side)), none,
          by simp only [frameStep, if_neg heq, if_neg hge, if_neg hlt],
          h.goOn hs (.inl rfl) (fun _ _ => id) (fun _ hq => ⟨rfl, hq⟩)
            fun f hf' => ?_⟩
        cases hf'
        exact ⟨hscan, by omega, by omega, hlimit, hpub⟩

theorem step_scan (h : SideInv cfg side m log) {desired scanPos : Nat}
    (hcap : 0 < cfg.cap)
    (hf : m.own t = some (.scan side b desired scanPos))
    (hown : Own cfg m.shared log (.scan side b desired scanPos)) :
    CompletionSteps cfg side m log t (.scan side b desired scanPos) := by
  obtain ⟨hscan, hsc⟩ := hown
  have hs : Scans side m t (desired = ·) := by
    refine ⟨fun S p => ?_, fun S q => ?_⟩ <;> rw [hf]
    · exact id
    · exact Iff.rfl
  have hpub : Published cfg m.shared side scanPos ↔ ¬
      m.shared.genCounters side (scanPos % cfg.cap) < genOf cfg scanPos := by
    unfold Published
    rw [if_pos hscan, Nat.not_lt]
  by_cases hgen :
      m.shared.genCounters side (scanPos % cfg.cap) < genOf cfg scanPos
  · by_cases heq : scanPos = desired
    · -- the head's position is not published, if the head is still here
      refine ⟨m.shared, none, some (.returned b.result), ?_,
        h.leave hs fun hx hq => ?_⟩
      · simp only [frameStep, slotOf_eq hcap]
        show (if _ then (if _ then _ else _) else _) = _
        rw [if_pos hgen, if_pos heq]
        rfl
      · rw [← hq, ← heq] at hx
        exact absurd hgen (hpub.mp hx)
    · refine ⟨m.shared, some (.advanceScanned side b desired scanPos), none,
        ?_, h.goOn hs (.inl rfl) (fun _ _ => id) (fun _ hq => ⟨rfl, hq⟩)
          fun f hf' => ?_⟩
      · simp only [frameStep, slotOf_eq hcap]
        show (if _ then (if _ then _ else _) else _) = _
        rw [if_pos hgen, if_neg heq]
        rfl
      · cases hf'
        exact ⟨hscan, hsc⟩
  · refine ⟨m.shared, some (.scan side b desired (scanPos + 1)), none, ?_,
      h.goOn hs (.inl rfl) (fun _ _ => id) (fun _ hq => ⟨rfl, hq⟩)
        fun f hf' => ?_⟩
    · simp only [frameStep, slotOf_eq hcap]
      show (if _ then (if _ then _ else _) else _) = _
      rw [if_neg hgen]
      rfl
    · cases hf'
      have hp := hpub.mpr hgen
      refine ⟨hscan, Nat.le_succ_of_le hsc.le, hsc.head,
        h.done_lt _ (h.done_of _ hp),
        fun p hlo hhi => ?_⟩
      by_cases hps : p = scanPos
      · rw [hps]
        exact hp
      · exact hsc.published p hlo (by omega)

theorem step_advanceScanned (h : SideInv cfg side m log) {desired scanPos : Nat}
    (hf : m.own t = some (.advanceScanned side b desired scanPos))
    (hown : Own cfg m.shared log (.advanceScanned side b desired scanPos)) :
    CompletionSteps cfg side m log t
      (.advanceScanned side b desired scanPos) := by
  obtain ⟨hscan, hsc⟩ := hown
  have hs : Scans side m t (desired = ·) := by
    refine ⟨fun S p => ?_, fun S q => ?_⟩ <;> rw [hf]
    · exact id
    · exact Iff.rfl
  by_cases heq : m.shared.head side = desired
  · exact ⟨m.shared.setHead side scanPos,
      some (.scan side b scanPos scanPos), none,
      by simp only [frameStep, if_pos heq],
      h.scanFrom hs hscan (heq ▸ hsc.le) hsc.limit_le
        fun p hlo hp => hsc.published p (by omega) hp⟩
  · exact ⟨m.shared, none, some (.returned b.result),
      by simp only [frameStep, if_neg heq, finish],
      h.leave hs fun _ hq => heq hq.symm⟩

end CroCOS.RingBuffer
