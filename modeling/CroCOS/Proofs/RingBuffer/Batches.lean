/-
`advanceCompletionHeadWithScan` for itself: threads claim batches as they
like, within `cap` of the completion head, store their generation counters
and advance the head. No position is passed before its counter is stored,
and none is left behind once its batch is completed.

# The batches

`nextBatch` has no buffer and no other side: a thread without a batch
claims the next positions in one step, and then takes the steps of the
ring buffer's completion. That the slots of a batch are done before it is
completed is no concern here, so a history in which every claimed position
is done serves for the invariant of the side (`ScanInv`).

# How long a call takes

Every step of a call brings it nearer to its end, counted by what it may
still do in the positions below `N` (`stepsLeft`): a store counts once, a
failed CAS has seen the head move on in the batch, a scanned position is
below the claims, and every CAS of the scan moves its start. So a call is
bounded by the positions claimed. It is bounded by nothing else: while
others claim and complete batches just ahead of it, a scan goes on
(`scan_goes_on`).
-/
import CroCOS.Proofs.RingBuffer.History

namespace CroCOS.RingBuffer

open Function Lib

variable {f : Frame Unit} {s' : Shared Unit}
variable {l : Option (Frame Unit)}

-- ==== the batches

def Shared.setClaimHead {Item : Type} (s : Shared Item) :
    Side → Nat → Shared Item
  | .write, h => { s with writeHead := h }
  | .read, h => { s with readingHead := h }

/-- Claim the next `count` positions, if that stays in the window. -/
def claimBatch (cfg : Config) (side : Side) (s : Shared Unit)
    (count : Nat) : Outcome Unit :=
  if s.claimHead side + count ≤ s.head side + cfg.cap then
    (s.setClaimHead side (s.claimHead side + count),
      some (genLoop side ⟨s.claimHead side, count, .done true⟩ 0), none)
  else (s, none, none)

/-- A thread without a batch may claim one; one with a batch takes a step
of its completion. -/
def nextBatch (cfg : Config) (side : Side) (_ : Nat) (s : Shared Unit)
    (l : Option (Frame Unit)) (a : Option Nat) :
    Except Fault (Outcome Unit) :=
  match l, a with
  | some f, _ => frameStep cfg s f
  | none, some count => .ok (claimBatch cfg side s count)
  | none, none => .ok (s, none, none)

variable {cfg : Config} {side : Side} {m : Machine Unit}
variable {s : Shared Unit} {log : List (Event Unit)} {t N : Nat}

theorem claimHead_setClaimHead (S : Side) (h : Nat) :
    (s.setClaimHead side h).claimHead S
      = if S = side then h else s.claimHead S := by
  cases side <;> cases S <;> rfl

theorem head_setClaimHead (S : Side) (h : Nat) :
    (s.setClaimHead side h).head S = s.head S := by
  cases side <;> cases S <;> rfl

theorem published_setClaimHead (S : Side) (h p : Nat) :
    Published cfg (s.setClaimHead side h) S p ↔ Published cfg s S p := by
  cases side <;> cases S <;> exact Iff.rfl

-- ==== a frame

/-- The frames of a completion on `side`, and what they remember: a CAS
that is tried again saw the head where it expects it, and a CAS of the
scan has found something. -/
def Completing (side : Side) (s : Shared Unit) : Frame Unit → Prop
  | .storeGen c _ _ => c = side
  | .advanceWithScan c b current =>
    c = side ∧ (current = b.claimed ∨ current ≤ s.head side)
  | .scan c _ _ _ => c = side
  | .advanceScanned c _ desired scanPos => c = side ∧ desired < scanPos
  | _ => False

/-- A bound on the steps of a call, if no more than `N` positions are
claimed. -/
def stepsLeft (N : Nat) : Option (Frame Unit) → Nat
  | some (.storeGen _ b i) =>
    b.count - i + b.count + 3 * (N - b.limit) + 2
  | some (.advanceWithScan _ b current) =>
    b.limit - current + 3 * (N - b.limit) + 2
  | some (.scan _ _ desired scanPos) =>
    2 * (N - desired) + (N - scanPos) + 1
  | some (.advanceScanned _ _ desired scanPos) =>
    2 * (N - desired) + (N - scanPos)
  | _ => 0

theorem Completing.mono (h : Completing side s f)
    (hle : s.head side ≤ s'.head side) : Completing side s' f := by
  cases f with
  | advanceWithScan c b current =>
    exact ⟨h.1, h.2.imp_right fun hx => Nat.le_trans hx hle⟩
  | storeGen c b i | scan c b desired scanPos
  | advanceScanned c b desired scanPos => exact h
  | _ => exact h.elim

theorem Completing.of_genLoop {b : Batch} {i : Nat} :
    Completing side s (genLoop side b i) := by
  unfold genLoop
  split_ifs
  · exact rfl
  · exact ⟨rfl, .inl rfl⟩

theorem stepsLeft_genLoop {b : Batch} {i : Nat} :
    stepsLeft N (some (genLoop side b i))
      ≤ b.count - i + b.count + 3 * (N - b.limit) + 2 := by
  unfold genLoop
  split_ifs
  · exact le_rfl
  · simp only [stepsLeft, Batch.limit]
    omega

theorem Completing.stepsLeft_le (hc : Completing side s f)
    (hown : Own cfg s log f) (hN : s.claimHead side ≤ N) :
    stepsLeft N (some f) ≤ 3 * N + 2 := by
  cases f with
  | storeGen c b i =>
    obtain rfl := hc
    have := hown.1.limit_le
    simp only [stepsLeft, Batch.limit] at this ⊢
    omega
  | advanceWithScan c b current =>
    obtain ⟨rfl, -⟩ := hc
    obtain ⟨-, -, -, hlimit, -⟩ := hown
    simp only [stepsLeft] at hlimit ⊢
    omega
  | scan c b desired scanPos | advanceScanned c b desired scanPos =>
    simp only [stepsLeft]
    omega
  | _ => exact hc.elim

/-- A step of a call leads to a frame of the call or to its end, and
there is less to do. -/
theorem Completing.step (hc : Completing side s f) (hown : Own cfg s log f)
    (hN : s.claimHead side ≤ N) (hcap : 0 < cfg.cap)
    (hlt : ∀ p, Published cfg s side p → p < s.claimHead side)
    {e : Option (Event Unit)} (hs : frameStep cfg s f = .ok (s', l, e)) :
    (∀ g, l = some g → Completing side s' g)
      ∧ stepsLeft N l + 1 ≤ stepsLeft N (some f) := by
  cases f with
  | storeGen c b i =>
    obtain rfl := hc
    obtain ⟨-, -, hi, -⟩ := hown
    simp only [frameStep, slotOf_eq hcap] at hs
    cases hs
    refine ⟨fun g hg => ?_, ?_⟩
    · cases hg
      exact Completing.of_genLoop
    · have hloop : stepsLeft N (some (genLoop c b (i + 1))) ≤ _ :=
        stepsLeft_genLoop
      show _ ≤ b.count - i + b.count + 3 * (N - b.limit) + 2
      omega
  | advanceWithScan c b current =>
    obtain ⟨rfl, hcur⟩ := hc
    simp only [frameStep] at hs
    split_ifs at hs with heq hge hbelow
    · cases hs
      refine ⟨fun g hg => ?_, ?_⟩
      · cases hg
        exact rfl
      · simp only [stepsLeft]
        omega
    · cases hs
      exact ⟨fun _ hg => (by cases hg), by simp only [stepsLeft]; omega⟩
    · cases hs
      exact ⟨fun _ hg => (by cases hg), by simp only [stepsLeft]; omega⟩
    · cases hs
      refine ⟨fun g hg => ?_, ?_⟩
      · cases hg
        exact ⟨rfl, .inr le_rfl⟩
      · simp only [stepsLeft]
        omega
  | scan c b desired scanPos =>
    obtain rfl := hc
    obtain ⟨hscan, hsc⟩ := hown
    have hle := hsc.le
    simp only [frameStep, slotOf_eq hcap] at hs
    by_cases hgen : s.genCounters c (scanPos % cfg.cap) < genOf cfg scanPos
    · by_cases heq : scanPos = desired
      · simp only [ok_bind, if_pos hgen, if_pos heq] at hs
        cases hs
        exact ⟨fun _ hg => (by cases hg), by simp only [stepsLeft]; omega⟩
      · simp only [ok_bind, if_pos hgen, if_neg heq] at hs
        cases hs
        refine ⟨fun g hg => ?_, by simp only [stepsLeft]; omega⟩
        cases hg
        exact ⟨rfl, by omega⟩
    · simp only [ok_bind, if_neg hgen] at hs
      cases hs
      have hpos := hlt scanPos (by
        unfold Published
        rw [if_pos hscan]
        omega)
      refine ⟨fun g hg => ?_, by simp only [stepsLeft]; omega⟩
      cases hg
      exact rfl
  | advanceScanned c b desired scanPos =>
    obtain ⟨rfl, hfound⟩ := hc
    have hle := hown.2.limit_le
    simp only [frameStep] at hs
    split_ifs at hs with heq
    · cases hs
      refine ⟨fun g hg => ?_, by simp only [stepsLeft]; omega⟩
      cases hg
      exact rfl
    · cases hs
      exact ⟨fun _ hg => (by cases hg), by simp only [stepsLeft]; omega⟩
  | _ => exact hc.elim

-- ==== the invariant

structure ScanInv (cfg : Config) (side : Side) (m : Machine Unit)
    (log : List (Event Unit)) : Prop where
  inv : SideInv cfg side m log
  window : m.shared.claimHead side ≤ m.shared.head side + cfg.cap
  done : ∀ p, Done log side p ↔ p < m.shared.claimHead side
  own : ∀ t f, m.own t = some f →
    Own cfg m.shared log f ∧ Completing side m.shared f

theorem ScanInv.published_lt (h : ScanInv cfg side m log) (p : Nat)
    (hp : Published cfg m.shared side p) : p < m.shared.claimHead side :=
  h.inv.done_lt p (h.inv.done_of p hp)

theorem ScanInv.init : ScanInv cfg side Machine.init [] where
  inv := Inv.init.side side
  window := by cases side <;> exact Nat.zero_le _
  done := fun p => by
    cases side with
    | write | read =>
      exact ⟨fun ⟨_, hx⟩ => (nomatch hx), fun hp => (nomatch hp)⟩
  own := fun _ _ => nofun

theorem Completing.holds_side {S : Side} {p : Nat}
    (hc : Completing side s f) (hp : Holds S (some f) p) : S = side := by
  cases f with
  | storeGen c b i => exact hp.1.trans hc
  | advanceWithScan c b current | scan c b desired scanPos
  | advanceScanned c b desired scanPos => exact hp.elim
  | _ => exact hc.elim

/-- A step of thread `t`, for the other threads. -/
theorem ScanInv.own_update (h : ScanInv cfg side m log)
    {log' : List (Event Unit)} (hg : Grows cfg m.shared s' log log')
    (hfresh : ∀ p, p < m.shared.claimHead side → Done log' side p →
      Done log side p)
    (hl : ∀ f, l = some f → Own cfg s' log' f ∧ Completing side s' f) :
    ∀ u f, update m.own t l u = some f →
      Own cfg s' log' f ∧ Completing side s' f := by
  intro u f hf
  by_cases hut : u = t
  · rw [hut, update_self] at hf
    exact hl f hf
  · rw [update_of_ne hut] at hf
    obtain ⟨hown, hc⟩ := h.own u f hf
    refine ⟨hown.mono hg fun S p hp hd => ?_, hc.mono (hg.head side)⟩
    obtain rfl := hc.holds_side hp
    rw [← hf] at hp
    exact hfresh p (h.inv.fresh u p hp).1 hd

/-- The positions from `n` on, `count` of them, as done. -/
def doneFrom (side : Side) (n count : Nat) : List (Event Unit) :=
  (List.range' n count).map fun p =>
    match side with
    | .write => .wrote p ()
    | .read => .read p none

theorem done_append_doneFrom {n count : Nat} (p : Nat) :
    Done (log ++ doneFrom side n count) side p
      ↔ Done log side p ∨ n ≤ p ∧ p < n + count := by
  unfold doneFrom
  cases side with
  | write | read => simp [Done, exists_or]

/-- A batch is claimed. -/
theorem ScanInv.claim (h : ScanInv cfg side m log)
    (hscan : cfg.ScanOnComplete = true) {count : Nat}
    (ht : m.own t = none)
    (hroom : m.shared.claimHead side + count
      ≤ m.shared.head side + cfg.cap) :
    ScanInv cfg side
      ⟨m.shared.setClaimHead side (m.shared.claimHead side + count),
        update m.own t (some (genLoop side
          ⟨m.shared.claimHead side, count, .done true⟩ 0))⟩
      (log ++ doneFrom side (m.shared.claimHead side) count) := by
  have hclaim : (m.shared.setClaimHead side
      (m.shared.claimHead side + count)).claimHead side
      = m.shared.claimHead side + count := by
    rw [claimHead_setClaimHead, if_pos rfl]
  have hfree : ∀ S p, ¬ Holds S (m.own t) p ∧ ¬ Responsible S (m.own t) p := by
    rw [ht]
    exact fun S p => ⟨id, id⟩
  have hdone : ∀ p, Done (log ++ doneFrom side (m.shared.claimHead side)
      count) side p ↔ p < m.shared.claimHead side + count := by
    intro p
    rw [done_append_doneFrom, h.done]
    omega
  have hg : Grows cfg m.shared (m.shared.setClaimHead side
      (m.shared.claimHead side + count)) log
      (log ++ doneFrom side (m.shared.claimHead side) count) := by
    have hle : ∀ S, m.shared.claimHead S ≤ (m.shared.setClaimHead side
        (m.shared.claimHead side + count)).claimHead S := by
      intro S
      rw [claimHead_setClaimHead]
      split_ifs with hS
      · rw [hS]
        exact Nat.le_add_right _ _
      · exact le_rfl
    refine ⟨hle .write, Nat.le_of_eq (head_setClaimHead .write _).symm,
      hle .read, Nat.le_of_eq (head_setClaimHead .read _).symm,
      fun S p hp => (published_setClaimHead ..).mpr hp, fun S p hp => ?_⟩
    cases S <;> exact hp.imp fun x hx => List.mem_append_left _ hx
  refine ⟨?_, ?_, ?_, ?_⟩
  · refine h.inv.step (fun _ => False) (fun p => ?_) (fun p hp => hp.elim)
      (fun p => ?_) ?_ (fun p => hg.done side p) (fun p hp => ?_)
      (fun p hp => ?_) fun _ hp => ?_
    · rw [published_setClaimHead, or_false]
    · rw [holds_genLoop, hclaim]
      unfold Batch.From Batch.limit
      have := (hfree side p).1
      simp only [true_and, Nat.add_zero, this, false_and, false_or]
    · rw [hclaim]
      exact Nat.le_add_right _ _
    · rw [hclaim]
      exact (hdone p).mp hp
    · rw [head_setClaimHead] at hp
      exact (published_setClaimHead ..).mpr (h.inv.below p hp)
    · rw [head_setClaimHead] at hp ⊢
      exact h.inv.responsible_update hscan
        ((published_setClaimHead ..).mp hp) fun hr =>
          absurd hr (hfree side _).2
  · show (m.shared.setClaimHead side _).claimHead side
      ≤ (m.shared.setClaimHead side _).head side + cfg.cap
    rw [hclaim, head_setClaimHead]
    exact hroom
  · intro p
    rw [hclaim]
    exact hdone p
  · refine h.own_update hg (fun p hp _ => (h.done p).mpr hp) fun f hf => ?_
    cases hf
    refine ⟨own_genLoop ⟨fun p hp => (hdone p).mpr hp.2, ?_⟩ hscan
      (Nat.zero_le _) fun j hj => absurd hj (Nat.not_lt_zero j),
      Completing.of_genLoop⟩
    rw [hclaim]
    exact le_rfl

/-- A step of a completion. -/
theorem ScanInv.completes (h : ScanInv cfg side m log) (hcap : 0 < cfg.cap)
    (hf : m.own t = some f) :
    ∃ s' l e, frameStep cfg m.shared f = .ok (s', l, e)
      ∧ Completes cfg side m log t s' l e
      ∧ ScanInv cfg side ⟨s', update m.own t l⟩ (after log e) := by
  obtain ⟨hown, hc⟩ := h.own t f hf
  have hsteps : CompletionSteps cfg side m log t f := by
    cases f with
    | storeGen c b i =>
      obtain rfl := hc
      exact step_storeGen h.inv h.window hf hown
    | advanceWithScan c b current =>
      obtain ⟨rfl, -⟩ := hc
      exact step_advanceWithScan h.inv hf hown
    | scan c b desired scanPos =>
      obtain rfl := hc
      exact step_scan h.inv hcap hf hown
    | advanceScanned c b desired scanPos =>
      obtain ⟨rfl, -⟩ := hc
      exact step_advanceScanned h.inv hf hown
    | _ => exact hc.elim
  obtain ⟨s', l, e, hs, hstep⟩ := hsteps
  have hnext := hc.step hown le_rfl hcap h.published_lt hs
  refine ⟨s', l, e, hs, hstep, hstep.side, ?_, fun p => ?_,
    h.own_update hstep.grows (fun p _ hp => (hstep.silent.done p).mp hp)
      fun g hg => ⟨hstep.own g hg, hnext.1 g hg⟩⟩
  · show s'.claimHead side ≤ s'.head side + cfg.cap
    have := h.window
    have := hstep.head_le
    rw [hstep.claimHead]
    omega
  · rw [hstep.silent.done p, h.done p]
    rw [hstep.claimHead]

/-- What a step of the machine does. -/
structure Advances (side : Side) (m m' : Machine Unit)
    (c : Nat × Option Nat) : Prop where
  head_le : m.shared.head side ≤ m'.shared.head side
  claim_le : m.shared.claimHead side ≤ m'.shared.claimHead side
  steps : ∀ t N, m.shared.claimHead side ≤ N → m.own t ≠ none →
    stepsLeft N (m'.own t) + (if c.1 = t then 1 else 0)
      ≤ stepsLeft N (m.own t)

theorem ScanInv.next (h : ScanInv cfg side m log)
    (hscan : cfg.ScanOnComplete = true) (hcap : 0 < cfg.cap)
    (c : Nat × Option Nat) :
    ∃ m' e log', Pool.step (nextBatch cfg side) m c = .ok (m', e)
      ∧ ScanInv cfg side m' log' ∧ Advances side m m' c := by
  obtain ⟨t, a⟩ := c
  -- a thread that had no batch is none of those in a call
  have hothers : ∀ l u N, m.own t = none → m.own u ≠ none →
      stepsLeft N (update m.own t l u) + (if t = u then 1 else 0)
        ≤ stepsLeft N (m.own u) := by
    intro l u N ht hu
    have hut : u ≠ t := fun he => hu (he ▸ ht)
    rw [update_of_ne hut, if_neg hut.symm]
    exact le_rfl
  cases hf : m.own t with
  | some f =>
    obtain ⟨s', l, e, hs, hstep, hI⟩ := h.completes hcap hf
    refine ⟨_, e, _, ?_, hI, hstep.head_le,
      Nat.le_of_eq (hstep.claimHead side).symm, fun u N hN hu => ?_⟩
    · simp only [Pool.step, nextBatch, hf, hs]
    · show stepsLeft N (update m.own t l u) + _ ≤ _
      by_cases hut : u = t
      · rw [hut, update_self, if_pos rfl, hf]
        obtain ⟨hown, hc⟩ := h.own t f hf
        exact (hc.step hown hN hcap h.published_lt hs).2
      · rw [update_of_ne hut, if_neg fun he => hut he.symm]
        exact le_rfl
  | none =>
    cases a with
    | none =>
      refine ⟨⟨m.shared, update m.own t none⟩, none, log, ?_, ?_,
        le_rfl, le_rfl, fun u N _ hu =>
          hothers none u N hf hu⟩
      · simp only [Pool.step, nextBatch, hf]
      · rw [show update m.own t none = m.own from
          update_eq_self_iff.mpr hf.symm]
        exact h
    | some count =>
      by_cases hroom : m.shared.claimHead side + count
          ≤ m.shared.head side + cfg.cap
      · refine ⟨_, none, _, ?_, h.claim hscan hf hroom,
          Nat.le_of_eq (head_setClaimHead ..).symm, ?_, fun u N _ hu =>
            hothers _ u N hf hu⟩
        · simp only [Pool.step, nextBatch, hf, claimBatch, if_pos hroom]
        · show _ ≤ (m.shared.setClaimHead side _).claimHead side
          rw [claimHead_setClaimHead, if_pos rfl]
          exact Nat.le_add_right _ _
      · refine ⟨⟨m.shared, update m.own t none⟩, none, log, ?_,
          ?_, le_rfl, le_rfl, fun u N _ hu =>
            hothers none u N hf hu⟩
        · simp only [Pool.step, nextBatch, hf, claimBatch, if_neg hroom]
        · rw [show update m.own t none = m.own from
            update_eq_self_iff.mpr hf.symm]
          exact h

-- ==== the runs

/-- From any state of a run: the heads only grow, and a call that has not
returned has used up as many of its steps as it took. -/
theorem ScanInv.run (hscan : cfg.ScanOnComplete = true) (hcap : 0 < cfg.cap) :
    ∀ {bs : List (Nat × Option Nat)} {m m' : Machine Unit}
      {rs : List (Option (Event Unit))} {log : List (Event Unit)},
      ScanInv cfg side m log →
      Lib.run (Pool.step (nextBatch cfg side)) m bs = .ok (m', rs) →
      m.shared.head side ≤ m'.shared.head side
      ∧ m.shared.claimHead side ≤ m'.shared.claimHead side
      ∧ ∀ t N, m'.shared.claimHead side ≤ N →
        Along (Pool.step (nextBatch cfg side)) (fun m _ => m.own t ≠ none)
          m bs →
        stepsLeft N (m'.own t) + (bs.countP fun c => c.1 = t)
          ≤ stepsLeft N (m.own t) := by
  intro bs
  induction bs with
  | nil =>
    intro m m' rs log _ h
    cases h
    exact ⟨le_rfl, le_rfl, fun _ _ _ _ => le_rfl⟩
  | cons c bs ih =>
    intro m m' rs log hI h
    obtain ⟨m₁, e, rs', hs, hr, -⟩ := run_cons_inv h
    obtain ⟨m₁', e', log', hs', hI₁, hadv⟩ := hI.next hscan hcap c
    rw [hs] at hs'
    cases hs'
    obtain ⟨hhead, hclaim, hsteps⟩ := ih hI₁ hr
    refine ⟨Nat.le_trans hadv.head_le hhead,
      Nat.le_trans hadv.claim_le hclaim, fun t N hN hal => ?_⟩
    have hfirst := hadv.steps t N
      (Nat.le_trans hadv.claim_le (Nat.le_trans hclaim hN)) hal.1
    have hrest := hsteps t N hN (hal.2 _ _ hs)
    rw [List.countP_cons]
    simp only [decide_eq_true_eq]
    omega

/-- No call is in progress: a thread that has a batch has stored none of
its counters. -/
def AtRest (side : Side) (m : Machine Unit) : Prop :=
  ∀ t, m.own t = none ∨ ∃ b, m.own t = some (.storeGen side b 0)

/-- With no call in progress the head has reached every position below
which all batches are completed. -/
theorem ScanInv.head_ge (h : ScanInv cfg side m log)
    (hscan : cfg.ScanOnComplete = true) (hrest : AtRest side m) {p : Nat}
    (hp : p ≤ m.shared.claimHead side)
    (hdone : ∀ t b, m.own t = some (.storeGen side b 0) → p ≤ b.claimed) :
    p ≤ m.shared.head side := by
  have hout : ∀ t q, q < p → ¬ Holds side (m.own t) q
      ∧ ¬ Responsible side (m.own t) q := by
    intro t q hq
    rcases hrest t with ht | ⟨b, ht⟩
    · rw [ht]
      exact ⟨id, id⟩
    · have hb := hdone t b ht
      rw [ht]
      refine ⟨fun hx => ?_, fun hx => ?_⟩
      · have := hx.2.1
        omega
      · have := hx.2.1
        omega
  by_contra hlt
  have hlt := Nat.not_le.mp hlt
  rcases h.inv.held _ (Nat.lt_of_lt_of_le hlt hp) with hpub | ⟨t, ht⟩
  · obtain ⟨t, ht⟩ := h.inv.responsible hscan hpub
    exact (hout t _ hlt).2 ht
  · exact (hout t _ hlt).1 ht

/-- Batches completed in any order, under any schedule. Nothing faults.
The head has passed no position whose counter is not stored for its lap.
With no call in progress it has reached every position below which all
batches are completed. From there on it only grows; and a call that has
not returned has taken at most three steps for each position claimed so
far, and two. -/
theorem completion_with_scan (cfg : Config)
    (hscan : cfg.ScanOnComplete = true) (hcap : 0 < cfg.cap) (side : Side)
    (as : List (Nat × Option Nat)) :
    ∃ m rs, run (Pool.step (nextBatch cfg side)) Machine.init as
        = .ok (m, rs)
      ∧ (∀ p < m.shared.head side,
        genOf cfg p ≤ m.shared.genCounters side (p % cfg.cap))
      ∧ (AtRest side m → ∀ p ≤ m.shared.claimHead side,
        (∀ t b, m.own t = some (.storeGen side b 0) → p ≤ b.claimed) →
        p ≤ m.shared.head side)
      ∧ ∀ bs m' rs', run (Pool.step (nextBatch cfg side)) m bs = .ok (m', rs') →
        m.shared.head side ≤ m'.shared.head side
        ∧ ∀ t, Along (Pool.step (nextBatch cfg side))
            (fun m _ => m.own t ≠ none) m bs →
          (bs.countP fun c => c.1 = t)
            ≤ 3 * m'.shared.claimHead side + 2 := by
  obtain ⟨m, rs, hrun, log, hI⟩ := run_safe
    (I := fun m => ∃ log, ScanInv cfg side m log) (P := fun _ _ => True)
    (fun m c hI _ => by
      obtain ⟨log, hI⟩ := hI
      obtain ⟨m', e, log', hs, hI', -⟩ := hI.next hscan hcap c
      exact ⟨m', e, hs, log', hI'⟩)
    ⟨[], ScanInv.init⟩
    (show Along _ (fun _ => fun _ => True) _ as from
      Along_of_forall fun _ _ => trivial)
  refine ⟨m, rs, hrun, fun p hp => ?_, fun hrest p hp hdone =>
    hI.head_ge hscan hrest hp hdone, fun bs m' rs' hrun' => ?_⟩
  · have hpub := hI.inv.below p hp
    unfold Published at hpub
    rwa [if_pos hscan] at hpub
  · obtain ⟨hhead, hclaim, hsteps⟩ := hI.run hscan hcap hrun'
    refine ⟨hhead, fun t hal => ?_⟩
    have hused := hsteps t _ le_rfl hal
    cases hf : m.own t with
    | none =>
      rw [hf] at hused
      have : stepsLeft (m'.shared.claimHead side) none = 0 := rfl
      omega
    | some f =>
      obtain ⟨hown, hc⟩ := hI.own t f hf
      have := hc.stepsLeft_le hown hclaim
      rw [hf] at hused
      omega

def twoSlots : Config := ⟨2, true, by decide⟩

/-- Thread 1 claims after thread 0 and completes before it: the head waits
for thread 0, whose scan then takes both. -/
def reversed : List (Nat × Option Nat) :=
  [Pool.burst 0 [some 1], Pool.burst 1 [some 1, none, none],
    Pool.burst 0 (List.replicate 6 none)].flatten

theorem completion_with_scan_reversed :
    ∃ m rs, run (Pool.step (nextBatch twoSlots .write)) Machine.init reversed
        = .ok (m, rs)
      ∧ m.own 0 = none ∧ m.own 1 = none ∧ m.shared.head .write = 2
      ∧ (∀ p < 2, genOf twoSlots p
        ≤ m.shared.genCounters .write (p % twoSlots.cap))
      ∧ (AtRest .write m → ∀ p ≤ m.shared.claimHead .write,
        (∀ t b, m.own t = some (.storeGen .write b 0) → p ≤ b.claimed) →
        p ≤ m.shared.head .write) := by
  have hfacts : Returns (fun p : Machine Unit × List (Option (Event Unit)) =>
        p.1.own 0 = none ∧ p.1.own 1 = none ∧ p.1.shared.head .write = 2)
      (run (Pool.step (nextBatch twoSlots .write)) Machine.init
        reversed) := by
    decide +kernel
  obtain ⟨m, rs, hrun, hgen, hrest, -⟩ := completion_with_scan twoSlots rfl
    Nat.two_pos .write reversed
  rw [hrun] at hfacts
  obtain ⟨h₀, h₁, hhead⟩ := hfacts
  rw [hhead] at hgen
  exact ⟨m, rs, hrun, h₀, h₁, hhead, hgen, hrest⟩

-- ==== endless scans

/-- Thread 0 completes the first position and starts to scan. -/
def firstScan : List (Nat × Option Nat) :=
  Pool.burst 0 [some 1, none, none]

/-- Thread 1 completes the next position, and thread 0 scans it. -/
def oneMore : List (Nat × Option Nat) :=
  Pool.burst 1 [some 1, none, none, none] ++ Pool.burst 0 [none]

/-- Thread 0 scans with `n` positions behind it, and all are completed. -/
structure Scanning (n : Nat) (m : Machine Unit) : Prop where
  writeHead : m.shared.writeHead = n
  writtenHead : m.shared.writtenHead = n
  gen : m.shared.writeGenCounters 0 = n
  scanner : m.own 0 = some (.scan .write ⟨0, 1, .done true⟩ 1 n)
  other : m.own 1 = none

theorem Scanning.more {n : Nat} (h : Scanning (n + 1) m) :
    Returns (fun p : Machine Unit × List (Option (Event Unit)) =>
        Scanning (n + 2) p.1)
      (run (Pool.step (nextBatch (oneSlot true) .write)) m oneMore) := by
  obtain ⟨hwrite, hwritten, hgen, hscanner, hother⟩ := h
  simp [oneMore, Pool.burst, Lib.run, Pool.step, nextBatch, hother, hscanner,
    claimBatch, Shared.claimHead, Shared.head, Shared.setClaimHead, hwrite,
    hwritten, oneSlot, genLoop, frameStep, slotOf, genOf, Shared.storeGen,
    Shared.setHead, Batch.limit, Shared.genCounters, finish, pure,
    Except.pure, Nat.mod_one]
  exact ⟨rfl, rfl, by simp, by simp, by simp⟩

/-- For every `n` the call of thread 0 can have taken `n` steps of its
scan, each of a position that was completed meanwhile, and go on: the
schedules are the beginnings of one that never ends. -/
theorem scan_goes_on : ∃ first more : List (Nat × Option Nat),
    (0, none) ∈ more ∧ ∀ n, ∃ m rs,
      run (Pool.step (nextBatch (oneSlot true) .write)) Machine.init
          (first ++ (List.replicate n more).flatten) = .ok (m, rs)
        ∧ m.own 0 = some (.scan .write ⟨0, 1, .done true⟩ 1 (n + 1)) := by
  have hrounds : ∀ n, ∃ m rs,
      run (Pool.step (nextBatch (oneSlot true) .write)) Machine.init
          (firstScan ++ (List.replicate n oneMore).flatten) = .ok (m, rs)
        ∧ Scanning (n + 1) m := by
    intro n
    induction n with
    | zero => exact ⟨_, _, rfl, rfl, rfl, rfl, rfl, rfl⟩
    | succ n ih =>
      obtain ⟨m, rs, hrun, hm⟩ := ih
      obtain ⟨⟨m', rs'⟩, hrun', hm'⟩ := hm.more.exists_ok
      refine ⟨m', rs ++ rs', ?_, hm'⟩
      rw [List.replicate_succ', List.flatten_append, ← List.append_assoc]
      exact run_append hrun hrun'
  refine ⟨firstScan, oneMore, by decide, fun n => ?_⟩
  obtain ⟨m, rs, hrun, hm⟩ := hrounds n
  exact ⟨m, rs, hrun, hm.scanner⟩

end CroCOS.RingBuffer
