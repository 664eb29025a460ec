/-
The history of a ring buffer under any schedule: where no claim against
`readHead` underflows, it is lawful, each call answers for its batch, and
once nobody runs a call every position claimed has been published.

# Where a claim underflows

`bulkWrite` claims up to `cap` beyond `readingHead` and then waits for its
slots, so `writeHead` may be more than `cap` ahead of `readHead` while a
reader is at work. A `tryBulkWrite` that comes then subtracts more than
`cap` from `cap`: it finds room for everything, claims, and writes at
once (`tryBulkWrite_overwrites`).
-/
import CroCOS.Proofs.RingBuffer.Answers
import CroCOS.Proofs.RingBuffer.Completion

namespace CroCOS.RingBuffer

open Lib

variable {Item : Type} {cfg : Config} {m : Machine Item}
variable {log : List (Event Item)}

-- ==== one step

theorem CompletionSteps.steps {side : Side} {t : Nat} {f : Frame Item}
    (h : Inv cfg m log) (hc : CompletionSteps cfg side m log t f) :
    Steps cfg m log t f := by
  obtain ⟨s', l, e, hs, hc⟩ := hc
  exact ⟨s', l, e, hs, h.completes hc⟩

theorem Inv.frameStep (h : Inv cfg m log) {t : Nat} {f : Frame Item}
    {a : Option (Call Item)} (hcap : cfg.ScanOnComplete = true → 0 < cfg.cap)
    (hf : m.own t = some f)
    (hq : NoUnderflow cfg t m.shared (some f) a) : Steps cfg m log t f := by
  cases f with
  | loadWriteHead mode items => exact step_loadWriteHead h hf
  | checkSpace mode items claimed => exact step_checkSpace h hf hq
  | claimWrite mode items claimed count => exact step_claimWrite h hf
  | waitForSlotReadable b i items => exact step_waitForSlotReadable h hf
  | writeSlot wait b i items => exact step_writeSlot h hf
  | loadReadingHead mode count => exact step_loadReadingHead h hf
  | checkItems mode count claimed => exact step_checkItems h hf
  | claimRead mode count claimed actual => exact step_claimRead h hf
  | readSlot b i => exact step_readSlot h hf
  | advanceCompletionHead side b =>
    exact (step_advanceCompletionHead (h.side side) hf (h.own t _ hf)).steps h
  | storeGen side b i =>
    exact (step_storeGen (h.side side) (h.claim_le side) hf
      (h.own t _ hf)).steps h
  | advanceWithScan side b current =>
    exact (step_advanceWithScan (h.side side) hf (h.own t _ hf)).steps h
  | scan side b desired scanPos =>
    exact (step_scan (h.side side) (hcap (h.own t _ hf).1) hf
      (h.own t _ hf)).steps h
  | advanceScanned side b desired scanPos =>
    exact (step_advanceScanned (h.side side) hf (h.own t _ hf)).steps h

theorem Inv.next (h : Inv cfg m log)
    (hcap : cfg.ScanOnComplete = true → 0 < cfg.cap)
    (c : Nat × Option (Call Item)) (hq : Pool.At (NoUnderflow cfg) m c) :
    ∃ m' e, Pool.step (RingBuffer.next cfg) m c = .ok (m', e)
      ∧ Inv cfg m' (after log e) := by
  obtain ⟨t, a⟩ := c
  cases hf : m.own t with
  | some f =>
    unfold Pool.At at hq
    rw [hf] at hq
    obtain ⟨s', l', e, hs, hI⟩ := h.frameStep hcap hf hq
    refine ⟨_, e, ?_, hI⟩
    simp only [Pool.step, RingBuffer.next, hf, hs]
  | none =>
    refine ⟨⟨m.shared, Function.update m.own t (a.map start)⟩, none, by
      simp only [Pool.step, RingBuffer.next, hf], ?_⟩
    cases a with
    | none => exact h.moveFree hf (.inl rfl) (fun _ _ => ⟨⟨id, id⟩, id⟩) nofun
    | some call =>
      cases call <;>
        exact h.moveFree hf (.inl rfl) (fun _ _ => ⟨⟨id, id⟩, id⟩)
          fun _ hf' => by cases hf'; trivial

-- ==== when all is quiet

/-- Nobody runs a call: what is claimed is published, and the heads have
met. -/
theorem SideInv.quiet {side : Side} (h : SideInv cfg side m log)
    (hm : Quiet m) :
    m.shared.head side = m.shared.claimHead side
      ∧ ∀ p, Done log side p ↔ p < m.shared.claimHead side := by
  have hpub : ∀ p, p < m.shared.claimHead side →
      Published cfg m.shared side p := by
    intro p hp
    refine (h.held p hp).resolve_right ?_
    rintro ⟨t, ht⟩
    rw [hm t] at ht
    exact ht
  refine ⟨Nat.le_antisymm h.head_le ?_,
    fun p => ⟨h.done_lt p, fun hp => h.done_of p (hpub p hp)⟩⟩
  by_contra hlt
  have hhead := hpub _ (Nat.not_le.mp hlt)
  by_cases hscan : cfg.ScanOnComplete = true
  · obtain ⟨t, ht⟩ := h.responsible hscan hhead
    rw [hm t] at ht
    exact ht
  · unfold Published at hhead
    rw [if_neg hscan] at hhead
    exact absurd hhead (Nat.lt_irrefl _)

/-- What is read was written there. -/
theorem Lawful.wrote_of_read {cap : Nat} (h : Lawful cap log) {p : Nat}
    {x : Option Item} (hx : .read p x ∈ log) :
    ∃ y, x = some y ∧ .wrote p y ∈ log := by
  induction h with
  | nil => cases hx
  | wrote _ _ _ ih | returned _ ih =>
    rcases List.mem_append.mp hx with hx | hx
    · obtain ⟨y, rfl, hy⟩ := ih hx
      exact ⟨y, rfl, List.mem_append_left _ hy⟩
    · cases List.mem_singleton.mp hx
  | read _ hw _ ih =>
    rcases List.mem_append.mp hx with hx | hx
    · obtain ⟨y, rfl, hy⟩ := ih hx
      exact ⟨y, rfl, List.mem_append_left _ hy⟩
    · cases List.mem_singleton.mp hx
      exact ⟨_, rfl, List.mem_append_left _ hw⟩

/-- What a buffer that nobody is using holds. -/
structure Settled (cfg : Config) (s : Shared Item)
    (log : List (Event Item)) : Prop where
  writtenHead : s.writtenHead = s.writeHead
  readHead : s.readHead = s.readingHead
  written : ∀ p, (∃ x, .wrote p x ∈ log) ↔ p < s.writeHead
  read : ∀ p, (∃ x, .wrote p x ∈ log ∧ .read p (some x) ∈ log)
    ↔ p < s.readingHead
  unread : ∀ p x, .wrote p x ∈ log → s.readingHead ≤ p →
    s.buffer (p % cfg.cap) = some x

theorem Inv.settled (h : Inv cfg m log) (hm : Quiet m) :
    Settled cfg m.shared log := by
  obtain ⟨hwhead, hwrite⟩ := (h.side .write).quiet hm
  obtain ⟨hrhead, hread⟩ := (h.side .read).quiet hm
  refine ⟨hwhead, hrhead, hwrite, fun p => ?_, fun p x hx hp => ?_⟩
  · refine Iff.trans ?_ (hread p)
    constructor
    · rintro ⟨x, -, hx⟩
      exact ⟨_, hx⟩
    · rintro ⟨x, hx⟩
      obtain ⟨y, rfl, hy⟩ := h.lawful.wrote_of_read hx
      exact ⟨y, hy, hx⟩
  · exact h.slots p x hx (Nat.le_trans (Nat.le_of_eq hrhead) hp)

-- ==== the schedules

/-- Under every schedule in which no claim underflows, no slot is
overwritten before it is read, and every position is read once, with
what was written for it; when nobody runs a call, the positions read are
those below `readingHead`, and the others wait in their slots; and a call
that is over has shown its batch since it was made, and returned. -/
theorem run_lawful (cfg : Config)
    (hcap : cfg.ScanOnComplete = true → 0 < cfg.cap)
    (as : List (Nat × Option (Call Item)))
    (hal : Along (Pool.step (next cfg)) (Pool.At (NoUnderflow cfg))
      Machine.init as) :
    ∃ m rs, run (Pool.step (next cfg)) Machine.init as = .ok (m, rs)
      ∧ Lawful cfg.cap rs.reduceOption
      ∧ m.shared.readingHead ≤ m.shared.writtenHead
      ∧ m.shared.writtenHead ≤ m.shared.readingHead + cfg.cap
      ∧ (Quiet m → Settled cfg m.shared rs.reduceOption)
      ∧ Pool.Answered (next cfg) none none
        (fun _ _ a es => ∀ call ∈ a, Answers call es) Machine.init as m rs := by
  have hinit : Inv cfg (Machine.init : Machine Item)
      ([] : List (Option (Event Item))).reduceOption := Inv.init
  obtain ⟨m, rs, hrun, h⟩ := run_logs
    (I := fun m (rs : List (Option (Event Item))) =>
      Inv cfg m rs.reduceOption)
    (fun m rs c hI hq => by
      obtain ⟨m', e, hs, hI'⟩ := hI.next hcap c hq
      rw [after_reduceOption] at hI'
      exact ⟨m', e, hs, hI'⟩)
    hinit hal
  refine ⟨m, rs, hrun, h.lawful, h.reading_le,
    Nat.le_trans h.written_le h.space, h.settled, Pool.run_answered
      (S := fun _ _ a l es => ∀ call ∈ a, Shown call es l) ?_ ?_ hrun⟩
  · intro m₀ t a s l r hs call ha
    cases ha
    cases hs
    exact start_shown call
  · exact fun _ _ _ _ _ _ _ _ _ h hs call ha => next_shown (h call ha) hs

/-- Room for one item, with and without the scan. -/
def oneSlot (scan : Bool) : Config := ⟨1, scan, one_lt_two_pow_word⟩

/-- Two items go through the slot; the second write is tried before the
first item is read, and again after. -/
def twoLaps : List (Nat × Option (Call Nat)) :=
  [Pool.burst 0 (some (.write .bulkWrite [1]) :: List.replicate 6 none),
    Pool.burst 2 (some (.write .tryBulkWrite [2]) :: List.replicate 2 none),
    Pool.burst 1 (some (.read .tryBulkRead 1) :: List.replicate 5 none),
    Pool.burst 2 (some (.write .tryBulkWrite [2]) :: List.replicate 5 none),
    Pool.burst 1 (some (.read .bulkReadBestEffort 3)
      :: List.replicate 5 none)].flatten

theorem twoLaps_along : Along (Pool.step (next (oneSlot false)))
      (Pool.At (NoUnderflow (oneSlot false))) Machine.init twoLaps := by
  decide +kernel

def twoLapsEvents : List (Event Nat) :=
  [.wrote 0 1, .returned (.done true), .returned (.done false),
    .read 0 (some 1), .returned (.done true), .wrote 1 2,
    .returned (.done true), .read 1 (some 2), .returned (.transferred 1)]

theorem twoLaps_returns :
    Returns (fun p : Machine Nat × List (Option (Event Nat)) =>
        p.2.reduceOption = twoLapsEvents)
      (run (Pool.step (next (oneSlot false))) Machine.init twoLaps) := by
  decide +kernel

theorem run_lawful_twoLaps :
    ∃ m rs, run (Pool.step (next (oneSlot false))) Machine.init twoLaps
        = .ok (m, rs)
      ∧ rs.reduceOption = twoLapsEvents
      ∧ Lawful 1 rs.reduceOption
      ∧ (Quiet m → Settled (oneSlot false) m.shared rs.reduceOption) := by
  obtain ⟨m, rs, hrun, hlaw, -, -, hsettled, -⟩ :=
    run_lawful (oneSlot false) (fun _ => Nat.one_pos) twoLaps twoLaps_along
  have hevents := twoLaps_returns
  rw [hrun] at hevents
  exact ⟨m, rs, hrun, hevents, hlaw, hsettled⟩

-- ==== the underflow

/-- The first item is being read and a second write waits for that, when
somebody tries a third; then the reader goes on. -/
def overwriting : List (Nat × Option (Call Nat)) :=
  [Pool.burst 0 [some (.write .bulkWrite [1]), none, none, none, none, none,
      none],
    Pool.burst 1 [some (.read .tryBulkRead 1), none, none, none],
    Pool.burst 0 [some (.write .bulkWrite [2]), none, none, none],
    Pool.burst 2 [some (.write .tryBulkWrite [3]), none, none, none, none],
    Pool.burst 1 [none]].flatten

theorem overwriting_returns :
    Returns (fun p : Machine Nat × List (Option (Event Nat)) =>
        p.2.reduceOption = [.wrote 0 1, .returned (.done true), .wrote 2 3,
          .read 0 (some 3)])
      (run (Pool.step (next (oneSlot false))) Machine.init overwriting) := by
  decide +kernel

/-- Position 0 holds 1 and is being read when the third write puts 3 in
its slot: the 1 is lost, and 3 is read in its place. -/
theorem tryBulkWrite_overwrites :
    ∃ m rs, run (Pool.step (next (oneSlot false))) Machine.init overwriting
        = .ok (m, rs)
      ∧ rs.reduceOption = [.wrote 0 1, .returned (.done true), .wrote 2 3,
        .read 0 (some 3)]
      ∧ ¬ Lawful 1 rs.reduceOption := by
  obtain ⟨⟨m, rs⟩, hrun, hlog⟩ := overwriting_returns.exists_ok
  refine ⟨m, rs, hrun, hlog, fun hl => ?_⟩
  rw [hlog] at hl
  obtain ⟨y, hy, hw⟩ := hl.wrote_of_read (p := 0) (x := some 3) (by simp)
  cases hy
  simp at hw

end CroCOS.RingBuffer
