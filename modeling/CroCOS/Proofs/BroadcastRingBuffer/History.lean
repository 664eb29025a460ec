/-
The history of a broadcast ring buffer under any schedule in which every
head number is used by one thread: it is lawful, each call answers for its
batch, and once no write is in progress all that is claimed is published,
once no read is, `readHead` is the least of the consumers' read heads.
-/
import CroCOS.Proofs.BroadcastRingBuffer.Answers
import CroCOS.Proofs.BroadcastRingBuffer.Steps

namespace CroCOS.BroadcastRingBuffer

open Lib
open RingBuffer (Result Batch)

variable {Item : Type} {cfg : Config} {owner : Nat → Nat}
variable {m : Machine Item} {log : List (Event Item)} {A R : Nat → Nat}

-- ==== one step

/-- A read is started by the thread that its head number belongs to. -/
def OneReader (cfg : Config) (owner : Nat → Nat) (t : Nat)
    (_ : Shared Item) : Option (Frame Item) → Option (Call Item) → Prop
  | none, some (.read _ headNumber _) => Consumer cfg owner t headNumber
  | _, _ => True

instance (t : Nat) (s : Shared Item) (l : Option (Frame Item))
    (a : Option (Call Item)) : Decidable (OneReader cfg owner t s l a) := by
  unfold OneReader Consumer
  split <;> infer_instance

theorem Inv.frameStep (h : Inv cfg owner m log A R)
    (hn : 0 < cfg.consumerCount) (hn' : cfg.consumerCount < 2 ^ 32)
    {t : Nat} {f : Frame Item} (hf : m.own t = some f) :
    Steps cfg owner m log t f := by
  cases f with
  | loadWriteHead mode items => exact step_loadWriteHead h hf
  | checkSpace mode items claimed => exact step_checkSpace h hn hf
  | claimWrite mode items claimed count => exact step_claimWrite h hf
  | writeSlot b i items => exact step_writeSlot h hn hf
  | advanceCompletionHead b => exact step_advanceCompletionHead h hf
  | loadMyHead mode c count => exact step_loadMyHead h hf
  | checkItems mode c count myHead => exact step_checkItems h hf
  | readSlot r i => exact step_readSlot h hf
  | storeMyHead r => exact step_storeMyHead h hf
  | loadAck r i => exact step_loadAck h hf
  | casAck r i val => exact step_casAck h hn' hf
  | loadReadHead r i => exact step_loadReadHead h hf
  | checkAck r i current => exact step_checkAck h hn hn' hf
  | casReadHead r i current => exact step_casReadHead h hn hf

theorem Inv.next (h : Inv cfg owner m log A R)
    (hn : 0 < cfg.consumerCount) (hn' : cfg.consumerCount < 2 ^ 32)
    (c : Nat × Option (Call Item)) (hq : Pool.At (OneReader cfg owner) m c) :
    ∃ m' e A' R', Pool.step (BroadcastRingBuffer.next cfg) m c = .ok (m', e)
      ∧ Inv cfg owner m' (after log e) A' R' := by
  obtain ⟨t, a⟩ := c
  cases hf : m.own t with
  | some f =>
    obtain ⟨s', l, e, A', R', hs, hI⟩ := h.frameStep hn hn' hf
    refine ⟨_, e, A', R', ?_, hI⟩
    simp only [Pool.step, BroadcastRingBuffer.next, hf, hs]
  | none =>
    refine ⟨⟨m.shared, Function.update m.own t (a.map start)⟩, none, A, R,
      by simp only [Pool.step, BroadcastRingBuffer.next, hf], ?_⟩
    unfold Pool.At at hq
    rw [hf] at hq
    cases a with
    | none =>
      exact h.movePlain hf (.inl rfl) (fun _ _ => ⟨rfl, id, rfl, id⟩) nofun
    | some call =>
      cases call with
      | write mode items =>
        exact h.movePlain hf (.inl rfl) (fun _ _ => ⟨rfl, id, rfl, id⟩)
          fun _ hf' => by cases hf'; trivial
      | read mode headNumber count =>
        exact h.movePlain hf (.inl rfl) (fun _ _ => ⟨rfl, id, rfl, id⟩)
          fun _ hf' => by cases hf'; exact hq

-- ==== without a writer

/-- The frame is one of a read. -/
def Frame.ofRead : Frame Item → Bool
  | .loadWriteHead _ _ => false
  | .checkSpace _ _ _ => false
  | .claimWrite _ _ _ _ => false
  | .writeSlot _ _ _ => false
  | .advanceCompletionHead _ => false
  | _ => true

/-- No write is in progress. -/
def NoWrite (m : Machine Item) : Prop :=
  ∀ t f, m.own t = some f → f.ofRead = true

/-- No read is in progress. -/
def NoRead (m : Machine Item) : Prop :=
  ∀ t f, m.own t = some f → f.ofRead = false

/-- What is claimed and not published, somebody holds. -/
def Held (m : Machine Item) : Prop :=
  ∀ p, m.shared.writtenHead ≤ p → p < m.shared.writeHead →
    ∃ t, Holds (m.own t) p

theorem frameStep_holds {s s' : Shared Item} {f : Frame Item}
    {l : Option (Frame Item)} {e : Option (Event Item)} {p : Nat}
    (hs : frameStep cfg s f = .ok (s', l, e)) (hlo : s'.writtenHead ≤ p)
    (hhi : p < s'.writeHead) : s.writtenHead ≤ p
      ∧ (s.writeHead ≤ p ∨ Holds (some f) p → Holds l p) := by
  cases f with
  | claimWrite mode items claimed count =>
    simp only [frameStep] at hs
    split_ifs at hs with heq
    · cases hs
      refine ⟨hlo, fun hp => holds_writeLoop.mpr ⟨?_, hhi⟩⟩
      exact heq ▸ hp.resolve_right id
    · cases hs
      exact ⟨hlo, fun hp => absurd hhi (hp.resolve_right id).not_gt⟩
  | writeSlot b i items =>
    cases items with
    | nil =>
      cases hs
      exact ⟨hlo, fun hp => hp.resolve_left hhi.not_ge⟩
    | cons x items =>
      obtain ⟨slot, -, hs⟩ := bind_inv hs
      cases hs
      exact ⟨hlo, fun hp => holds_writeLoop.mpr (hp.resolve_left hhi.not_ge)⟩
  | advanceCompletionHead b =>
    simp only [frameStep] at hs
    split_ifs at hs with heq hge
    · cases hs
      have hlo : b.limit ≤ p := hlo
      have hhi : p < s.writeHead := hhi
      have : b.claimed ≤ b.limit := Nat.le_add_right _ _
      exact ⟨by omega, fun hp => absurd (hp.resolve_left hhi.not_ge).2
        hlo.not_gt⟩
    · cases hs
      exact ⟨hlo, fun hp => absurd (hp.resolve_left hhi.not_ge).2
        (hge.trans hlo).not_gt⟩
    · cases hs
      exact ⟨hlo, fun hp => hp.resolve_left hhi.not_ge⟩
  -- the others leave both heads where they are, and hold nothing
  | casAck r i val | checkAck r i current =>
    obtain ⟨slot, -, hs⟩ := bind_inv hs
    simp only [ackLoop] at hs
    (repeat' split at hs) <;> cases hs <;>
      exact ⟨hlo, fun hp => absurd (hp.resolve_right id) hhi.not_ge⟩
  | _ =>
    simp only [frameStep, ackLoop, slotOf, headOf] at hs
    (repeat' split at hs) <;> cases hs <;>
      exact ⟨hlo, fun hp => absurd (hp.resolve_right id) hhi.not_ge⟩

theorem Held.next {m' : Machine Item} {c : Nat × Option (Call Item)}
    {e : Option (Event Item)} (h : Held m)
    (hs : Pool.step (BroadcastRingBuffer.next cfg) m c = .ok (m', e)) :
    Held m' := by
  obtain ⟨s', l, hn, rfl⟩ := Pool.step_inv hs
  intro p hlo hhi
  obtain ⟨hold, hpass⟩ : m.shared.writtenHead ≤ p
      ∧ (m.shared.writeHead ≤ p ∨ Holds (m.own c.1) p → Holds l p) := by
    cases hf : m.own c.1 with
    | some f =>
      rw [hf] at hn
      exact frameStep_holds hn hlo hhi
    | none =>
      rw [hf] at hn
      cases hn
      exact ⟨hlo, fun hp => absurd (hp.resolve_right id) hhi.not_ge⟩
  by_cases hnew : m.shared.writeHead ≤ p
  · refine ⟨c.1, ?_⟩
    show Holds (Function.update m.own c.1 l c.1) p
    rw [Function.update_self]
    exact hpass (.inl hnew)
  · exact Pool.exists_update (P := fun k => Holds k p)
      (h p hold (Nat.not_le.mp hnew)) fun hp => hpass (.inr hp)

theorem Held.published (h : Held m) (hI : Inv cfg owner m log A R)
    (hm : NoWrite m) : m.shared.writtenHead = m.shared.writeHead
      ∧ ∀ p, (∃ x, .wrote p x ∈ log) ↔ p < m.shared.writeHead := by
  have heq : m.shared.writtenHead = m.shared.writeHead := by
    refine Nat.le_antisymm hI.written_le (Nat.not_lt.mp fun hlt => ?_)
    obtain ⟨t, ht⟩ := h _ le_rfl hlt
    cases hf : m.own t with
    | none =>
      rw [hf] at ht
      exact ht
    | some f =>
      have hread := hm t f hf
      rw [hf] at ht
      cases f with
      | writeSlot b i items | advanceCompletionHead b => cases hread
      | _ => exact ht
  exact ⟨heq, fun p => ⟨fun ⟨x, hx⟩ => hI.wrote_lt p x hx,
    fun hp => hI.written p (heq ▸ hp)⟩⟩

-- ==== without a reader

theorem NoRead.own (h : NoRead m) (t : Nat) :
    (∀ c, ackLag (m.own t) c = 0 ∧ readLead (m.own t) c = 0)
      ∧ ∀ p, ¬ Responsible (m.own t) p := by
  cases hf : m.own t with
  | none => exact ⟨fun _ => ⟨rfl, rfl⟩, fun _ => id⟩
  | some f =>
    have := h t f hf
    cases f with
    | loadWriteHead mode items | checkSpace mode items claimed
    | claimWrite mode items claimed count | writeSlot b i items
    | advanceCompletionHead b => exact ⟨fun _ => ⟨rfl, rfl⟩, fun _ => id⟩
    | _ => cases this

/-- What is read was written there. -/
theorem Lawful.wrote_of_read (h : Lawful cfg log) {c p : Nat}
    {x : Option Item} (hx : .read c p x ∈ log) :
    ∃ y, x = some y ∧ .wrote p y ∈ log := by
  induction h with
  | nil => cases hx
  | wrote _ _ _ ih | returned _ ih =>
    obtain ⟨y, rfl, hy⟩ := ih (by simpa using hx)
    exact ⟨y, rfl, List.mem_append_left _ hy⟩
  | read _ _ hw _ ih =>
    rcases List.mem_append.mp hx with hx | hx
    · obtain ⟨y, rfl, hy⟩ := ih hx
      exact ⟨y, rfl, List.mem_append_left _ hy⟩
    · cases List.mem_singleton.mp hx
      exact ⟨_, rfl, List.mem_append_left _ hw⟩

/-- The buffer while no read is in progress: each consumer has received
the positions below its read head and the others wait in their slots, and
`readHead` is the least of the read heads. -/
structure Settled (cfg : Config) (s : Shared Item)
    (log : List (Event Item)) : Prop where
  received : ∀ h < cfg.consumerCount, ∀ p,
    (∃ x, .wrote p x ∈ log ∧ .read h p (some x) ∈ log) ↔ p < s.readHeads h
  unread : ∀ h < cfg.consumerCount, ∀ p x, .wrote p x ∈ log →
    s.readHeads h ≤ p → s.data (p % cfg.cap) = some x
  readHead : IsLeast (s.readHeads '' Set.Iio cfg.consumerCount) s.readHead

theorem Inv.settled (h : Inv cfg owner m log A R) (hm : NoRead m) :
    Settled cfg m.shared log := by
  have hA : ∀ c < cfg.consumerCount, A c = m.shared.readHeads c := by
    intro c hc
    have := h.acked c hc
    rwa [((hm.own _).1 c).1] at this
  have hR : ∀ c < cfg.consumerCount, R c = m.shared.readHeads c := by
    intro c hc
    have := h.lead c hc
    rwa [((hm.own _).1 c).2] at this
  have hle : ∀ c < cfg.consumerCount,
      m.shared.readHead ≤ m.shared.readHeads c := by
    intro c hc
    rw [← hA c hc]
    exact h.read_le c hc
  refine ⟨fun c hc p => ?_, fun c hc p x hx hp =>
    h.slots p x hx (Nat.le_trans (hle c hc) hp), ?_, ?_⟩
  · rw [← hR c hc, ← h.received c hc]
    constructor
    · rintro ⟨x, -, hx⟩
      exact ⟨_, hx⟩
    · rintro ⟨y, hy⟩
      obtain ⟨x, rfl, hx⟩ := h.lawful.wrote_of_read hy
      exact ⟨x, hx, hy⟩
  · -- otherwise all have acknowledged the position, and nobody cares
    by_contra hnone
    obtain ⟨t, ht⟩ := h.responsible fun c hc => by
      have := hle c hc
      have : m.shared.readHeads c ≠ m.shared.readHead := fun heq =>
        hnone ⟨c, hc, heq⟩
      rw [hA c hc]
      omega
    exact (hm.own t).2 _ ht
  · rintro _ ⟨c, hc, rfl⟩
    exact hle c hc

-- ==== the schedules

/-- Under every schedule in which each head number is used by one thread:
nothing faults; no slot is overwritten before every consumer has read it,
and every consumer reads the positions in order, each once, with what was
written for it; while no write is in progress all that is claimed is
written and published, and while no read is, `readHead` is the least of
the read heads; and a call that is over has shown its batch since it was
made, and returned. -/
theorem broadcast_run (cfg : Config) (hn : 1 ≤ cfg.consumerCount)
    (hn' : cfg.consumerCount ≤ 2 ^ 32 - 1) (owner : Nat → Nat)
    (as : List (Nat × Option (Call Item)))
    (hal : Along (Pool.step (next cfg)) (Pool.At (OneReader cfg owner))
      Machine.init as) :
    ∃ m rs, run (Pool.step (next cfg)) Machine.init as = .ok (m, rs)
      ∧ Lawful cfg rs.reduceOption
      ∧ (∀ p < m.shared.writtenHead, ∃ x, .wrote p x ∈ rs.reduceOption)
      ∧ (NoWrite m → m.shared.writtenHead = m.shared.writeHead
        ∧ ∀ p, (∃ x, .wrote p x ∈ rs.reduceOption) ↔ p < m.shared.writeHead)
      ∧ (NoRead m → Settled cfg m.shared rs.reduceOption)
      ∧ Pool.Answered (next cfg) none none
        (fun _ _ a es => ∀ call ∈ a, Answers call es) Machine.init as m rs := by
  have hinit : (∃ A R, Inv cfg owner (Machine.init : Machine Item)
      ([] : List (Option (Event Item))).reduceOption A R)
      ∧ Held (Machine.init : Machine Item) :=
    ⟨⟨_, _, Inv.init hn⟩, fun p _ hp => absurd hp (Nat.not_lt_zero p)⟩
  obtain ⟨m, rs, hrun, ⟨A, R, h⟩, hheld⟩ := run_logs
    (I := fun m (rs : List (Option (Event Item))) =>
      (∃ A R, Inv cfg owner m rs.reduceOption A R) ∧ Held m)
    (fun m rs c hI hq => by
      obtain ⟨⟨A, R, hI⟩, hheld⟩ := hI
      obtain ⟨m', e, A', R', hs, hI'⟩ := hI.next hn (by omega) c hq
      rw [after_reduceOption] at hI'
      exact ⟨m', e, hs, ⟨A', R', hI'⟩, hheld.next hs⟩)
    hinit hal
  refine ⟨m, rs, hrun, h.lawful, h.written, hheld.published h, h.settled,
    Pool.run_answered (S := fun _ _ a l es => ∀ call ∈ a, Shown call es l)
      ?_ ?_ hrun⟩
  · intro m₀ t a s l r hs call ha
    cases ha
    cases hs
    exact start_shown call
  · exact fun _ _ _ _ _ _ _ _ _ h hs call ha => next_shown (h call ha) hs

/-- One slot and two consumers. -/
def twoConsumers : Config := ⟨1, 2, RingBuffer.one_lt_two_pow_word⟩

/-- Two items go through the slot; thread 2 writes, threads 0 and 1 read. -/
def twoLaps : List (Nat × Option (Call Nat)) :=
  [Pool.burst 2 [some (.write .tryBulk [7]), none, none, none, none, none],
    Pool.burst 0 [some (.read .tryBulk 0 1), none, none, none, none, none,
      none],
    Pool.burst 1 [some (.read .tryBulk 1 1), none, none, none, none, none,
      none, none, none, none, none, none],
    Pool.burst 2 [some (.write .tryBulk [8]), none, none, none, none,
      none]].flatten

theorem twoLaps_along :
    Along (Pool.step (next twoConsumers)) (Pool.At (OneReader twoConsumers id))
      Machine.init twoLaps := by
  decide +kernel

def twoLapsEvents : List (Event Nat) :=
  [.wrote 0 7, .returned (.done true), .read 0 0 (some 7),
    .returned (.done true), .read 1 0 (some 7), .returned (.done true),
    .wrote 1 8, .returned (.done true)]

theorem twoLaps_returns :
    Returns (fun p : Machine Nat × List (Option (Event Nat)) =>
        p.2.reduceOption = twoLapsEvents)
      (run (Pool.step (next twoConsumers)) Machine.init twoLaps) := by
  decide +kernel

theorem broadcast_run_twoLaps :
    ∃ m rs, run (Pool.step (next twoConsumers)) Machine.init twoLaps
        = .ok (m, rs)
      ∧ rs.reduceOption = twoLapsEvents
      ∧ Lawful twoConsumers rs.reduceOption
      ∧ (NoRead m → Settled twoConsumers m.shared rs.reduceOption) := by
  obtain ⟨m, rs, hrun, hlaw, -, -, hsettled, -⟩ :=
    broadcast_run twoConsumers (by decide) (by decide) id twoLaps twoLaps_along
  have hevents := twoLaps_returns
  rw [hrun] at hevents
  exact ⟨m, rs, hrun, hevents, hlaw, hsettled⟩

end CroCOS.BroadcastRingBuffer
