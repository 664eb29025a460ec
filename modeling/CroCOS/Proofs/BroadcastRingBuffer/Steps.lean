/-
Every step keeps the invariant, one lemma per frame. The consumers are at
least one and fewer than `2 ^ 32`, and every head number belongs to one
thread; nothing else is asked of the schedule.
-/
import CroCOS.Proofs.BroadcastRingBuffer.Rules

namespace CroCOS.BroadcastRingBuffer

open Function Lib
open RingBuffer (Result Batch)

variable {Item : Type} {cfg : Config} {owner : Nat → Nat}
variable {m : Machine Item} {s : Shared Item} {log : List (Event Item)}
variable {A R : Nat → Nat} {t : Nat}
variable {b : Batch} {c count i : Nat} {items : List Item} {mode : Mode}
variable {r : ReadBatch}
variable {e : Option (Event Item)} {l : Option (Frame Item)}

/-- What a step of thread `t` owes. -/
def Steps (cfg : Config) (owner : Nat → Nat) (m : Machine Item)
    (log : List (Event Item)) (t : Nat) (f : Frame Item) : Prop :=
  ∃ s' l e A' R', frameStep cfg m.shared f = .ok (s', l, e)
    ∧ Inv cfg owner ⟨s', update m.own t l⟩ (after log e) A' R'

-- ==== the loops

theorem holds_writeLoop {p : Nat} :
    Holds (some (writeLoop b i items)) p ↔ b.claimed ≤ p ∧ p < b.limit := by
  cases items with
  | nil | cons x items => exact Iff.rfl

theorem own_writeLoop (hlen : i + items.length = b.count)
    (hdone : ∀ j, j < i → ∃ x, .wrote (b.claimed + j) x ∈ log)
    (htodo : ∀ p, b.claimed + i ≤ p → p < b.limit → ∀ x, .wrote p x ∉ log) :
    Own cfg owner t s log A (writeLoop b i items) := by
  cases items with
  | nil =>
    intro j hj
    rw [List.length_nil] at hlen
    exact hdone j (by omega)
  | cons x items => exact ⟨hlen, hdone, htodo⟩

/-- A write does nothing with the consumers. -/
theorem writeLoop_lag (b : Batch) (i : Nat) (items : List Item) (c : Nat) :
    ackLag (some (writeLoop b i items)) c = 0
      ∧ readLead (some (writeLoop b i items)) c = 0
      ∧ ∀ p, ¬ Responsible (some (writeLoop b i items)) p := by
  cases items with
  | nil | cons x items => exact ⟨rfl, rfl, fun _ => id⟩

theorem readLoop_lag (Item : Type) (hi : i ≤ r.count) (c : Nat) :
    ackLag (some (readLoop r i : Frame Item)) c = 0
      ∧ readLead (some (readLoop r i : Frame Item)) c
        = (if r.headNumber = c then i else 0)
      ∧ ∀ p, ¬ Holds (some (readLoop r i : Frame Item)) p
        ∧ ¬ Responsible (some (readLoop r i : Frame Item)) p := by
  unfold readLoop
  by_cases hlt : i < r.count
  · rw [if_pos hlt]
    exact ⟨rfl, rfl, fun _ => ⟨id, id⟩⟩
  · rw [if_neg hlt, show i = r.count by omega]
    exact ⟨rfl, rfl, fun _ => ⟨id, id⟩⟩

theorem own_readLoop (h : Reading cfg owner t s r) :
    Own cfg owner t s log A (readLoop r i) := by
  unfold readLoop
  by_cases hlt : i < r.count
  · rw [if_pos hlt]
    exact ⟨h, hlt⟩
  · rw [if_neg hlt]
    exact h

/-- The next acknowledgement, or the end of the read. -/
theorem ackLoop_spec (s : Shared Item) (r : ReadBatch) (i : Nat) :
    ∃ l e, ackLoop s r i = (s, l, e) ∧ Silent e
      ∧ (∀ c, ackLag l c = if r.headNumber = c then r.count - i else 0)
      ∧ (∀ c, readLead l c = 0) ∧ (∀ p, ¬ Holds l p)
      ∧ ∀ f, l = some f → f = .loadAck r i ∧ i < r.count := by
  unfold ackLoop
  by_cases hlt : i < r.count
  · rw [if_pos hlt]
    refine ⟨_, _, rfl, .inl rfl, fun _ => rfl, fun _ => rfl, fun _ => id,
      fun f hf => ?_⟩
    cases hf
    exact ⟨rfl, hlt⟩
  · rw [if_neg hlt]
    refine ⟨_, _, rfl, .inr ⟨_, rfl⟩, fun c => ?_, fun _ => rfl, fun _ => id,
      fun _ => nofun⟩
    rw [show r.count - i = 0 by omega, ite_self]
    rfl

-- ==== the writes

theorem grant_le {available k : Nat} (h : grant mode count available = .ok k) :
    k ≤ count ∧ k ≤ available := by
  cases mode with
  | tryBulk =>
    simp only [grant] at h
    split_ifs at h with hgt
    cases h
    omega
  | bestEffort =>
    simp only [grant] at h
    split_ifs at h with hz
    cases h
    omega

theorem step_loadWriteHead (h : Inv cfg owner m log A R)
    (hf : m.own t = some (.loadWriteHead mode items)) :
    Steps cfg owner m log t (.loadWriteHead mode items) := by
  refine ⟨m.shared, _, none, A, R, rfl,
    h.movePlain hf (.inl rfl) (fun _ _ => ⟨rfl, id, rfl, id⟩) fun f hf' => ?_⟩
  cases hf'
  exact le_rfl

theorem step_checkSpace (h : Inv cfg owner m log A R)
    (hn : 0 < cfg.consumerCount) {claimed : Nat}
    (hf : m.own t = some (.checkSpace mode items claimed)) :
    Steps cfg owner m log t (.checkSpace mode items claimed) := by
  have hle : claimed ≤ m.shared.writeHead := h.own t _ hf
  cases hg : grant mode items.length
      (usub cfg.cap (usub claimed m.shared.readHead)) with
  | error r =>
    exact ⟨m.shared, none, some (.returned r), A, R,
      by simp only [frameStep, hg],
      h.movePlain hf (.inr ⟨_, rfl⟩) (fun _ _ => ⟨rfl, id, rfl, id⟩) nofun⟩
  | ok count =>
    refine ⟨m.shared, some (.claimWrite mode items claimed count), none, A,
      R, by simp only [frameStep, hg],
      h.movePlain hf (.inl rfl) (fun _ _ => ⟨rfl, id, rfl, id⟩) fun f hf' => ?_⟩
    cases hf'
    obtain ⟨hlen, hroom⟩ := grant_le hg
    refine ⟨hle, hlen, fun heq => ?_⟩
    -- the claim is not behind `readHead`, so nothing wraps
    have hcap := cfg.cap_lt
    have hheads := h.heads hn
    rw [usub_eq (show m.shared.readHead ≤ claimed by omega) (by omega),
      usub_eq (by omega) (by omega)] at hroom
    omega

theorem step_claimWrite (h : Inv cfg owner m log A R) {claimed : Nat}
    (hf : m.own t = some (.claimWrite mode items claimed count)) :
    Steps cfg owner m log t (.claimWrite mode items claimed count) := by
  obtain ⟨-, hlen, hroom⟩ := h.own t _ hf
  by_cases heq : m.shared.writeHead = claimed
  · let b : Batch := ⟨claimed, count, resultOf count mode⟩
    have hlag := writeLoop_lag b 0 (items.take count)
    have hfits := hroom heq
    refine ⟨{ m.shared with writeHead := claimed + count },
      some (writeLoop b 0 (items.take count)), none, A, R,
      by simp only [frameStep, if_pos heq, b],
      h.step (h.leaves (.inl rfl) (by omega) hfits)
        ⟨{ Grows.refl with writeHead := ?_ },
          fun c hc hct => ?_, fun c hc hct => ?_, fun _ _ _ => ⟨rfl, rfl⟩,
          fun p hp => ?_, fun u p _ hp => (h.fresh u p hp).1,
          fun p x hx => .inl (Silent.wrote (.inl rfl) |>.mp hx),
          fun f hf' => ?_⟩
        (h.responsible_other hf fun _ => id)⟩
    · show m.shared.writeHead ≤ claimed + count
      omega
    · rw [(hlag c).1]
      exact h.acked_own hf hc hct
    · rw [(hlag c).2.1]
      exact h.lead_own hf hc hct
    · obtain ⟨hlo, hhi⟩ := holds_writeLoop.mp hp
      have := h.written_le
      have : b.limit = claimed + count := rfl
      have : b.claimed = claimed := rfl
      exact ⟨by show m.shared.writtenHead ≤ p; omega,
        by show p < claimed + count; omega, .inr (by omega)⟩
    · cases hf'
      refine own_writeLoop ?_ (fun j hj => absurd hj (Nat.not_lt_zero j))
        fun p hlo _ x hx => ?_
      · rw [List.length_take, Nat.zero_add]
        exact Nat.min_eq_left hlen
      · have := h.wrote_lt p x (Silent.wrote (.inl rfl) |>.mp hx)
        have : b.claimed = claimed := rfl
        omega
  · refine ⟨m.shared, some (.loadWriteHead mode items), none, A, R,
      by simp only [frameStep, if_neg heq],
      h.movePlain hf (.inl rfl) (fun _ _ => ⟨rfl, id, rfl, id⟩) fun f hf' => ?_⟩
    cases hf'
    trivial

theorem slotOf_eq (hcap : 0 < cfg.cap) (p : Nat) :
    slotOf cfg p = .ok (p % cfg.cap) := if_neg (by omega)

theorem mem_after_some {e e' : Event Item} :
    e ∈ after log (some e') ↔ e ∈ log ∨ e = e' := by
  simp [after]

theorem step_writeSlot (h : Inv cfg owner m log A R)
    (hn : 0 < cfg.consumerCount)
    (hf : m.own t = some (.writeSlot b i items)) :
    Steps cfg owner m log t (.writeSlot b i items) := by
  obtain ⟨hlen, hdone, htodo⟩ := h.own t _ hf
  have hholds : ∀ p, Holds (m.own t) p ↔ b.claimed ≤ p ∧ p < b.limit := by
    intro p
    rw [hf]
    exact Iff.rfl
  cases items with
  | nil =>
    refine ⟨m.shared, some (.advanceCompletionHead b), none, A, R, rfl,
      h.move (.inl rfl) (fun c => by rw [hf]; rfl)
        (fun c => by rw [hf]; rfl) (fun p hp => (hholds p).mpr hp)
        (fun _ hr => by rw [hf] at hr; exact hr) fun f hf' => ?_⟩
    cases hf'
    intro j hj
    rw [List.length_nil] at hlen
    obtain ⟨x, hx⟩ := hdone j (by omega)
    exact ⟨x, List.mem_append_left _ hx⟩
  | cons item items =>
    rw [List.length_cons] at hlen
    have hlimit : b.claimed + i < b.limit := by
      unfold RingBuffer.Batch.limit
      omega
    have hp : Holds (m.own t) (b.claimed + i) :=
      (hholds _).mpr ⟨Nat.le_add_right _ _, hlimit⟩
    obtain ⟨hlow, hhigh⟩ := h.fresh t _ hp
    have hheads := h.heads hn
    have hcap : 0 < cfg.cap := by omega
    have hlag := writeLoop_lag b (i + 1) items
    have hnew : ∀ y, .wrote (b.claimed + i) y ∉ log :=
      htodo _ le_rfl hlimit
    refine ⟨{ m.shared with
        data := update m.shared.data ((b.claimed + i) % cfg.cap) (some item) },
      some (writeLoop b (i + 1) items),
      some (.wrote (b.claimed + i) item), A, R,
      by simp only [frameStep, slotOf_eq hcap]; rfl,
      h.step ⟨?_, fun c hc q => ?_, h.read_le, h.received_le, h.written_le,
          h.space, fun p hp => ?_, fun p x hx => ?_, fun p x hx hp => ?_,
          h.counters⟩
        ⟨{ Grows.refl with },
          fun c hc hct => ?_, fun c hc hct => ?_, fun _ _ _ => ⟨rfl, rfl⟩,
          fun p hp => ?_, fun u p _ hp => (h.fresh u p hp).1,
          fun p x hx => ?_, fun f hf' => ?_⟩
        (h.responsible_other hf fun _ => id)⟩
    · refine h.lawful.wrote hnew ?_
      by_cases hlap : b.claimed + i < cfg.cap
      · exact .inl hlap
      · refine .inr fun c hc => (h.received c hc _).mpr ?_
        have := h.heads hc
        omega
    · simp only [mem_after_some, reduceCtorEq, or_false]
      exact h.received c hc q
    · obtain ⟨x, hx⟩ := h.written p hp
      exact ⟨x, List.mem_append_left _ hx⟩
    · rcases mem_after_some.mp hx with hx | hx
      · exact h.wrote_lt p x hx
      · cases hx
        exact hhigh
    · show update m.shared.data _ _ _ = _
      rcases mem_after_some.mp hx with hx | hx
      · have hlt := h.wrote_lt p x hx
        rw [update_of_ne]
        · exact h.slots p x hx hp
        · intro hslot
          have hpe := Inv.eq_of_slot hslot (by omega)
            (show _ < m.shared.readHead + cfg.cap by omega) hp (by omega)
          rw [hpe] at hx
          exact hnew x hx
      · cases hx
        rw [update_self]
    · rw [(hlag c).1]
      exact h.acked_own hf hc hct
    · rw [(hlag c).2.1]
      exact h.lead_own hf hc hct
    · have hp := (hholds p).mpr (holds_writeLoop.mp hp)
      exact ⟨(h.fresh t p hp).1, (h.fresh t p hp).2, .inl hp⟩
    · rcases mem_after_some.mp hx with hx | hx
      · exact .inl hx
      · cases hx
        exact .inr hp
    · cases hf'
      refine own_writeLoop (by omega) (fun j hj => ?_)
        fun p hlo hhi x hx => ?_
      · by_cases hji : j = i
        · rw [hji]
          exact ⟨item, mem_after_some.mpr (.inr rfl)⟩
        · obtain ⟨x, hx⟩ := hdone j (by omega)
          exact ⟨x, List.mem_append_left _ hx⟩
      · rcases mem_after_some.mp hx with hx | hx
        · exact htodo p (by omega) hhi x hx
        · cases hx
          omega

theorem step_advanceCompletionHead (h : Inv cfg owner m log A R)
    (hf : m.own t = some (.advanceCompletionHead b)) :
    Steps cfg owner m log t (.advanceCompletionHead b) := by
  have hdone := h.own t _ hf
  have hholds : ∀ p, Holds (m.own t) p ↔ b.claimed ≤ p ∧ p < b.limit := by
    intro p
    rw [hf]
    exact Iff.rfl
  by_cases heq : m.shared.writtenHead = b.claimed
  · have hle : m.shared.writtenHead ≤ b.limit := by
      rw [heq]
      exact Nat.le_add_right _ _
    have hlimit : b.limit ≤ m.shared.writeHead := by
      by_cases hz : b.claimed < b.limit
      · have := (h.fresh t (b.limit - 1) ((hholds _).mpr (by omega))).2
        omega
      · have := h.written_le
        omega
    have hquiet : Silent (some (.returned b.result) : Option (Event Item)) :=
      .inr ⟨_, rfl⟩
    refine ⟨{ m.shared with writtenHead := b.limit }, none,
      some (.returned b.result), A, R, by simp only [frameStep, if_pos heq],
      h.step ⟨hquiet.lawful h.lawful, fun c hc q => ?_, h.read_le,
          fun c hc => Nat.le_trans (h.received_le c hc) hle, hlimit, h.space,
          fun p hp => ?_, fun p x hx => h.wrote_lt p x (hquiet.wrote.mp hx),
          fun p x hx => h.slots p x (hquiet.wrote.mp hx), h.counters⟩
        ⟨{ Grows.refl with writtenHead := hle }, fun _ => h.acked_own hf,
          fun _ => h.lead_own hf, fun _ _ _ => ⟨rfl, rfl⟩,
          fun p => False.elim, fun u p hu hp => ?_,
          fun p x hx => .inl (hquiet.wrote.mp hx), fun _ => nofun⟩
        (h.responsible_other hf fun _ => id)⟩
    · simp only [hquiet.read]
      exact h.received c hc q
    · simp only [hquiet.wrote]
      by_cases hlt : p < b.claimed
      · exact h.written p (by omega)
      · have hp : p < b.limit := hp
        unfold RingBuffer.Batch.limit at hp
        have hx := hdone (p - b.claimed) (by omega)
        rwa [show b.claimed + (p - b.claimed) = p by omega] at hx
    · show b.limit ≤ p
      by_contra hlt
      have hlow := (h.fresh u p hp).1
      exact hu (h.exclusive u t p hp ((hholds p).mpr (by omega)))
  · by_cases hge : m.shared.writtenHead ≥ b.limit
    · exact ⟨m.shared, none, some (.returned b.result), A, R,
        by simp only [frameStep, if_neg heq, if_pos hge],
        h.move (.inr ⟨_, rfl⟩) (fun c => by rw [hf]; rfl)
          (fun c => by rw [hf]; rfl) (fun p => False.elim)
          (fun _ hr => by rw [hf] at hr; exact hr) fun _ => nofun⟩
    · refine ⟨m.shared, some (.advanceCompletionHead b), none, A, R,
        by simp only [frameStep, if_neg heq, if_neg hge],
        h.move (.inl rfl) (fun c => by rw [hf]) (fun c => by rw [hf])
          (fun p hp => (hholds p).mpr hp)
          (fun _ hr => by rw [hf] at hr; exact hr) fun f hf' => ?_⟩
      cases hf'
      exact fun j hj => (hdone j hj).imp fun x hx => List.mem_append_left _ hx

-- ==== the reads

theorem headOf_eq (hc : c < cfg.consumerCount) :
    headOf cfg c = .ok c := if_pos hc

theorem ne_headNumber {d : Nat} (hc : owner c = t) (hd : owner d ≠ t) :
    d ≠ c :=
  fun heq => hd (heq ▸ hc)

section

variable (h : Inv cfg owner m log A R)
include h

theorem step_loadMyHead (hf : m.own t = some (.loadMyHead mode c count)) :
    Steps cfg owner m log t (.loadMyHead mode c count) := by
  have hcons : Consumer cfg owner t c := h.own t _ hf
  refine ⟨m.shared, some (.checkItems mode c count (m.shared.readHeads c)),
    none, A, R, by simp only [frameStep, headOf_eq hcons.1]; rfl,
    h.movePlain hf (.inl rfl) (fun _ _ => ⟨rfl, id, rfl, id⟩) fun f hf' => ?_⟩
  cases hf'
  exact ⟨hcons, rfl⟩

theorem step_checkItems {myHead : Nat}
    (hf : m.own t = some (.checkItems mode c count myHead)) :
    Steps cfg owner m log t (.checkItems mode c count myHead) := by
  obtain ⟨hcons, hhead⟩ := h.own t _ hf
  cases hg : grant mode count (usub m.shared.writtenHead myHead) with
  | error r =>
    exact ⟨m.shared, none, some (.returned r), A, R,
      by simp only [frameStep, hg],
      h.movePlain hf (.inr ⟨_, rfl⟩) (fun _ _ => ⟨rfl, id, rfl, id⟩) nofun⟩
  | ok actual =>
    let r : ReadBatch := ⟨c, myHead, actual, resultOf actual mode⟩
    have hloop := readLoop_lag Item (Nat.zero_le r.count)
    refine ⟨m.shared, some (readLoop r 0), none, A, R,
      by simp only [frameStep, hg, r],
      h.movePlain hf (.inl rfl)
        (fun d p => ⟨rfl, id, ?_, ((hloop d).2.2 p).1⟩) fun f hf' => ?_⟩
    · rw [(hloop d).1, (hloop d).2.1, ite_self]
    · cases hf'
      refine own_readLoop ⟨hcons, hhead, ?_⟩
      -- the consumer is at most a lap behind
      have hcap := cfg.cap_lt
      have hheads := h.heads hcons.1
      have hle := (grant_le hg).2
      rw [usub_eq (by omega) (by omega)] at hle
      show myHead + actual ≤ m.shared.writtenHead
      omega

theorem step_readSlot (hf : m.own t = some (.readSlot r i)) :
    Steps cfg owner m log t (.readSlot r i) := by
  obtain ⟨hread, hi⟩ := h.own t _ hf
  obtain ⟨⟨hc, hct⟩, hhead, hlimit⟩ := hread
  have hacked := h.acked_own hf hc hct
  have hlead := h.lead_own hf hc hct
  simp only [readLead, if_true] at hacked hlead
  unfold ReadBatch.limit at hlimit
  have hheads := h.heads hc
  have hcap : 0 < cfg.cap := by omega
  obtain ⟨x, hx⟩ := h.written (r.myHead + i) (by omega)
  have hslot : m.shared.data ((r.myHead + i) % cfg.cap) = some x :=
    h.slots _ x hx (by omega)
  have hloop := readLoop_lag Item (show i + 1 ≤ r.count from hi)
  refine ⟨m.shared, some (readLoop r (i + 1)),
    some (.read r.headNumber (r.myHead + i) (some x)), A,
    update R r.headNumber (r.myHead + i + 1),
    by simp only [frameStep, slotOf_eq hcap, ok_bind, hslot]; rfl,
    h.step ⟨?_, fun d hd q => ?_, h.read_le, fun d hd => ?_, h.written_le,
        h.space, fun p hp => ?_, fun p y hy => ?_, fun p y hy => ?_,
        h.counters⟩
      ⟨.refl,
        fun d hd hdt => ?_, fun d hd hdt => ?_, fun d hd hdt => ⟨rfl, ?_⟩,
        fun p hp => absurd hp ((hloop 0).2.2 p).1,
        fun u p _ hp => (h.fresh u p hp).1, fun p y hy => ?_, fun f hf' => ?_⟩
      (h.responsible_other hf fun _ => id)⟩
  · refine h.lawful.read hc hx fun q => ?_
    rw [h.received _ hc, hlead, hhead]
  · rw [show (∃ y, Event.read d q y ∈ after log (some (.read r.headNumber
        (r.myHead + i) (some x)))) ↔ (∃ y, .read d q y ∈ log)
        ∨ d = r.headNumber ∧ q = r.myHead + i by
      simp only [mem_after_some, exists_or]
      simp, h.received d hd]
    by_cases hdr : d = r.headNumber
    · subst hdr
      rw [update_self, hlead]
      omega
    · rw [update_of_ne hdr]
      simp [hdr]
  · by_cases hdr : d = r.headNumber
    · subst hdr
      rw [update_self]
      omega
    · rw [update_of_ne hdr]
      exact h.received_le d hd
  · obtain ⟨y, hy⟩ := h.written p hp
    exact ⟨y, List.mem_append_left _ hy⟩
  · exact h.wrote_lt p y ((mem_after_some.mp hy).resolve_right nofun)
  · exact h.slots p y ((mem_after_some.mp hy).resolve_right nofun)
  · rw [(hloop d).1]
    exact h.acked_own hf hd hdt
  · rw [(hloop d).2.1]
    by_cases hdr : d = r.headNumber
    · subst hdr
      rw [update_self, if_pos rfl]
      omega
    · have hdr' : r.headNumber ≠ d := fun he => hdr he.symm
      have hd' := h.lead_own hf hd hdt
      simp only [readLead, if_neg hdr'] at hd'
      rw [update_of_ne hdr, if_neg hdr']
      exact hd'
  · rw [update_of_ne (ne_headNumber hct hdt)]
  · exact .inl ((mem_after_some.mp hy).resolve_right nofun)
  · cases hf'
    exact own_readLoop ⟨⟨hc, hct⟩, hhead, hlimit⟩

theorem step_storeMyHead (hf : m.own t = some (.storeMyHead r)) :
    Steps cfg owner m log t (.storeMyHead r) := by
  obtain ⟨⟨hc, hct⟩, hhead, hlimit⟩ := h.own t _ hf
  let s' : Shared Item :=
    { m.shared with
      readHeads := update m.shared.readHeads r.headNumber r.limit }
  obtain ⟨l, e, hloop, he, hlag, hlead, hhold, hl⟩ := ackLoop_spec s' r 0
  have hs : frameStep cfg m.shared (.storeMyHead r) = .ok (ackLoop s' r 0) := by
    simp only [frameStep, headOf_eq hc]
    rfl
  rw [hloop] at hs
  have hacked := h.acked_own hf hc hct
  simp only [ackLag] at hacked
  refine ⟨s', l, e, A, R, hs, h.step (h.leaves he le_rfl h.space)
      ⟨⟨le_rfl, le_rfl, le_rfl,
        fun _ _ => le_rfl, fun _ hx => List.mem_append_left _ hx,
        fun d hd => update_of_ne (ne_headNumber hct hd) _ _⟩,
        fun d hd hdt => ?_, fun d hd hdt => ?_, fun _ _ _ => ⟨rfl, rfl⟩,
        fun p hp => absurd hp (hhold p),
        fun u p _ hp => (h.fresh u p hp).1,
        fun p x hx => .inl (he.wrote.mp hx), fun f hf' => ?_⟩
      (h.responsible_other hf fun _ => id)⟩
  · show A d + ackLag l d = update m.shared.readHeads _ _ d
    rw [hlag]
    by_cases hdr : d = r.headNumber
    · subst hdr
      rw [update_self, if_pos rfl]
      unfold ReadBatch.limit
      omega
    · rw [update_of_ne hdr, if_neg fun he => hdr he.symm]
      exact h.acked_own hf hd hdt
  · show R d = update m.shared.readHeads _ _ d + readLead l d
    have hd' := h.lead_own hf hd hdt
    rw [hlead]
    by_cases hdr : d = r.headNumber
    · subst hdr
      simp only [readLead, if_true] at hd'
      rw [update_self]
      unfold ReadBatch.limit
      omega
    · have hdr' : r.headNumber ≠ d := fun he => hdr he.symm
      simp only [readLead, if_neg hdr'] at hd'
      rw [update_of_ne hdr]
      exact hd'
  · obtain ⟨rfl, hi⟩ := hl f hf'
    refine ⟨⟨hc, hct⟩, update_self .., hi, ?_⟩
    have := h.heads hc
    unfold ReadBatch.limit at hlimit
    omega

-- ==== the acknowledgements

/-- The position that is acknowledged is the consumer's next one, and in
the window. -/
theorem Inv.ack_window (ha : Acking cfg owner t m.shared r i)
    (hlag : ackLag (m.own t) r.headNumber = r.count - i) :
    A r.headNumber = r.myHead + i ∧ m.shared.readHead ≤ r.myHead + i
      ∧ r.myHead + i < m.shared.readHead + cfg.cap := by
  obtain ⟨⟨hc, hct⟩, hhead, hi, -⟩ := ha
  have hacked := h.acked _ hc
  have hheads := h.heads hc
  rw [hct, hhead] at hacked
  rw [hhead] at hheads
  unfold ReadBatch.limit at hacked hheads
  omega

/-- A step between two acknowledgements of one read. -/
theorem Inv.moveAck {k : Frame Item} (hk : m.own t = some k) (he : Silent e)
    (hsame : ∀ c p, (ackLag l c, readLead l c, readLead (some k) c)
      = (ackLag (some k) c, 0, 0) ∧ ¬ Holds l p)
    (hpass : Full cfg A m.shared.readHead →
      Responsible (some k) m.shared.readHead → Responsible l m.shared.readHead)
    (hown : ∀ f, l = some f → Own cfg owner t m.shared (after log e) A f) :
    Inv cfg owner ⟨m.shared, update m.own t l⟩ (after log e) A R := by
  simp only [Prod.mk.injEq] at hsame
  refine h.move he (fun c => ?_) (fun c => ?_)
    (fun p hp => absurd hp (hsame 0 p).2) (fun hfull hr => ?_) hown
  · rw [hk, (hsame c 0).1.1]
  · rw [hk, (hsame c 0).1.2.1, (hsame c 0).1.2.2]
  · rw [hk] at hr
    exact hpass hfull hr

theorem step_loadAck (hf : m.own t = some (.loadAck r i)) :
    Steps cfg owner m log t (.loadAck r i) := by
  have ha : Acking cfg owner t m.shared r i := h.own t _ hf
  refine ⟨m.shared, some (.casAck r i _), none, A, R,
    by simp only [frameStep, slotOf_eq ha.cap_pos]; rfl,
    h.moveAck hf (.inl rfl) (fun _ _ => ⟨rfl, id⟩) (fun _ => id)
      fun f hf' => ?_⟩
  cases hf'
  exact ha

/-- The acknowledgement is counted; the thread goes on with `l`. -/
theorem Inv.ack (hn' : cfg.consumerCount < 2 ^ 32) {val : Nat}
    (hf : m.own t = some (.casAck r i val))
    (hval : m.shared.ackCounters ((r.myHead + i) % cfg.cap) = val)
    (he : Silent e) (hlag : ∀ c, ackLag l c
      = if r.headNumber = c then r.count - (i + 1) else 0)
    (hlead : ∀ c, readLead l c = 0) (hhold : ∀ p, ¬ Holds l p)
    (hl : ∀ f, l = some f → f = .loadAck r (i + 1) ∧ i + 1 < r.count
      ∨ f = .loadReadHead r i)
    (hresp : ackCount (acknowledged cfg (r.myHead + i) val)
        = toUint32 cfg.consumerCount →
      l = some (.loadReadHead r i)) : Inv cfg owner
      ⟨{ m.shared with
          ackCounters := update m.shared.ackCounters ((r.myHead + i) % cfg.cap)
            (acknowledged cfg (r.myHead + i) val) },
        update m.own t l⟩ (after log e)
      (update A r.headNumber (r.myHead + i + 1)) R := by
  have ha : Acking cfg owner t m.shared r i := h.own t _ hf
  obtain ⟨hA, hlo, hhi⟩ := h.ack_window ha (by rw [hf]; exact if_pos rfl)
  obtain ⟨⟨hc, hct⟩, hhead, hi, hcap⟩ := ha
  rw [h.counters _ hlo hhi] at hval
  rw [← hval] at hresp ⊢
  obtain ⟨hnew, hlast⟩ := acknowledged_counter hcap hn' hc hA
  have hgrow : ∀ d < cfg.consumerCount,
      A d ≤ update A r.headNumber (r.myHead + i + 1) d := by
    intro d _
    by_cases hdr : d = r.headNumber
    · rw [hdr, update_self]
      omega
    · rw [update_of_ne hdr]
  refine h.step ⟨he.lawful h.lawful, fun d hd q => ?_,
      fun d hd => Nat.le_trans (h.read_le d hd) (hgrow d hd), h.received_le,
      h.written_le, h.space, fun p hp => ?_,
      fun p x hx => h.wrote_lt p x (he.wrote.mp hx),
      fun p x hx => h.slots p x (he.wrote.mp hx), fun p hp hp' => ?_⟩
    ⟨⟨le_rfl, le_rfl, le_rfl, hgrow,
      fun _ hx => List.mem_append_left _ hx, fun _ _ => rfl⟩,
      fun d hd hdt => ?_, fun d hd hdt => ?_, fun d hd hdt => ⟨?_, rfl⟩,
      fun p hp => absurd hp (hhold p), fun u p _ hp => (h.fresh u p hp).1,
      fun p x hx => .inl (he.wrote.mp hx), fun f hf' => ?_⟩
    fun hfull => ?_
  · simp only [he.read]
    exact h.received d hd q
  · simp only [he.wrote]
    exact h.written p hp
  · show update m.shared.ackCounters _ _ _ = _
    by_cases hpp : p = r.myHead + i
    · rw [hpp, update_self]
      exact hnew
    · rw [update_of_ne, counter_update_of_ne hc hA hpp]
      · exact h.counters p hp hp'
      · exact fun hslot => hpp (Inv.eq_of_slot hslot hlo hhi hp hp')
  · rw [hlag]
    by_cases hdr : d = r.headNumber
    · subst hdr
      rw [update_self, if_pos rfl, hhead]
      unfold ReadBatch.limit
      omega
    · have hdr' : r.headNumber ≠ d := fun he => hdr he.symm
      have hd' := h.acked_own hf hd hdt
      simp only [ackLag, if_neg hdr'] at hd'
      rw [update_of_ne hdr, if_neg hdr']
      exact hd'
  · rw [hlead]
    exact h.lead_own hf hd hdt
  · rw [update_of_ne (ne_headNumber hct hdt)]
  · rcases hl f hf' with ⟨rfl, hi'⟩ | rfl
    · exact ⟨⟨hc, hct⟩, hhead, hi', hcap⟩
    · exact ⟨⟨hc, hct⟩, hhead, hi, hcap⟩
  · have hfull : Full cfg (update A r.headNumber (r.myHead + i + 1))
        m.shared.readHead := hfull
    by_cases hhere : m.shared.readHead = r.myHead + i
    · -- the last acknowledgement of the head's position: this thread goes on
      rw [hhere] at hfull
      exact ⟨t, by rw [update_self, hresp (hlast.mpr hfull)]; trivial⟩
    · refine h.responsible_update (fun d hd => ?_) fun hr => ?_
      · have hd' := hfull d hd
        by_cases hdr : d = r.headNumber
        · rw [hdr] at hd'
          rw [hdr]
          omega
        · rwa [update_of_ne hdr] at hd'
      · rw [hf] at hr
        exact hr.elim

theorem step_casAck (hn' : cfg.consumerCount < 2 ^ 32) {val : Nat}
    (hf : m.own t = some (.casAck r i val)) :
    Steps cfg owner m log t (.casAck r i val) := by
  have ha : Acking cfg owner t m.shared r i := h.own t _ hf
  have hcap := ha.cap_pos
  by_cases hval : m.shared.ackCounters ((r.myHead + i) % cfg.cap) = val
  · let s' : Shared Item :=
      { m.shared with
        ackCounters := update m.shared.ackCounters ((r.myHead + i) % cfg.cap)
          (acknowledged cfg (r.myHead + i) val) }
    by_cases hlast : ackCount (acknowledged cfg (r.myHead + i) val)
        = toUint32 cfg.consumerCount
    · refine ⟨s', some (.loadReadHead r i), none, _, _, ?_,
        h.ack hn' hf hval (.inl rfl) (fun _ => rfl) (fun _ => rfl)
          (fun _ => id) (fun f hf' => ?_) fun _ => rfl⟩
      · simp only [frameStep, slotOf_eq hcap, ok_bind, if_pos hval,
          if_pos hlast]
        rfl
      · cases hf'
        exact .inr rfl
    · obtain ⟨l, e, hloop, he, hlag, hlead, hhold, hl⟩ :=
        ackLoop_spec s' r (i + 1)
      have hs : frameStep cfg m.shared (.casAck r i val)
          = .ok (ackLoop s' r (i + 1)) := by
        simp only [frameStep, slotOf_eq hcap, ok_bind, if_pos hval,
          if_neg hlast]
        rfl
      rw [hloop] at hs
      exact ⟨s', l, e, _, _, hs, h.ack hn' hf hval he hlag hlead hhold
        (fun f hf' => .inl (hl f hf')) fun hx => absurd hx hlast⟩
  · refine ⟨m.shared, some (.loadAck r i), none, A, R, ?_,
      h.moveAck hf (.inl rfl) (fun _ _ => ⟨rfl, id⟩) (fun _ => id)
        fun f hf' => ?_⟩
    · simp only [frameStep, slotOf_eq hcap, ok_bind, if_neg hval]
      rfl
    · cases hf'
      exact ha

theorem step_loadReadHead (hf : m.own t = some (.loadReadHead r i)) :
    Steps cfg owner m log t (.loadReadHead r i) := by
  refine ⟨m.shared, some (.checkAck r i m.shared.readHead), none, A, R, rfl,
    h.moveAck hf (.inl rfl) (fun _ _ => ⟨rfl, id⟩) (fun _ _ => rfl)
      fun f hf' => ?_⟩
  cases hf'
  exact ⟨h.own t _ hf, le_rfl⟩

theorem step_checkAck (hn : 0 < cfg.consumerCount)
    (hn' : cfg.consumerCount < 2 ^ 32) {current : Nat}
    (hf : m.own t = some (.checkAck r i current)) :
    Steps cfg owner m log t (.checkAck r i current) := by
  obtain ⟨ha, hcur⟩ := h.own t _ hf
  have hcap := ha.cap_pos
  -- where the head is, the counter tells
  have htells : current = m.shared.readHead →
      (¬ (ackGen (m.shared.ackCounters (current % cfg.cap))
            ≠ expectedGen cfg current
          ∨ ackCount (m.shared.ackCounters (current % cfg.cap))
            ≠ toUint32 cfg.consumerCount)
        ↔ Full cfg A current) := by
    intro heq
    rw [h.counters current (by omega) (by omega)]
    exact counter_full_iff hcap hn hn'
  by_cases hfail : ackGen (m.shared.ackCounters (current % cfg.cap))
        ≠ expectedGen cfg current
      ∨ ackCount (m.shared.ackCounters (current % cfg.cap))
        ≠ toUint32 cfg.consumerCount
  · obtain ⟨l, e, hloop, he, hlag, hlead, hhold, hl⟩ :=
      ackLoop_spec m.shared r (i + 1)
    have hs : frameStep cfg m.shared (.checkAck r i current)
        = .ok (ackLoop m.shared r (i + 1)) := by
      simp only [frameStep, slotOf_eq hcap, ok_bind, if_pos hfail]
      rfl
    rw [hloop] at hs
    refine ⟨m.shared, l, e, A, R, hs, h.moveAck hf he (fun c p => ?_)
      (fun hfull hr => ?_) fun f hf' => ?_⟩
    · rw [hlag, hlead]
      exact ⟨rfl, hhold p⟩
    · have hr : current = m.shared.readHead := hr
      rw [← hr] at hfull
      exact absurd hfail ((htells hr).mpr hfull)
    · obtain ⟨rfl, hi⟩ := hl f hf'
      exact ⟨ha.consumer, ha.head, hi, hcap⟩
  · refine ⟨m.shared, some (.casReadHead r i current), none, A, R, ?_,
      h.moveAck hf (.inl rfl) (fun _ _ => ⟨rfl, id⟩) (fun _ => id)
        fun f hf' => ?_⟩
    · simp only [frameStep, slotOf_eq hcap, ok_bind, if_neg hfail]
      rfl
    · cases hf'
      refine ⟨ha, ?_⟩
      by_cases heq : current = m.shared.readHead
      · exact (htells heq).mp hfail
      · intro c hc
        have := h.read_le c hc
        omega

theorem step_casReadHead (hn : 0 < cfg.consumerCount) {current : Nat}
    (hf : m.own t = some (.casReadHead r i current)) :
    Steps cfg owner m log t (.casReadHead r i current) := by
  obtain ⟨ha, hfull⟩ := h.own t _ hf
  by_cases heq : m.shared.readHead = current
  · have hspace := h.space
    have hquiet : Silent (none : Option (Event Item)) := .inl rfl
    refine ⟨{ m.shared with readHead := current + 1 },
      some (.loadReadHead r i), none, A, R,
      by simp only [frameStep, if_pos heq],
      h.step ⟨hquiet.lawful h.lawful, fun c hc q => ?_, fun c hc => hfull c hc,
          h.received_le, h.written_le, ?_, fun p hp => ?_,
          fun p x hx => h.wrote_lt p x (hquiet.wrote.mp hx),
          fun p x hx hp => ?_, fun p hlo hhi => ?_⟩
        ⟨{ Grows.refl with readHead := ?_ }, fun _ => h.acked_own hf,
          fun _ => h.lead_own hf, fun _ _ _ => ⟨rfl, rfl⟩,
          fun p => False.elim, fun u p _ hp => (h.fresh u p hp).1,
          fun p x hx => .inl (hquiet.wrote.mp hx), fun f hf' => ?_⟩
        fun _ => ⟨t, by rw [update_self]; trivial⟩⟩
    · simp only [hquiet.read]
      exact h.received c hc q
    · show m.shared.writeHead ≤ current + 1 + cfg.cap
      omega
    · simp only [hquiet.wrote]
      exact h.written p hp
    · have hp : current + 1 ≤ p := hp
      exact h.slots p x (hquiet.wrote.mp hx) (by omega)
    · have hlo : current + 1 ≤ p := hlo
      have hhi : p < current + 1 + cfg.cap := hhi
      by_cases hnew : p = current + cfg.cap
      · -- the slot of the head is now that of the next lap
        have hzero : ackers cfg.consumerCount A p = 0 := by
          unfold ackers
          rw [Finset.card_eq_zero, Finset.filter_eq_empty_iff]
          intro c hc
          have hc := Finset.mem_range.mp hc
          have := h.heads hc
          omega
        have hold := h.counters current (by omega) (by have := ha.cap_pos; omega)
        have hall := full_iff.mp hfull
        rw [hnew, Nat.add_mod_right]
        rw [hold]
        unfold counter
        rw [← hnew, hzero, if_neg (by omega), if_pos ⟨rfl, by omega⟩, hall,
          hnew, Nat.add_sub_cancel]
      · exact h.counters p (by omega) (by omega)
    · show m.shared.readHead ≤ current + 1
      omega
    · cases hf'
      exact ⟨ha.consumer, ha.head, ha.lt, ha.cap_pos⟩
  · refine ⟨m.shared, some (.loadReadHead r i), none, A, R,
      by simp only [frameStep, if_neg heq],
      h.moveAck hf (.inl rfl) (fun _ _ => ⟨rfl, id⟩) (fun _ _ => trivial)
        fun f hf' => ?_⟩
    cases hf'
    exact ha

end

end CroCOS.BroadcastRingBuffer
