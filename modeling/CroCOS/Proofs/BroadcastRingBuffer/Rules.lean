/-
The arithmetic of the acknowledgement counters, and the rules by which the
steps keep the invariant. `Inv.step` is the one for any step of a thread,
from what it leaves of the buffer and what it does next; `Inv.move` is its
case for a step that changes only the latter.
-/
import CroCOS.Proofs.BroadcastRingBuffer.Invariant

namespace CroCOS.BroadcastRingBuffer

open Function Lib
open RingBuffer (Result Batch)

variable {Item : Type} {cfg : Config} {owner : Nat → Nat}
variable {m : Machine Item} {s' : Shared Item} {log log' : List (Event Item)}
variable {A A' R R' : Nat → Nat} {t : Nat} {l : Option (Frame Item)}
variable {e : Option (Event Item)}
variable {k : Option (Frame Item)}

-- ==== the counters

theorem ackGen_packAck {gen count : Nat} (hg : gen < 2 ^ 32)
    (hc : count < 2 ^ 32) : ackGen (packAck gen count) = gen := by
  unfold ackGen packAck toUint32
  omega

theorem ackCount_packAck {gen count : Nat} (hc : count < 2 ^ 32) :
    ackCount (packAck gen count) = count := by
  unfold ackCount packAck toUint32
  omega

theorem expectedGen_lt (p : Nat) : expectedGen cfg p < 2 ^ 32 :=
  Nat.mod_lt _ (by decide)

/-- The lap before has another generation. -/
theorem expectedGen_sub_ne {p : Nat} (hcap : 0 < cfg.cap)
    (hp : cfg.cap ≤ p) : expectedGen cfg (p - cfg.cap) ≠ expectedGen cfg p := by
  obtain ⟨q, rfl⟩ := Nat.exists_eq_add_of_le hp
  unfold expectedGen toUint32
  rw [Nat.add_sub_cancel_left, Nat.add_div_left _ hcap]
  omega

theorem ackers_le (n p : Nat) : ackers n A p ≤ n :=
  (Finset.card_filter_le _ _).trans_eq (Finset.card_range n)

theorem full_iff {p : Nat} :
    Full cfg A p ↔ ackers cfg.consumerCount A p = cfg.consumerCount := by
  have hall := Finset.card_filter_eq_iff (s := Finset.range cfg.consumerCount)
    (p := fun h => p < A h)
  rw [Finset.card_range] at hall
  unfold ackers Full
  rw [hall]
  simp only [Finset.mem_range]

/-- A consumer acknowledges its next position. -/
theorem ackers_update {n c p : Nat} (hc : c < n) (hp : A c = p) (q : Nat) :
    ackers n (update A c (p + 1)) q
      = ackers n A q + if q = p then 1 else 0 := by
  unfold ackers
  by_cases hq : q = p
  · subst hq
    rw [if_pos rfl, ← Finset.card_insert_of_notMem (a := c) (by simp [hp])]
    refine congrArg Finset.card (Finset.ext fun h => ?_)
    by_cases hh : h = c
    · simp [hh, hc]
    · simp [hh]
  · simp only [if_neg hq, Nat.add_zero]
    refine congrArg Finset.card (Finset.ext fun h => ?_)
    by_cases hh : h = c
    · subst hh
      simp only [Finset.mem_filter, Finset.mem_range, update_self]
      omega
    · simp [hh]

section Counter

variable {c p : Nat}

theorem counter_of_ne (hcap : 0 < cfg.cap) (hn : cfg.consumerCount < 2 ^ 32)
    (hgen : ackGen (counter cfg A p) = expectedGen cfg p) :
    counter cfg A p
      = packAck (expectedGen cfg p) (ackers cfg.consumerCount A p) := by
  unfold counter at hgen ⊢
  split_ifs at hgen ⊢ with hold
  · rw [ackGen_packAck (expectedGen_lt _) hn] at hgen
    exact absurd hgen (expectedGen_sub_ne hcap hold.2)
  · rfl

/-- The counter shows whether the position is acknowledged by all. -/
theorem counter_full_iff (hcap : 0 < cfg.cap)
    (hn : 0 < cfg.consumerCount) (hn' : cfg.consumerCount < 2 ^ 32) :
    ¬ (ackGen (counter cfg A p) ≠ expectedGen cfg p
        ∨ ackCount (counter cfg A p) ≠ toUint32 cfg.consumerCount)
      ↔ Full cfg A p := by
  have hle := ackers_le (A := A) cfg.consumerCount p
  have hcast : toUint32 cfg.consumerCount = cfg.consumerCount :=
    Nat.mod_eq_of_lt hn'
  rw [full_iff, hcast, not_or, not_not, not_not]
  constructor
  · rintro ⟨hgen, hcount⟩
    rw [counter_of_ne hcap hn' hgen, ackCount_packAck (by omega)] at hcount
    exact hcount
  · intro hall
    have hnew : counter cfg A p
        = packAck (expectedGen cfg p) (ackers cfg.consumerCount A p) :=
      if_neg fun hold => by omega
    rw [hnew, ackGen_packAck (expectedGen_lt _) (by omega),
      ackCount_packAck (by omega)]
    exact ⟨rfl, hall⟩

/-- `ackSlot` counts the acknowledgement. -/
theorem acknowledged_counter (hcap : 0 < cfg.cap)
    (hn : cfg.consumerCount < 2 ^ 32) (hc : c < cfg.consumerCount)
    (hp : A c = p) :
    acknowledged cfg p (counter cfg A p)
        = counter cfg (update A c (p + 1)) p
      ∧ (ackCount (acknowledged cfg p (counter cfg A p))
          = toUint32 cfg.consumerCount
        ↔ Full cfg (update A c (p + 1)) p) := by
  have hmore : ackers cfg.consumerCount (update A c (p + 1)) p
      = ackers cfg.consumerCount A p + 1 := by
    rw [ackers_update hc hp, if_pos rfl]
  have hle : ackers cfg.consumerCount A p + 1 ≤ cfg.consumerCount := by
    rw [← hmore]
    exact ackers_le _ _
  have hnew : counter cfg (update A c (p + 1)) p
      = packAck (expectedGen cfg p) (ackers cfg.consumerCount A p + 1) := by
    unfold counter
    rw [hmore, if_neg fun hold => by omega]
  have hval : acknowledged cfg p (counter cfg A p)
      = packAck (expectedGen cfg p) (ackers cfg.consumerCount A p + 1) := by
    unfold acknowledged
    by_cases hgen : ackGen (counter cfg A p) = expectedGen cfg p
    · have hsame := counter_of_ne hcap hn hgen
      rw [if_pos hgen, hgen, hsame, ackCount_packAck (by omega), toUint32,
        Nat.mod_eq_of_lt (by omega)]
    · -- the first acknowledgement of this lap
      rw [if_neg hgen]
      have hzero : ackers cfg.consumerCount A p = 0 := by
        by_contra hne
        have hsame : counter cfg A p = packAck (expectedGen cfg p)
            (ackers cfg.consumerCount A p) := if_neg fun hold => hne hold.1
        rw [hsame, ackGen_packAck (expectedGen_lt _) (by omega)] at hgen
        exact hgen rfl
      rw [hzero]
  refine ⟨hval.trans hnew.symm, ?_⟩
  rw [hval, ackCount_packAck (by omega), full_iff, hmore, toUint32,
    Nat.mod_eq_of_lt hn]

/-- The counters of the other positions are left alone. -/
theorem counter_update_of_ne {q : Nat} (hc : c < cfg.consumerCount)
    (hp : A c = p) (hq : q ≠ p) :
    counter cfg (update A c (p + 1)) q = counter cfg A q := by
  unfold counter
  rw [ackers_update hc hp, if_neg hq, Nat.add_zero]

end Counter

-- ==== the others

/-- What only grows, and what the other threads' consumers keep. -/
structure Grows (cfg : Config) (owner : Nat → Nat) (t : Nat)
    (s s' : Shared Item) (log log' : List (Event Item))
    (A A' : Nat → Nat) : Prop where
  writeHead : s.writeHead ≤ s'.writeHead
  writtenHead : s.writtenHead ≤ s'.writtenHead
  readHead : s.readHead ≤ s'.readHead
  acked : ∀ c < cfg.consumerCount, A c ≤ A' c
  log : ∀ e, e ∈ log → e ∈ log'
  readHeads : ∀ c, owner c ≠ t → s'.readHeads c = s.readHeads c

theorem Full.mono {p : Nat} (h : Full cfg A p)
    (hA : ∀ c < cfg.consumerCount, A c ≤ A' c) : Full cfg A' p :=
  fun c hc => Nat.lt_of_lt_of_le (h c hc) (hA c hc)

variable {s : Shared Item} {u : Nat}

theorem Reading.mono {r : ReadBatch} (h : Reading cfg owner u s r)
    (hg : Grows cfg owner t s s' log log' A A') (hu : u ≠ t) :
    Reading cfg owner u s' r :=
  ⟨h.consumer, by rw [hg.readHeads _ (h.consumer.2 ▸ hu)]; exact h.head,
    Nat.le_trans h.limit_le hg.writtenHead⟩

theorem Acking.mono {r : ReadBatch} {i : Nat} (h : Acking cfg owner u s r i)
    (hg : Grows cfg owner t s s' log log' A A') (hu : u ≠ t) :
    Acking cfg owner u s' r i :=
  ⟨h.consumer, by rw [hg.readHeads _ (h.consumer.2 ▸ hu)]; exact h.head,
    h.lt, h.cap_pos⟩

/-- What a thread knows survives a step of another, in which nothing that
it holds is written. -/
theorem Own.mono {f : Frame Item}
    (hg : Grows cfg owner t s s' log log' A A') (hu : u ≠ t)
    (hfresh : ∀ p x, Holds (some f) p → .wrote p x ∈ log' → .wrote p x ∈ log)
    (h : Own cfg owner u s log A f) : Own cfg owner u s' log' A' f := by
  cases f with
  | loadWriteHead mode items => trivial
  | checkSpace mode items claimed => exact Nat.le_trans h hg.writeHead
  | claimWrite mode items claimed count =>
    obtain ⟨h₁, h₂, h₃⟩ := h
    have := hg.writeHead
    have := hg.readHead
    refine ⟨by omega, h₂, fun he => ?_⟩
    omega
  | writeSlot b i items =>
    obtain ⟨h₁, h₂, h₃⟩ := h
    exact ⟨h₁, fun j hj => (h₂ j hj).imp fun x hx => hg.log _ hx,
      fun p hlo hhi x hx => h₃ p hlo hhi x
        (hfresh p x ⟨Nat.le_trans (Nat.le_add_right _ _) hlo, hhi⟩ hx)⟩
  | advanceCompletionHead b =>
    exact fun j hj => (h j hj).imp fun x hx => hg.log _ hx
  | loadMyHead mode c count => exact h
  | checkItems mode c count myHead =>
    exact ⟨h.1, by rw [hg.readHeads _ (h.1.2 ▸ hu)]; exact h.2⟩
  | readSlot r i => exact ⟨h.1.mono hg hu, h.2⟩
  | storeMyHead r => exact Reading.mono h hg hu
  | loadAck r i | casAck r i val | loadReadHead r i =>
    exact Acking.mono h hg hu
  | checkAck r i current =>
    exact ⟨h.1.mono hg hu, Nat.le_trans h.2 hg.readHead⟩
  | casReadHead r i current => exact ⟨h.1.mono hg hu, h.2.mono hg.acked⟩

-- ==== together

/-- What a step of thread `t` leaves of the buffer. -/
structure Leaves (cfg : Config) (m : Machine Item) (s' : Shared Item)
    (log' : List (Event Item)) (A' R' : Nat → Nat) : Prop where
  lawful : Lawful cfg log'
  received : ∀ h < cfg.consumerCount, ∀ q, (∃ y, .read h q y ∈ log') ↔ q < R' h
  read_le : ∀ h < cfg.consumerCount, s'.readHead ≤ A' h
  received_le : ∀ h < cfg.consumerCount, R' h ≤ s'.writtenHead
  written_le : s'.writtenHead ≤ s'.writeHead
  space : s'.writeHead ≤ s'.readHead + cfg.cap
  written : ∀ p < s'.writtenHead, ∃ x, .wrote p x ∈ log'
  wrote_lt : ∀ p x, .wrote p x ∈ log' → p < s'.writeHead
  slots : ∀ p x, .wrote p x ∈ log' → s'.readHead ≤ p →
    s'.data (p % cfg.cap) = some x
  counters : ∀ p, s'.readHead ≤ p → p < s'.readHead + cfg.cap →
    s'.ackCounters (p % cfg.cap) = counter cfg A' p

/-- What thread `t` does with the consumers and the claims. -/
structure Moves (cfg : Config) (owner : Nat → Nat) (t : Nat)
    (m : Machine Item) (s' : Shared Item) (l : Option (Frame Item))
    (log log' : List (Event Item)) (A A' R R' : Nat → Nat) : Prop where
  grows : Grows cfg owner t m.shared s' log log' A A'
  acked : ∀ h < cfg.consumerCount, owner h = t →
    A' h + ackLag l h = s'.readHeads h
  lead : ∀ h < cfg.consumerCount, owner h = t →
    R' h = s'.readHeads h + readLead l h
  other : ∀ h < cfg.consumerCount, owner h ≠ t → A' h = A h ∧ R' h = R h
  holds : ∀ p, Holds l p → s'.writtenHead ≤ p ∧ p < s'.writeHead
    ∧ (Holds (m.own t) p ∨ m.shared.writeHead ≤ p)
  held : ∀ u p, u ≠ t → Holds (m.own u) p → s'.writtenHead ≤ p
  wrote : ∀ p x, .wrote p x ∈ log' → .wrote p x ∈ log ∨ Holds (m.own t) p
  own : ∀ f, l = some f → Own cfg owner t s' log' A' f

theorem Inv.step (h : Inv cfg owner m log A R) (hl : Leaves cfg m s' log' A' R')
    (hm : Moves cfg owner t m s' l log log' A A' R R')
    (hresp : Full cfg A' s'.readHead →
      ∃ u, Responsible (update m.own t l u) s'.readHead) :
    Inv cfg owner ⟨s', update m.own t l⟩ log' A' R' := by
  have hother : ∀ u, u ≠ t → update m.own t l u = m.own u :=
    fun u hu => update_of_ne hu _ _
  have hself : update m.own t l t = l := update_self ..
  refine ⟨hl.lawful, hl.received, hl.read_le, fun c hc => ?_, fun c hc => ?_,
    hl.received_le, hl.written_le, hl.space, hl.written, hl.wrote_lt,
    hl.slots, hl.counters, fun u p hp => ?_, fun u v p hu hv => ?_, hresp,
    fun u f hf => ?_⟩
  · show A' c + ackLag (update m.own t l (owner c)) c = _
    by_cases hct : owner c = t
    · rw [hct, hself]
      exact hm.acked c hc hct
    · rw [hother _ hct, (hm.other c hc hct).1, h.acked c hc]
      exact (hm.grows.readHeads c hct).symm
  · show R' c = _ + readLead (update m.own t l (owner c)) c
    by_cases hct : owner c = t
    · rw [hct, hself]
      exact hm.lead c hc hct
    · rw [hother _ hct, (hm.other c hc hct).2, h.lead c hc]
      exact congrArg (· + _) (hm.grows.readHeads c hct).symm
  · have hp : Holds (update m.own t l u) p := hp
    by_cases hut : u = t
    · rw [hut, hself] at hp
      exact ⟨(hm.holds p hp).1, (hm.holds p hp).2.1⟩
    · rw [hother u hut] at hp
      exact ⟨hm.held u p hut hp,
        Nat.lt_of_lt_of_le (h.fresh u p hp).2 hm.grows.writeHead⟩
  · -- what is claimed now was held by nobody
    refine Pool.exclusive_update h.exclusive (fun w q hw hx hy => ?_) u v p hu
      hv
    rcases (hm.holds q hx).2.2 with hz | hz
    · exact hw (h.exclusive w t q hy hz)
    · have := (h.fresh w q hy).2
      omega
  · have hf : update m.own t l u = some f := hf
    by_cases hut : u = t
    · rw [hut] at hf ⊢
      rw [hself] at hf
      exact hm.own f hf
    · rw [hother u hut] at hf
      refine Own.mono hm.grows hut (fun p x hp hx => ?_) (h.own u f hf)
      rcases hm.wrote p x hx with hy | hy
      · exact hy
      · rw [← hf] at hp
        exact absurd (h.exclusive u t p hp hy) hut

/-- A responsibility is passed on by a step that keeps the head. -/
theorem Inv.responsible_update (h : Inv cfg owner m log A R)
    (hfull : Full cfg A m.shared.readHead)
    (hpass : Responsible (m.own t) m.shared.readHead →
      Responsible l m.shared.readHead) :
    ∃ u, Responsible (update m.own t l u) m.shared.readHead :=
  Pool.exists_update (P := fun k => Responsible k _) (h.responsible hfull) hpass

/-- What the moving thread owes to its consumer. -/
theorem Inv.acked_own (h : Inv cfg owner m log A R) (hk : m.own t = k)
    {c : Nat} (hc : c < cfg.consumerCount) (hct : owner c = t) :
    A c + ackLag k c = m.shared.readHeads c := by
  rw [← hk, ← hct]
  exact h.acked c hc

theorem Inv.lead_own (h : Inv cfg owner m log A R) (hk : m.own t = k)
    {c : Nat} (hc : c < cfg.consumerCount) (hct : owner c = t) :
    R c = m.shared.readHeads c + readLead k c := by
  rw [← hk, ← hct]
  exact h.lead c hc

/-- A thread that was not in charge moves. -/
theorem Inv.responsible_other (h : Inv cfg owner m log A R)
    (hk : m.own t = k) (hno : ∀ p, ¬ Responsible k p)
    (hfull : Full cfg A m.shared.readHead) :
    ∃ u, Responsible (update m.own t l u) m.shared.readHead :=
  h.responsible_update hfull fun hr => absurd (hk ▸ hr) (hno _)

/-- The step shows no access to a slot. -/
def Silent (e : Option (Event Item)) : Prop :=
  e = none ∨ ∃ r, e = some (.returned r)

theorem Silent.wrote (h : Silent e) {p : Nat} {x : Item} :
    .wrote p x ∈ after log e ↔ .wrote p x ∈ log := by
  rcases h with rfl | ⟨r, rfl⟩
  · simp [after]
  · simp [after]

theorem Silent.read (h : Silent e) {c p : Nat} {x : Option Item} :
    .read c p x ∈ after log e ↔ .read c p x ∈ log := by
  rcases h with rfl | ⟨r, rfl⟩
  · simp [after]
  · simp [after]

theorem Silent.lawful (h : Silent e) (hl : Lawful cfg log) :
    Lawful cfg (after log e) := by
  rcases h with rfl | ⟨r, rfl⟩
  · unfold after
    rw [Option.toList_none, List.append_nil]
    exact hl
  · exact hl.returned

theorem Grows.refl : Grows cfg owner t s s log (after log e) A A :=
  ⟨le_rfl, le_rfl, le_rfl, fun _ _ => le_rfl,
    fun _ hx => List.mem_append_left _ hx, fun _ _ => rfl⟩

/-- The buffer after a silent step that only may raise `writeHead`, and
move the read heads of the consumers. -/
theorem Inv.leaves (h : Inv cfg owner m log A R) (he : Silent e) {w : Nat}
    {heads : Nat → Nat} (hw : m.shared.writeHead ≤ w)
    (hw' : w ≤ m.shared.readHead + cfg.cap) :
    Leaves cfg m { m.shared with writeHead := w, readHeads := heads }
      (after log e) A R where
  lawful := he.lawful h.lawful
  received := fun c hc q => by
    simp only [he.read]
    exact h.received c hc q
  read_le := h.read_le
  received_le := h.received_le
  written_le := Nat.le_trans h.written_le hw
  space := hw'
  written := fun p hp => by
    simp only [he.wrote]
    exact h.written p hp
  wrote_lt := fun p x hx => Nat.lt_of_lt_of_le (h.wrote_lt p x (he.wrote.mp hx)) hw
  slots := fun p x hx => h.slots p x (he.wrote.mp hx)
  counters := h.counters

/-- A step that changes only what the thread does next. -/
theorem Inv.move (h : Inv cfg owner m log A R) (he : Silent e)
    (hlag : ∀ c, ackLag l c = ackLag (m.own t) c)
    (hlead : ∀ c, readLead l c = readLead (m.own t) c)
    (hhold : ∀ p, Holds l p → Holds (m.own t) p)
    (hpass : Full cfg A m.shared.readHead →
      Responsible (m.own t) m.shared.readHead →
      Responsible l m.shared.readHead)
    (hown : ∀ f, l = some f → Own cfg owner t m.shared (after log e) A f) :
    Inv cfg owner ⟨m.shared, update m.own t l⟩ (after log e) A R := by
  refine h.step (h.leaves he le_rfl h.space)
    ⟨.refl, fun c hc hct => ?_, fun c hc hct => ?_, fun _ _ _ => ⟨rfl, rfl⟩,
      fun p hp => ?_, fun u p _ hp => (h.fresh u p hp).1,
      fun p x hx => .inl (he.wrote.mp hx), hown⟩
    fun hfull => h.responsible_update hfull (hpass hfull)
  · rw [hlag]
    exact h.acked_own rfl hc hct
  · rw [hlead]
    exact h.lead_own rfl hc hct
  · have hp := hhold p hp
    exact ⟨(h.fresh t p hp).1, (h.fresh t p hp).2, .inl hp⟩

/-- Before and after the step the thread has claimed nothing and has
nothing to acknowledge. -/
theorem Inv.movePlain (h : Inv cfg owner m log A R) (hk : m.own t = k)
    (he : Silent e) (hplain : ∀ c p,
      (ackLag k c, readLead k c) = (0, 0) ∧ ¬ Responsible k p
        ∧ (ackLag l c, readLead l c) = (0, 0) ∧ ¬ Holds l p)
    (hown : ∀ f, l = some f → Own cfg owner t m.shared (after log e) A f) :
    Inv cfg owner ⟨m.shared, update m.own t l⟩ (after log e) A R := by
  simp only [Prod.mk.injEq] at hplain
  refine h.move he (fun c => ?_) (fun c => ?_)
    (fun p hp => absurd hp (hplain 0 p).2.2.2) (fun _ hr => ?_) hown
  · rw [hk, (hplain c 0).1.1, (hplain c 0).2.2.1.1]
  · rw [hk, (hplain c 0).1.2, (hplain c 0).2.2.1.2]
  · rw [hk] at hr
    exact absurd hr (hplain 0 _).2.1

end CroCOS.BroadcastRingBuffer
