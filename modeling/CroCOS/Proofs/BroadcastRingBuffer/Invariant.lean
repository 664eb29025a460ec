/-
What a broadcast ring buffer is for, as the histories it may have, and the
invariant that its steps keep.

# The consumers

`A h` is how many positions consumer `h` has acknowledged, `R h` how many
it has read. Between calls both are its read head; in a call the one lags
behind (`ackLag`), or the other is ahead (`readLead`). The positions from
`readHead` on, up to a lap, have one slot each; the counter of the slot is
`counter`: how many consumers have acknowledged the position, or, if none
has, what is left of the lap before. So a generation is never further away
than one, and 32 bits of it are enough.

# No position is left behind

A counter that becomes full at `readHead` makes its thread move the head
on, and a thread that moves the head looks at the next position.
`Responsible` says who will still look at the position of `readHead`.
-/
import CroCOS.BroadcastRingBuffer
import CroCOS.Proofs.RingBuffer.Steps

namespace CroCOS.BroadcastRingBuffer

open Lib
open RingBuffer (Result Batch)

variable {Item : Type} {cfg : Config} {owner : Nat → Nat}
variable {c : Nat}

-- ==== the histories

/-- The histories of a broadcast ring buffer: a position is written once,
and not before every consumer has read what was in its slot; a consumer
reads the positions one after the other, each once, and what it reads is
what was written there. -/
inductive Lawful (cfg : Config) : List (Event Item) → Prop
  | nil : Lawful cfg []
  | wrote {log : List (Event Item)} {p : Nat} {x : Item} :
      Lawful cfg log → (∀ y, .wrote p y ∉ log) →
      (p < cfg.cap
        ∨ ∀ h < cfg.consumerCount, ∃ y, .read h (p - cfg.cap) y ∈ log) →
      Lawful cfg (log ++ [.wrote p x])
  | read {log : List (Event Item)} {h p : Nat} {x : Item} :
      Lawful cfg log → h < cfg.consumerCount → .wrote p x ∈ log →
      (∀ q, (∃ y, .read h q y ∈ log) ↔ q < p) →
      Lawful cfg (log ++ [.read h p (some x)])
  | returned {log : List (Event Item)} {r : Result} :
      Lawful cfg log → Lawful cfg (log ++ [.returned r])

-- ==== the counters

/-- How many consumers have acknowledged the position. -/
def ackers (n : Nat) (A : Nat → Nat) (p : Nat) : Nat :=
  ((Finset.range n).filter fun h => p < A h).card

/-- All consumers have acknowledged the position. -/
def Full (cfg : Config) (A : Nat → Nat) (p : Nat) : Prop :=
  ∀ h < cfg.consumerCount, p < A h

/-- The counter of the slot of a position in the window. -/
def counter (cfg : Config) (A : Nat → Nat) (p : Nat) : Nat :=
  if ackers cfg.consumerCount A p = 0 ∧ cfg.cap ≤ p then
    packAck (expectedGen cfg (p - cfg.cap)) cfg.consumerCount
  else packAck (expectedGen cfg p) (ackers cfg.consumerCount A p)

-- ==== the threads

/-- The positions that a thread has claimed and not published. -/
def Holds : Option (Frame Item) → Nat → Prop
  | some (.writeSlot b _ _), p => b.claimed ≤ p ∧ p < b.limit
  | some (.advanceCompletionHead b), p => b.claimed ≤ p ∧ p < b.limit
  | _, _ => False

/-- How many of the positions below the read head of consumer `h` the
thread has still to acknowledge. -/
def ackLag : Option (Frame Item) → Nat → Nat
  | some (.loadAck r i), h => if r.headNumber = h then r.count - i else 0
  | some (.casAck r i _), h => if r.headNumber = h then r.count - i else 0
  | some (.loadReadHead r i), h =>
    if r.headNumber = h then r.count - (i + 1) else 0
  | some (.checkAck r i _), h =>
    if r.headNumber = h then r.count - (i + 1) else 0
  | some (.casReadHead r i _), h =>
    if r.headNumber = h then r.count - (i + 1) else 0
  | _, _ => 0

/-- How many positions from the read head of consumer `h` on the thread
has already read. -/
def readLead : Option (Frame Item) → Nat → Nat
  | some (.readSlot r i), h => if r.headNumber = h then i else 0
  | some (.storeMyHead r), h => if r.headNumber = h then r.count else 0
  | _, _ => 0

/-- The thread will still look at position `p`, if `readHead` is there. -/
def Responsible : Option (Frame Item) → Nat → Prop
  | some (.loadReadHead _ _), _ => True
  | some (.checkAck _ _ current), p => current = p
  | some (.casReadHead _ _ current), p => current = p
  | _, _ => False

/-- The thread is the one that reads for the consumer. -/
def Consumer (cfg : Config) (owner : Nat → Nat) (t h : Nat) : Prop :=
  h < cfg.consumerCount ∧ owner h = t

/-- A read that has not stored the read head. -/
structure Reading (cfg : Config) (owner : Nat → Nat) (t : Nat)
    (s : Shared Item) (r : ReadBatch) : Prop where
  consumer : Consumer cfg owner t r.headNumber
  head : s.readHeads r.headNumber = r.myHead
  limit_le : r.limit ≤ s.writtenHead

/-- A read that acknowledges its `i`th position, or has just done so. -/
structure Acking (cfg : Config) (owner : Nat → Nat) (t : Nat)
    (s : Shared Item) (r : ReadBatch) (i : Nat) : Prop where
  consumer : Consumer cfg owner t r.headNumber
  head : s.readHeads r.headNumber = r.limit
  lt : i < r.count
  cap_pos : 0 < cfg.cap

/-- What a thread knows. -/
def Own (cfg : Config) (owner : Nat → Nat) (t : Nat) (s : Shared Item)
    (log : List (Event Item)) (A : Nat → Nat) : Frame Item → Prop
  | .loadWriteHead _ _ => True
  | .checkSpace _ _ claimed => claimed ≤ s.writeHead
  | .claimWrite _ items claimed count =>
    claimed ≤ s.writeHead ∧ count ≤ items.length
      ∧ (s.writeHead = claimed → claimed + count ≤ s.readHead + cfg.cap)
  | .writeSlot b i items =>
    i + items.length = b.count
      ∧ (∀ j, j < i → ∃ x, .wrote (b.claimed + j) x ∈ log)
      ∧ ∀ p, b.claimed + i ≤ p → p < b.limit → ∀ x, .wrote p x ∉ log
  | .advanceCompletionHead b =>
    ∀ j, j < b.count → ∃ x, .wrote (b.claimed + j) x ∈ log
  | .loadMyHead _ h _ => Consumer cfg owner t h
  | .checkItems _ h _ myHead =>
    Consumer cfg owner t h ∧ s.readHeads h = myHead
  | .readSlot r i => Reading cfg owner t s r ∧ i < r.count
  | .storeMyHead r => Reading cfg owner t s r
  | .loadAck r i => Acking cfg owner t s r i
  | .casAck r i _ => Acking cfg owner t s r i
  | .loadReadHead r i => Acking cfg owner t s r i
  | .checkAck r i current =>
    Acking cfg owner t s r i ∧ current ≤ s.readHead
  | .casReadHead r i current =>
    Acking cfg owner t s r i ∧ Full cfg A current

-- ==== the invariant

structure Inv (cfg : Config) (owner : Nat → Nat) (m : Machine Item)
    (log : List (Event Item)) (A R : Nat → Nat) : Prop where
  lawful : Lawful cfg log
  received : ∀ h < cfg.consumerCount, ∀ q, (∃ y, .read h q y ∈ log) ↔ q < R h
  read_le : ∀ h < cfg.consumerCount, m.shared.readHead ≤ A h
  acked : ∀ h < cfg.consumerCount,
    A h + ackLag (m.own (owner h)) h = m.shared.readHeads h
  lead : ∀ h < cfg.consumerCount,
    R h = m.shared.readHeads h + readLead (m.own (owner h)) h
  received_le : ∀ h < cfg.consumerCount, R h ≤ m.shared.writtenHead
  written_le : m.shared.writtenHead ≤ m.shared.writeHead
  space : m.shared.writeHead ≤ m.shared.readHead + cfg.cap
  written : ∀ p < m.shared.writtenHead, ∃ x, .wrote p x ∈ log
  wrote_lt : ∀ p x, .wrote p x ∈ log → p < m.shared.writeHead
  slots : ∀ p x, .wrote p x ∈ log → m.shared.readHead ≤ p →
    m.shared.data (p % cfg.cap) = some x
  counters : ∀ p, m.shared.readHead ≤ p → p < m.shared.readHead + cfg.cap →
    m.shared.ackCounters (p % cfg.cap) = counter cfg A p
  fresh : ∀ t p, Holds (m.own t) p →
    m.shared.writtenHead ≤ p ∧ p < m.shared.writeHead
  exclusive : ∀ t u p, Holds (m.own t) p → Holds (m.own u) p → t = u
  responsible : Full cfg A m.shared.readHead →
    ∃ t, Responsible (m.own t) m.shared.readHead
  own : ∀ t f, m.own t = some f → Own cfg owner t m.shared log A f

namespace Inv

variable {m : Machine Item} {log : List (Event Item)} {A R : Nat → Nat}

/-- The heads, from a consumer's point of view. -/
theorem heads (h : Inv cfg owner m log A R) (hc : c < cfg.consumerCount) :
    m.shared.readHead ≤ A c ∧ A c ≤ m.shared.readHeads c
      ∧ m.shared.readHeads c ≤ R c ∧ R c ≤ m.shared.writtenHead
      ∧ m.shared.writtenHead ≤ m.shared.writeHead
      ∧ m.shared.writeHead ≤ m.shared.readHead + cfg.cap := by
  have hacked := h.acked c hc
  have hlead := h.lead c hc
  exact ⟨h.read_le c hc, by omega, by omega, h.received_le c hc,
    h.written_le, h.space⟩

/-- In the window a slot has one position. -/
theorem eq_of_slot {s : Shared Item} {p q : Nat}
    (h : q % cfg.cap = p % cfg.cap) (hp : s.readHead ≤ p)
    (hp' : p < s.readHead + cfg.cap) (hq : s.readHead ≤ q)
    (hq' : q < s.readHead + cfg.cap) : q = p :=
  RingBuffer.eq_of_mod_eq h hq hq' hp hp'

end Inv

theorem ackers_zero (n p : Nat) : ackers n (fun _ => 0) p = 0 := by
  simp [ackers]

theorem Inv.init (hn : 0 < cfg.consumerCount) :
    Inv cfg owner (Machine.init : Machine Item) [] (fun _ => 0)
      (fun _ => 0) where
  lawful := .nil
  received := fun h _ q => ⟨fun ⟨_, hx⟩ => (nomatch hx), fun hq => (nomatch hq)⟩
  read_le := fun _ _ => le_rfl
  acked := fun _ _ => rfl
  lead := fun _ _ => rfl
  received_le := fun _ _ => le_rfl
  written_le := le_rfl
  space := Nat.zero_le _
  written := fun p hp => (nomatch hp)
  wrote_lt := fun _ _ hx => (nomatch hx)
  slots := fun _ _ hx => (nomatch hx)
  counters := fun p _ hp => by
    have hp : p < cfg.cap := by simpa [Machine.init, Shared.init] using hp
    have hgen : p / cfg.cap = 0 := Nat.div_eq_of_lt hp
    simp [counter, ackers_zero, Nat.not_le.mpr hp, expectedGen, hgen,
      toUint32, packAck, Machine.init, Shared.init]
  fresh := fun _ _ hp => hp.elim
  exclusive := fun _ _ _ hp => hp.elim
  responsible := fun hfull => absurd (hfull 0 hn) (Nat.lt_irrefl 0)
  own := fun _ _ => nofun

end CroCOS.BroadcastRingBuffer
