/-
What a ring buffer is for, as the histories it may have, and the
invariant that its steps keep.

# The two sides

Writing and reading have the same shape: positions are claimed in
batches, each is done once (its slot written or read), then published,
and the completion head follows the published positions. `Done` reads
off the history, `Published` off the state: with generation counters a
position is published when its counter is stored, without them when the
head has passed it. `SideInv` says that a claimed position is published
or held by exactly one thread.

What ties the sides together is the window: the claims of a side are at
most `cap` ahead of its own completion head (`Inv.claim_le`). So no two
positions of one slot are ever between them.

# No position is left behind

With the scan, a thread may leave a head behind positions that are
published. `Responsible` says who still moves it: the thread that has
the head's position in its batch, or one that scans from there.
-/
import CroCOS.RingBuffer

namespace CroCOS.RingBuffer

open Lib

variable {Item : Type} {cfg : Config}
variable {side : Side}

-- ==== the histories

/-- The histories of a ring buffer: a position is written once, and not
before what was in its slot has been read; it is read once, and what is
read is what was written there. -/
inductive Lawful (cap : Nat) : List (Event Item) → Prop
  | nil : Lawful cap []
  | wrote {log : List (Event Item)} {p : Nat} {x : Item} :
      Lawful cap log → (∀ y, .wrote p y ∉ log) →
      (p < cap ∨ ∃ y, .read (p - cap) y ∈ log) →
      Lawful cap (log ++ [.wrote p x])
  | read {log : List (Event Item)} {p : Nat} {x : Item} :
      Lawful cap log → .wrote p x ∈ log → (∀ y, .read p y ∉ log) →
      Lawful cap (log ++ [.read p (some x)])
  | returned {log : List (Event Item)} {r : Result} :
      Lawful cap log → Lawful cap (log ++ [.returned r])

/-- The slot of the position has been accessed. -/
def Done (log : List (Event Item)) : Side → Nat → Prop
  | .write, p => ∃ x, .wrote p x ∈ log
  | .read, p => ∃ x, .read p x ∈ log

-- ==== the threads

/-- The head that claims are made from. -/
def Shared.claimHead (s : Shared Item) : Side → Nat
  | .write => s.writeHead
  | .read => s.readingHead

def Published (cfg : Config) (s : Shared Item) (side : Side) (p : Nat) : Prop :=
  if cfg.ScanOnComplete then
    genOf cfg p ≤ s.genCounters side (p % cfg.cap)
  else p < s.head side

/-- The positions of a batch from the `i`th on. -/
def Batch.From (b : Batch) (i p : Nat) : Prop :=
  b.claimed + i ≤ p ∧ p < b.limit

/-- The positions a thread has claimed and not published. -/
def Holds (side : Side) : Option (Frame Item) → Nat → Prop
  | some (.waitForSlotReadable b _ _), p => side = .write ∧ b.From 0 p
  | some (.writeSlot _ b _ _), p => side = .write ∧ b.From 0 p
  | some (.readSlot b _), p => side = .read ∧ b.From 0 p
  | some (.advanceCompletionHead side' b), p => side = side' ∧ b.From 0 p
  | some (.storeGen side' b i), p => side = side' ∧ b.From i p
  | _, _ => False

/-- The thread will still move the head on from `h`. -/
def Responsible (side : Side) : Option (Frame Item) → Nat → Prop
  | some (.storeGen side' b _), h => side = side' ∧ b.From 0 h
  | some (.advanceWithScan side' b _), h => side = side' ∧ b.From 0 h
  | some (.scan side' _ desired _), h => side = side' ∧ desired = h
  | some (.advanceScanned side' _ desired _), h => side = side' ∧ desired = h
  | _, _ => False

/-- The `i`th position of the batch is the next to be done. -/
structure Doing (log : List (Event Item)) (side : Side) (b : Batch)
    (i : Nat) : Prop where
  lt : i < b.count
  done : ∀ j, j < i → Done log side (b.claimed + j)
  todo : ∀ p, b.From i p → ¬ Done log side p

/-- All positions of the batch are done. -/
structure AllDone (s : Shared Item) (log : List (Event Item)) (side : Side)
    (b : Batch) : Prop where
  done : ∀ p, b.From 0 p → Done log side p
  limit_le : b.limit ≤ s.claimHead side

/-- The positions from `lo` to `hi` are published, and the head is at
`lo` or beyond. -/
structure Scanned (cfg : Config) (s : Shared Item) (side : Side)
    (lo hi : Nat) : Prop where
  le : lo ≤ hi
  head : lo ≤ s.head side
  limit_le : hi ≤ s.claimHead side
  published : ∀ p, lo ≤ p → p < hi → Published cfg s side p

/-- What a thread knows. -/
def Own (cfg : Config) (s : Shared Item) (log : List (Event Item)) :
    Frame Item → Prop
  | .loadWriteHead _ _ => True
  | .checkSpace _ _ claimed => claimed ≤ s.writeHead
  | .claimWrite mode items claimed count =>
    claimed ≤ s.writeHead ∧ count ≤ items.length
      ∧ (s.writeHead = claimed → claimed + count ≤ spaceBound s mode + cfg.cap)
  | .waitForSlotReadable b i items =>
    Doing log .write b i ∧ i + items.length = b.count
  | .writeSlot wait b i items =>
    Doing log .write b i ∧ i + items.length = b.count
      ∧ b.claimed + i < s.readHead + cfg.cap
      ∧ (wait = false → b.limit ≤ s.readHead + cfg.cap)
  | .loadReadingHead _ _ => True
  | .checkItems _ _ claimed => claimed ≤ s.readingHead
  | .claimRead _ _ claimed actual =>
    claimed ≤ s.readingHead
      ∧ (s.readingHead = claimed → claimed + actual ≤ s.writtenHead)
  | .readSlot b i => Doing log .read b i
  | .advanceCompletionHead side b =>
    AllDone s log side b ∧ cfg.ScanOnComplete = false
  | .storeGen side b i =>
    AllDone s log side b ∧ cfg.ScanOnComplete = true ∧ i < b.count
      ∧ ∀ j, j < i → Published cfg s side (b.claimed + j)
  | .advanceWithScan side b current =>
    cfg.ScanOnComplete = true ∧ b.claimed ≤ current ∧ current ≤ b.limit
      ∧ b.limit ≤ s.claimHead side
      ∧ ∀ p, b.From 0 p → Published cfg s side p
  | .scan side _ desired scanPos =>
    cfg.ScanOnComplete = true ∧ Scanned cfg s side desired scanPos
  | .advanceScanned side _ desired scanPos =>
    cfg.ScanOnComplete = true ∧ Scanned cfg s side desired scanPos

-- ==== the invariant

structure SideInv (cfg : Config) (side : Side) (m : Machine Item)
    (log : List (Event Item)) : Prop where
  done_lt : ∀ p, Done log side p → p < m.shared.claimHead side
  done_of : ∀ p, Published cfg m.shared side p → Done log side p
  below : ∀ p, p < m.shared.head side → Published cfg m.shared side p
  held : ∀ p, p < m.shared.claimHead side →
    Published cfg m.shared side p ∨ ∃ t, Holds side (m.own t) p
  fresh : ∀ t p, Holds side (m.own t) p →
    p < m.shared.claimHead side ∧ ¬ Published cfg m.shared side p
  exclusive : ∀ t u p, Holds side (m.own t) p → Holds side (m.own u) p → t = u
  responsible : cfg.ScanOnComplete = true →
    Published cfg m.shared side (m.shared.head side) →
    ∃ t, Responsible side (m.own t) (m.shared.head side)

structure Inv (cfg : Config) (m : Machine Item)
    (log : List (Event Item)) : Prop where
  lawful : Lawful cfg.cap log
  side : ∀ side, SideInv cfg side m log
  reading_le : m.shared.readingHead ≤ m.shared.writtenHead
  space : m.shared.writeHead ≤ m.shared.readingHead + cfg.cap
  window : ∀ p, Done log .write p → p < m.shared.readHead + cfg.cap
  slots : ∀ p x, .wrote p x ∈ log → m.shared.readHead ≤ p →
    m.shared.buffer (p % cfg.cap) = some x
  own : ∀ t f, m.own t = some f → Own cfg m.shared log f

theorem SideInv.head_le {m : Machine Item} {log : List (Event Item)}
    (h : SideInv cfg side m log) :
    m.shared.head side ≤ m.shared.claimHead side := by
  by_contra hlt
  have := h.done_lt _ (h.done_of _ (h.below (m.shared.claimHead side)
    (by omega)))
  omega

/-- A position that is held is in the window. -/
theorem SideInv.held_ge {m : Machine Item} {log : List (Event Item)}
    (h : SideInv cfg side m log) {t p : Nat} (hp : Holds side (m.own t) p) :
    m.shared.head side ≤ p := by
  by_contra hlt
  exact (h.fresh t p hp).2 (h.below p (by omega))

namespace Inv

variable {m : Machine Item} {log : List (Event Item)}

theorem read_le (h : Inv cfg m log) :
    m.shared.readHead ≤ m.shared.readingHead := (h.side .read).head_le

theorem written_le (h : Inv cfg m log) :
    m.shared.writtenHead ≤ m.shared.writeHead := (h.side .write).head_le

/-- The claims of a side stay within `cap` of its completion head. -/
theorem claim_le (h : Inv cfg m log) (side : Side) :
    m.shared.claimHead side ≤ m.shared.head side + cfg.cap := by
  cases side with
  | write =>
    have h₁ := h.space
    have h₂ := h.reading_le
    show m.shared.writeHead ≤ m.shared.writtenHead + cfg.cap
    omega
  | read =>
    -- the last position claimed has been written
    show m.shared.readingHead ≤ m.shared.readHead + cfg.cap
    by_contra hlt
    have hw := (h.side .write).done_of _ ((h.side .write).below
      (m.shared.readHead + cfg.cap) (by
        show _ < m.shared.writtenHead
        have := h.reading_le
        omega))
    have := h.window _ hw
    omega

theorem cap_pos (h : Inv cfg m log) {t p : Nat}
    (hp : Holds side (m.own t) p) : 0 < cfg.cap := by
  have h₁ := (h.side side).held_ge hp
  have h₂ := ((h.side side).fresh t p hp).1
  have h₃ := h.claim_le side
  omega

end Inv

theorem Inv.init : Inv cfg (Machine.init : Machine Item) [] where
  lawful := .nil
  side := by
    intro side
    have hpub : ∀ p, ¬ Published cfg (Machine.init : Machine Item).shared
        side p := by
      intro p hp
      unfold Published at hp
      cases side with
      | write | read =>
        split_ifs at hp
        · exact absurd hp (Nat.not_succ_le_zero _)
        · exact absurd hp (Nat.not_lt_zero _)
    have hclaim : (Machine.init : Machine Item).shared.claimHead side = 0 := by
      cases side <;> rfl
    have hhead : (Machine.init : Machine Item).shared.head side = 0 := by
      cases side <;> rfl
    refine ⟨fun p hp => ?_, fun p hp => absurd hp (hpub p), fun p hp => ?_,
      fun p hp => ?_, fun t p hp => hp.elim, fun t u p hp => hp.elim,
      fun _ hp => absurd hp (hpub _)⟩
    · cases side with
      | write | read => obtain ⟨x, hx⟩ := hp; cases hx
    · rw [hhead] at hp
      omega
    · rw [hclaim] at hp
      omega
  reading_le := le_rfl
  space := Nat.zero_le _
  window := fun p hp => by
    obtain ⟨x, hx⟩ := hp
    cases hx
  slots := fun p x hx => by cases hx
  own := fun t f hf => by cases hf

end CroCOS.RingBuffer
