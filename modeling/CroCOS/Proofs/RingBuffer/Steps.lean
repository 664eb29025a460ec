/-
Every step keeps the invariant, one lemma per frame. A claim of space
must not find the claimed positions more than `cap` ahead of `readHead`
(`NoUnderflow`); nothing else is asked of the schedule.
-/
import CroCOS.Proofs.RingBuffer.Rules

namespace CroCOS.RingBuffer

open Function Lib

variable {Item : Type} {cfg : Config} {m : Machine Item}
variable {s : Shared Item} {log : List (Event Item)}
variable {side : Side} {t : Nat}
variable {S : Side} {b : Batch} {claimed count i n p : Nat}
variable {items : List Item} {mode : WriteMode} {wait : Bool}

/-- A claim against `readHead` does not underflow: `writeHead`, as it was
loaded, is at most `cap` ahead of `readHead`. -/
def NoUnderflow (cfg : Config) (_ : Nat) (s : Shared Item) :
    Option (Frame Item) → Option (Call Item) → Prop
  | some (.checkSpace mode _ claimed), _ =>
    mode ≠ .bulkWrite → claimed ≤ s.readHead + cfg.cap
  | _, _ => True

instance (l : Option (Frame Item)) (a : Option (Call Item)) :
    Decidable (NoUnderflow cfg t s l a) := by
  unfold NoUnderflow
  split <;> infer_instance

/-- What a step of thread `t` owes. -/
def Steps (cfg : Config) (m : Machine Item) (log : List (Event Item))
    (t : Nat) (f : Frame Item) : Prop :=
  ∃ s' l' e, frameStep cfg m.shared f = .ok (s', l', e)
    ∧ Inv cfg ⟨s', update m.own t l'⟩ (after log e)

-- ==== arithmetic

/-- Two positions of one slot within `cap` of each other are one. -/
theorem eq_of_mod_eq {a b cap : Nat} (h : a % cap = b % cap) (ha : n ≤ a)
    (ha' : a < n + cap) (hb : n ≤ b) (hb' : b < n + cap) : a = b := by
  have key : ∀ {x y : Nat}, x % cap = y % cap → x ≤ y → y < x + cap →
      x = y := by
    intro x y hxy hle hlt
    have hdvd : cap ∣ y - x := (Nat.modEq_iff_dvd' hle).mp hxy
    have := Nat.eq_zero_of_dvd_of_lt hdvd (by omega)
    omega
  cases Nat.le_total a b with
  | inl hle => exact key h hle (by omega)
  | inr hle => exact (key h.symm hle (by omega)).symm

theorem one_lt_two_pow_word : 1 < 2 ^ 64 := by decide

/-- The space of a claim that does not underflow. -/
theorem available_eq {bound : Nat} (hle : bound ≤ claimed)
    (hcap : claimed ≤ bound + cfg.cap) :
    available cfg claimed bound = cfg.cap - (claimed - bound) := by
  have := cfg.cap_lt
  unfold available
  rw [usub_eq hle (by omega), usub_eq (by omega) (by omega)]

-- ==== the loops

/-- A position of the batch is its `j`th for some `j`. -/
theorem Batch.From.exists_eq (h : b.From 0 p) :
    ∃ j, j < b.count ∧ p = b.claimed + j := by
  obtain ⟨hlo, hhi⟩ := h
  unfold Batch.limit at hhi
  exact ⟨p - b.claimed, by omega, by omega⟩

theorem holds_genLoop : Holds S (some (genLoop side b i : Frame Item)) p
      ↔ S = side ∧ b.From i p := by
  unfold genLoop
  by_cases hi : i < b.count
  · rw [if_pos hi]
    exact Iff.rfl
  · rw [if_neg hi]
    refine ⟨fun h => h.elim, fun h => ?_⟩
    have := h.2.1
    have := h.2.2
    unfold Batch.limit at this
    omega

theorem holds_complete : Holds S (some (complete cfg side b : Frame Item)) p
      ↔ S = side ∧ b.From 0 p := by
  unfold complete
  split_ifs
  · exact holds_genLoop
  · exact Iff.rfl

theorem holds_writeLoop : Holds S (some (writeLoop cfg wait b i items)) p
      ↔ S = .write ∧ b.From 0 p := by
  cases items with
  | nil => exact holds_complete
  | cons x items =>
    cases wait with
    | true | false => exact Iff.rfl

theorem holds_readLoop : Holds S (some (readLoop cfg b i : Frame Item)) p
      ↔ S = .read ∧ b.From 0 p := by
  unfold readLoop
  split_ifs
  · exact Iff.rfl
  · exact holds_complete

theorem responsible_genLoop {h : Nat} :
    Responsible S (some (genLoop side b i : Frame Item)) h
      ↔ S = side ∧ b.From 0 h := by
  unfold genLoop
  split_ifs
  · exact Iff.rfl
  · exact Iff.rfl

theorem own_genLoop (h : AllDone s log side b)
    (hscan : cfg.ScanOnComplete = true) (hi : i ≤ b.count)
    (hpub : ∀ j, j < i → Published cfg s side (b.claimed + j)) :
    Own cfg s log (genLoop side b i : Frame Item) := by
  unfold genLoop
  by_cases hlt : i < b.count
  · rw [if_pos hlt]
    exact ⟨h, hscan, hlt, hpub⟩
  · rw [if_neg hlt]
    refine ⟨hscan, le_rfl, Nat.le_add_right _ _, h.limit_le,
      fun p hp => ?_⟩
    obtain ⟨j, hj, rfl⟩ := hp.exists_eq
    exact hpub j (by omega)

theorem own_complete (h : AllDone s log side b) :
    Own cfg s log (complete cfg side b : Frame Item) := by
  unfold complete
  split_ifs with hscan
  · exact own_genLoop h hscan (Nat.zero_le _) fun j hj =>
      absurd hj (Nat.not_lt_zero j)
  · exact ⟨h, Bool.not_eq_true _ ▸ hscan⟩

/-- The positions of a batch before the `i`th are done, the others are
not. -/
structure Upto (s : Shared Item) (log : List (Event Item)) (side : Side)
    (b : Batch) (i : Nat) : Prop where
  le : i ≤ b.count
  done : ∀ j, j < i → Done log side (b.claimed + j)
  todo : ∀ p, b.From i p → ¬ Done log side p
  limit_le : b.limit ≤ s.claimHead side

theorem Upto.doing (h : Upto s log side b i) (hi : i < b.count) :
    Doing log side b i := ⟨hi, h.done, h.todo⟩

theorem Upto.allDone (h : Upto s log side b i) (hi : i = b.count) :
    AllDone s log side b := by
  refine ⟨fun p hp => ?_, h.limit_le⟩
  obtain ⟨j, hj, rfl⟩ := hp.exists_eq
  exact h.done j (by omega)

theorem own_writeLoop (h : Upto s log .write b i)
    (hlen : i + items.length = b.count)
    (hspace : wait = false → b.limit ≤ s.readHead + cfg.cap) :
    Own cfg s log (writeLoop cfg wait b i items) := by
  cases items with
  | nil => exact own_complete (h.allDone hlen)
  | cons x items =>
    have hlt : i < b.count := by
      rw [List.length_cons] at hlen
      omega
    cases wait with
    | true => exact ⟨h.doing hlt, hlen⟩
    | false =>
      have hs := hspace rfl
      refine ⟨h.doing hlt, hlen, ?_, hspace⟩
      unfold Batch.limit at hs
      omega

theorem own_readLoop (h : Upto s log .read b i) :
    Own cfg s log (readLoop cfg b i : Frame Item) := by
  unfold readLoop
  by_cases hi : i < b.count
  · rw [if_pos hi]
    exact h.doing hi
  · rw [if_neg hi]
    exact own_complete (h.allDone (Nat.le_antisymm h.le (Nat.not_lt.mp hi)))

-- ==== the claims

theorem step_loadWriteHead (h : Inv cfg m log)
    (hf : m.own t = some (.loadWriteHead mode items)) :
    Steps cfg m log t (.loadWriteHead mode items) := by
  refine ⟨_, _, none, rfl, h.moveFree hf (.inl rfl)
    (fun _ _ => ⟨⟨id, id⟩, id⟩) fun f hf' => ?_⟩
  cases hf'
  exact le_rfl

theorem step_loadReadingHead (h : Inv cfg m log) {mode : ReadMode}
    (hf : m.own t = some (.loadReadingHead mode count)) :
    Steps cfg m log t (.loadReadingHead mode count) := by
  refine ⟨_, _, none, rfl, h.moveFree hf (.inl rfl)
    (fun _ _ => ⟨⟨id, id⟩, id⟩) fun f hf' => ?_⟩
  cases hf'
  exact le_rfl

theorem writeCount_le (h : writeCount mode items n = .ok count) :
    count ≤ items.length ∧ count ≤ n := by
  unfold writeCount at h
  cases mode with
  | bulkWriteBestEffort =>
    simp only at h
    split_ifs at h
    cases h
    exact ⟨Nat.min_le_left _ _, Nat.min_le_right _ _⟩
  | bulkWrite | tryBulkWrite =>
    simp only at h
    split_ifs at h with hlt
    cases h
    exact ⟨le_rfl, Nat.not_lt.mp hlt⟩

theorem readCount_le {mode : ReadMode} {actual : Nat}
    (h : readCount mode count n = .ok actual) : actual ≤ n := by
  unfold readCount at h
  cases mode with
  | bulkReadBestEffort =>
    simp only at h
    split_ifs at h
    cases h
    exact Nat.min_le_right _ _
  | tryBulkRead =>
    simp only at h
    split_ifs at h with hlt
    cases h
    exact Nat.not_lt.mp hlt

section

variable (h : Inv cfg m log)
include h

/-- A claim that finds `writeHead` unchanged fits into the space. -/
theorem claim_fits
    (hcond : mode ≠ .bulkWrite → claimed ≤ m.shared.readHead + cfg.cap)
    (hcount : count ≤ available cfg claimed (spaceBound m.shared mode))
    (heq : m.shared.writeHead = claimed) :
    claimed + count ≤ spaceBound m.shared mode + cfg.cap := by
  have h₁ := h.read_le
  have h₂ := h.reading_le
  have h₃ := h.written_le
  have h₄ := h.space
  have hbound : spaceBound m.shared mode ≤ claimed
      ∧ claimed ≤ spaceBound m.shared mode + cfg.cap := by
    cases mode with
    | bulkWrite =>
      show m.shared.readingHead ≤ claimed
        ∧ claimed ≤ m.shared.readingHead + cfg.cap
      omega
    | tryBulkWrite | bulkWriteBestEffort =>
      have := hcond (by decide)
      show m.shared.readHead ≤ claimed ∧ _
      exact ⟨by omega, this⟩
  rw [available_eq hbound.1 hbound.2] at hcount
  omega

theorem step_checkSpace (hf : m.own t = some (.checkSpace mode items claimed))
    (hcond : mode ≠ .bulkWrite → claimed ≤ m.shared.readHead + cfg.cap) :
    Steps cfg m log t (.checkSpace mode items claimed) := by
  have hown : claimed ≤ m.shared.writeHead := h.own t _ hf
  cases hc : writeCount mode items
      (available cfg claimed (spaceBound m.shared mode)) with
  | error r =>
    exact ⟨m.shared, none, some (.returned r),
      by simp only [frameStep, hc],
      h.moveFree hf (.inr ⟨r, rfl⟩) (fun _ _ => ⟨⟨id, id⟩, id⟩) nofun⟩
  | ok count =>
    obtain ⟨hlen, hcount⟩ := writeCount_le hc
    refine ⟨m.shared, some (.claimWrite mode items claimed count), none,
      by simp only [frameStep, hc], h.moveFree hf (.inl rfl)
        (fun _ _ => ⟨⟨id, id⟩, id⟩) fun f hf' => ?_⟩
    cases hf'
    exact ⟨hown, hlen, claim_fits h hcond hcount⟩

theorem step_checkItems {mode : ReadMode}
    (hf : m.own t = some (.checkItems mode count claimed)) :
    Steps cfg m log t (.checkItems mode count claimed) := by
  have hown : claimed ≤ m.shared.readingHead := h.own t _ hf
  cases hc : readCount mode count (usub m.shared.writtenHead claimed) with
  | error r =>
    exact ⟨m.shared, none, some (.returned r),
      by simp only [frameStep, hc],
      h.moveFree hf (.inr ⟨r, rfl⟩) (fun _ _ => ⟨⟨id, id⟩, id⟩) nofun⟩
  | ok actual =>
    have hcount := readCount_le hc
    refine ⟨m.shared, some (.claimRead mode count claimed actual), none,
      by simp only [frameStep, hc], h.moveFree hf (.inl rfl)
        (fun _ _ => ⟨⟨id, id⟩, id⟩) fun f hf' => ?_⟩
    cases hf'
    refine ⟨hown, fun heq => ?_⟩
    have h₁ := h.reading_le
    have h₂ := h.written_le
    have h₃ := h.space
    have := cfg.cap_lt
    rw [usub_eq (by omega) (by omega)] at hcount
    omega

/-- Nothing of a batch that has just been claimed is done. -/
theorem upto_claimed (hclaimed : m.shared.claimHead side = b.claimed)
    (hlimit : b.limit = s.claimHead side) :
    Upto s (after log none) side b 0 := by
  refine ⟨Nat.zero_le _, fun j hj => absurd hj (Nat.not_lt_zero j),
    fun p hp hd => ?_, Nat.le_of_eq hlimit⟩
  have := (h.side side).done_lt p ((Silent.done (.inl rfl) p).mp hd)
  have := hp.1
  omega

theorem step_claimWrite
    (hf : m.own t = some (.claimWrite mode items claimed count)) :
    Steps cfg m log t (.claimWrite mode items claimed count) := by
  obtain ⟨-, hlen, hfits⟩ := h.own t _ hf
  by_cases heq : m.shared.writeHead = claimed
  · have hfit := hfits heq
    have hbound : spaceBound m.shared mode ≤ m.shared.readingHead := by
      cases mode with
      | bulkWrite => exact le_rfl
      | tryBulkWrite | bulkWriteBestEffort => exact h.read_le
    have hgrow : m.shared.writeHead ≤ claimed + count := by omega
    refine ⟨{ m.shared with writeHead := claimed + count },
      some (writeLoop cfg (mode = .bulkWrite)
        ⟨claimed, count, writeResult count mode⟩ 0 (items.take count)), none,
      by simp only [frameStep, if_pos heq],
      h.silent (.inl rfl) ⟨hgrow, le_rfl, le_rfl,
          le_rfl, fun S p hp => by cases S <;> exact hp,
          fun S p => (Silent.done (.inl rfl) p).mpr⟩
        (h.claim .write hf (fun _ _ => ⟨id, id⟩) hgrow (fun S => ?_)
          fun S p => ?_)
        rfl h.reading_le ?_ fun f hf' => ?_⟩
    · cases S with
      | write => exact ⟨absurd rfl, rfl, fun _ => Iff.rfl⟩
      | read => exact ⟨fun _ => rfl, rfl, fun _ => Iff.rfl⟩
    · rw [holds_writeLoop, Batch.From]
      show _ ↔ _ ∧ m.shared.writeHead ≤ p ∧ p < claimed + count
      rw [heq]
      exact Iff.rfl
    · show claimed + count ≤ m.shared.readingHead + cfg.cap
      omega
    · cases hf'
      refine own_writeLoop (upto_claimed h heq rfl) ?_ fun hw => ?_
      · rw [List.length_take, Nat.zero_add]
        exact Nat.min_eq_left hlen
      · rw [decide_eq_false_iff_not] at hw
        cases mode with
        | bulkWrite => exact absurd rfl hw
        | tryBulkWrite | bulkWriteBestEffort => exact hfit
  · refine ⟨m.shared, some (.loadWriteHead mode items), none,
      by simp only [frameStep, if_neg heq],
      h.moveFree hf (.inl rfl) (fun _ _ => ⟨⟨id, id⟩, id⟩) fun f hf' => ?_⟩
    cases hf'
    trivial

theorem step_claimRead {mode : ReadMode} {actual : Nat}
    (hf : m.own t = some (.claimRead mode count claimed actual)) :
    Steps cfg m log t (.claimRead mode count claimed actual) := by
  obtain ⟨-, hfits⟩ := h.own t _ hf
  by_cases heq : m.shared.readingHead = claimed
  · have hfit := hfits heq
    have hgrow : m.shared.readingHead ≤ claimed + actual := by omega
    refine ⟨{ m.shared with readingHead := claimed + actual },
      some (readLoop cfg ⟨claimed, actual, readResult actual mode⟩ 0), none,
      by simp only [frameStep, if_pos heq],
      h.silent (.inl rfl) ⟨le_rfl, le_rfl, hgrow,
          le_rfl, fun S p hp => by cases S <;> exact hp,
          fun S p => (Silent.done (.inl rfl) p).mpr⟩
        (h.claim .read hf (fun _ _ => ⟨id, id⟩) hgrow (fun S => ?_)
          fun S p => ?_)
        rfl hfit ?_ fun f hf' => ?_⟩
    · cases S with
      | write => exact ⟨fun _ => rfl, rfl, fun _ => Iff.rfl⟩
      | read => exact ⟨absurd rfl, rfl, fun _ => Iff.rfl⟩
    · rw [holds_readLoop, Batch.From]
      show _ ↔ _ ∧ m.shared.readingHead ≤ p ∧ p < claimed + actual
      rw [heq]
      exact Iff.rfl
    · have := h.space
      show m.shared.writeHead ≤ claimed + actual + cfg.cap
      omega
    · cases hf'
      exact own_readLoop (upto_claimed h heq rfl)
  · refine ⟨m.shared, some (.loadReadingHead mode count), none,
      by simp only [frameStep, if_neg heq],
      h.moveFree hf (.inl rfl) (fun _ _ => ⟨⟨id, id⟩, id⟩) fun f hf' => ?_⟩
    cases hf'
    trivial

-- ==== the slots

theorem step_waitForSlotReadable
    (hf : m.own t = some (.waitForSlotReadable b i items)) :
    Steps cfg m log t (.waitForSlotReadable b i items) := by
  obtain ⟨hdoing, hlen⟩ := h.own t _ hf
  by_cases hready : b.claimed + i < cfg.cap
      ∨ b.claimed + i - cfg.cap + 1 ≤ m.shared.readHead
  · refine ⟨m.shared, some (.writeSlot true b i items), none,
      by simp only [frameStep, if_pos hready], h.move (.inl rfl)
        (fun S p => by rw [hf]; exact Iff.rfl)
        (fun S _ _ hr => by rw [hf] at hr; exact hr) fun f hf' => ?_⟩
    cases hf'
    exact ⟨hdoing, hlen, by omega, fun hx => by cases hx⟩
  · refine ⟨m.shared, some (.waitForSlotReadable b i items), none,
      by simp only [frameStep, if_neg hready], h.move (.inl rfl)
        (fun S p => by rw [hf]) (fun S _ _ hr => by rw [hf] at hr; exact hr)
        fun f hf' => ?_⟩
    cases hf'
    exact ⟨hdoing, hlen⟩

end

theorem slotOf_eq (hcap : 0 < cfg.cap) (p : Nat) :
    slotOf cfg p = .ok (p % cfg.cap) := if_neg (by omega)

/-- The next position of a batch is done. -/
theorem Doing.upto {log' : List (Event Item)} (h : Doing log side b i)
    (hlimit : b.limit ≤ s.claimHead side) (hdone : ∀ S q, Done log' S q
      ↔ Done log S q ∨ S = side ∧ q = b.claimed + i) :
    Upto s log' side b (i + 1) := by
  refine ⟨h.lt, fun j hj => ?_, fun p hp hd => ?_, hlimit⟩
  · rw [hdone]
    by_cases hji : j = i
    · exact .inr ⟨rfl, by rw [hji]⟩
    · exact .inl (h.done j (by omega))
  · obtain ⟨hlo, hhi⟩ := hp
    rcases (hdone side p).mp hd with hx | ⟨-, hx⟩
    · exact h.todo p ⟨by omega, hhi⟩ hx
    · omega

/-- The position to be done next is one of the batch. -/
theorem Doing.from (h : Doing log side b i) : b.From 0 (b.claimed + i) := by
  have := h.lt
  unfold Batch.From Batch.limit
  omega

theorem Doing.fresh (h : Doing log side b i) :
    ¬ Done log side (b.claimed + i) := by
  have := h.lt
  refine h.todo _ ?_
  unfold Batch.From Batch.limit
  omega

/-- A batch of which something is held ends below the claim head. -/
theorem Inv.limit_le (h : Inv cfg m log)
    (hb : ∀ p, b.From 0 p → Holds side (m.own t) p) (hpos : 0 < b.count) :
    b.limit ≤ m.shared.claimHead side := by
  have hlast : b.From 0 (b.limit - 1) := by
    unfold Batch.From Batch.limit
    omega
  have := ((h.side side).fresh t _ (hb _ hlast)).1
  omega

theorem done_wrote {x : Item} (S : Side) (q : Nat) :
    Done (after log (some (.wrote p x))) S q
      ↔ Done log S q ∨ S = .write ∧ q = p := by
  cases S with
  | write => simp [Done, after, exists_or]
  | read => simp [Done, after]

theorem done_read {x : Option Item} (S : Side) (q : Nat) :
    Done (after log (some (.read p x))) S q
      ↔ Done log S q ∨ S = .read ∧ q = p := by
  cases S with
  | write => simp [Done, after]
  | read => simp [Done, after, exists_or]

/-- What is written goes to a slot whose last item has been read. -/
theorem Inv.lawful_wrote (h : Inv cfg m log) (x : Item)
    (hfresh : ¬ Done log .write p)
    (hspace : p < m.shared.readHead + cfg.cap) :
    Lawful cfg.cap (after log (some (.wrote p x))) := by
  refine h.lawful.wrote (fun y hy => hfresh ⟨y, hy⟩) ?_
  by_cases hlt : p < cfg.cap
  · exact .inl hlt
  · exact .inr ((h.side .read).done_of _ ((h.side .read).below (p - cfg.cap)
      (by show _ < m.shared.readHead; omega)))

theorem step_writeSlot (h : Inv cfg m log)
    (hf : m.own t = some (.writeSlot wait b i items)) :
    Steps cfg m log t (.writeSlot wait b i items) := by
  obtain ⟨hdoing, hlen, hspace, hwait⟩ := h.own t _ hf
  cases items with
  | nil =>
    have := hdoing.lt
    rw [List.length_nil] at hlen
    omega
  | cons x items =>
    have hheld : ∀ p, b.From 0 p → Holds .write (m.own t) p := by
      intro p hp
      rw [hf]
      exact ⟨rfl, hp⟩
    have hp := hheld _ hdoing.from
    have hcap := h.cap_pos hp
    have hge : m.shared.writtenHead ≤ b.claimed + i :=
      (h.side .write).held_ge hp
    have hlimit := h.limit_le hheld (by have := hdoing.lt; omega)
    have h₁ := h.read_le
    have h₂ := h.reading_le
    have hpub : ∀ S q, Published cfg { m.shared with
        buffer := update m.shared.buffer
          ((b.claimed + i) % cfg.cap) (some x) } S q
        ↔ Published cfg m.shared S q := by
      intro S q
      cases S <;> exact Iff.rfl
    refine ⟨{ m.shared with
        buffer := update m.shared.buffer ((b.claimed + i) % cfg.cap) (some x) },
      some (writeLoop cfg wait b (i + 1) items),
      some (.wrote (b.claimed + i) x),
      by simp only [frameStep, slotOf_eq hcap]; rfl,
      h.step ⟨le_rfl, le_rfl, le_rfl, le_rfl,
          fun S q => (hpub S q).mpr, fun S q hq =>
            (done_wrote S q).mpr (.inl hq)⟩
        (h.lawful_wrote x hdoing.fresh hspace)
        (h.access .write hp done_wrote (fun S => by cases S <;> rfl)
          (fun S => by cases S <;> rfl) hpub (fun S q => ?_)
          (fun S q => by rw [hf]; exact id))
        h.reading_le h.space (fun q hq => ?_) (fun q y hy hq => ?_)
        (fun f hf' => ?_) (fun S q hq => ?_)⟩
    · rw [hf]
      exact holds_writeLoop
    · rcases (done_wrote _ q).mp hq with hx | ⟨-, rfl⟩
      · exact h.window q hx
      · exact hspace
    · -- another position of the same slot is outside the window
      have hq : m.shared.readHead ≤ q := hq
      unfold after at hy
      rw [Option.toList_some, List.mem_append, List.mem_singleton] at hy
      show update m.shared.buffer _ (some x) (q % cfg.cap) = _
      cases hy with
      | inr hy =>
        cases hy
        rw [update_self]
      | inl hy =>
        have hne : q % cfg.cap ≠ (b.claimed + i) % cfg.cap := by
          intro hmod
          have := eq_of_mod_eq hmod hq (h.window q ⟨y, hy⟩) (by omega) hspace
          rw [this] at hy
          exact hdoing.fresh ⟨y, hy⟩
        rw [update_of_ne hne]
        exact h.slots q y hy hq
    · cases hf'
      rw [List.length_cons] at hlen
      exact own_writeLoop (hdoing.upto hlimit done_wrote) (by omega) hwait
    · rcases (done_wrote S q).mp hq with hx | ⟨rfl, rfl⟩
      · exact .inl hx
      · exact .inr hp

theorem step_readSlot (h : Inv cfg m log)
    (hf : m.own t = some (.readSlot b i)) :
    Steps cfg m log t (.readSlot b i) := by
  have hdoing : Doing log .read b i := h.own t _ hf
  have hheld : ∀ p, b.From 0 p → Holds .read (m.own t) p := by
    intro p hp
    rw [hf]
    exact ⟨rfl, hp⟩
  have hp := hheld _ hdoing.from
  have hcap := h.cap_pos hp
  have hge : m.shared.readHead ≤ b.claimed + i :=
    (h.side .read).held_ge hp
  have hlimit := h.limit_le hheld (by have := hdoing.lt; omega)
  -- the position was published by its writer before it was claimed
  have hlt : b.claimed + i < m.shared.readingHead :=
    ((h.side .read).fresh t _ hp).1
  obtain ⟨x, hx⟩ := (h.side .write).done_of _ ((h.side .write).below
    (b.claimed + i) (Nat.lt_of_lt_of_le hlt h.reading_le))
  have hslot := h.slots _ x hx hge
  refine ⟨m.shared, some (readLoop cfg b (i + 1)),
    some (.read (b.claimed + i) (some x)),
    by simp only [frameStep, slotOf_eq hcap, ← hslot]; rfl,
    h.step ⟨le_rfl, le_rfl, le_rfl, le_rfl,
        fun S q hq => hq, fun S q hq => (done_read S q).mpr (.inl hq)⟩
      (h.lawful.read hx fun y hy => hdoing.fresh ⟨y, hy⟩)
      (h.access .read hp done_read (fun S => rfl) (fun S => rfl)
        (fun S q => Iff.rfl) (fun S q => ?_)
        (fun S q => by rw [hf]; exact id))
      h.reading_le h.space (fun q hq => ?_) (fun q y hy hq => ?_)
      (fun f hf' => ?_) (fun S q hq => ?_)⟩
  · rw [hf]
    exact holds_readLoop
  · rcases (done_read _ q).mp hq with hx | ⟨hx, -⟩
    · exact h.window q hx
    · cases hx
  · unfold after at hy
    rw [Option.toList_some, List.mem_append, List.mem_singleton] at hy
    cases hy with
    | inl hy => exact h.slots q y hy hq
    | inr hy => cases hy
  · cases hf'
    exact own_readLoop (hdoing.upto hlimit done_read)
  · rcases (done_read S q).mp hq with hx | ⟨rfl, rfl⟩
    · exact .inl hx
    · exact .inr hp

end CroCOS.RingBuffer
