/-
The table as a partial function. `Represents t f` says that the slots
of `t` hold exactly the graph of `f : K → Option E`, that the buffer
probes, and that `count` counts. Each mutation of the source is one
lemma: a pointwise update of `f`.

`MeetsLoadLimit` is the condition under which a probe of the buffer
returns at all: some slot was never used, or the key is held. Nothing
in the source maintains it — `resizeIfNecessary` looks at `count`
alone, and removals leave tombstones that neither count nor end a
walk — so the calls carry it as a hypothesis, and Calls.lean shows it
to be exact.
-/
import CroCOS.Proofs.HashTable.Resize

namespace CroCOS.HashTable

open Function

variable {K E : Type _}
variable {hasher : K → Nat} {extractor : E → K}
variable {e : Entry E} {i : Nat} {k : K} {v : E}
variable {t' : IndexedHashTable E}

-- ==== the representation

/-- The table holds exactly the graph of `f`. -/
structure Represents (hasher : K → Nat) (extractor : E → K)
    (t : IndexedHashTable E) (f : K → Option E) : Prop where
  buffer : t.entryBuffer.isSome = true
  probing : Probing hasher extractor t.entries
  count_eq : t.count = occupancy t.entries
  content : ∀ k v, f k = some v
    ↔ Entry.occupied v ∈ t.entries ∧ extractor v = k

/-- The value in a slot. -/
def Entry.value : Entry E → Option E
  | .occupied v => some v
  | _ => none

/-- A probe for `key` returns: some slot is empty, or one holds it. -/
def MeetsLoadLimit (extractor : E → K) (t : IndexedHashTable E)
    (key : K) : Prop :=
  HasEmpty t.entries ∨ Held extractor t.entries key

/-- The first thing `_insert` does is resize, and a resized buffer has
an empty slot; only a call that does not resize can miss the limit. -/
def InsertMeetsLoadLimit (extractor : E → K) (t : IndexedHashTable E)
    (key : K) : Prop :=
  (newCapacityFor t.capacity t.count).isSome = true
    ∨ MeetsLoadLimit extractor t key

variable {t : IndexedHashTable E} {f : K → Option E}

theorem Represents.held_iff (h : Represents hasher extractor t f) :
    Held extractor t.entries k ↔ ∃ v, f k = some v := by
  rw [held_iff_mem]
  constructor
  · rintro ⟨v, hv⟩
    exact ⟨v, (h.content k v).mpr hv⟩
  · rintro ⟨v, hv⟩
    exact ⟨v, (h.content k v).mp hv⟩

theorem Represents.absent (h : Represents hasher extractor t f)
    (hf : f k = none) : ¬ Held extractor t.entries k := by
  rw [h.held_iff]
  rintro ⟨v, hv⟩
  rw [hf] at hv
  cases hv

theorem Represents.count_le (h : Represents hasher extractor t f) :
    t.count ≤ t.capacity := by
  rw [h.count_eq]
  exact List.countP_le_length

theorem Represents.empty_of_none (h : Represents hasher extractor t f)
    (hf : f k = none) (hlim : MeetsLoadLimit extractor t k) :
    HasEmpty t.entries :=
  hlim.resolve_right (h.absent hf)

/-- Writing through the buffer, read back. -/
theorem entries_setEntry (t : IndexedHashTable E) (i : Nat) (e : Entry E) :
    (t.setEntry i e).entries = t.entries.set i e := by
  unfold IndexedHashTable.setEntry IndexedHashTable.entries
  cases t.entryBuffer with
  | none => simp
  | some es => rfl

theorem isSome_setEntry (i : Nat) (e : Entry E)
    (h : t.entryBuffer.isSome = true) :
    (t.setEntry i e).entryBuffer.isSome = true := by
  unfold IndexedHashTable.setEntry
  simpa using h

/-- A fresh table represents nothing. -/
theorem represents_create (n : Nat) : Represents hasher extractor
      (IndexedHashTable.create n) fun _ => none := by
  have hre := rehashed_nil hasher extractor n
  refine ⟨rfl, hre.probing, ?_, fun k v => ?_⟩
  · exact hre.occupancy_eq.symm
  · constructor
    · intro h; cases h
    · rintro ⟨hv, -⟩
      have := (hre.mem_iff v).mp hv
      simp at this

-- ==== resizing

/-- A rehash represents the same function, with a slot to spare. -/
theorem Rehashed.represents (h : Represents hasher extractor t f)
    (hre : Rehashed hasher extractor t.entries t'.entries)
    (hcount : t'.count = t.count) (hsome : t'.entryBuffer.isSome = true) :
    Represents hasher extractor t' f := by
  refine ⟨hsome, hre.probing, ?_, fun k v => ?_⟩
  · rw [hcount, h.count_eq, hre.occupancy_eq]
  · rw [h.content, hre.mem_iff]

theorem Rehashed.hasEmpty (hre : Rehashed hasher extractor t.entries t'.entries)
    (hroom : occupancy t.entries < t'.capacity) : HasEmpty t'.entries := by
  refine hasEmpty_of_occupancy_lt hre.no_tomb ?_
  rw [hre.occupancy_eq]
  exact hroom

/-- `resizeIfNecessary` on a well-kept table. -/
theorem Represents.resizeIfNecessary (h : Represents hasher extractor t f) :
    ∃ t' moved, HashTable.resizeIfNecessary hasher extractor t
        = .ok (t', moved)
      ∧ Represents hasher extractor t' f ∧ t'.count = t.count
      ∧ (moved = false → t' = t)
      ∧ (moved = true → HasEmpty t'.entries) := by
  obtain ⟨t', moved, hr, hcount, hsame, hmove⟩ :=
    resizeIfNecessary_spec h.probing (Nat.le_of_eq h.count_eq.symm) h.count_le
  refine ⟨t', moved, hr, ?_, hcount, hsame, ?_⟩
  · cases moved with
    | false => rw [hsame rfl]; exact h
    | true =>
      obtain ⟨hre, -, hsome⟩ := hmove rfl
      exact hre.represents h hcount hsome
  · intro hm
    obtain ⟨hre, hlt, -⟩ := hmove hm
    exact hre.hasEmpty (by rw [← h.count_eq]; exact hlt)

-- ==== rewritten slots

/-- What a rewritten slot does to membership: the old value of the slot
goes, everything else stays. -/
theorem mem_set_held (hp : Probing hasher extractor t.entries) {w : E}
    (hi : t.entries[i]? = some (.occupied v)) :
    Entry.occupied w ∈ t.entries.set i e
      ↔ e = .occupied w
        ∨ (Entry.occupied w ∈ t.entries ∧ extractor w ≠ extractor v) := by
  simp only [List.mem_iff_getElem?, read_set hi]
  constructor
  · rintro ⟨j, ⟨-, h⟩ | ⟨hji, h⟩⟩
    · exact .inl h.symm
    · exact .inr ⟨⟨j, h⟩, fun hk => hji (hp.inj h hi hk)⟩
  · rintro (rfl | ⟨⟨j, h⟩, hne⟩)
    · exact ⟨i, .inl ⟨rfl, rfl⟩⟩
    · refine ⟨j, .inr ⟨?_, h⟩⟩
      rintro rfl
      rw [hi] at h
      cases h
      exact hne rfl

/-- Rewriting a held slot with a non-empty entry of the same key, or
with a tombstone, keeps the contract. -/
theorem Probing.rewrite {es : List (Entry E)}
    (hp : Probing hasher extractor es) (hi : es[i]? = some (.occupied v))
    (hne : e ≠ .empty)
    (hk : ∀ w, e = .occupied w → extractor w = extractor v) :
    Probing hasher extractor (es.set i e) := by
  -- every occupied slot of the new buffer was occupied under its key
  have hread : ∀ {j : Nat} {w : E}, (es.set i e)[j]? = some (.occupied w) →
      ∃ w₀, es[j]? = some (.occupied w₀) ∧ extractor w = extractor w₀ := by
    intro j w hj
    rcases (read_set hi).mp hj with ⟨rfl, hw⟩ | ⟨-, hj⟩
    · exact ⟨v, hi, hk w hw.symm⟩
    · exact ⟨w, hj, rfl⟩
  constructor
  · intro a b x y ha hb hxy
    obtain ⟨x₀, ha₀, hx⟩ := hread ha
    obtain ⟨y₀, hb₀, hy⟩ := hread hb
    exact hp.inj ha₀ hb₀ (by rw [← hx, hxy, hy])
  · intro j w hj d hd hempty
    obtain ⟨w₀, hj₀, hw⟩ := hread hj
    rw [List.length_set, hw] at hd hempty
    rcases (read_set hi).mp hempty with ⟨-, h⟩ | ⟨-, hempty⟩
    · exact hne h.symm
    · exact hp.reach hj₀ d hd hempty

-- ==== the probes

variable [DecidableEq K]

/-- Probing a held key. -/
theorem Represents.probe_some (h : Represents hasher extractor t f)
    (hf : f k = some v) : ∃ i, probeEntry hasher extractor t k = .ok i
      ∧ t.entries[i]? = some (.occupied v) := by
  obtain ⟨i, w, hi, hw, hk⟩ := probe_held h.probing (h.held_iff.mpr ⟨v, hf⟩)
  have : f k = some w :=
    (h.content k w).mpr ⟨List.mem_of_getElem? hw, hk⟩
  rw [hf] at this
  injection this with this
  exact ⟨i, hi, by rw [this]; exact hw⟩

/-- Meeting the limit, a probe finds the slot that tells the value. -/
theorem Represents.probe (h : Represents hasher extractor t f)
    (hlim : MeetsLoadLimit extractor t k) :
    ∃ i e, probeEntry hasher extractor t k = .ok i
      ∧ t.entries[i]? = some e ∧ e.value = f k := by
  cases hf : f k with
  | some v =>
    obtain ⟨i, hi, hv⟩ := h.probe_some hf
    exact ⟨i, _, hi, hv, rfl⟩
  | none =>
    obtain ⟨i, e, hi, he, hocc, -⟩ := probe_absent hasher
      (h.absent hf) (h.empty_of_none hf hlim)
    refine ⟨i, e, hi, he, ?_⟩
    cases e with
    | occupied v => cases hocc
    | empty | tombstone => rfl

/-- Missing the limit, a probe does not return. -/
theorem probe_error (hasher : K → Nat) (hlim : ¬ MeetsLoadLimit extractor t k) :
    ∃ e, probeEntry hasher extractor t k = .error e :=
  probe_exhausted (fun h => hlim (Or.inr h)) (fun h => hlim (Or.inl h))

-- ==== the mutations

/-- Storing an absent key where its probe ended. -/
theorem Represents.setFree (h : Represents hasher extractor t f)
    (hf : f k = none) (hk : extractor v = k) (hi : t.entries[i]? = some e)
    (hocc : e.isOccupied = false)
    (hwalk : ∀ d < walkDist t.capacity (hasher k % t.capacity) i,
      t.entries[at_ t.capacity (hasher k % t.capacity) d]? ≠ some .empty) :
    Represents hasher extractor
      { t.setEntry i (.occupied v) with count := t.count + 1 }
      (update f k (some v)) := by
  subst hk
  have habs := h.absent hf
  have hent : ({ t.setEntry i (.occupied v) with
      count := t.count + 1 } : IndexedHashTable E).entries
      = t.entries.set i (.occupied v) := entries_setEntry t i _
  refine ⟨isSome_setEntry _ _ h.buffer, ?_, ?_, fun k w => ?_⟩
  · rw [hent]
    exact h.probing.place hi habs hwalk
  · rw [hent, occupancy_set_free hi hocc, ← h.count_eq]
  · rw [hent, mem_set_free hi hocc]
    by_cases hkv : k = extractor v
    · subst hkv
      rw [update_self]
      constructor
      · intro hw
        injection hw with hw
        exact ⟨Or.inl hw.symm, by rw [hw]⟩
      · rintro ⟨rfl | hw, hk⟩
        · rfl
        · exact (habs (held_iff_mem.mpr ⟨w, hw, hk⟩)).elim
    · rw [update_of_ne hkv, h.content]
      constructor
      · rintro ⟨hw, hk⟩
        exact ⟨Or.inr hw, hk⟩
      · rintro ⟨rfl | hw, hk⟩
        · exact (hkv hk.symm).elim
        · exact ⟨hw, hk⟩

/-- Rewriting the slot of a held key, with a value of the same key or a
tombstone. -/
theorem Represents.rewrite (h : Represents hasher extractor t f) {n : Nat}
    (hi : t.entries[i]? = some (.occupied v)) (hne : e ≠ .empty)
    (hk : ∀ w, e = .occupied w → extractor w = extractor v)
    (hn : n = occupancy (t.entries.set i e)) : Represents hasher extractor
      { t.setEntry i e with count := n }
      (update f (extractor v) e.value) := by
  have hent : ({ t.setEntry i e with count := n }
      : IndexedHashTable E).entries = t.entries.set i e :=
    entries_setEntry t i e
  have hvalue : ∀ x, e.value = some x ↔ e = .occupied x := by
    intro x
    cases e with
    | occupied w => exact ⟨fun h => by cases h; rfl, fun h => by cases h; rfl⟩
    | empty | tombstone => simp [Entry.value]
  refine ⟨isSome_setEntry _ _ h.buffer, ?_, ?_, fun k x => ?_⟩
  · rw [hent]
    exact h.probing.rewrite hi hne hk
  · rw [hent]
    exact hn
  · rw [hent, mem_set_held h.probing hi]
    by_cases hkv : k = extractor v
    · subst hkv
      rw [update_self, hvalue]
      constructor
      · intro hx
        exact ⟨Or.inl hx, hk x hx⟩
      · rintro ⟨hx | ⟨-, hne⟩, hk⟩
        · exact hx
        · exact (hne hk).elim
    · rw [update_of_ne hkv, h.content]
      constructor
      · rintro ⟨hx, hk⟩
        exact ⟨Or.inr ⟨hx, fun hk' => hkv (by rw [← hk, hk'])⟩, hk⟩
      · rintro ⟨hx | ⟨hx, -⟩, hxk⟩
        · exact (hkv (by rw [← hxk, hk x hx])).elim
        · exact ⟨hx, hxk⟩

/-- Overwriting a held key's value in place. -/
theorem Represents.setHeld (h : Represents hasher extractor t f) {w : E}
    (hi : t.entries[i]? = some (.occupied v))
    (hw : extractor w = extractor v) :
    Represents hasher extractor (t.setEntry i (.occupied w))
      (update f (extractor v) (some w)) := by
  refine h.rewrite hi (by simp) (fun x hx => ?_) ?_
  · injection hx with hx
    rw [← hx, hw]
  · show t.count = _
    obtain ⟨hlt, hie⟩ := List.getElem?_eq_some_iff.mp hi
    have hpos : 0 < t.entries.countP Entry.isOccupied :=
      List.countP_pos_iff.mpr ⟨_, List.mem_of_getElem? hi, rfl⟩
    rw [h.count_eq]
    unfold occupancy
    rw [List.countP_set hlt, hie]
    simp only [Entry.isOccupied, if_true]
    omega

/-- Tombstoning a held key's slot. -/
theorem Represents.setTombstone (h : Represents hasher extractor t f)
    (hi : t.entries[i]? = some (.occupied v)) : Represents hasher extractor
      { t.setEntry i .tombstone with count := t.count - 1 }
      (update f (extractor v) none) := by
  refine h.rewrite hi (by simp) (fun x hx => by cases hx) ?_
  obtain ⟨hlt, hie⟩ := List.getElem?_eq_some_iff.mp hi
  rw [h.count_eq]
  unfold occupancy
  rw [List.countP_set hlt, hie]
  simp [Entry.isOccupied]

end CroCOS.HashTable
