/-
Rehashing keeps the contents and restores slack. A resize drops every
tombstone, so the table it leaves has an empty slot as soon as the new
capacity exceeds the number of occupied entries — the one place where
the probe's escape hatch is renewed.

`Probing.place` is the single mutation lemma (storing a key at the end
of its walk keeps `Probing`), shared by the rehash loop here and by the
inserting calls of Calls.lean.
-/
import CroCOS.Proofs.HashTable.Probe

namespace CroCOS.HashTable

variable {K E : Type _}
variable {hasher : K → Nat} {extractor : E → K}
variable {e : Entry E} {es : List (Entry E)} {i : Nat} {v : E}

-- ==== buffer algebra

/-- The number of occupied slots. -/
def occupancy (es : List (Entry E)) : Nat := es.countP Entry.isOccupied

/-- `Held`, by membership. -/
theorem held_iff_mem {key : K} : Held extractor es key
      ↔ ∃ v, Entry.occupied v ∈ es ∧ extractor v = key := by
  constructor
  · rintro ⟨i, v, hv, hk⟩
    exact ⟨v, List.mem_of_getElem? hv, hk⟩
  · rintro ⟨v, hv, hk⟩
    obtain ⟨i, hi⟩ := List.getElem?_of_mem hv
    exact ⟨i, v, hi, hk⟩

/-- A buffer that is neither full of values nor carrying tombstones
has an empty slot. -/
theorem hasEmpty_of_occupancy_lt (htomb : Entry.tombstone ∉ es)
    (hlt : occupancy es < es.length) : HasEmpty es := by
  obtain ⟨e, he, hocc⟩ := List.countP_lt_length_iff.mp hlt
  cases e with
  | empty => exact he
  | tombstone => exact (htomb he).elim
  | occupied v => cases hocc

/-- A buffer with one slot written, read slot by slot. -/
theorem read_set {e' x : Entry E} {j : Nat} (hi : es[i]? = some e) :
    (es.set i e')[j]? = some x
      ↔ (j = i ∧ x = e') ∨ (j ≠ i ∧ es[j]? = some x) := by
  have hlt : i < es.length := (List.getElem?_eq_some_iff.mp hi).1
  by_cases hij : j = i
  · subst hij
    simp [hlt, eq_comm]
  · simp [List.getElem?_set_ne (Ne.symm hij), hij]

/-- Storing a value in a free slot adds it to the contents. -/
theorem mem_set_free {w : E} (hi : es[i]? = some e)
    (hocc : e.isOccupied = false) :
    Entry.occupied w ∈ es.set i (.occupied v)
      ↔ w = v ∨ Entry.occupied w ∈ es := by
  simp only [List.mem_iff_getElem?, read_set hi]
  constructor
  · rintro ⟨j, ⟨-, h⟩ | ⟨-, h⟩⟩
    · exact .inl (Entry.occupied.inj h)
    · exact .inr ⟨j, h⟩
  · rintro (rfl | ⟨j, h⟩)
    · exact ⟨i, .inl ⟨rfl, rfl⟩⟩
    · refine ⟨j, .inr ⟨?_, h⟩⟩
      rintro rfl
      rw [hi] at h
      cases h
      cases hocc

/-- Storing a value in a free slot raises the occupancy by one. -/
theorem occupancy_set_free (hi : es[i]? = some e)
    (hocc : e.isOccupied = false) :
    occupancy (es.set i (.occupied v)) = occupancy es + 1 := by
  obtain ⟨hlt, hie⟩ := List.getElem?_eq_some_iff.mp hi
  unfold occupancy
  rw [List.countP_set hlt, hie, hocc]
  simp [Entry.isOccupied]

-- ==== the one mutation

/-- Storing an absent key at the end of an unbroken walk from its home
keeps the contract. -/
theorem Probing.place (hp : Probing hasher extractor es)
    (hi : es[i]? = some e) (habs : ¬ Held extractor es (extractor v))
    (hwalk : ∀ d < walkDist es.length (hasher (extractor v) % es.length) i,
      es[at_ es.length (hasher (extractor v) % es.length) d]?
        ≠ some .empty) :
    Probing hasher extractor (es.set i (.occupied v)) := by
  constructor
  · intro a b x y ha hb hxy
    rcases (read_set hi).mp ha with ⟨rfl, hx⟩ | ⟨-, ha'⟩
    · cases hx
      rcases (read_set hi).mp hb with ⟨rfl, -⟩ | ⟨-, hb'⟩
      · rfl
      · exact (habs ⟨b, y, hb', hxy.symm⟩).elim
    · rcases (read_set hi).mp hb with ⟨rfl, hy⟩ | ⟨-, hb'⟩
      · cases hy
        exact (habs ⟨a, x, ha', hxy⟩).elim
      · exact hp.inj ha' hb' hxy
  · intro j w hj d hd hempty
    rw [List.length_set] at hd hempty
    rcases (read_set hi).mp hempty with ⟨-, h⟩ | ⟨-, hempty'⟩
    · cases h
    rcases (read_set hi).mp hj with ⟨rfl, hw⟩ | ⟨-, hj'⟩
    · cases hw
      exact hwalk d hd hempty'
    · exact hp.reach hj' d hd hempty'

-- ==== the rehash loop

/-- The rehash walk stops at the first slot that is not occupied. -/
theorem freeSlotFrom_spec {s : Nat} : ∀ (fuel d : Nat), d + fuel = es.length →
      (∀ d' < d, ∃ v, es[at_ es.length s d']? = some (.occupied v)) →
      (∃ d₀ < es.length, ∃ e, es[at_ es.length s d₀]? = some e
        ∧ e.isOccupied = false) →
      ∃ d₁ < es.length, ∃ e,
        freeSlotFrom es fuel (at_ es.length s d) = .ok (at_ es.length s d₁)
        ∧ es[at_ es.length s d₁]? = some e ∧ e.isOccupied = false
        ∧ ∀ d' < d₁, ∃ v, es[at_ es.length s d']? = some (.occupied v) := by
  intro fuel
  induction fuel with
  | zero =>
    intro d hlen hocc hfree
    -- the whole walk is occupied, against the free slot
    obtain ⟨d₀, hd₀, e, he, hne⟩ := hfree
    obtain ⟨v, hv⟩ := hocc d₀ (by omega)
    rw [hv] at he
    injection he with he
    rw [← he] at hne
    cases hne
  | succ fuel ih =>
    intro d hlen hocc hfree
    have hlt : at_ es.length s d < es.length := at_lt (by omega) s d
    obtain ⟨e, he⟩ : ∃ e, es[at_ es.length s d]? = some e :=
      ⟨_, List.getElem?_eq_getElem hlt⟩
    cases e with
    | occupied v =>
      rw [freeSlotFrom, he]
      rw [at_succ]
      refine ih (d + 1) (by omega) ?_ hfree
      intro d' hd'
      rcases Nat.lt_succ_iff_lt_or_eq.mp hd' with h | h
      · exact hocc d' h
      · rw [h]; exact ⟨v, he⟩
    | empty | tombstone =>
      refine ⟨d, by omega, _, ?_, he, rfl, hocc⟩
      rw [freeSlotFrom, he]

/-- Some slot of a buffer below full occupancy is free. -/
theorem exists_free (h : occupancy es < es.length) :
    ∃ i < es.length, ∃ e, es[i]? = some e ∧ e.isOccupied = false := by
  obtain ⟨e, he, hocc⟩ := List.countP_lt_length_iff.mp h
  obtain ⟨i, hi, rfl⟩ := List.getElem_of_mem he
  exact ⟨i, hi, _, List.getElem?_eq_getElem hi, hocc⟩

/-- What a rehash of `old` must leave: the same values, no tombstones,
and a buffer that probes. -/
structure Rehashed (hasher : K → Nat) (extractor : E → K)
    (old new : List (Entry E)) : Prop where
  probing : Probing hasher extractor new
  mem_iff : ∀ v, Entry.occupied v ∈ new ↔ Entry.occupied v ∈ old
  no_tomb : Entry.tombstone ∉ new
  occupancy_eq : occupancy new = occupancy old

/-- The loop, from any split of the old buffer: what was moved so far
is rehashed, and the rest follows. -/
theorem rehash_spec (hasher : K → Nat) {old : List (Entry E)}
    (hinj : ∀ {i j : Nat} {v w : E}, old[i]? = some (.occupied v) →
      old[j]? = some (.occupied w) → extractor v = extractor w → i = j) :
    ∀ (rest pre acc : List (Entry E)), old = pre ++ rest →
      Rehashed hasher extractor pre acc → occupancy old < acc.length →
      ∃ new, rehash hasher extractor rest acc = .ok new
        ∧ new.length = acc.length ∧ Rehashed hasher extractor old new := by
  intro rest
  induction rest with
  | nil =>
    intro pre acc hold hacc _
    rw [List.append_nil] at hold
    subst hold
    exact ⟨acc, rfl, rfl, hacc⟩
  | cons e rest ih =>
    intro pre acc hold hacc hlt
    have hsplit : old = (pre ++ [e]) ++ rest := by
      rw [hold, List.append_assoc]; rfl
    have hocc : occupancy old
        = occupancy pre + occupancy [e] + occupancy rest := by
      rw [hsplit]
      unfold occupancy
      rw [List.countP_append, List.countP_append]
    cases e with
    | empty | tombstone =>
      refine ih _ acc hsplit ⟨hacc.probing, ?_, hacc.no_tomb, ?_⟩ hlt
      · intro v
        rw [hacc.mem_iff]
        simp
      · rw [hacc.occupancy_eq]
        simp [occupancy, Entry.isOccupied]
    | occupied v =>
      have hroom : occupancy acc < acc.length := by
        rw [hacc.occupancy_eq]; omega
      have hpos : 0 < acc.length := by omega
      have hs : hasher (extractor v) % acc.length < acc.length :=
        Nat.mod_lt _ hpos
      have hfree : ∃ d₀ < acc.length, ∃ e,
          acc[at_ acc.length (hasher (extractor v) % acc.length) d₀]?
            = some e ∧ e.isOccupied = false := by
        obtain ⟨i, hi, e, he, hne⟩ := exists_free hroom
        refine ⟨walkDist acc.length (hasher (extractor v) % acc.length) i,
          walkDist_lt hpos _ i, e, ?_, hne⟩
        rw [at_walkDist hs hi]
        exact he
      obtain ⟨d₁, hd₁, e, hslot, he, hne, hpassed⟩ :=
        freeSlotFrom_spec acc.length 0 (Nat.zero_add _)
          (fun d' hd' => absurd hd' (Nat.not_lt_zero _)) hfree
      rw [at_zero hs] at hslot
      -- the key is not among those moved so far
      have habs : ¬ Held extractor acc (extractor v) := by
        rw [held_iff_mem]
        rintro ⟨w, hw, hk⟩
        rw [hacc.mem_iff] at hw
        obtain ⟨j, hj, hjw⟩ := List.getElem_of_mem hw
        have h1 : old[j]? = some (.occupied w) := by
          rw [hold, List.getElem?_append_left hj,
            List.getElem?_eq_getElem hj, hjw]
        have h2 : old[pre.length]? = some (.occupied v) := by
          rw [hold]
          simp
        have := hinj h1 h2 hk
        omega
      have hplace := hacc.probing.place (v := v) he habs (by
        intro d hd
        rw [walkDist_at hs hd₁] at hd
        obtain ⟨w, hw⟩ := hpassed d hd
        rw [hw]
        simp)
      have hlen : (acc.set (at_ acc.length
          (hasher (extractor v) % acc.length) d₁)
            (Entry.occupied v)).length = acc.length :=
        List.length_set
      have hre' : Rehashed hasher extractor (pre ++ [.occupied v])
          (acc.set (at_ acc.length (hasher (extractor v) % acc.length) d₁)
            (.occupied v)) := by
        refine ⟨hplace, fun w => ?_, fun hmem => ?_, ?_⟩
        · rw [mem_set_free he hne, hacc.mem_iff]
          simp [or_comm]
        · rcases List.mem_or_eq_of_mem_set hmem with h | h
          · exact hacc.no_tomb h
          · cases h
        · rw [occupancy_set_free he hne, hacc.occupancy_eq]
          simp [occupancy, Entry.isOccupied]
      obtain ⟨new, hnew, hnewlen, hre⟩ := ih (pre ++ [.occupied v]) _
        hsplit hre' (by rw [hlen]; exact hlt)
      refine ⟨new, ?_, by rw [hnewlen, hlen], hre⟩
      rw [rehash, if_neg (by omega), hslot]
      exact hnew

/-- The fresh buffer a resize starts from. -/
theorem rehashed_nil (hasher : K → Nat) (extractor : E → K) (n : Nat) :
    Rehashed hasher extractor [] (List.replicate n .empty) := by
  have hread : ∀ {i : Nat} {v : E},
      (List.replicate n (Entry.empty : Entry E))[i]?
        ≠ some (.occupied v) := by
    intro i v h
    have := List.mem_of_getElem? h
    rw [List.mem_replicate] at this
    cases this.2
  refine ⟨⟨fun h => (hread h).elim, fun h => (hread h).elim⟩, ?_, ?_, ?_⟩
  · intro v
    simp
  · intro h
    rw [List.mem_replicate] at h
    cases h.2
  · simp [occupancy, Entry.isOccupied]

/-- A resize with room for every value succeeds and rehashes. -/
theorem resize_spec {t : IndexedHashTable E} (newCapacity : Nat)
    (hp : Probing hasher extractor t.entries)
    (hroom : occupancy t.entries < newCapacity) :
    ∃ t', resize hasher extractor t newCapacity = .ok t'
      ∧ Rehashed hasher extractor t.entries t'.entries
      ∧ t'.capacity = newCapacity ∧ t'.count = t.count
      ∧ t'.entryBuffer.isSome = true := by
  obtain ⟨new, hnew, hlen, hre⟩ := rehash_spec hasher
    (fun hi hj h => hp.inj hi hj h) t.entries []
    (List.replicate newCapacity .empty) rfl
    (rehashed_nil hasher extractor newCapacity)
    (by rw [List.length_replicate]; exact hroom)
  refine ⟨⟨some new, t.count⟩, ?_, hre, ?_, rfl, rfl⟩
  · rw [resize, hnew]
  · rw [List.length_replicate] at hlen
    exact hlen

-- ==== resizeIfNecessary

/-- Every capacity `resizeIfNecessary` moves to exceeds the count. -/
theorem lt_newCapacityFor {capacity count n : Nat} (hle : count ≤ capacity)
    (h : newCapacityFor capacity count = some n) : count < n := by
  unfold newCapacityFor at h
  split at h
  · injection h with h
    omega
  · simp only at h
    split at h
    · next hload =>
      injection h with h
      -- a load above the threshold is a load above zero
      have hpos : count ≠ 0 := by
        intro h0
        rw [h0] at hload
        simp [loadFactorPercentageIncreaseThreshold] at hload
      omega
    · split at h
      · injection h with h
        rcases Nat.lt_or_ge count 16 with hc | hc
        · omega
        · have : count < (count * 6 + 4) / 5 := by omega
          omega
      · cases h

/-- `resizeIfNecessary` returns, keeps the values, and says whether it
rehashed; if it did, the buffer has an empty slot again. -/
theorem resizeIfNecessary_spec {t : IndexedHashTable E}
    (hp : Probing hasher extractor t.entries)
    (hocc : occupancy t.entries ≤ t.count) (hle : t.count ≤ t.capacity) :
    ∃ t' moved, resizeIfNecessary hasher extractor t = .ok (t', moved)
      ∧ t'.count = t.count
      ∧ (moved = false → t' = t)
      ∧ (moved = true → Rehashed hasher extractor t.entries t'.entries
          ∧ t.count < t'.capacity ∧ t'.entryBuffer.isSome = true) := by
  unfold resizeIfNecessary
  cases hn : newCapacityFor t.capacity t.count with
  | none =>
    exact ⟨t, false, rfl, rfl, fun _ => rfl, fun h => by cases h⟩
  | some n =>
    have hlt := lt_newCapacityFor hle hn
    obtain ⟨t', ht', hre, hcap, hcount, hsome⟩ :=
      resize_spec (t := t) n hp (by omega)
    refine ⟨t', true, ?_, hcount, fun h => (by cases h), fun _ => ?_⟩
    · simp only [ht']
    · exact ⟨hre, by omega, hsome⟩

end CroCOS.HashTable
