/-
The calls of the table, of `HashMap` and of `HashSet`, against finite
maps and finite sets.

# The abstract containers

`HashMap.spec` runs a call on a `Finmap`, `HashSet.spec` on a `Finset`;
neither can fail. `HashMap.Refines` and `HashSet.Refines` tie a table
to its abstract container through `Represents`, with `count` equal to
the number of present keys.

# When the table keeps up

`HashMap.Meets` is the condition on the table a call finds: the slot
the probe needs is there. `step_refines` shows that meeting it is
enough, `step_error` that missing it ends the run — the source's own
load-limit assertion, or the remainder by a zero capacity — so over
whole runs the two agree (`run_refines_iff`). A set call has one more
thing to meet: an element moved into the set must be probed under its
own key, not under what the move left in the argument.
-/
import CroCOS.Proofs.HashTable.Represent

namespace CroCOS.HashTable

open Lib Function

variable {K V E : Type _} [DecidableEq K]
variable {k : K}

-- ==== the table's calls

section Table

variable {hasher : K → Nat} {extractor : E → K}
variable {t : IndexedHashTable E} {f : K → Option E}

section

variable (h : Represents hasher extractor t f)
include h

/-- `contains` answers membership. -/
theorem contains_spec (hlim : MeetsLoadLimit extractor t k) :
    contains hasher extractor t k = .ok (f k).isSome := by
  obtain ⟨es, hes⟩ := Option.isSome_iff_exists.mp h.buffer
  obtain ⟨i, e, hi, he, hv⟩ := h.probe hlim
  simp only [contains, hes, hi, he, ← hv]
  cases e with
  | occupied | empty | tombstone => rfl

/-- `_insert`, on a table whose first resize leaves a probe that
returns. -/
theorem insertWith_spec (fresh : E) (overwrite : E → E)
    (hfresh : extractor fresh = k)
    (hover : ∀ v, extractor v = k → extractor (overwrite v) = k)
    (hlim : InsertMeetsLoadLimit extractor t k) :
    ∃ t', insertWith hasher extractor t k fresh overwrite = .ok t'
      ∧ Represents hasher extractor t' (update f k
          (some ((f k).elim fresh overwrite)))
      ∧ t'.count = t.count + (if (f k).isSome then 0 else 1) := by
  obtain ⟨t₁, moved, hr, h₁, hcount, hsame, hmove⟩ := h.resizeIfNecessary
  cases hf : f k with
  | some v =>
    -- present: the slot is rewritten in place
    obtain ⟨i, hi, hv⟩ := h₁.probe_some hf
    have hk : extractor v = k := ((h₁.content k v).mp hf).2
    have hset := h₁.setHeld hv (w := overwrite v) (by
      rw [hk]; exact hover v hk)
    rw [hk] at hset
    refine ⟨_, ?_, hset, hcount⟩
    simp only [insertWith, hr, hi, hv]
  | none =>
    -- absent: the free slot is filled, counted, and the table resized
    have hempty : HasEmpty t₁.entries := by
      cases moved with
      | true => exact hmove rfl
      | false =>
        rw [hsame rfl]
        rcases hlim with hn | hlim
        · -- a table that would move did move
          obtain ⟨n, hn⟩ := Option.isSome_iff_exists.mp hn
          unfold resizeIfNecessary at hr
          simp only [hn] at hr
          cases hrs : resize hasher extractor t n with
          | error e | ok t₂ => rw [hrs] at hr; cases hr
        · exact h.empty_of_none hf hlim
    obtain ⟨i, e, hi, he, hocc, hwalk⟩ :=
      probe_absent hasher (h₁.absent hf) hempty
    have hset := h₁.setFree hf hfresh he hocc hwalk
    obtain ⟨t₂, moved₂, hr₂, h₂, hcount₂, -, -⟩ := hset.resizeIfNecessary
    refine ⟨t₂, ?_, h₂, by rw [hcount₂]; simp [hcount]⟩
    simp only [insertWith, hr, hi, he]
    cases e with
    | occupied v => cases hocc
    | empty | tombstone => simp only [hr₂]

/-- The removing body, on a table whose probe returns. -/
theorem removeProbed_spec (hlim : MeetsLoadLimit extractor t k) :
    ∃ t', removeProbed hasher extractor t k = .ok (t', (f k).isSome)
      ∧ Represents hasher extractor t' (update f k none)
      ∧ t'.count = t.count - (if (f k).isSome then 1 else 0) := by
  cases hf : f k with
  | some v =>
    obtain ⟨i, hi, hv⟩ := h.probe_some hf
    have hk : extractor v = k := ((h.content k v).mp hf).2
    have hset := h.setTombstone hv
    rw [hk] at hset
    obtain ⟨t₁, moved, hr, h₁, hcount, -, -⟩ := hset.resizeIfNecessary
    refine ⟨t₁, ?_, h₁, hcount⟩
    simp only [removeProbed, hi, hv, hr, Option.isSome_some]
  | none =>
    obtain ⟨i, e, hi, he, hocc, -⟩ := probe_absent hasher
      (h.absent hf) (h.empty_of_none hf hlim)
    refine ⟨t, ?_, ?_, rfl⟩
    · simp only [removeProbed, hi, he]
      cases e with
      | occupied v => cases hocc
      | empty | tombstone => rfl
    · rw [← hf, update_eq_self]
      exact h

-- A call that misses the limit ends the run at its probe.

theorem contains_error (hlim : ¬ MeetsLoadLimit extractor t k) :
    ∃ e, contains hasher extractor t k = .error e := by
  obtain ⟨es, hes⟩ := Option.isSome_iff_exists.mp h.buffer
  obtain ⟨e, he⟩ := probe_error hasher hlim
  exact ⟨e, by simp only [contains, hes, he]⟩

end

theorem removeProbed_error (hasher : K → Nat)
    (hlim : ¬ MeetsLoadLimit extractor t k) :
    ∃ e, removeProbed hasher extractor t k = .error e := by
  obtain ⟨e, he⟩ := probe_error hasher hlim
  exact ⟨e, by simp only [removeProbed, he]⟩

theorem insertWith_error {fresh : E} {overwrite : E → E}
    (hlim : ¬ InsertMeetsLoadLimit extractor t k) :
    ∃ e, insertWith hasher extractor t k fresh overwrite = .error e := by
  have hn : newCapacityFor t.capacity t.count = none := by
    cases hn : newCapacityFor t.capacity t.count with
    | none => rfl
    | some n => exact (hlim (Or.inl (by rw [hn]; rfl))).elim
  obtain ⟨e, he⟩ := probe_error hasher (fun h => hlim (Or.inr h))
  refine ⟨e, ?_⟩
  simp only [insertWith, resizeIfNecessary, hn, he]

end Table

-- ==== HashMap

namespace HashMap

/-- What a map is for: the calls on a finite map. -/
def spec [Inhabited V] (m : Finmap fun _ : K => V) :
    Call K V → (Finmap fun _ : K => V) × Answer V
  | .insert key value => (m.insert key value, .done)
  | .subscript key assign =>
    let old := (m.lookup key).getD default
    (m.insert key (assign.getD old), .found (some old))
  | .remove key => (m.erase key, .flag (m.lookup key).isSome)
  | .get key => (m, .found (m.lookup key))
  | .contains key => (m, .flag (m.lookup key).isSome)
  | .size => (m, .size m.keys.card)

/-- The probe a call makes on the table it finds returns. -/
def Meets (t : HashMap K V) : Call K V → Prop
  | .insert key _ => InsertMeetsLoadLimit Prod.fst t key
  | .subscript key _ => MeetsLoadLimit Prod.fst t key
  | .remove key => MeetsLoadLimit Prod.fst t key
  | .get key => MeetsLoadLimit Prod.fst t key
  | .contains key => MeetsLoadLimit Prod.fst t key
  | .size => True

/-- The pairs a finite map holds, as the table stores them. -/
def pairs (m : Finmap fun _ : K => V) (k : K) : Option (K × V) :=
  (m.lookup k).map (Prod.mk k)

/-- The table holds the pairs of `m` and counts its keys. -/
structure Refines (hasher : K → Nat) (t : HashMap K V)
    (m : Finmap fun _ : K => V) : Prop where
  represents : Represents hasher Prod.fst t (pairs m)
  count_eq : t.count = m.keys.card

variable {hasher : K → Nat} {t : HashMap K V} {m : Finmap fun _ : K => V}

theorem pairs_isSome (m : Finmap fun _ : K => V) (k : K) :
    (pairs m k).isSome = (m.lookup k).isSome := by
  rw [pairs, Option.isSome_map]

theorem pairs_insert (m : Finmap fun _ : K => V) (k : K) (v : V) :
    pairs (m.insert k v) = update (pairs m) k (some (k, v)) := by
  funext k'
  by_cases hk : k' = k
  · subst hk
    rw [update_self, pairs, Finmap.lookup_insert]
    rfl
  · rw [update_of_ne hk, pairs, pairs, Finmap.lookup_insert_of_ne _ hk]

theorem pairs_erase (m : Finmap fun _ : K => V) (k : K) :
    pairs (m.erase k) = update (pairs m) k none := by
  funext k'
  by_cases hk : k' = k
  · subst hk
    rw [update_self, pairs, Finmap.lookup_erase]
    rfl
  · rw [update_of_ne hk, pairs, pairs, Finmap.lookup_erase_ne hk]

theorem keys_insert (m : Finmap fun _ : K => V) (k : K) (v : V) :
    (m.insert k v).keys = Insert.insert k m.keys := by
  ext k'
  rw [Finmap.mem_keys, Finmap.mem_insert, Finset.mem_insert, Finmap.mem_keys]

/-- Inserting a key raises the number of keys iff it was absent. -/
theorem card_keys_insert (m : Finmap fun _ : K => V) (k : K) (v : V) :
    (m.insert k v).keys.card
      = m.keys.card + (if (pairs m k).isSome then 0 else 1) := by
  rw [keys_insert, pairs_isSome]
  by_cases hk : k ∈ m
  · rw [Finset.insert_eq_of_mem (Finmap.mem_keys.mpr hk),
      if_pos (Finmap.lookup_isSome.mpr hk)]
    rfl
  · rw [Finset.card_insert_of_notMem (fun h => hk (Finmap.mem_keys.mp h)),
      if_neg (fun h => hk (Finmap.lookup_isSome.mp h))]

theorem card_keys_erase (m : Finmap fun _ : K => V) (k : K) :
    (m.erase k).keys.card
      = m.keys.card - (if (pairs m k).isSome then 1 else 0) := by
  rw [Finmap.keys_erase, pairs_isSome]
  by_cases hk : k ∈ m
  · rw [Finset.card_erase_of_mem (Finmap.mem_keys.mpr hk),
      if_pos (Finmap.lookup_isSome.mpr hk)]
  · rw [Finset.erase_eq_of_notMem (fun h => hk (Finmap.mem_keys.mp h)),
      if_neg (fun h => hk (Finmap.lookup_isSome.mp h))]
    rfl

/-- The slot that the probe of a key ends on has the key's value. -/
theorem Refines.probe (h : Refines hasher t m)
    (hlim : MeetsLoadLimit Prod.fst t k) :
    ∃ i e, probeEntry hasher Prod.fst t k = .ok i
      ∧ t.entries[i]? = some e ∧ e.value.map Prod.snd = m.lookup k := by
  obtain ⟨i, e, hi, he, hv⟩ := h.represents.probe hlim
  refine ⟨i, e, hi, he, ?_⟩
  rw [hv, pairs, Option.map_map]
  exact Option.map_id'

/-- A fresh map is empty. -/
theorem refines_create (hasher : K → Nat) (n : Nat) :
    Refines hasher (IndexedHashTable.create n) (∅ : Finmap fun _ : K => V) := by
  refine ⟨?_, by rw [Finmap.keys_empty]; rfl⟩
  have hp : pairs (∅ : Finmap fun _ : K => V) = fun _ => none := by
    funext k
    rfl
  exact represents_create n

/-- What `operator[]` does once its probe ended on a slot without the
key: it probes again if the buffer was rehashed. -/
theorem subscript_absent [Inhabited V] {t₁ : HashMap K V} {i j : Nat}
    {e : Entry (K × V)} {moved : Bool}
    (hi : probeEntry hasher Prod.fst t k = .ok i)
    (he : t.entries[i]? = some e) (hfree : ¬ ∃ v, e = Entry.occupied v)
    (hr : resizeIfNecessary hasher Prod.fst { t with count := t.count + 1 }
      = .ok (t₁, moved))
    (hj : (if moved then probeEntry hasher Prod.fst t₁ k else .ok i)
      = .ok j) : subscript hasher t k
      = .ok (t₁.setEntry j (.occupied (k, default)), j) := by
  simp only [subscript, hi, he, hr]
  cases e with
  | occupied v => exact (hfree ⟨v, rfl⟩).elim
  | empty | tombstone =>
    cases moved with
    | false => cases hj; rfl
    | true => rw [if_pos rfl] at hj; simp only [hj]

/-- `operator[]` finds the key's slot, creating it on the default value
when the key is absent. -/
theorem subscript_spec [Inhabited V] (h : Refines hasher t m)
    (hlim : MeetsLoadLimit Prod.fst t k) :
    ∃ t' i, subscript hasher t k = .ok (t', i)
      ∧ t'.entries[i]? = some (.occupied (k, (m.lookup k).getD default))
      ∧ Refines hasher t' (m.insert k ((m.lookup k).getD default)) := by
  have hrep := h.represents
  cases hl : m.lookup k with
  | some v =>
    have hf : pairs m k = some (k, v) := by rw [pairs, hl]; rfl
    obtain ⟨i, hi, hv⟩ := hrep.probe_some hf
    refine ⟨t, i, ?_, hv, ?_, ?_⟩
    · simp only [subscript, hi, hv]
    · rw [Option.getD_some, pairs_insert, ← hf, update_eq_self]
      exact hrep
    · rw [card_keys_insert, hf, h.count_eq]
      rfl
  | none =>
    have hf : pairs m k = none := by rw [pairs, hl]; rfl
    obtain ⟨i, e, hi, he, hocc, hwalk⟩ := probe_absent hasher
      (hrep.absent hf) (hrep.empty_of_none hf hlim)
    have hbranch : ¬ ∃ v, e = Entry.occupied v := by
      rintro ⟨v, rfl⟩
      cases hocc
    have hroom : occupancy t.entries < t.capacity :=
      List.countP_lt_length_iff.mpr ⟨e, List.mem_of_getElem? he, hocc⟩
    obtain ⟨t₁, moved, hr, hcount, hsame, hmove⟩ :=
      resizeIfNecessary_spec (t := { t with count := t.count + 1 })
        hrep.probing (by
          show occupancy t.entries ≤ t.count + 1
          rw [hrep.count_eq]; omega)
        (by
          show t.count + 1 ≤ t.capacity
          rw [hrep.count_eq]; omega)
    have hcard : (m.insert k (default : V)).keys.card = t.count + 1 := by
      rw [card_keys_insert, hf, ← h.count_eq]
      rfl
    have hfresh : ∀ {s : HashMap K V} {j : Nat} {e' : Entry (K × V)},
        s.entries[j]? = some e' →
        (s.setEntry j (.occupied (k, default))).entries[j]?
          = some (.occupied (k, default)) := by
      intro s j e' hj
      rw [entries_setEntry, List.getElem?_set, if_pos rfl,
        if_pos (List.getElem?_eq_some_iff.mp hj).1]
    rw [Option.getD_none]
    cases moved with
    | false =>
      rw [hsame rfl] at hr
      refine ⟨_, i, subscript_absent hi he hbranch hr rfl, hfresh he, ?_, ?_⟩
      · rw [pairs_insert]
        exact hrep.setFree hf rfl he hocc hwalk
      · rw [hcard]
        rfl
    | true =>
      -- the rehashed buffer, its count set back to its occupancy
      obtain ⟨hre, hlt, hsome⟩ := hmove rfl
      have hlt' : t.count + 1 < t₁.capacity := hlt
      have h₁ : Represents hasher Prod.fst
          { t₁ with count := t.count } (pairs m) :=
        Rehashed.represents hrep hre rfl hsome
      have hempty : HasEmpty t₁.entries := by
        refine Rehashed.hasEmpty hre ?_
        show occupancy t.entries < t₁.capacity
        rw [← hrep.count_eq]
        omega
      obtain ⟨j, e', hj, he', hocc', hwalk'⟩ :=
        probe_absent (t := { t₁ with count := t.count })
          hasher (h₁.absent hf) hempty
      have hj' : probeEntry hasher Prod.fst t₁ k = .ok j := hj
      refine ⟨t₁.setEntry j (.occupied (k, default)), j,
        subscript_absent hi he hbranch hr hj', hfresh he', ?_, ?_⟩
      · rw [pairs_insert]
        have hset := h₁.setFree hf (v := (k, default)) rfl he' hocc' hwalk'
        have hc : t₁.count = t.count + 1 := hcount
        rw [← hc] at hset
        exact hset
      · rw [hcard]
        exact hcount

/-- Meeting the limit, a call does what the finite map does. -/
theorem step_refines [Inhabited V] (t : HashMap K V)
    (m : Finmap fun _ : K => V) (c : Call K V)
    (h : Refines hasher t m) (hm : Meets t c) :
    ∃ t', step hasher t c = .ok (t', (spec m c).2)
      ∧ Refines hasher t' (spec m c).1 := by
  have hrep := h.represents
  cases c with
  | insert k v =>
    obtain ⟨t', ht', h', hcount⟩ := insertWith_spec hrep
      (k := k) (k, v) (fun e => (e.1, v)) rfl
      (fun e he => he) hm
    refine ⟨t', by simp only [step, insert, ht', spec], ?_, ?_⟩
    · -- either branch of the inserter stores the pair `(k, v)`
      have hval : (pairs m k).elim (k, v) (fun e => (e.1, v))
          = (k, v) := by
        rw [pairs]
        cases m.lookup k with
        | none | some w => rfl
      rw [hval] at h'
      show Represents hasher Prod.fst t' (pairs (m.insert k v))
      rw [pairs_insert]
      exact h'
    · show t'.count = (m.insert k v).keys.card
      rw [hcount, card_keys_insert, h.count_eq]
  | subscript k assign =>
    obtain ⟨t', i, hs, hi, h'⟩ := subscript_spec h hm
    cases assign with
    | none =>
      exact ⟨t', by simp only [step, hs, hi, spec], h'⟩
    | some v =>
      refine ⟨t'.setEntry i (.occupied (k, v)),
        by simp only [step, hs, hi, spec], ?_, ?_⟩
      · have hset := h'.represents.setHeld hi (w := (k, v)) rfl
        rw [pairs_insert, update_idem] at hset
        show Represents hasher Prod.fst _ (pairs (m.insert k v))
        rw [pairs_insert]
        exact hset
      · show t'.count = (m.insert k v).keys.card
        rw [h'.count_eq, card_keys_insert, card_keys_insert]
  | remove k =>
    obtain ⟨t', ht', h', hcount⟩ := removeProbed_spec hrep hm
    rw [pairs_isSome] at ht'
    refine ⟨t', by simp only [step, remove, ht', spec], ?_, ?_⟩
    · show Represents hasher Prod.fst t' (pairs (m.erase k))
      rw [pairs_erase]
      exact h'
    · show t'.count = (m.erase k).keys.card
      rw [hcount, card_keys_erase, h.count_eq]
  | get k =>
    refine ⟨t, ?_, h⟩
    obtain ⟨i, e, hi, he, hl⟩ := h.probe hm
    simp only [step, get, hi, he, spec, ← hl]
    cases e with
    | occupied | empty | tombstone => rfl
  | contains k =>
    refine ⟨t, ?_, h⟩
    have hc := contains_spec hrep hm
    rw [pairs_isSome] at hc
    simp only [step, hc, spec]
  | size =>
    exact ⟨t, by simp only [step, spec, h.count_eq], h⟩

/-- Missing the limit, a call ends the run. -/
theorem step_error [Inhabited V] (t : HashMap K V)
    (m : Finmap fun _ : K => V) (c : Call K V)
    (h : Refines hasher t m) (hm : ¬ Meets t c) :
    ∃ e, step hasher t c = .error e := by
  cases c with
  | insert k v =>
    have hins : ∃ e, insert hasher t k v = .error e :=
      insertWith_error hm
    obtain ⟨e, he⟩ := hins
    exact ⟨e, by simp only [step, he]⟩
  | subscript k assign =>
    obtain ⟨e, he⟩ := probe_error hasher hm
    exact ⟨e, by simp only [step, subscript, he]⟩
  | remove k =>
    obtain ⟨e, he⟩ := removeProbed_error hasher hm
    exact ⟨e, by simp only [step, remove, he]⟩
  | get k =>
    obtain ⟨e, he⟩ := probe_error hasher hm
    exact ⟨e, by simp only [step, get, he]⟩
  | contains k =>
    obtain ⟨e, he⟩ := contains_error h.represents hm
    exact ⟨e, by simp only [step, he]⟩
  | size => exact (hm trivial).elim

end HashMap

-- ==== HashSet

namespace HashSet

variable {T : Type _} [DecidableEq T]

/-- What a set is for: the calls on a finite set. -/
def spec (s : Finset T) : Call T → Finset T × Answer
  | .insert element =>
    (Insert.insert element s, .flag (decide (element ∈ s)))
  | .insertMove element =>
    (Insert.insert element s, .flag (decide (element ∈ s)))
  | .remove element => (s.erase element, .done)
  | .contains element => (s, .flag (decide (element ∈ s)))
  | .size => (s, .size s.card)

/-- The probes a call makes on the table it finds return; a moved
element is probed under its own key. -/
def Meets (movedFrom : T → T) (t : HashSet T) : Call T → Prop
  | .insert element => MeetsLoadLimit id t element
  | .insertMove element =>
    MeetsLoadLimit id t element ∧ movedFrom element = element
  | .remove element => MeetsLoadLimit id t element
  | .contains element => MeetsLoadLimit id t element
  | .size => True

/-- The elements of a finite set, as the table stores them. -/
def elements (s : Finset T) (k : T) : Option T :=
  if k ∈ s then some k else none

/-- The table holds the elements of `s` and counts them. -/
structure Refines (hasher : T → Nat) (t : HashSet T) (s : Finset T) : Prop where
  represents : Represents hasher id t (elements s)
  count_eq : t.count = s.card

variable {hasher : T → Nat} {t : HashSet T} {s : Finset T}

theorem elements_isSome (s : Finset T) (k : T) :
    (elements s k).isSome = decide (k ∈ s) := by
  unfold elements
  by_cases hk : k ∈ s
  · simp [hk]
  · simp [hk]

theorem elements_insert (s : Finset T) (k : T) : elements (Insert.insert k s)
      = update (elements s) k (some k) := by
  funext k'
  by_cases hk : k' = k
  · subst hk
    rw [update_self, elements, if_pos (Finset.mem_insert_self ..)]
  · rw [update_of_ne hk, elements, elements]
    simp [hk]

theorem elements_erase (s : Finset T) (k : T) :
    elements (s.erase k) = update (elements s) k none := by
  funext k'
  by_cases hk : k' = k
  · subst hk
    rw [update_self, elements, if_neg (Finset.notMem_erase k' s)]
  · rw [update_of_ne hk, elements, elements]
    simp [hk]

/-- A fresh set is empty. -/
theorem refines_create (hasher : T → Nat) (n : Nat) :
    Refines hasher (IndexedHashTable.create n) (∅ : Finset T) := by
  refine ⟨?_, rfl⟩
  have hp : elements (∅ : Finset T) = fun _ => none := by
    funext k
    simp [elements]
  exact represents_create n

/-- Storing an element under its own key. -/
theorem insertWith_refines (h : Refines hasher t s) {k : T}
    (hlim : MeetsLoadLimit id t k) :
    ∃ t', insertWith hasher id t k k (fun _ => k) = .ok t'
      ∧ Refines hasher t' (Insert.insert k s) := by
  obtain ⟨t', ht', h', hcount⟩ := insertWith_spec h.represents
    (k := k) k (fun _ => k) rfl
    (fun _ _ => rfl) (Or.inr hlim)
  refine ⟨t', ht', ?_, ?_⟩
  · have hval : (elements s k).elim k (fun _ => k) = k := by
      cases elements s k with
      | none | some w => rfl
    rw [hval] at h'
    rw [elements_insert]
    exact h'
  · rw [hcount, elements_isSome, h.count_eq]
    by_cases hk : k ∈ s
    · simp [hk]
    · simp [hk]

/-- Meeting the condition, a call does what the finite set does. -/
theorem step_refines {movedFrom : T → T} (t : HashSet T) (s : Finset T)
    (c : Call T) (h : Refines hasher t s) (hm : Meets movedFrom t c) :
    ∃ t', step hasher movedFrom t c = .ok (t', (spec s c).2)
      ∧ Refines hasher t' (spec s c).1 := by
  have hrep := h.represents
  cases c with
  | insert k =>
    have hc := contains_spec hrep hm
    rw [elements_isSome] at hc
    by_cases hk : k ∈ s
    · refine ⟨t, ?_, ?_⟩
      · simp only [step, insert, hc, spec, hk, decide_true]
      · show Refines hasher t (Insert.insert k s)
        rw [Finset.insert_eq_of_mem hk]
        exact h
    · obtain ⟨t', ht', h'⟩ := insertWith_refines h hm
      refine ⟨t', ?_, h'⟩
      simp only [step, insert, hc, spec, hk, decide_false, ht']
  | insertMove k =>
    obtain ⟨hlim, hmoved⟩ := hm
    have hc := contains_spec hrep hlim
    rw [elements_isSome] at hc
    obtain ⟨t', ht', h'⟩ := insertWith_refines h hlim
    refine ⟨t', ?_, h'⟩
    simp only [step, insertMove, hc, spec, hmoved, ht']
  | remove k =>
    obtain ⟨es, hes⟩ := Option.isSome_iff_exists.mp hrep.buffer
    obtain ⟨t', ht', h', hcount⟩ := removeProbed_spec hrep hm
    refine ⟨t', by simp only [step, remove, removeKey, hes, ht', spec], ?_, ?_⟩
    · show Represents hasher id t' (elements (s.erase k))
      rw [elements_erase]
      exact h'
    · show t'.count = (s.erase k).card
      rw [hcount, elements_isSome, h.count_eq]
      by_cases hk : k ∈ s
      · simp [hk]
      · simp [hk]
  | contains k =>
    refine ⟨t, ?_, h⟩
    have hc := contains_spec hrep hm
    rw [elements_isSome] at hc
    simp only [step, hc, spec]
  | size => exact ⟨t, by simp only [step, spec, h.count_eq], h⟩

end HashSet

-- ==== the runs

/-- A map client's run answers as the finite map does exactly when every
probe of it returns, and a set client's run answers as the finite set
does when every probe of it returns and is made for the element that
is stored. Either way the table ends holding exactly the present keys,
and counting them. -/
theorem hash_containers_refine [Inhabited V] (hasher : K → Nat)
    (init_capacity : Nat) (movedFrom : K → K) :
    (∀ calls : List (HashMap.Call K V), (∃ t, run (HashMap.step hasher)
            (IndexedHashTable.create init_capacity) calls
          = .ok (t, (specRun HashMap.spec ∅ calls).2)
        ∧ HashMap.Refines hasher t (specRun HashMap.spec ∅ calls).1)
      ↔ Along (HashMap.step hasher) HashMap.Meets
          (IndexedHashTable.create init_capacity) calls)
    ∧ ∀ calls : List (HashSet.Call K),
      Along (HashSet.step hasher movedFrom) (HashSet.Meets movedFrom)
          (IndexedHashTable.create init_capacity) calls →
      ∃ t, run (HashSet.step hasher movedFrom)
            (IndexedHashTable.create init_capacity) calls
          = .ok (t, (specRun HashSet.spec ∅ calls).2)
        ∧ HashSet.Refines hasher t (specRun HashSet.spec ∅ calls).1 := by
  constructor
  · intro calls
    exact run_refines_iff HashMap.step_refines HashMap.step_error
      (HashMap.refines_create hasher init_capacity)
  · intro calls hal
    exact run_refines HashSet.step_refines
      (HashSet.refines_create hasher init_capacity) hal

theorem hash_containers_refine_movedElement :
    ∃ t, run (HashSet.step id id) (IndexedHashTable.create 4)
        [.insert 3, .insertMove 7, .remove 3, .contains 3]
      = .ok (t, [.flag false, .flag false, .done, .flag false])
      ∧ HashSet.Refines id t {7} := by
  have hempty : Along (HashSet.step id id)
      (fun t _ => Entry.empty ∈ t.entries) (IndexedHashTable.create 4)
      [.insert 3, .insertMove 7, .remove 3, .contains 3] := by
    decide +kernel
  refine (hash_containers_refine (V := Nat) id 4 id).2 _
    (Along_imp (fun t c h => ?_) hempty)
  cases c with
  | insertMove k => exact ⟨.inl h, rfl⟩
  | insert k | remove k | contains k => exact .inl h
  | size => trivial

/-- Sixteen keys inserted and removed in turn leave a default-sized map
empty, and every slot of it a tombstone: the next lookup finds no slot
to stop at. -/
theorem churned_map_misses_load_limit :
    run (HashMap.step (V := Nat) id) (IndexedHashTable.create 16)
      (((List.range 16).flatMap fun k =>
        [HashMap.Call.insert k k, .remove k]) ++ [.get 0])
      = .error (.assertion "HashMap did not obey its own load limit") := by
  decide +kernel

end CroCOS.HashTable
