/-
The labels of a graph become slots of a hash set. A set that is only
inserted into has no tombstones, so its buffer always has an empty slot
and every probe returns; and it is never more than twice as large as it
has elements, except for its first sixteen slots. So the slot of a
label is an index that fits.
-/
import CroCOS.CSRGraph
import CroCOS.Proofs.HashTable.Calls

namespace CroCOS.GraphBuilder

open HashTable

variable {L : Type} [DecidableEq L] {hasher : L → Nat}
variable {f : L → Option L} {i : Nat} {k : L}

-- ==== insertion-only tables

/-- No tombstones, room to spare, and a capacity in proportion. -/
structure Grown (s : HashSet L) : Prop where
  no_tomb : Entry.tombstone ∉ s.entries
  room : s.count < s.capacity
  bounded : s.capacity ≤ max 16 (2 * s.count)

/-- A capacity `resizeIfNecessary` moves to is in proportion. -/
theorem newCapacityFor_le {capacity count n : Nat}
    (h : newCapacityFor capacity count = some n) :
    n ≤ max 16 (2 * count) := by
  unfold newCapacityFor at h
  split at h
  · injection h with h
    omega
  · simp only at h
    split at h
    · injection h with h
      omega
    · split at h
      · injection h with h
        omega
      · cases h

/-- A table that is not moved has room. -/
theorem lt_of_newCapacityFor_none {capacity count : Nat}
    (h : newCapacityFor capacity count = none) : count < capacity := by
  unfold newCapacityFor at h
  split at h
  · cases h
  · next hpos =>
    simp only at h
    split at h
    · cases h
    · next hload =>
      simp only [not_lt] at hload
      have hlt : count * 100 < (75 + 1) * capacity :=
        (Nat.div_lt_iff_lt_mul (by omega)).mp (Nat.lt_succ_of_le hload)
      omega

omit [DecidableEq L] in
/-- After `resizeIfNecessary` there is room again. -/
theorem grown_resizeIfNecessary {s s' : HashSet L} {moved : Bool}
    (h : Represents hasher id s f) (htomb : Entry.tombstone ∉ s.entries)
    (hbound : s.capacity ≤ max 16 (2 * s.count))
    (hr : resizeIfNecessary hasher id s = .ok (s', moved)) : Grown s' := by
  unfold resizeIfNecessary at hr
  cases hn : newCapacityFor s.capacity s.count with
  | none =>
    simp only [hn] at hr
    cases hr
    exact ⟨htomb, lt_of_newCapacityFor_none hn, hbound⟩
  | some n =>
    have hlt := lt_newCapacityFor h.count_le hn
    obtain ⟨s'', hs, hre, hcap, hcount, -⟩ := resize_spec (t := s) n
      h.probing (by rw [← h.count_eq]; exact hlt)
    simp only [hn, hs] at hr
    cases hr
    exact ⟨hre.no_tomb, by omega, by
      rw [hcap, hcount]
      exact newCapacityFor_le hn⟩

omit [DecidableEq L] in
theorem Grown.hasEmpty {s : HashSet L} (h : Grown s)
    (hr : Represents hasher id s f) : HasEmpty s.entries := by
  refine hasEmpty_of_occupancy_lt h.no_tomb ?_
  rw [← hr.count_eq]
  exact h.room

/-- Storing an element that is not there. -/
theorem grown_insertWith {s s' : HashSet L} (h : Represents hasher id s f)
    (hg : Grown s) (hf : f k = none)
    (hi : insertWith hasher id s k k (fun _ => k) = .ok s') : Grown s' := by
  obtain ⟨s₁, moved, hr, h₁, hcount, hsame, -⟩ := h.resizeIfNecessary
  have hg₁ : Grown s₁ :=
    grown_resizeIfNecessary h hg.no_tomb hg.bounded hr
  obtain ⟨i, e, hprobe, he, hocc, hwalk⟩ := probe_absent hasher
    (h₁.absent hf) (hg₁.hasEmpty h₁)
  have hset := h₁.setFree hf (v := k) rfl he hocc hwalk
  have hentries := entries_setEntry s₁ i (.occupied k)
  -- the slot taken is filled, and the table resized
  have htomb : Entry.tombstone ∉ (s₁.setEntry i (.occupied k)).entries := by
    rw [hentries]
    intro hmem
    rcases List.mem_or_eq_of_mem_set hmem with hmem | heq
    · exact hg₁.no_tomb hmem
    · cases heq
  have hcap : (s₁.setEntry i (.occupied k)).capacity = s₁.capacity := by
    rw [IndexedHashTable.capacity, hentries, List.length_set]
    rfl
  have hbound := hg₁.bounded
  unfold insertWith at hi
  simp only [hr, hprobe, he] at hi
  cases e with
  | occupied v => cases hocc
  | empty =>
    obtain ⟨s₂, moved₂, hr₂, -⟩ := hset.resizeIfNecessary
    simp only [hr₂] at hi
    cases hi
    exact grown_resizeIfNecessary hset htomb
      (by show (s₁.setEntry i _).capacity ≤ _
          show _ ≤ max 16 (2 * (s₁.count + 1))
          omega) hr₂
  | tombstone => exact absurd (List.mem_of_getElem? he) hg₁.no_tomb

/-- `insert` on an insertion-only set. -/
theorem insert_grown {s : HashSet L} {elements : Finset L} (k : L)
    (h : HashSet.Refines hasher s elements) (hg : Grown s) :
    ∃ s' present, HashSet.insert hasher s k = .ok (s', present)
      ∧ HashSet.Refines hasher s' (Insert.insert k elements)
      ∧ Grown s' := by
  have hlim : MeetsLoadLimit id s k := Or.inl (hg.hasEmpty h.represents)
  have hc := contains_spec h.represents hlim
  rw [HashSet.elements_isSome] at hc
  by_cases hk : k ∈ elements
  · refine ⟨s, true, ?_, ?_, hg⟩
    · simp only [HashSet.insert, hc, hk, decide_true]
    · rw [Finset.insert_eq_of_mem hk]
      exact h
  · obtain ⟨s', hs', h'⟩ := HashSet.insertWith_refines h hlim
    refine ⟨s', false, ?_, h', ?_⟩
    · simp only [HashSet.insert, hc, hk, decide_false, hs']
    · exact grown_insertWith h.represents hg
        (by simp [HashSet.elements, hk]) hs'

-- ==== the label sets

/-- The set of the labels: there unless a label occurs twice. -/
theorem labelSet_spec (hasher : L → Nat) (labels : List L) :
    ∃ s, labelSet hasher labels = .ok (if labels.Nodup then some s else none)
      ∧ HashSet.Refines hasher s labels.toFinset ∧ Grown s := by
  obtain ⟨s, hs, href, hg⟩ := Lib.foldlM_tracks
    (f := fun s label => (HashSet.insert hasher s label).map Prod.fst)
    (I := fun done s => HashSet.Refines hasher s done.toFinset ∧ Grown s)
    (l := labels) (t := IndexedHashTable.create 16)
    (by
      intro done k _ s ⟨href, hg⟩
      obtain ⟨s', present, hi, href', hg'⟩ := insert_grown k href hg
      refine ⟨s', by rw [hi]; rfl, ?_, hg'⟩
      have hset : (done ++ [k]).toFinset
          = Insert.insert k done.toFinset := by
        ext x
        simp
      rw [hset]
      exact href')
    (by
      refine ⟨HashSet.refines_create hasher 16, ?_, ?_, ?_⟩
      · simp [IndexedHashTable.create, IndexedHashTable.entries]
      · simp [IndexedHashTable.create, IndexedHashTable.capacity,
          IndexedHashTable.entries]
      · simp [IndexedHashTable.create, IndexedHashTable.capacity,
          IndexedHashTable.entries])
  refine ⟨s, ?_, href, hg⟩
  have hcount : s.count = labels.length ↔ labels.Nodup := by
    rw [href.count_eq, List.card_toFinset]
    constructor
    · intro h
      rw [← List.dedup_eq_self]
      exact (List.dedup_sublist labels).eq_of_length h
    · intro h
      rw [h.dedup]
  simp only [labelSet, hs]
  by_cases hnd : labels.Nodup
  · rw [if_pos hnd, if_pos (hcount.mpr hnd)]
  · rw [if_neg hnd, if_neg fun h => hnd (hcount.mp h)]

section Slots

variable {s : HashSet L} {elements : Finset L}

/-- The slot of an element holds it. -/
theorem slotOf_mem (h : HashSet.Refines hasher s elements)
    (hk : k ∈ elements) : ∃ i, slotOf hasher s k = .ok i
      ∧ s.entries[i]? = some (.occupied k) := by
  obtain ⟨i, hi, he⟩ := h.represents.probe_some (k := k) (v := k)
    (by simp [HashSet.elements, hk])
  exact ⟨i, by simp only [slotOf, indexOf, hi, he], he⟩

omit [DecidableEq L] in
theorem labelAt_eq (hi : s.entries[i]? = some (.occupied k)) :
    labelAt s i = .ok k := by
  simp only [labelAt, hi]

omit [DecidableEq L] in
/-- A set with fewer than 2^31 elements has slots that fit, with their
successors, into a `BasicIndex`. -/
theorem Grown.slot_lt (hg : Grown s) (hcount : s.count < 2 ^ 31)
    (hi : s.entries[i]? = some (.occupied k)) : i + 1 < 2 ^ 32 := by
  have hlt : i < s.capacity := (List.getElem?_eq_some_iff.mp hi).1
  have hbound := hg.bounded
  omega

end Slots

-- ==== the identifiers

/-- The sizes of the arrays are large enough for the identifiers. -/
theorem lt_foldl_max (ids : List Nat) (hfit : ∀ id ∈ ids, id + 1 < 2 ^ 32) :
    ∀ size, size ≤ ids.foldl
        (fun size id => max size (basicIndex (id + 1))) size
      ∧ ∀ id ∈ ids, id < ids.foldl
        (fun size id => max size (basicIndex (id + 1))) size := by
  induction ids with
  | nil =>
    intro size
    exact ⟨le_rfl, by simp⟩
  | cons id ids ih =>
    intro size
    have hid := hfit id List.mem_cons_self
    obtain ⟨hle, hlt⟩ := ih (fun i hi => hfit i (List.mem_cons_of_mem _ hi))
      (max size (basicIndex (id + 1)))
    have hb : basicIndex (id + 1) = id + 1 := Nat.mod_eq_of_lt hid
    rw [List.foldl_cons]
    refine ⟨by omega, ?_⟩
    intro i hi
    rcases List.mem_cons.mp hi with rfl | hi
    · omega
    · exact hlt i hi

/-- The elements with the labels `labels`, in the builder's order, have
the identifiers `ids`: different ones, below `size`, and found again
from the label and from the graph's own enumeration. -/
structure Named (labeled : Bool) (hasher : L → Nat) (s : HashSet L)
    (labels : List (Option L)) (ids : List Nat) (size : Nat) : Prop where
  length : ids.length = labels.length
  nodup : ids.Nodup
  lt : ∀ id ∈ ids, id < size
  label : labeled = true → ∀ (i : Nat) (l : L), labels[i]? = some (some l) →
    ∃ id, ids[i]? = some id ∧ labelAt s id = .ok l
  listed : ∃ xs, (if labeled = true then (elementsOf s).mapM fun l =>
      (slotOf hasher s l).map basicIndex else .ok (List.range size)) = .ok xs
    ∧ xs.Perm ids
  count : (if labeled = true then s.count else size) = labels.length

/-- Without labels, the builder's own indices. -/
theorem named_range (hasher : L → Nat) (s : HashSet L)
    (labels : List (Option L)) :
    Named false hasher s labels (List.range labels.length) labels.length where
  length := List.length_range
  nodup := List.nodup_range
  lt := by simp
  label := by simp
  listed := ⟨_, rfl, .refl _⟩
  count := rfl

omit [DecidableEq L] in
theorem valueOf_eq_some {e : Entry L} {l : L} :
    valueOf e = some l ↔ e = .occupied l := by
  cases e with
  | empty | tombstone | occupied k => simp [valueOf]

/-- The loop over the elements of the set lists each of them once. -/
theorem elementsOf_perm {s : HashSet L} {labels : List L}
    (h : HashSet.Refines hasher s labels.toFinset) (hnd : labels.Nodup) :
    (elementsOf s).Perm labels := by
  refine (List.perm_ext_iff_of_nodup ?_ hnd).mpr fun l => ?_
  · -- equal elements of different slots would be one key in two slots
    rw [elementsOf, List.Nodup, List.pairwise_filterMap,
      List.pairwise_iff_getElem]
    intro i j hi hj hij l hl l' hl' heq
    have hi' : s.entries[i]? = some (.occupied l) :=
      List.getElem?_eq_some_iff.mpr ⟨hi, valueOf_eq_some.mp hl⟩
    have hj' : s.entries[j]? = some (.occupied l') :=
      List.getElem?_eq_some_iff.mpr ⟨hj, valueOf_eq_some.mp hl'⟩
    exact hij.ne (h.represents.probing.inj hi' hj' heq)
  · have hc := h.represents.content l l
    simp only [HashSet.elements, List.mem_toFinset] at hc
    rw [elementsOf, List.mem_filterMap]
    simp only [valueOf_eq_some, exists_eq_right]
    constructor
    · intro hl
      by_contra hne
      simpa [hne] using hc.mpr ⟨hl, rfl⟩
    · intro hl
      exact (hc.mp (if_pos hl)).1

/-- Distinct labels, fewer than 2^31 of them: their slots. -/
theorem labelIds_spec {s : HashSet L} {labels : List L}
    (h : HashSet.Refines hasher s labels.toFinset) (hg : Grown s)
    (hnd : labels.Nodup) (hfew : labels.length < 2 ^ 31) :
    ∃ ids size, labelIds hasher s labels = .ok (ids, size)
      ∧ Named true hasher s (labels.map some) ids size := by
  have hcount : s.count = labels.length := by
    rw [h.count_eq, List.toFinset_card_of_nodup hnd]
  have hexists : ∀ l, ∃ i, l ∈ labels → slotOf hasher s l = .ok i
      ∧ s.entries[i]? = some (.occupied l) := by
    intro l
    by_cases hl : l ∈ labels
    · obtain ⟨i, hi⟩ := slotOf_mem h (List.mem_toFinset.mpr hl)
      exact ⟨i, fun _ => hi⟩
    · exact ⟨0, fun hl' => absurd hl' hl⟩
  choose slot hslot using hexists
  have hfit : ∀ l ∈ labels, slot l + 1 < 2 ^ 32 := fun l hl =>
    hg.slot_lt (by omega) (hslot l hl).2
  have hmapM : ∀ ls : List L, (∀ l ∈ ls, l ∈ labels) →
      (ls.mapM fun l => (slotOf hasher s l).map basicIndex)
        = .ok (ls.map slot) := by
    intro ls hsub
    refine Lib.mapM_eq_map fun l hl => ?_
    have hl := hsub l hl
    have hb : basicIndex (slot l) = slot l :=
      Nat.mod_eq_of_lt (by have := hfit l hl; omega)
    rw [(hslot l hl).1, Except.map, hb]
  have hlt := (lt_foldl_max (labels.map slot) (by simpa using hfit) 0).2
  refine ⟨labels.map slot, _, by
    simp only [labelIds, hmapM labels fun _ hl => hl], ?_, ?_, hlt, ?_, ?_, ?_⟩
  · simp
  · -- one slot holds one label
    refine hnd.map_on fun k hk l hl heq => ?_
    have hk' := (hslot k hk).2
    have hl' := (hslot l hl).2
    rw [heq, hl'] at hk'
    injection hk' with hk'
    injection hk' with hk'
    exact hk'.symm
  · intro _ i l hl
    have hl' : labels[i]? = some l := by
      simpa [List.getElem?_map] using hl
    exact ⟨slot l, by rw [List.getElem?_map, hl']; rfl,
      labelAt_eq (hslot l (List.mem_of_getElem? hl')).2⟩
  · have hperm := elementsOf_perm h hnd
    exact ⟨_, hmapM _ fun l hl => hperm.mem_iff.mp hl, hperm.map slot⟩
  · simp [hcount]

end CroCOS.GraphBuilder
