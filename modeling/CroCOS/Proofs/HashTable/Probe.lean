/-
What a probe finds. The walk of `probeEntry` visits the slots
`at_ s 0, at_ s 1, …` of the buffer, cyclically from the key's home
slot `s`, and stops at the first slot that is empty or holds the key.

# The invariant that makes probing a lookup

`Probing` is the whole contract of the buffer: two occupied slots never
hold one key, and no EMPTY slot lies between a key's home and the slot
that holds it. Tombstones are allowed there — removal only ever turns
occupied into tombstone, which keeps the chain walkable — and it is
exactly why a buffer can run out of empty slots while `count` is small.

# The three outcomes

1. the key is held: the probe answers its slot (`probe_held`);
2. the key is absent and some slot is empty: the probe answers a slot
   that is not occupied, with no empty slot before it on the walk, so
   storing the key there keeps `Probing` (`probe_absent`);
3. the key is absent and no slot is empty: the probe ends in the
   load-limit assertion (`probe_exhausted`).
-/
import CroCOS.HashTable

namespace CroCOS.HashTable

variable {K E : Type _} [DecidableEq K]
variable {d n s : Nat} {key : K} {t : IndexedHashTable E}

-- ==== the walk order

/-- The `d`-th slot of the cyclic walk from `s` over `n` slots. -/
def at_ (n s d : Nat) : Nat := (s + d) % n

/-- How far slot `i` is from `s` along the walk. -/
def walkDist (n s i : Nat) : Nat := (i + n - s) % n

theorem at_lt (hn : 0 < n) (s d : Nat) : at_ n s d < n :=
  Nat.mod_lt _ hn

theorem at_zero (hs : s < n) : at_ n s 0 = s := by
  rw [at_, Nat.add_zero, Nat.mod_eq_of_lt hs]

/-- One step of the walk, as the source writes it. -/
theorem at_succ (n s d : Nat) : (at_ n s d + 1) % n = at_ n s (d + 1) := by
  rw [at_, at_, Nat.mod_add_mod, Nat.add_assoc]

/-- The walk is back at its start exactly after `n` steps. -/
theorem at_eq_start (hs : s < n) (hd : d < n) :
    at_ n s (d + 1) = s ↔ d + 1 = n := by
  constructor
  · intro h
    by_contra hne
    rcases Nat.lt_or_ge (s + (d + 1)) n with hc | hc
    · rw [at_, Nat.mod_eq_of_lt hc] at h
      omega
    · rw [at_, Nat.mod_eq_sub_mod hc, Nat.mod_eq_of_lt (by omega)] at h
      omega
  · intro h
    rw [at_, h, Nat.add_mod_right, Nat.mod_eq_of_lt hs]

theorem walkDist_lt (hn : 0 < n) (s i : Nat) :
    walkDist n s i < n := Nat.mod_lt _ hn

/-- Every slot is on the walk, at its distance. -/
theorem at_walkDist {i : Nat} (hs : s < n) (hi : i < n) :
    at_ n s (walkDist n s i) = i := by
  rcases Nat.lt_or_ge i s with h | h
  · have hw : walkDist n s i = i + n - s := Nat.mod_eq_of_lt (by omega)
    rw [at_, hw, show s + (i + n - s) = i + n from by omega,
      Nat.add_mod_right, Nat.mod_eq_of_lt hi]
  · have hw : walkDist n s i = i - s := by
      rw [walkDist, Nat.mod_eq_sub_mod (by omega), Nat.mod_eq_of_lt (by omega)]
      omega
    rw [at_, hw, show s + (i - s) = i from by omega, Nat.mod_eq_of_lt hi]

/-- Distances along the walk are unique. -/
theorem walkDist_at (hs : s < n) (hd : d < n) :
    walkDist n s (at_ n s d) = d := by
  rcases Nat.lt_or_ge (s + d) n with h | h
  · rw [at_, Nat.mod_eq_of_lt h, walkDist,
      show s + d + n - s = d + n from by omega, Nat.add_mod_right,
      Nat.mod_eq_of_lt hd]
  · rw [at_, Nat.mod_eq_sub_mod h, Nat.mod_eq_of_lt (by omega), walkDist,
      show s + d - n + n - s = d from by omega, Nat.mod_eq_of_lt hd]

-- ==== the contract

section Contract

variable (hasher : K → Nat) (extractor : E → K)

/-- The buffer contract of linear probing (module doc). -/
structure Probing (es : List (Entry E)) : Prop where
  /-- one slot per key -/
  inj : ∀ {i j : Nat} {v w : E}, es[i]? = some (.occupied v) →
    es[j]? = some (.occupied w) → extractor v = extractor w → i = j
  /-- no empty slot between a key's home and its slot -/
  reach : ∀ {i : Nat} {v : E}, es[i]? = some (.occupied v) →
    ∀ d < walkDist es.length (hasher (extractor v) % es.length) i,
      es[at_ es.length (hasher (extractor v) % es.length) d]?
        ≠ some .empty

/-- Some slot of the buffer holds `key`. -/
def Held (es : List (Entry E)) (key : K) : Prop :=
  ∃ (i : Nat) (v : E), es[i]? = some (.occupied v) ∧ extractor v = key

/-- Some slot of the buffer was never used. -/
def HasEmpty (es : List (Entry E)) : Prop := Entry.empty ∈ es

variable {hasher extractor}

/-- A slot the walk may pass: neither empty nor holding the key. -/
def Passed (extractor : E → K) (es : List (Entry E)) (key : K)
    (i : Nat) : Prop :=
  es[i]? ≠ some .empty
    ∧ ∀ v, es[i]? = some (.occupied v) → extractor v ≠ key

-- ==== the loop's spec

/-- What the walk answers, from any point of it: it stops at the first
slot it may not pass, or runs out of slots. -/
inductive ProbeSpec (extractor : E → K) (es : List (Entry E)) (key : K)
    (s : Nat) : Except Fault Nat → Prop
  | held {d : Nat} {v : E} (hd : d < es.length)
      (hpass : ∀ d' < d, Passed extractor es key (at_ es.length s d'))
      (hv : es[at_ es.length s d]? = some (.occupied v))
      (hk : extractor v = key) :
      ProbeSpec extractor es key s (.ok (at_ es.length s d))
  | free {d d₀ : Nat} {e : Entry E} (hle : d₀ ≤ d) (hd : d < es.length)
      (hpass : ∀ d' < d, Passed extractor es key (at_ es.length s d'))
      (hempty : es[at_ es.length s d]? = some .empty)
      (he : es[at_ es.length s d₀]? = some e) (hocc : e.isOccupied = false) :
      ProbeSpec extractor es key s (.ok (at_ es.length s d₀))
  | exhausted (hpass : ∀ d' < es.length,
        Passed extractor es key (at_ es.length s d')) :
      ProbeSpec extractor es key s (.error (.assertion loadLimitMsg))

/-- The tombstone register of the walk: unset, or a tombstone passed. -/
def TombOk (es : List (Entry E)) (s d : Nat) : Option Nat → Prop
  | none => True
  | some j => ∃ d₀ < d, j = at_ es.length s d₀
      ∧ es[at_ es.length s d₀]? = some .tombstone

/-- The loop meets its spec from any point of the walk. -/
theorem probeLoop_spec (extractor : E → K) (es : List (Entry E)) (key : K)
    (hs : s < es.length) :
    ∀ (fuel d : Nat) (tomb : Option Nat), d + fuel = es.length → 0 < fuel →
      (∀ d' < d, Passed extractor es key (at_ es.length s d')) →
      TombOk es s d tomb →
      ProbeSpec extractor es key s
        (probeLoop extractor es key s fuel (at_ es.length s d) tomb) := by
  intro fuel
  induction fuel with
  | zero => intro d tomb _ h; exact absurd h (Nat.lt_irrefl 0)
  | succ fuel ih =>
    intro d tomb hlen _ hpass htomb
    have hd : d < es.length := by omega
    have hlt : at_ es.length s d < es.length := at_lt (by omega) s d
    -- passing slot `d`: either the walk is over or the induction goes on
    have hnext : ∀ tomb', Passed extractor es key (at_ es.length s d) →
        TombOk es s (d + 1) tomb' →
        ProbeSpec extractor es key s
          (if (at_ es.length s d + 1) % es.length = s then
            .error (.assertion loadLimitMsg)
          else probeLoop extractor es key s fuel
            ((at_ es.length s d + 1) % es.length) tomb') := by
      intro tomb' hp htomb'
      have hpass' : ∀ d' < d + 1,
          Passed extractor es key (at_ es.length s d') := by
        intro d' hd'
        rcases Nat.lt_succ_iff_lt_or_eq.mp hd' with h | h
        · exact hpass d' h
        · rw [h]; exact hp
      rw [at_succ]
      by_cases hend : at_ es.length s (d + 1) = s
      · rw [if_pos hend]
        have hn := (at_eq_start hs hd).mp hend
        exact .exhausted (fun d' hd' => hpass' d' (by omega))
      · rw [if_neg hend]
        have hn : d + 1 ≠ es.length := fun h =>
          hend ((at_eq_start hs hd).mpr h)
        exact ih (d + 1) tomb' (by omega) (by omega) hpass' htomb'
    obtain ⟨e, he⟩ : ∃ e, es[at_ es.length s d]? = some e :=
      ⟨_, List.getElem?_eq_getElem hlt⟩
    cases e with
    | empty =>
      rw [probeLoop, he]
      cases tomb with
      | none => exact .free (Nat.le_refl d) hd hpass he he rfl
      | some j =>
        obtain ⟨d₀, hd₀, rfl, ht⟩ := htomb
        exact .free (Nat.le_of_lt hd₀) hd hpass he ht rfl
    | tombstone =>
      rw [probeLoop, he]
      refine hnext (some _) ⟨by rw [he]; simp, by rw [he]; simp⟩ ?_
      exact ⟨d, Nat.lt_succ_self d, rfl, he⟩
    | occupied v =>
      rw [probeLoop, he]
      by_cases hk : extractor v = key
      · simp only [hk]
        exact .held hd hpass he hk
      · simp only [hk]
        refine hnext tomb ⟨by rw [he]; simp, ?_⟩ ?_
        · intro w hw
          rw [he] at hw
          cases hw
          exact hk
        · cases tomb with
          | none => trivial
          | some j =>
            obtain ⟨d₀, hd₀, hj⟩ := htomb
            exact ⟨d₀, Nat.lt_succ_of_lt hd₀, hj⟩

-- ==== the three outcomes

/-- The probe of a nonempty buffer meets the loop's spec. -/
theorem probeEntry_spec (hasher : K → Nat) (extractor : E → K)
    (t : IndexedHashTable E) (key : K)
    (hcap : 0 < t.capacity) :
    ProbeSpec extractor t.entries key (hasher key % t.capacity)
      (probeEntry hasher extractor t key) := by
  have hs : hasher key % t.capacity < t.capacity := Nat.mod_lt _ hcap
  have hspec := probeLoop_spec extractor t.entries key hs t.capacity 0 none (by
      rw [Nat.zero_add]; rfl) hcap (fun d' hd' => absurd hd' (by omega))
    trivial
  rw [probeEntry, if_neg (by omega)]
  rw [show at_ t.entries.length (hasher key % t.capacity) 0
    = hasher key % t.capacity from at_zero hs] at hspec
  exact hspec

omit [DecidableEq K] in
/-- A held key is never passed over: its slot is on the walk, and the
contract keeps empty slots off the way to it. -/
theorem not_all_passed_of_held {es : List (Entry E)}
    (hp : Probing hasher extractor es) (hcap : 0 < es.length)
    (hheld : Held extractor es key)
    (hstop : es[at_ es.length (hasher key % es.length) d]? = some .empty
      ∨ es.length ≤ d) (hpass : ∀ d' < d,
      Passed extractor es key (at_ es.length (hasher key % es.length) d')) :
    False := by
  obtain ⟨i, v, hv, hk⟩ := hheld
  have hi : i < es.length := (List.getElem?_eq_some_iff.mp hv).1
  have hs : hasher key % es.length < es.length := Nat.mod_lt _ hcap
  have hat : at_ es.length (hasher key % es.length)
      (walkDist es.length (hasher key % es.length) i) = i :=
    at_walkDist hs hi
  have hreach := hp.reach hv
  rw [hk] at hreach
  rcases Nat.lt_trichotomy d
      (walkDist es.length (hasher key % es.length) i) with h | h | h
  · rcases hstop with he | hle
    · exact hreach d h he
    · have := walkDist_lt hcap (hasher key % es.length) i
      omega
  · rcases hstop with he | hle
    · rw [h, hat, hv] at he
      cases he
    · have := walkDist_lt hcap (hasher key % es.length) i
      omega
  · have := hpass _ h
    rw [hat] at this
    exact this.2 v hv hk

/-- Outcome 1: a held key's probe answers its slot. -/
theorem probe_held (hp : Probing hasher extractor t.entries)
    (hheld : Held extractor t.entries key) :
    ∃ i v, probeEntry hasher extractor t key = .ok i
      ∧ t.entries[i]? = some (.occupied v) ∧ extractor v = key := by
  have hcap : 0 < t.capacity := by
    obtain ⟨i, v, hv, -⟩ := hheld
    exact Nat.lt_of_le_of_lt (Nat.zero_le i) (List.getElem?_eq_some_iff.mp hv).1
  have hspec := probeEntry_spec hasher extractor t key hcap
  generalize hr : probeEntry hasher extractor t key = r at hspec
  cases hspec with
  | held hd hpass hv hk => exact ⟨_, _, rfl, hv, hk⟩
  | free hle hd hpass hempty he hocc =>
    exact (not_all_passed_of_held hp hcap hheld (Or.inl hempty) hpass).elim
  | exhausted hpass =>
    exact (not_all_passed_of_held hp hcap hheld (Or.inr le_rfl) hpass).elim

/-- Outcome 2: an absent key's probe answers a free slot that an entry
may take without breaking the contract. -/
theorem probe_absent (hasher : K → Nat)
    (habs : ¬ Held extractor t.entries key) (hempty : HasEmpty t.entries) :
    ∃ i e, probeEntry hasher extractor t key = .ok i
      ∧ t.entries[i]? = some e ∧ e.isOccupied = false
      ∧ ∀ d < walkDist t.capacity (hasher key % t.capacity) i,
          t.entries[at_ t.capacity (hasher key % t.capacity) d]?
            ≠ some .empty := by
  have hcap : 0 < t.capacity := List.length_pos_of_mem hempty
  have hs : hasher key % t.capacity < t.capacity := Nat.mod_lt _ hcap
  have hspec := probeEntry_spec hasher extractor t key hcap
  generalize hr : probeEntry hasher extractor t key = r at hspec
  cases hspec with
  | held hd hpass hv hk => exact (habs ⟨_, _, hv, hk⟩).elim
  | free hle hd hpass hempty he hocc =>
    rename_i d d₀ e
    refine ⟨_, e, rfl, he, hocc, fun d' hd' => ?_⟩
    have hw : walkDist t.capacity (hasher key % t.capacity)
        (at_ t.entries.length (hasher key % t.capacity) d₀) = d₀ :=
      walkDist_at hs (Nat.lt_of_le_of_lt hle hd)
    exact (hpass d' (by omega)).1
  | exhausted hpass =>
    -- an empty slot is somewhere on the walk, where nothing is passed
    obtain ⟨i, hi, hie⟩ := List.getElem_of_mem hempty
    have hne := (hpass _ (walkDist_lt hcap (hasher key % t.capacity) i)).1
    have hat : at_ t.entries.length (hasher key % t.capacity)
        (walkDist t.capacity (hasher key % t.capacity) i) = i :=
      at_walkDist hs hi
    rw [hat, List.getElem?_eq_getElem hi, hie] at hne
    exact (hne rfl).elim

/-- Outcome 3: with the key absent and no slot empty, the probe does
not return. -/
theorem probe_exhausted (habs : ¬ Held extractor t.entries key)
    (hfull : ¬ HasEmpty t.entries) :
    ∃ e, probeEntry hasher extractor t key = .error e := by
  by_cases hz : t.capacity = 0
  · exact ⟨.divideByZero, by rw [probeEntry, if_pos hz]⟩
  · have hcap : 0 < t.capacity := Nat.pos_of_ne_zero hz
    have hspec := probeEntry_spec hasher extractor t key hcap
    generalize hr : probeEntry hasher extractor t key = r at hspec
    cases hspec with
    | held hd hpass hv hk => exact (habs ⟨_, _, hv, hk⟩).elim
    | free hle hd hpass hempty he hocc =>
      exact (hfull (List.mem_of_getElem? hempty)).elim
    | exhausted hpass => exact ⟨_, rfl⟩

end Contract

end CroCOS.HashTable
