/-
Why a stale translation is a dirty one, and when it is not. A CPU with
a stale translation is owed an invalidation: either its dirty bit is
already set, or some CPU in the middle of a remapping has yet to reach
its dirty word (`Owes`). The debt is paid by the `fetch_or` and
cancelled by the CPU's own `invlpg`.

What loses it is `ensureTLBEntryFresh` itself, which clears the bit
after it has dropped the translation: a remapping that lands in
between sets a bit that is already set, and the clearing takes both
back. As long as no PTE write falls into such a window
(`NoWriteInWindow`) the debt is never lost.
-/
import CroCOS.TLBFreshness
import CroCOS.Lib.Bitmap

namespace CroCOS.VMSubstrate.TLB

open Function Lib

variable {c u : Nat} {pc : Pc} {s : Page}

-- ==== the dirty bits

theorem dirtyCPUBit_eq (cpu : Nat) :
    dirtyCPUBit cpu = Bitmap.mask 64 (cpu % 64) := by
  unfold dirtyCPUBit Bitmap.mask
  rw [BitVec.twoPow_eq]

theorem dirty_iff {cpu : Nat} :
    s.Dirty cpu ↔ cpu % 64 ∈ Bitmap.bits (s.dirtyEntry (dirtyCPUWord cpu)) := by
  have hlt : cpu % 64 < 64 := Nat.mod_lt _ (by omega)
  unfold Page.Dirty
  rw [dirtyCPUBit_eq, ne_eq, Bitmap.and_eq_zero_iff, Bitmap.bits_mask hlt,
    Finset.disjoint_singleton_right, not_not]

/-- A remapping marks every CPU of a word but its own. -/
theorem mem_dirtyMask (h : u ≠ c) :
    c % 64 ∈ Bitmap.bits (dirtyMask u (dirtyCPUWord c)) := by
  have hlt : c % 64 < 64 := Nat.mod_lt _ (by omega)
  rw [Bitmap.mem_bits]
  unfold dirtyMask dirtyCPUWord
  split
  · rename_i hw
    have hne : ¬ u % 64 = c % 64 := by omega
    rw [dirtyCPUBit_eq, Bitmap.mask, BitVec.getLsbD_not, BitVec.getLsbD_twoPow]
    simp [hlt, hne]
  · rw [BitVec.getLsbD_not]
    simp [hlt]

theorem word_lt {n : Nat} (h : c < n) : dirtyCPUWord c < dirtyWordCount n := by
  unfold dirtyCPUWord dirtyWordCount
  omega

-- ==== what a step does

/-- The steps a CPU can take, whatever call they belong to. -/
inductive Move (cpu : Nat) (s : Page) : Pc → Page → Pc → Prop
  | fill (pc : Pc) : Move cpu s pc
      { s with tlb := update s.tlb cpu (some s.pte) } pc
  | write (pte : Pte) : Move cpu s .idle { s with pte := pte } (.setDirty 0)
  | dirty (dw : Nat) : Move cpu s (.setDirty dw) { s with
        dirtyEntry := update s.dirtyEntry dw
          (s.dirtyEntry dw ||| dirtyMask cpu dw) }
      (if dw + 1 < dirtyWordCount s.processorCount then .setDirty (dw + 1)
        else .invlpg)
  | drop : Move cpu s .invlpg { s with tlb := update s.tlb cpu none } .idle
  | freshDrop : Move cpu s .freshInvlpg
      { s with tlb := update s.tlb cpu none } .freshClear
  | clear : Move cpu s .freshClear { s with
        dirtyEntry := update s.dirtyEntry (dirtyCPUWord cpu)
          (s.dirtyEntry (dirtyCPUWord cpu) &&& ~~~dirtyCPUBit cpu) } .idle
  | look : Move cpu s .idle s .freshInvlpg
  | stay (pc : Pc) : Move cpu s pc s pc

/-- Every step is one of the moves, and only a remapping call writes. -/
theorem next_move {cpu : Nat} {s' : Page} {pc' : Pc} {c : Choice}
    (h : next cpu s pc c = .ok (s', pc', ())) : Move cpu s pc s' pc' := by
  cases c with
  | fill => cases h; exact .fill pc
  | allocPage phys | freePage | reclaimSlabPage =>
    cases pc with
    | idle => cases h; exact .write _
    | _ => cases h; exact .stay _
  | ensureTLBEntryFresh =>
    cases pc with
    | idle =>
      cases h
      split
      · exact .look
      · exact .stay _
    | _ => cases h; exact .stay _
  | step =>
    cases pc with
    | setDirty dw => cases h; exact .dirty dw
    | idle => cases h; exact .stay _
    | invlpg => cases h; exact .drop
    | freshInvlpg => cases h; exact .freshDrop
    | freshClear => cases h; exact .clear

/-- Only a remapping call starts setting dirty bits. -/
theorem writes_of_start {cpu : Nat} {s' : Page} {pc' : Pc} {c : Choice}
    {dw : Nat} (h : next cpu s .idle c = .ok (s', pc', ()))
    (hpc : pc' = .setDirty dw) : c.writes = true := by
  cases c with
  | allocPage phys | freePage | reclaimSlabPage => rfl
  | ensureTLBEntryFresh =>
    cases h
    split at hpc <;> cases hpc
  | step | fill => cases h; cases hpc

-- ==== the invariant

/-- CPU `u`, in the middle of a remapping, has yet to mark CPU `c`, or
is `c` itself and has yet to drop its own translation. -/
def Owes (own : Nat → Pc) (u c : Nat) : Prop :=
  (∃ dw, own u = .setDirty dw ∧ (u = c ∨ dw ≤ dirtyCPUWord c))
    ∨ (own u = .invlpg ∧ u = c)

/-- Every stale translation is dirty or owed a dirty bit, and a reader
about to clear its bit has nothing stale. -/
structure Covered (n : Nat) (m : Machine) : Prop where
  count : m.shared.processorCount = n
  window : ∀ c, m.own c = .freshClear → ¬ m.shared.Stale c
  stale : ∀ c, c < n → m.shared.Stale c → m.shared.Dirty c ∨ ∃ u, Owes m.own u c

theorem covered_boot (n : Nat) (dirtyEntry : Nat → BitVec 64) :
    Covered n (boot n dirtyEntry) := by
  refine ⟨rfl, ?_, ?_⟩
  · intro c hc
    cases hc
  · intro c _ hs
    obtain ⟨e, he, -⟩ := hs
    cases he

/-- A debt of a CPU that did not move stands. -/
theorem owes_other {own : Nat → Pc} {cpu : Nat} (hu : u ≠ cpu)
    (h : Owes own u c) : Owes (update own cpu pc) u c := by
  unfold Owes
  rw [update_of_ne hu]
  exact h

theorem owes_self {own : Nat → Pc} : Owes (update own u pc) u c
      ↔ (∃ dw, pc = .setDirty dw ∧ (u = c ∨ dw ≤ dirtyCPUWord c))
        ∨ (pc = .invlpg ∧ u = c) := by
  unfold Owes
  rw [update_self]

/-- Only a remapping has debts. -/
theorem Owes.remapping {own : Nat → Pc} (h : Owes own u c) :
    (own u).remapping = true := by
  obtain ⟨dw, hset, -⟩ | ⟨hinv, -⟩ := h
  · rw [hset]
    rfl
  · rw [hinv]
    rfl

section Step

variable {n cpu : Nat} {m : Machine} {s' : Page} {pc' : Pc}

/-- A reader in its window that did not step into it was there before. -/
theorem own_of_window (hpc : pc' ≠ .freshClear)
    (hc : update m.own cpu pc' c = .freshClear) : m.own c = .freshClear := by
  by_cases hcc : c = cpu
  · rw [hcc, update_self] at hc
    exact absurd hc hpc
  · rw [update_of_ne hcc] at hc
    exact hc

/-- A step that changes neither the PTE nor the dirty bits and leaves
the others' translations alone. -/
theorem Covered.tlb_step (h : Covered n m)
    (hpte : s'.pte = m.shared.pte) (hd : s'.dirtyEntry = m.shared.dirtyEntry)
    (hn : s'.processorCount = m.shared.processorCount)
    (htlb : ∀ c, c ≠ cpu → s'.tlb c = m.shared.tlb c)
    (hfresh : ¬ s'.Stale cpu ∨ (s'.tlb cpu = m.shared.tlb cpu
      ∧ pc' ≠ .freshClear))
    (howed : ∀ c, Owes m.own cpu c → c = cpu ∧ ¬ s'.Stale cpu
      ∨ Owes (update m.own cpu pc') cpu c) :
    Covered n ⟨s', update m.own cpu pc'⟩ := by
  have hst : ∀ c, c ≠ cpu → (s'.Stale c ↔ m.shared.Stale c) := by
    intro c hc
    unfold Page.Stale
    rw [htlb c hc, hpte]
  have hst' : s'.Stale cpu → m.shared.Stale cpu ∧ pc' ≠ .freshClear := by
    intro hs
    cases hfresh with
    | inl hf => exact absurd hs hf
    | inr hf =>
      refine ⟨?_, hf.2⟩
      unfold Page.Stale at hs ⊢
      rw [hf.1, hpte] at hs
      exact hs
  have hdirty : ∀ c, s'.Dirty c ↔ m.shared.Dirty c := by
    intro c
    unfold Page.Dirty
    rw [hd]
  refine ⟨by rw [← h.count]; exact hn, ?_, ?_⟩
  · intro c hc hs
    change update m.own cpu pc' c = .freshClear at hc
    by_cases hcc : c = cpu
    · subst hcc
      rw [update_self] at hc
      exact (hst' hs).2 hc
    · rw [update_of_ne hcc] at hc
      exact h.window c hc ((hst c hcc).mp hs)
  · intro c hlt hs
    have hold : m.shared.Stale c := by
      by_cases hcc : c = cpu
      · subst hcc
        exact (hst' hs).1
      · exact (hst c hcc).mp hs
    cases h.stale c hlt hold with
    | inl hd' => exact Or.inl ((hdirty c).mpr hd')
    | inr ho =>
      obtain ⟨u, hu⟩ := ho
      by_cases hcu : u = cpu
      · subst hcu
        cases howed c hu with
        | inl hgone =>
          rw [hgone.1] at hs
          exact absurd hs hgone.2
        | inr hnew => exact Or.inr ⟨u, hnew⟩
      · exact Or.inr ⟨u, owes_other hcu hu⟩

/-- The PTE write opens a debt to every CPU. -/
theorem Covered.write_step (h : Covered n m) (pte : Pte)
    (hwin : ∀ c, m.own c ≠ .freshClear) :
    Covered n ⟨{ m.shared with pte := pte },
      update m.own cpu (.setDirty 0)⟩ := by
  have howes : ∀ c, Owes (update m.own cpu (.setDirty 0)) cpu c :=
    fun c => owes_self.mpr (Or.inl ⟨0, rfl, Or.inr (Nat.zero_le _)⟩)
  exact ⟨h.count, fun c hc => absurd (own_of_window (by decide) hc) (hwin c),
    fun c _ _ => Or.inr ⟨cpu, howes c⟩⟩

/-- A `fetch_or` pays the debt to the CPUs of its word. -/
theorem Covered.dirty_step (h : Covered n m) {dw : Nat}
    (hown : m.own cpu = .setDirty dw) :
    Covered n ⟨{ m.shared with
        dirtyEntry := update m.shared.dirtyEntry dw
          (m.shared.dirtyEntry dw ||| dirtyMask cpu dw) },
      update m.own cpu (if dw + 1 < dirtyWordCount m.shared.processorCount
          then .setDirty (dw + 1) else .invlpg)⟩ := by
  have hkeep : ∀ c, m.shared.Dirty c → Page.Dirty { m.shared with
      dirtyEntry := update m.shared.dirtyEntry dw
        (m.shared.dirtyEntry dw ||| dirtyMask cpu dw) } c := by
    intro c hd
    rw [dirty_iff] at hd ⊢
    show c % 64 ∈ Bitmap.bits (update m.shared.dirtyEntry dw _ _)
    by_cases hw : dirtyCPUWord c = dw
    · rw [hw, update_self, Bitmap.bits_or]
      rw [hw] at hd
      exact Finset.mem_union_left _ hd
    · rw [update_of_ne hw]
      exact hd
  refine ⟨h.count, fun c hc => h.window c (own_of_window ?_ hc), ?_⟩
  · split <;> exact nofun
  · intro c hlt hs
    cases h.stale c hlt hs with
    | inl hd => exact Or.inl (hkeep c hd)
    | inr ho =>
      obtain ⟨u, hu⟩ := ho
      by_cases hcu : u = cpu
      · -- the debt is the stepping CPU's own: paid now, or still ahead
        subst hcu
        by_cases hself : u = c
        · refine Or.inr ⟨u, owes_self.mpr ?_⟩
          split
          · exact Or.inl ⟨dw + 1, rfl, Or.inl hself⟩
          · exact Or.inr ⟨rfl, hself⟩
        · have hle : dw ≤ dirtyCPUWord c := by
            cases hu with
            | inl hd =>
              obtain ⟨dw', hdw, hor⟩ := hd
              rw [hown] at hdw
              cases hdw
              cases hor with
              | inl he => exact absurd he hself
              | inr hle => exact hle
            | inr hi => exact absurd hi.2 hself
          by_cases hw : dirtyCPUWord c = dw
          · refine Or.inl (dirty_iff.mpr ?_)
            show c % 64 ∈ Bitmap.bits (update m.shared.dirtyEntry dw _ _)
            rw [hw, update_self, Bitmap.bits_or, ← hw]
            exact Finset.mem_union_right _ (mem_dirtyMask hself)
          · have hlt' := word_lt hlt
            rw [← h.count] at hlt'
            refine Or.inr ⟨u, owes_self.mpr ?_⟩
            rw [if_pos (by omega)]
            exact Or.inl ⟨dw + 1, rfl, Or.inr (by omega)⟩
      · exact Or.inr ⟨u, owes_other hcu hu⟩

/-- Clearing the bit of a CPU that has nothing stale loses nothing. -/
theorem Covered.clear_step (h : Covered n m) (hown : m.own cpu = .freshClear) :
    Covered n ⟨{ m.shared with
        dirtyEntry := update m.shared.dirtyEntry (dirtyCPUWord cpu)
          (m.shared.dirtyEntry (dirtyCPUWord cpu) &&& ~~~dirtyCPUBit cpu) },
      update m.own cpu .idle⟩ := by
  refine ⟨h.count, fun c hc => h.window c (own_of_window (by decide) hc), ?_⟩
  intro c hlt hs
  have hcc : c ≠ cpu := by
    intro he
    subst he
    exact h.window c hown hs
  cases h.stale c hlt hs with
  | inl hd =>
    refine Or.inl (dirty_iff.mpr ?_)
    rw [dirty_iff] at hd
    show c % 64 ∈ Bitmap.bits
      (update m.shared.dirtyEntry (dirtyCPUWord cpu) _ _)
    by_cases hw : dirtyCPUWord c = dirtyCPUWord cpu
    · have hbit : c % 64 ≠ cpu % 64 := by
        unfold dirtyCPUWord at hw
        omega
      rw [hw] at hd
      rw [hw, update_self, dirtyCPUBit_eq,
        Bitmap.bits_clear_mask (Nat.mod_lt _ (by omega))]
      exact Finset.mem_erase.mpr ⟨hbit, hd⟩
    · rw [update_of_ne hw]
      exact hd
  | inr ho =>
    obtain ⟨u, hu⟩ := ho
    have hcu : u ≠ cpu := by
      rintro rfl
      have hre := hu.remapping
      rw [hown] at hre
      cases hre
    exact Or.inr ⟨u, owes_other hcu hu⟩

/-- Every move keeps the invariant, a PTE write when it falls into no
reader's window. -/
theorem Covered.move (h : Covered n m) (hs : m.shared = s)
    (hpc : m.own cpu = pc) (hm : Move cpu s pc s' pc')
    (hwin : pc = .idle → (∃ dw, pc' = .setDirty dw) →
      ∀ c, m.own c ≠ .freshClear) :
    Covered n ⟨s', update m.own cpu pc'⟩ := by
  subst hs
  have hne : ∀ (e : Option Pte) (c : Nat), c ≠ cpu →
      update m.shared.tlb cpu e c = m.shared.tlb c :=
    fun e c hc => update_of_ne hc ..
  have hnone : ¬ Page.Stale
      { m.shared with tlb := update m.shared.tlb cpu none } cpu := by
    intro hs
    obtain ⟨e, he, -⟩ := hs
    change e ∈ update m.shared.tlb cpu none cpu at he
    rw [update_self] at he
    cases he
  cases hm with
  | fill pc =>
    refine h.tlb_step rfl rfl rfl (hne _) (Or.inl ?_) fun c hc => Or.inr ?_
    · intro hs
      obtain ⟨e, he, hen⟩ := hs
      change e ∈ update m.shared.tlb cpu _ cpu at he
      rw [update_self] at he
      cases he
      exact hen rfl
    · rw [← hpc, update_eq_self]
      exact hc
  | write pte => exact h.write_step pte (hwin rfl ⟨0, rfl⟩)
  | dirty dw => exact h.dirty_step hpc
  | drop =>
    refine h.tlb_step rfl rfl rfl (hne _) (Or.inl hnone) fun c hc => ?_
    unfold Owes at hc
    rw [hpc] at hc
    cases hc with
    | inl hd => obtain ⟨dw, hd, -⟩ := hd; cases hd
    | inr hi => exact Or.inl ⟨hi.2.symm, hnone⟩
  | freshDrop =>
    refine h.tlb_step rfl rfl rfl (hne _) (Or.inl hnone) fun c hc => ?_
    have hre := hc.remapping
    rw [hpc] at hre
    cases hre
  | clear => exact h.clear_step hpc
  | look =>
    refine h.tlb_step rfl rfl rfl (fun _ _ => rfl)
      (Or.inr ⟨rfl, by decide⟩) fun c hc => ?_
    have hre := hc.remapping
    rw [hpc] at hre
    cases hre
  | stay pc =>
    rw [← hpc, update_eq_self]
    exact h

end Step

-- ==== whole runs

/-- One scheduled step that opens no window keeps the invariant. -/
theorem covered_step {n : Nat} {m m' : Machine} {c : Nat × Choice} {r : Unit}
    (h : Covered n m) (hw : NoWriteInWindow m c)
    (hs : Pool.step next m c = .ok (m', r)) : Covered n m' := by
  obtain ⟨s, pc, hn, rfl⟩ := Pool.step_inv hs
  refine h.move rfl rfl (next_move hn) ?_
  intro hidle hdw
  obtain ⟨dw, hdw⟩ := hdw
  rw [hidle] at hn
  exact hw hidle (writes_of_start hn hdw)

/-- No step faults. -/
theorem next_ok (cpu : Nat) (s : Page) (pc : Pc) (c : Choice) :
    ∃ s' pc', next cpu s pc c = .ok (s', pc', ()) := by
  cases c <;> cases pc <;> exact ⟨_, _, rfl⟩

/-- What holds in every state a schedule without writes in windows
reaches. -/
theorem covered_run {n : Nat} {dirtyEntry : Nat → BitVec 64}
    {sched : List (Nat × Choice)} {m : Machine} {rs : List Unit}
    (hw : Along (Pool.step next) NoWriteInWindow (boot n dirtyEntry) sched)
    (hr : run (Pool.step next) (boot n dirtyEntry) sched = .ok (m, rs)) :
    Covered n m := by
  have hsafe := run_safe (fun m c hI hq => ?_) (covered_boot n dirtyEntry) hw
  · obtain ⟨m', rs', hr', hI⟩ := hsafe
    rw [hr] at hr'
    cases hr'
    exact hI
  · obtain ⟨s, pc, hn⟩ := next_ok c.1 m.shared (m.own c.1) c.2
    exact ⟨_, (), Pool.step_ok hn, covered_step hI hq (Pool.step_ok hn)⟩

/-- A set bit makes the next `ensureTLBEntryFresh` drop the entry. -/
theorem dirty_is_dropped {m : Machine} {cpu : Nat} (hd : m.shared.Dirty cpu)
    (hidle : m.own cpu = .idle) :
    ∃ m' rs, run (Pool.step next) m
        [(cpu, .ensureTLBEntryFresh), (cpu, .step)] = .ok (m', rs)
      ∧ m'.shared.tlb cpu = none := by
  have h1 : Pool.step next m (cpu, .ensureTLBEntryFresh)
      = .ok (⟨m.shared, update m.own cpu .freshInvlpg⟩, ()) := by
    unfold Page.Dirty at hd
    simp only [Pool.step, hidle, next]
    rw [if_pos hd]
  have h2 : Pool.step next
      ⟨m.shared, update m.own cpu .freshInvlpg⟩ (cpu, .step)
      = .ok (⟨{ m.shared with tlb := update m.shared.tlb cpu none },
          update (update m.own cpu .freshInvlpg) cpu .freshClear⟩, ()) := by
    simp only [Pool.step, update_self, next]
  have hr := run_cons_ok [(cpu, Choice.step)] h1
  rw [run_cons_ok [] h2] at hr
  exact ⟨_, _, hr, update_self ..⟩

/-- As long as no PTE write lands between a reader's `invlpg` and its
clearing of the dirty bit: whenever no remapping is in progress, a CPU
that holds a stale translation has its dirty bit set, and its next
`ensureTLBEntryFresh` drops the translation. -/
theorem stale_translation_is_dirty {n : Nat} {dirtyEntry : Nat → BitVec 64}
    {sched : List (Nat × Choice)} {m : Machine} {rs : List Unit}
    (hw : Along (Pool.step next) NoWriteInWindow (boot n dirtyEntry) sched)
    (hr : run (Pool.step next) (boot n dirtyEntry) sched = .ok (m, rs))
    (hquiet : ∀ u, (m.own u).remapping = false)
    {cpu : Nat} (hcpu : cpu < n) (hs : m.shared.Stale cpu) :
    m.shared.Dirty cpu ∧ (m.own cpu = .idle → ∃ m' rs', run (Pool.step next) m
          [(cpu, .ensureTLBEntryFresh), (cpu, .step)] = .ok (m', rs')
        ∧ m'.shared.tlb cpu = none) := by
  have hc := covered_run hw hr
  have hd : m.shared.Dirty cpu := by
    cases hc.stale cpu hcpu hs with
    | inl hd => exact hd
    | inr ho =>
      obtain ⟨u, hu⟩ := ho
      have hre := hu.remapping
      rw [hquiet u] at hre
      cases hre
  exact ⟨hd, dirty_is_dropped hd⟩

/-- CPU 0 maps the page, CPU 1 has cached nothing yet; CPU 0 then frees
the page while CPU 1 holds the mapping: a schedule without a window. -/
def remapOutsideWindow : List (Nat × Choice) :=
  [(0, .allocPage 7), (0, .step), (0, .step),
   (1, .ensureTLBEntryFresh), (1, .step), (1, .step), (1, .fill),
   (0, .freePage), (0, .step), (0, .step)]

/-- The free leaves CPU 1 stale, and marked. -/
theorem stale_translation_is_dirty_after_free :
    ∃ m rs, run (Pool.step next) (boot 2 fun _ => 0#64) remapOutsideWindow
        = .ok (m, rs)
      ∧ m.shared.Stale 1 ∧ m.shared.Dirty 1 := by
  have hw : Along (Pool.step next) NoWriteInWindow (boot 2 fun _ => 0#64)
      remapOutsideWindow := by
    refine Along_cons rfl ?_ (Along_cons rfl ?_ (Along_cons rfl ?_
      (Along_cons rfl ?_ (Along_cons rfl ?_ (Along_cons rfl ?_
        (Along_cons rfl ?_ (Along_cons rfl ?_ (Along_cons rfl ?_
          (Along_cons rfl ?_ trivial)))))))))
    -- only the two remapping calls write; every CPU is idle there
    · intro _ _ cpu h
      cases h
    · intro _ h; cases h
    · intro _ h; cases h
    · intro _ h; cases h
    · intro _ h; cases h
    · intro _ h; cases h
    · intro _ h; cases h
    · intro _ _ cpu
      cases cpu with
      | zero => intro h; cases h
      | succ k =>
        cases k with
        | zero | succ k => intro h; cases h
    · intro _ h; cases h
    · intro _ h; cases h
  refine ⟨_, _, rfl, ?_, ?_⟩
  · exact ⟨.leaf 7 true, rfl, by decide⟩
  · refine (stale_translation_is_dirty hw rfl ?_ (by decide)
      ⟨.leaf 7 true, rfl, by decide⟩).1
    intro u
    cases u with
    | zero => rfl
    | succ k =>
      cases k with
      | zero | succ k => rfl

/-- The same calls, with the free between CPU 1's `invlpg` and its
clearing of the bit. -/
def remapInsideWindow : List (Nat × Choice) :=
  [(0, .allocPage 7), (0, .step), (0, .step),
   (1, .ensureTLBEntryFresh), (1, .step), (1, .fill),
   (0, .freePage), (0, .step), (0, .step), (1, .step)]

/-- The invalidation is lost: CPU 1 keeps the freed page's translation
with a clear dirty bit, and nobody is remapping. -/
theorem remap_in_window_is_lost :
    ∃ m rs, run (Pool.step next) (boot 2 fun _ => 0#64) remapInsideWindow
        = .ok (m, rs)
      ∧ (∀ u, (m.own u).remapping = false)
      ∧ m.shared.Stale 1 ∧ ¬ m.shared.Dirty 1 := by
  refine ⟨_, _, rfl, ?_, ?_, ?_⟩
  · intro u
    cases u with
    | zero => rfl
    | succ k =>
      cases k with
      | zero | succ k => rfl
  · exact ⟨.leaf 7 true, rfl, by decide⟩
  · decide

end CroCOS.VMSubstrate.TLB
