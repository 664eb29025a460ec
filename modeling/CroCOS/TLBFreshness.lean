/-
Lazy TLB freshness of one substrate page (VMSubstrate.cpp). A CPU that
rewrites a leaf PTE does not interrupt the others: it sets a dirty bit
for each of them (`setDirtyForOtherCPUs`) and drops its own cached
translation; the others look at their bit before they touch the page
(`ensureTLBEntryFresh`) and drop theirs when it is set.

# The machine

Every CPU is a thread over the page's PTE, the words of dirty bits and
the translations the CPUs have cached. One step is one PTE write, one
`fetch_or` of a dirty word, one `invlpg`, or one load or `fetch_and`
of `ensureTLBEntryFresh`. `Choice.fill` is the hardware: at any time a
CPU may cache the PTE as it stands. The words are 64 CPUs wide, as in
the source: the bit of CPU `c` is bit `c % 64` of word `c / 64`.
-/
import CroCOS.Lib.Pool
import CroCOS.Fault

namespace CroCOS.VMSubstrate.TLB

open Function Lib

-- ==== page tables

/-- A leaf page table entry, as far as a translation depends on it. -/
inductive Pte
  /-- The cleared entry. -/
  | clear
  /-- `leafEntry(phys, flags)`, with the write flag or without. -/
  | leaf (phys : Nat) (write : Bool)
  deriving DecidableEq, Repr

/-- The page the reclaimed slabs share, mapped read-only. -/
def sentinelPhys : Nat := 1

def dirtyWordCount (processorCount : Nat) : Nat := (processorCount + 63) / 64

def dirtyCPUWord (cpu : Nat) : Nat := cpu / 64

def dirtyCPUBit (cpu : Nat) : BitVec 64 := 1#64 <<< (cpu % 64)

-- ==== the state

/-- What the CPUs share about the page. -/
structure Page where
  processorCount : Nat
  pte : Pte
  /-- The page's entry in each of the per-CPU dirty pages. -/
  dirtyEntry : Nat → BitVec 64
  /-- The translation each CPU has cached, if any. -/
  tlb : Nat → Option Pte

/-- Where a CPU stands. -/
inductive Pc
  | idle
  /-- `setDirtyForOtherCPUs`, about to `fetch_or` word `dw`. -/
  | setDirty (dw : Nat)
  /-- The `invlpg` that ends a remapping. -/
  | invlpg
  /-- `ensureTLBEntryFresh`, the bit was set: about to `invlpg`. -/
  | freshInvlpg
  /-- `ensureTLBEntryFresh`, about to clear the bit. -/
  | freshClear
  deriving DecidableEq, Repr

/-- What happens next on a CPU. -/
inductive Choice
  | allocPage (phys : Nat)
  | freePage
  | reclaimSlabPage
  | ensureTLBEntryFresh
  /-- The next step of the call in progress. -/
  | step
  /-- The hardware caches the current PTE. -/
  | fill
  deriving DecidableEq, Repr

-- ==== the steps

/-- The bits one word of dirty CPUs gets from a remapping on `myCPU`:
everyone but the CPU itself. -/
def dirtyMask (myCPU dw : Nat) : BitVec 64 :=
  if dw = dirtyCPUWord myCPU then ~~~dirtyCPUBit myCPU else ~~~0#64

/-- A remapping writes the PTE first. -/
def remap (s : Page) (pte : Pte) : Except Fault (Page × Pc × Unit) :=
  .ok ({ s with pte := pte }, .setDirty 0, ())

/-- One step of CPU `cpu`. A call starts on an idle CPU only; a choice
that does not apply changes nothing. -/
def next (cpu : Nat) (s : Page) (pc : Pc) (c : Choice) :
    Except Fault (Page × Pc × Unit) :=
  match pc, c with
  | pc, .fill =>
    .ok ({ s with tlb := update s.tlb cpu (some s.pte) }, pc, ())
  | .idle, .allocPage phys => remap s (.leaf phys true)
  | .idle, .freePage => remap s .clear
  | .idle, .reclaimSlabPage => remap s (.leaf sentinelPhys false)
  | .idle, .ensureTLBEntryFresh =>
    .ok (s, if s.dirtyEntry (dirtyCPUWord cpu) &&& dirtyCPUBit cpu ≠ 0#64
      then .freshInvlpg else .idle, ())
  | .setDirty dw, .step =>
    .ok ({ s with
      dirtyEntry := update s.dirtyEntry dw
        (s.dirtyEntry dw ||| dirtyMask cpu dw) },
      if dw + 1 < dirtyWordCount s.processorCount then .setDirty (dw + 1)
      else .invlpg, ())
  | .invlpg, .step =>
    .ok ({ s with tlb := update s.tlb cpu none }, .idle, ())
  | .freshInvlpg, .step =>
    .ok ({ s with tlb := update s.tlb cpu none }, .freshClear, ())
  | .freshClear, .step =>
    .ok ({ s with
      dirtyEntry := update s.dirtyEntry (dirtyCPUWord cpu)
        (s.dirtyEntry (dirtyCPUWord cpu) &&& ~~~dirtyCPUBit cpu) },
      .idle, ())
  | pc, _ => .ok (s, pc, ())

abbrev Machine := Pool Page Pc

/-- The page before any CPU has touched it. Nothing clears the dirty
pages when they are mapped, so their content is arbitrary. -/
def boot (processorCount : Nat) (dirtyEntry : Nat → BitVec 64) : Machine :=
  ⟨⟨processorCount, .clear, dirtyEntry, fun _ => none⟩, fun _ => .idle⟩

-- ==== what is claimed

/-- CPU `cpu`'s dirty bit is set. -/
def Page.Dirty (s : Page) (cpu : Nat) : Prop :=
  s.dirtyEntry (dirtyCPUWord cpu) &&& dirtyCPUBit cpu ≠ 0#64

instance (s : Page) (cpu : Nat) : Decidable (s.Dirty cpu) :=
  inferInstanceAs (Decidable (_ ≠ _))

/-- CPU `cpu` holds a translation the page no longer has. -/
def Page.Stale (s : Page) (cpu : Nat) : Prop :=
  ∃ e ∈ s.tlb cpu, e ≠ s.pte

instance (s : Page) (cpu : Nat) : Decidable (s.Stale cpu) :=
  inferInstanceAs (Decidable (∃ e ∈ s.tlb cpu, e ≠ s.pte))

/-- A CPU in the middle of rewriting the page's mapping. -/
def Pc.remapping : Pc → Bool
  | .setDirty _ => true
  | .invlpg => true
  | _ => false

/-- Whether a choice on an idle CPU writes the PTE. -/
def Choice.writes : Choice → Bool
  | .allocPage _ => true
  | .freePage => true
  | .reclaimSlabPage => true
  | _ => false

/-- No PTE write lands between a reader's `invlpg` and its clearing of
the dirty bit. -/
def NoWriteInWindow (m : Machine) (c : Nat × Choice) : Prop :=
  m.own c.1 = .idle → c.2.writes = true → ∀ cpu, m.own cpu ≠ .freshClear

end CroCOS.VMSubstrate.TLB
