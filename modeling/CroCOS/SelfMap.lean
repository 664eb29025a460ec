/-
The self-mapped page tables of an arena (mm/VMSubstrate.cpp). Entry 0 of
the arena's root points at the root, so the tables of the arena can be
read and written at arena addresses: `leafPTEAddrFor` and
`ensureSubtableInstalled` compute them by division.

# Reading the model against the source

- A table is a physical page. `entries t i` is the page that entry `i` of
  table `t` points to, `none` if the entry is not present; the flags are
  left out.
- The templates are over the level of a table. Here a level counts from
  the arena's root, which is level 0; `levels` is
  `LEVEL_COUNT - pageTableLevelForKMemRegion()`, two on amd64, and the
  leaf tables are at `levels - 1`. All tables have `kEntryCount` entries,
  as the source asserts.
- An access through an address goes where the hardware walk goes, `none`
  where the walk meets an entry that is not present.
- Of an installation there is the store to one entry (`setEntry`), between
  the two addresses it computes. `invlpg` and the radix bits of the dirty
  pages are left out: translations are not cached here, and the radix tree
  has no part in the tables.
- Sums do not wrap: an arena ends below `2 ^ 64`.
-/
import CroCOS.Numa

namespace CroCOS.VMSubstrate

open Function

def kEntryCount : Nat := 512

def sizeofPTE : Nat := 8

-- ==== the walk

abbrev PageTables := Nat → Nat → Option Nat

/-- The bytes that an entry covers with `below` levels of tables under
it. -/
def entrySpan (below : Nat) : Nat := smallPageSize * kEntryCount ^ below

/-- The entry of an address in a table, by the levels under the table. -/
def tableIndex (va below : Nat) : Nat := va / entrySpan below % kEntryCount

/-- The hardware walk for `va` down `steps` levels, from table `t` with
`below` levels under it. -/
def walk (entries : PageTables) (va : Nat) : Nat → Nat → Nat → Option Nat
  | 0, _, t => some t
  | steps + 1, below, t =>
    (entries t (tableIndex va below)).bind (walk entries va steps (below - 1))

structure Arena where
  base : Nat
  levels : Nat
  root : Nat
  deriving DecidableEq, Repr

namespace Arena

variable (arena : Arena)

/-- The table of level `level` that the walk for `va` goes through. -/
def tableAt (entries : PageTables) (va level : Nat) : Option Nat :=
  walk entries va level (arena.levels - 1) arena.root

/-- The page and the byte in it that an access at `va` goes to. -/
def translate (entries : PageTables) (va : Nat) : Option (Nat × Nat) :=
  (walk entries va arena.levels (arena.levels - 1) arena.root).map
    fun page => (page, va % smallPageSize)

end Arena

-- ==== the addresses

def leafPTEAddrFor (arenaBase va : Nat) : Nat :=
  (va - arenaBase) / kEntryCount + arenaBase

namespace Arena

variable (arena : Arena)

def parentDivisor (level : Nat) : Nat :=
  kEntryCount ^ (arena.levels - 1 - level + 1)

def childDivisor (level : Nat) : Nat :=
  arena.parentDivisor level / kEntryCount

/-- `& ~7ul` drops the remainder by the size of an entry. -/
def parentEntryAddr (va level : Nat) : Nat :=
  (va - arena.base) / arena.parentDivisor level / sizeofPTE * sizeofPTE
    + arena.base

def childTableAddr (va level : Nat) : Nat :=
  roundDownToNearestMultiple
    ((va - arena.base) / arena.childDivisor level + arena.base)
    smallPageSize

end Arena

-- ==== installation

/-- What an installation works on: the tables, and the pages that
`allocateSmallPage` has left. -/
structure Backing where
  entries : PageTables
  fresh : List Nat

def Backing.setEntry (s : Backing) (t i : Nat) (e : Option Nat) : Backing :=
  { s with
    entries := update s.entries t (update (s.entries t) i e) }

end CroCOS.VMSubstrate
