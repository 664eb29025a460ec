/-
The lookup of a size class (core/SizeClass.h). A jump table indexed by
`log2floor` says where the scan of the class array starts. The scan
stops at the length of that table, which is not the array's.

# Reading the model against the source

- The template parameter is a `SizeClasses`: what the constraints and the
  constant expression `log2floor(array[N-1])` ask of it are its fields.
- `npos` is `none`, and a read past the end of the array `outOfBounds`.
- The jump table is built by every call here, once by the compiler there.
-/
import CroCOS.CoreMath
import CroCOS.Fault

namespace CroCOS

structure SizeClasses where
  array : List Nat
  ne_nil : array ≠ []
  /-- `isArraySorted`: neighbours may be equal. -/
  sorted : array.Pairwise (· ≤ ·)
  last_pos : 0 < array.getLast ne_nil

namespace SizeClasses

variable (a : SizeClasses)

def last : Nat := a.array.getLast a.ne_nil

def jumpTableSize : Nat := log2floor a.last + 1

/-- The first class from `index` on that is at least `size`, if one of
`left` classes is. -/
def scan (size : Nat) : Nat → Nat → Except Fault (Option Nat)
  | 0, _ => .ok none
  | left + 1, index =>
    match a.array[index]? with
    | none => .error .outOfBounds
    | some c =>
      if size ≤ c then .ok (some index) else scan size left (index + 1)

/-- A turn of the `for` loop. The `while` loop in it is a scan that only
the end of the array bounds. -/
def jumpTableEntry (table : List Nat × Nat) (i : Nat) :
    Except Fault (List Nat × Nat) := do
  match ← a.scan (2 ^ i) (a.array.length + 1 - table.2) table.2 with
  | some index => return (table.1 ++ [index], index)
  | none => .error .outOfBounds

def makeSizeClassJumpTable : Except Fault (List Nat) := do
  let table ← (List.range a.jumpTableSize).foldlM a.jumpTableEntry ([], 0)
  return table.1

def sizeClassIndex (size : Nat) : Except Fault (Option Nat) := do
  let jumpTable ← a.makeSizeClassJumpTable
  if size = 0 then return some 0
  if h : log2floor size < jumpTable.length then
    let index := jumpTable[log2floor size]
    a.scan size (jumpTable.length - index) index
  else return none

end SizeClasses

/-- The classes of the internal allocator. -/
def slabSizeClasses : SizeClasses where
  array := [8, 16, 32, 64, 96, 128, 256, 512]
  ne_nil := by decide
  sorted := by decide
  last_pos := by decide

end CroCOS
