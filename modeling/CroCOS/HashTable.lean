/-
The open-addressing hash table of Core (ds/IndexedHashTable.h) and the
two containers over it (ds/HashMap.h, ds/HashSet.h): linear probing
with tombstones, resized on the count of occupied slots alone.

# Reading the model against the source

- `Entry` fuses the source's `state` with its `value`: a slot holds a
  value exactly while it is occupied, so a stale value is unreadable by
  construction.
- `entryBuffer = none` is the null buffer of a cleared or moved-from
  table; `capacity` is the buffer's length, zero for null.
- A probe answers with the INDEX of the slot the source returns a
  reference to. The do-while walk carries fuel equal to the capacity;
  the source's own exit test fires first, so the fuel never decides.
- `size_t` values are naturals: every one of them counts slots of a
  buffer that is in memory.
- The key argument of `HashSet::insert(T&&)` is bound by reference
  while the same object is moved into the by-value pack of `_insert`,
  so the probe sees what the move left behind. `movedFrom` is that
  residue; for a trivially copyable key it is the key itself.
- `HashMap::take` is left out. As written it has no meaning: it destroys
  the entry under a name that is not declared there, and assigns the
  pair to a value.
-/
import CroCOS.Fault
import CroCOS.Lib.Run

namespace CroCOS.HashTable

variable {K V E : Type _} [DecidableEq K]

-- ==== the table

/-- One slot of the entry buffer. -/
inductive Entry (E : Type _)
  | empty
  | tombstone
  | occupied (value : E)
  deriving DecidableEq, Repr

/-- A slot that holds a value. -/
def Entry.isOccupied : Entry E → Bool
  | .occupied _ => true
  | _ => false

/-- The table: its buffer (`none` when null) and the number of
occupied slots. -/
structure IndexedHashTable (E : Type _) where
  entryBuffer : Option (List (Entry E))
  count : Nat
  deriving DecidableEq, Repr

/-- The slots, none of them when the buffer is null. -/
def IndexedHashTable.entries (t : IndexedHashTable E) : List (Entry E) :=
  t.entryBuffer.getD []

def IndexedHashTable.capacity (t : IndexedHashTable E) : Nat :=
  t.entries.length

/-- A table over a fresh, zeroed buffer. -/
def IndexedHashTable.create (init_capacity : Nat) : IndexedHashTable E :=
  ⟨some (List.replicate init_capacity .empty), 0⟩

def loadFactorPercentageIncreaseThreshold : Nat := 75
def loadFactorPercentageDecreaseThreshold : Nat := 30

section Table

variable (hasher : K → Nat) (extractor : E → K) (t : IndexedHashTable E)

-- ==== resize

/-- The rehash walk of `resize`: the first slot from `index` on that is
not occupied. -/
def freeSlotFrom (newEntries : List (Entry E)) : Nat → Nat → Except Fault Nat
  | 0, _ => .error .diverges
  | fuel + 1, index =>
    match newEntries[index]? with
    | none => .error .outOfBounds
    | some (.occupied _) =>
      freeSlotFrom newEntries fuel ((index + 1) % newEntries.length)
    | some _ => .ok index

/-- The loop of `resize` over the old buffer: every occupied entry is
moved to its first free slot, everything else is dropped. -/
def rehash : List (Entry E) → List (Entry E) → Except Fault (List (Entry E))
  | [], newEntries => .ok newEntries
  | .occupied v :: rest, newEntries =>
    if newEntries.length = 0 then .error .divideByZero
    else
      match freeSlotFrom newEntries newEntries.length
          (hasher (extractor v) % newEntries.length) with
      | .error e => .error e
      | .ok i => rehash rest (newEntries.set i (.occupied v))
  | _ :: rest, newEntries => rehash rest newEntries

def resize (newCapacity : Nat) : Except Fault (IndexedHashTable E) :=
  match rehash hasher extractor t.entries
      (List.replicate newCapacity .empty) with
  | .error e => .error e
  | .ok es => .ok ⟨some es, t.count⟩

/-- The capacity `resizeIfNecessary` moves to, if it moves. -/
def newCapacityFor (capacity count : Nat) : Option Nat :=
  if capacity = 0 then some 8
  else
    let loadFactorPercentage := count * 100 / capacity
    if loadFactorPercentage > loadFactorPercentageIncreaseThreshold then
      some (count * 2)
    else if loadFactorPercentage < loadFactorPercentageDecreaseThreshold
        ∧ capacity > 16 then
      some (max ((count * 6 + 4) / 5) 16)
    else none

def resizeIfNecessary : Except Fault (IndexedHashTable E × Bool) :=
  match newCapacityFor t.capacity t.count with
  | none => .ok (t, false)
  | some newCapacity =>
    match resize hasher extractor t newCapacity with
    | .error e => .error e
    | .ok t' => .ok (t', true)

-- ==== probing

/-- The text of the assertion at the end of an exhausted probe. -/
def loadLimitMsg : String := "HashMap did not obey its own load limit"

/-- The do-while walk of `probeEntry`. The variable the source calls
`firstSeenTombstone` is overwritten at every tombstone, so it ends up
holding the LAST one seen. -/
def probeLoop (es : List (Entry E)) (key : K) (startIndex : Nat) :
    Nat → Nat → Option Nat → Except Fault Nat
  | 0, _, _ => .error .diverges
  | fuel + 1, index, firstSeenTombstone =>
    match es[index]? with
    | none => .error .outOfBounds
    | some .empty => .ok (firstSeenTombstone.getD index)
    | some (.occupied v) =>
      if extractor v = key then .ok index
      else if (index + 1) % es.length = startIndex then
        .error (.assertion loadLimitMsg)
      else
        probeLoop es key startIndex fuel ((index + 1) % es.length)
          firstSeenTombstone
    | some .tombstone =>
      if (index + 1) % es.length = startIndex then
        .error (.assertion loadLimitMsg)
      else
        probeLoop es key startIndex fuel ((index + 1) % es.length) (some index)

def probeEntry (key : K) : Except Fault Nat :=
  if t.capacity = 0 then .error .divideByZero
  else
    probeLoop extractor t.entries key (hasher key % t.capacity) t.capacity
      (hasher key % t.capacity) none

-- ==== the table's calls

/-- Write slot `i` of the buffer. -/
def IndexedHashTable.setEntry (i : Nat) (e : Entry E) : IndexedHashTable E :=
  { t with entryBuffer := t.entryBuffer.map fun es => es.set i e }

/-- `_insert`, with the inserter as the value a fresh slot receives and
the change an occupied one undergoes. -/
def insertWith (key : K) (freshInsert : E) (overwrite : E → E) :
    Except Fault (IndexedHashTable E) :=
  match resizeIfNecessary hasher extractor t with
  | .error e => .error e
  | .ok (t₁, _) =>
    match probeEntry hasher extractor t₁ key with
    | .error e => .error e
    | .ok i =>
      match t₁.entries[i]? with
      | none => .error .outOfBounds
      | some (.occupied old) =>
        .ok (t₁.setEntry i (.occupied (overwrite old)))
      | some _ =>
        match resizeIfNecessary hasher extractor
            { t₁.setEntry i (.occupied freshInsert) with
              count := t₁.count + 1 } with
        | .error e => .error e
        | .ok (t₂, _) => .ok t₂

/-- The body `_remove` and `HashMap::remove` share: tombstone the slot
the probe finds occupied. -/
def removeProbed (key : K) : Except Fault (IndexedHashTable E × Bool) :=
  match probeEntry hasher extractor t key with
  | .error e => .error e
  | .ok i =>
    match t.entries[i]? with
    | some (.occupied _) =>
      match resizeIfNecessary hasher extractor
          { t.setEntry i .tombstone with count := t.count - 1 } with
      | .error e => .error e
      | .ok (t', _) => .ok (t', true)
    | _ => .ok (t, false)

/-- `_remove`: a null buffer answers before the probe. -/
def removeKey (key : K) : Except Fault (IndexedHashTable E × Bool) :=
  match t.entryBuffer with
  | none => .ok (t, false)
  | some _ => removeProbed hasher extractor t key

def contains (key : K) : Except Fault Bool :=
  match t.entryBuffer with
  | none => .ok false
  | some _ =>
    match probeEntry hasher extractor t key with
    | .error e => .error e
    | .ok i =>
      match t.entries[i]? with
      | some (.occupied _) => .ok true
      | _ => .ok false

end Table

def IndexedHashTable.clear (t : IndexedHashTable E) : IndexedHashTable E :=
  match t.entryBuffer with
  | none => t
  | some _ => ⟨none, 0⟩

/-- What a move leaves in the table moved from. -/
def IndexedHashTable.movedFrom (_ : IndexedHashTable E) : IndexedHashTable E :=
  ⟨none, 0⟩

-- ==== HashMap

/-- `HashMap<K, V>`: the table of key/value pairs, keyed by the first
component. -/
abbrev HashMap (K V : Type _) := IndexedHashTable (K × V)

namespace HashMap

variable (hasher : K → Nat) (t : HashMap K V)

def insert (key : K) (value : V) : Except Fault (HashMap K V) :=
  insertWith hasher Prod.fst t key (key, value) fun e => (e.1, value)

def get (key : K) : Except Fault (Option V) :=
  match probeEntry hasher Prod.fst t key with
  | .error e => .error e
  | .ok i =>
    match t.entries[i]? with
    | some (.occupied e) => .ok (some e.2)
    | _ => .ok none

def remove (key : K) : Except Fault (HashMap K V × Bool) :=
  removeProbed hasher Prod.fst t key

/-- `operator[]`: the index of the slot whose value the returned
reference names. A fresh key is counted and the table resized BEFORE
the pair is constructed. -/
def subscript [Inhabited V] (t : HashMap K V) (key : K) :
    Except Fault (HashMap K V × Nat) :=
  match probeEntry hasher Prod.fst t key with
  | .error e => .error e
  | .ok i =>
    match t.entries[i]? with
    | some (.occupied _) => .ok (t, i)
    | _ =>
      match resizeIfNecessary hasher Prod.fst
          { t with count := t.count + 1 } with
      | .error e => .error e
      | .ok (t₁, true) =>
        match probeEntry hasher Prod.fst t₁ key with
        | .error e => .error e
        | .ok j => .ok (t₁.setEntry j (.occupied (key, default)), j)
      | .ok (t₁, false) =>
        .ok (t₁.setEntry i (.occupied (key, default)), i)

/-- The calls of a map client. `subscript` reads through the reference
and then, if told to, assigns through it. -/
inductive Call (K V : Type _)
  | insert (key : K) (value : V)
  | subscript (key : K) (assign : Option V)
  | remove (key : K)
  | get (key : K)
  | contains (key : K)
  | size

/-- What a map call answers. -/
inductive Answer (V : Type _)
  | done
  | flag (b : Bool)
  | found (v : Option V)
  | size (n : Nat)
  deriving DecidableEq, Repr

/-- One call on the table. -/
def step [Inhabited V] (t : HashMap K V) :
    Call K V → Except Fault (HashMap K V × Answer V)
  | .insert key value =>
    match insert hasher t key value with
    | .error e => .error e
    | .ok t' => .ok (t', .done)
  | .subscript key assign =>
    match subscript hasher t key with
    | .error e => .error e
    | .ok (t', i) =>
      match t'.entries[i]? with
      | some (.occupied e) =>
        match assign with
        | none => .ok (t', .found (some e.2))
        | some v =>
          .ok (t'.setEntry i (.occupied (e.1, v)), .found (some e.2))
      | _ => .error .outOfBounds
  | .remove key =>
    match remove hasher t key with
    | .error e => .error e
    | .ok (t', b) => .ok (t', .flag b)
  | .get key =>
    match get hasher t key with
    | .error e => .error e
    | .ok v => .ok (t, .found v)
  | .contains key =>
    match contains hasher Prod.fst t key with
    | .error e => .error e
    | .ok b => .ok (t, .flag b)
  | .size => .ok (t, .size t.count)

/-- `at`: the value under the reference returned. -/
def atKey (key : K) : Except Fault V :=
  match probeEntry hasher Prod.fst t key with
  | .error e => .error e
  | .ok i =>
    match t.entries[i]? with
    | some (.occupied e) => .ok e.2
    | _ => .error (.assertion "Key not found in HashMap::at()")

/-- The calls of a client that also empties the map or moves it away. -/
inductive Op (K V : Type _)
  | call (c : Call K V)
  | atKey (key : K)
  | clear
  | moveFrom

def opStep [Inhabited V] (t : HashMap K V) :
    Op K V → Except Fault (HashMap K V × Answer V)
  | .call c => step hasher t c
  | .atKey key =>
    match atKey hasher t key with
    | .error e => .error e
    | .ok v => .ok (t, .found (some v))
  | .clear => .ok (t.clear, .done)
  | .moveFrom => .ok (t.movedFrom, .done)

end HashMap

-- ==== HashSet

/-- `HashSet<T>`: the table whose entries are their own keys. -/
abbrev HashSet (T : Type _) := IndexedHashTable T

namespace HashSet

variable {T : Type _} [DecidableEq T] (hasher : T → Nat)

/-- `insert(const T&)`: answers whether the element was there. -/
def insert (t : HashSet T) (element : T) : Except Fault (HashSet T × Bool) :=
  match contains hasher id t element with
  | .error e => .error e
  | .ok true => .ok (t, true)
  | .ok false =>
    match insertWith hasher id t element element fun _ => element with
    | .error e => .error e
    | .ok t' => .ok (t', false)

/-- `insert(T&&)`: the element is stored even when it was there, under
a probe for the residue the move left in the argument. -/
def insertMove (movedFrom : T → T) (t : HashSet T) (element : T) :
    Except Fault (HashSet T × Bool) :=
  match contains hasher id t element with
  | .error e => .error e
  | .ok present =>
    match insertWith hasher id t (movedFrom element) element
        fun _ => element with
    | .error e => .error e
    | .ok t' => .ok (t', present)

def remove (t : HashSet T) (element : T) : Except Fault (HashSet T) :=
  match removeKey hasher id t element with
  | .error e => .error e
  | .ok (t', _) => .ok t'

/-- The calls of a set client. -/
inductive Call (T : Type _)
  | insert (element : T)
  | insertMove (element : T)
  | remove (element : T)
  | contains (element : T)
  | size

/-- What a set call answers. -/
inductive Answer
  | done
  | flag (b : Bool)
  | size (n : Nat)
  deriving DecidableEq, Repr

/-- One call on the table. -/
def step (movedFrom : T → T) (t : HashSet T) :
    Call T → Except Fault (HashSet T × Answer)
  | .insert element =>
    match insert hasher t element with
    | .error e => .error e
    | .ok (t', b) => .ok (t', .flag b)
  | .insertMove element =>
    match insertMove hasher movedFrom t element with
    | .error e => .error e
    | .ok (t', b) => .ok (t', .flag b)
  | .remove element =>
    match remove hasher t element with
    | .error e => .error e
    | .ok t' => .ok (t', .done)
  | .contains element =>
    match contains hasher id t element with
    | .error e => .error e
    | .ok b => .ok (t, .flag b)
  | .size => .ok (t, .size t.count)

end HashSet

end CroCOS.HashTable
