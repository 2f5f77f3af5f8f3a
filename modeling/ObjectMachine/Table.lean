/-
# ObjectMachine.Table -- hash maps

The entries of a map are triples of key, value and hash in one sequence. An entry is taken when
its hash is an integer. A key is looked for from the entry its hash names, one entry after the
other, until it or a free entry is found; the map grows before three quarters of it are taken,
so there always is one.

The hash depends on the contents of the key only, so entries stay where they are when objects
move.
-/
import ObjectMachine.Construction
import ObjectMachine.Structural

namespace ObjectMachine

/-- The entries of a map, three words each. -/
structure Entries where
  words : Array Value

/-- A taken entry. -/
structure Entry where
  key : Value
  value : Value
  hash : UInt64

namespace Entries

/-- How many entries there is room for. -/
def capacity (e : Entries) : Nat := e.words.size / Make.entryWords

/-- The entry at an index, if it is taken. -/
def entry? (e : Entries) (index : Nat) : Option Entry :=
  let base := index * Make.entryWords
  match e.words[base]?, e.words[base + 1]?, e.words[base + 2]? with
  | some key, some value, some (.int hash) => some { key, value, hash := UInt64.ofInt hash }
  | _, _, _ => none

/-- Write an entry. -/
def set (e : Entries) (index : Nat) (entry : Entry) : Entries :=
  let base := index * Make.entryWords
  ⟨((e.words.setIfInBounds base entry.key).setIfInBounds (base + 1) entry.value).setIfInBounds
    (base + 2) (.ofNat entry.hash.toNat)⟩

/-- The taken entries in the order of the table. -/
def toList (e : Entries) : List Entry := (List.range e.capacity).filterMap e.entry?

/-- Look for a key from `index` on. -/
def probe (h : Heap) (e : Entries) (hash : UInt64) (key : Value) :
    Nat → Nat → Except Violation Nat
  | 0, _ => .error .endless
  | fuel + 1, index =>
    match e.entry? index with
    | none => .ok index
    | some entry => do
      let next := (index + 1) % e.capacity
      if entry.hash = hash then
        if ← h.keyEqual entry.key key then
          pure index
        else
          probe h e hash key fuel next
      else
        probe h e hash key fuel next

/-- The index of the entry that holds a key, or of the free entry where it belongs. -/
def find (h : Heap) (e : Entries) (hash : UInt64) (key : Value) : Except Violation Nat :=
  probe h e hash key (e.capacity + 1) (hash.toNat % e.capacity)

/-- Enter the entries of a list into a table that holds none of their keys. -/
def insertAll (h : Heap) (e : Entries) (entries : List Entry) : Except Violation Entries :=
  entries.foldlM (fun e entry => do
    let index ← e.find h entry.hash entry.key
    pure (e.set index entry)) e

end Entries

namespace Heap

/-- The entries of a map. -/
def entries (h : Heap) (t : Table) : Except Violation Entries := do
  let s ← h.cast Sequence t.entries
  pure ⟨s.elements⟩

/-- The value of a key. -/
def tableGet? (h : Heap) (t : Table) (key : Value) : Except Violation (Option Value) := do
  let hash ← h.hash key
  let e ← h.entries t
  let index ← e.find h hash key
  pure ((e.entry? index).map Entry.value)

end Heap

namespace Table

/-- The share of a map that may be taken, in percent. -/
def loadPercent : Nat := 75

/-- Whether a map has to grow before it takes one more key. -/
def isFull (size capacity : Nat) : Except Violation Bool := do
  let wanted ← Size.mul (size + 1) 100
  let allowed ← Size.mul capacity loadPercent
  pure (decide (allowed < wanted))

/-- Give a map the entries `e` in a sequence that has just been made. -/
def refill (map entries : Value) (size : Nat) (e : Entries) : Alloc Unit := do
  let fresh ← Store.check fun s => s.heap.cast Sequence entries
  let filled ← Store.check fun s => (⟨fresh.elements⟩ : Entries).insertAll s.heap e.toList
  Store.modifyHeap fun h =>
    (h.put entries (⟨filled.words⟩ : Sequence)).put map ({ size, entries } : Table)

/-- Move the entries of a map to a larger sequence. -/
def extend (map : Value) : Alloc Unit := do
  let { size, entries := old } ← Store.check fun s => s.heap.cast Table map
  let e ← Store.check fun s => s.heap.entries { size, entries := old }
  let capacity ← Size.grow e.capacity
  let length ← Size.mul capacity Make.entryWords
  let entries ← Make.sequence length
  refill map entries size e

/-- A sequence of entries in which one has been written. -/
def written (index : Nat) (entry : Entry) : Body → Body
  | .array s => .array ⟨(Entries.set ⟨s.elements⟩ index entry).words⟩
  | body => body

/-- Enter a key with its value into a map that has room for one more. -/
def enter (map key value : Value) : Alloc Unit := do
  let { size, entries } ← Store.check fun s => s.heap.cast Table map
  let hash ← Store.check fun s => s.heap.hash key
  let (index, taken) ← Store.check fun s => do
    let e ← s.heap.entries { size, entries }
    let index ← e.find s.heap hash key
    pure (index, (e.entry? index).isSome)
  Store.modifyHeap fun h =>
    let h := h.adjust entries (written index { key, value, hash })
    if taken then h else h.put map ({ size := size + 1, entries } : Table)

/-- Enter a key with its value, replacing an equal key. The map grows first, so a failed
allocation leaves it as it was. -/
def set (map key value : Value) : Alloc Unit := do
  if !(← Store.ask fun s => s.heap.isKey key) then
    Action.violate (.unhashableKey key)
  else if value.isSignal then
    Action.violate (.signalStored .table)
  else
    let { size, entries } ← Store.check fun s => s.heap.cast Table map
    let e ← Store.check fun s => s.heap.entries { size, entries }
    if ← isFull size e.capacity then
      extend map
    enter map key value

end Table

end ObjectMachine
