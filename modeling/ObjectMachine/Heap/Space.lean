/-
# ObjectMachine.Heap.Space -- room for objects

A space has a capacity in bytes and hands out blocks in one direction. Blocks are whole words,
and nothing is given back: a full space is replaced, not tidied.

* `allocate_used` -- a block moves the cursor by its rounded size.
-/
import ObjectMachine.Growth

namespace ObjectMachine

/-- A region that is filled from one end. -/
structure Space where
  capacity : Nat
  used : Nat
  deriving DecidableEq, Inhabited

namespace Space

/-- An unused space of at least `capacity` bytes. -/
def fresh (capacity : Nat) : Space := { capacity := Size.roundUp capacity, used := 0 }

/-- The number of bytes that no space can have. -/
def addressLimit : Nat := 0x8000000000000000

/-- An unused space of at least `capacity` bytes, unless that is more than can be addressed. -/
def create (capacity : Nat) : Except Violation Space :=
  if Size.roundUp capacity < addressLimit then .ok (fresh capacity) else .error .capacityOverflow

/-- Bytes that are not handed out yet. -/
def free (s : Space) : Nat := s.capacity - s.used

/-- Hand out a block of `size` bytes, rounded up to words, unless it does not fit. The block
starts where the space was used up to. -/
def allocate (s : Space) (size : Nat) : Except Violation (Option Space) := do
  let rounded ← Size.align size
  if s.free < rounded then
    pure none
  else
    pure (some { s with used := s.used + rounded })

/-- Whether the byte at `offset` has been handed out. -/
def contains (s : Space) (offset : Nat) : Bool := decide (offset < s.used)

theorem align_ok {n m : Nat} (aligned : Size.align n = .ok m) : m = Size.roundUp n := by
  unfold Size.align at aligned
  split at aligned <;> cases aligned
  rfl

theorem allocate_used {s t : Space} {size : Nat} (allocated : s.allocate size = .ok (some t)) :
    t.used = s.used + Size.roundUp size ∧ t.capacity = s.capacity ∧
      Size.roundUp size ≤ s.free := by
  obtain ⟨rounded, isRounded, allocated⟩ := ok_of_bind allocated
  cases align_ok isRounded
  split at allocated
  · cases allocated
  · rename_i fits
    cases allocated
    exact ⟨rfl, rfl, Nat.le_of_not_lt fits⟩

end Space

end ObjectMachine
