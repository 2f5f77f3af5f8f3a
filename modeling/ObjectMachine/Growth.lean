/-
# ObjectMachine.Growth -- arithmetic of sizes

Sizes and counts are machine words of 64 bits, and a sum or product that leaves their range
is a violation. Spaces, stacks and tables grow by about the golden ratio: `grow` adds five
eighths, and always at least one.

* `grow_gt` -- growing makes a size strictly larger.
* `roundUp_ge`, `roundUp_mod` -- rounding up to words loses nothing and is exact.
* `ok_of_bind` -- a sequence of checks succeeds only if each of them does.
-/
import ObjectMachine.Fault

namespace ObjectMachine

theorem ok_of_bind {ε α β : Type} {first : Except ε α} {next : α → Except ε β} {answer : β}
    (succeeds : (first >>= next) = .ok answer) :
    ∃ middle, first = .ok middle ∧ next middle = .ok answer := by
  cases first with
  | error cause => cases succeeds
  | ok middle => exact ⟨middle, rfl, succeeds⟩

namespace Size

/-- The number of sizes a machine word can hold. -/
def limit : Nat := 0x10000000000000000

/-- Bytes in a machine word. -/
def word : Nat := 8

/-- The sum of two sizes. -/
def add (a b : Nat) : Except Violation Nat :=
  if a + b < limit then .ok (a + b) else .error (.overflow .add)

/-- The product of two sizes. -/
def mul (a b : Nat) : Except Violation Nat :=
  if a * b < limit then .ok (a * b) else .error (.overflow .multiply)

/-- The least multiple of the word size that is at least `n`. -/
def roundUp (n : Nat) : Nat := (n + (word - 1)) / word * word

/-- Rounding up to words within the range of sizes. -/
def align (n : Nat) : Except Violation Nat :=
  if roundUp n < limit then .ok (roundUp n) else .error (.overflow .add)

/-- `n` shifted left, dropping the bits that leave the word. -/
def shiftLeft (n bits : Nat) : Nat := (n <<< bits) % limit

/-- The next size of something that has outgrown `n`: thirteen eighths of it, and at least
one more. -/
def grow (n : Nat) : Except Violation Nat := do
  let twelve ← add (shiftLeft n 3) (shiftLeft n 2)
  let thirteen ← add twelve n
  let more ← add n 1
  pure (max (thirteen / 8) more)

theorem add_ok {a b c : Nat} (sum : add a b = .ok c) : c = a + b := by
  unfold add at sum
  split at sum
  · cases sum; rfl
  · cases sum

theorem grow_gt {n m : Nat} (grown : grow n = .ok m) : n < m := by
  obtain ⟨twelve, _, grown⟩ := ok_of_bind grown
  obtain ⟨thirteen, _, grown⟩ := ok_of_bind grown
  obtain ⟨more, isMore, grown⟩ := ok_of_bind grown
  have := add_ok isMore
  cases grown
  omega

theorem roundUp_ge (n : Nat) : n ≤ roundUp n := by
  simp only [roundUp, word]
  omega

theorem roundUp_mod (n : Nat) : roundUp n % word = 0 := by
  simp [roundUp, word]

theorem roundUp_eq_of_mod {n : Nat} (aligned : n % word = 0) : roundUp n = n := by
  simp only [roundUp, word] at *
  omega

/-- The signed reading of a machine word. -/
def signed (n : Nat) : Int := if n < 0x8000000000000000 then n else (n : Int) - 0x10000000000000000

/-- The machine word of an integer. Negative integers fill the upper half. -/
def ofInt (n : Int) : Nat := (n % 0x10000000000000000).toNat

/-- A count that an object keeps as a small integer. -/
def count (n : Nat) : Except Violation Nat :=
  if Value.isSmall (signed n) then .ok n else .error (.smallIntegerRange (signed n))

end Size

end ObjectMachine
