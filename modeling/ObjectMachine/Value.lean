/-
# ObjectMachine.Value -- values and references

A value is a small integer, a reference to an object of the heap, or a signal. A reference
is the position of its object in the active space, counted in allocation order: it stays
good until the next collection, which renumbers the survivors.

Small integers have 63 bits. `Value.ofInt?` is the only door by which an integer of unknown
size becomes a value.
-/
import ObjectMachine.Signal

namespace ObjectMachine

/-- The place of an object in the active space. -/
structure Ref where
  /-- Position in allocation order. -/
  position : Nat
  deriving DecidableEq, Inhabited

/-- What a field, a stack slot or a variable holds. -/
inductive Value where
  | int (n : Int)
  | object (ref : Ref)
  | signal (signal : Signal)
  deriving DecidableEq, Inhabited

namespace Value

/-- The least small integer. -/
def minInt : Int := -0x4000000000000000

/-- The greatest small integer. -/
def maxInt : Int := 0x3fffffffffffffff

/-- Whether an integer fits a value. -/
def isSmall (n : Int) : Bool := decide (minInt ≤ n) && decide (n ≤ maxInt)

/-- The value of an integer that fits. -/
def ofInt? (n : Int) : Option Value := if isSmall n then some (int n) else none

/-- A count, which is always far below the limit of small integers. -/
def ofNat (n : Nat) : Value := int n

/-- The integer of a small integer. -/
def asInt? : Value → Option Int
  | int n => some n
  | _ => none

/-- The reference of an object. -/
def asRef? : Value → Option Ref
  | object r => some r
  | _ => none

/-- Whether the value is a signal, which no object may hold. -/
def isSignal : Value → Bool
  | signal _ => true
  | _ => false

instance : Coe Ref Value := ⟨object⟩

/-- Digits of a number in base sixteen. -/
def hexDigits (n : Nat) : String := String.ofList (Nat.toDigits 16 n)

/-- The diagnostic text of a value. Objects and signals are shown as machine words. -/
def describe : Value → String
  | int n => s!"SmallInteger({n})"
  | object r => "Object(0x" ++ hexDigits (8 * r.position) ++ ")"
  | signal s =>
    "Signal(0x" ++ hexDigits (s.payload % Signal.payloadSpan * 256 + s.tag * 4 + 3) ++ ")"

end Value

end ObjectMachine
