/-
# ObjectMachine.Signal -- out-of-band results

A signal is what an internal operation answers when it has no value to give: the space
was full, a narrowing found another kind, a lookup found nothing. Signals travel from
their producer to its immediate caller. Only `allocationFailed` is worth a retry.
-/

namespace ObjectMachine

/-- The outcome of an operation that has no value to give. -/
inductive Signal where
  /-- The active space could not fit `size` bytes. -/
  | allocationFailed (size : Nat)
  /-- A narrowing found a value of another kind. -/
  | typeMismatch
  /-- A lookup found no result. -/
  | nothing
  /-- A frame would not fit into a stack of `height` words. -/
  | stackOverflow (height : Nat)
  | fatalError
  | success
  deriving DecidableEq, Inhabited

namespace Signal

/-- The diagnostic text of a signal. -/
def message : Signal → String
  | allocationFailed size => s!"allocation of {size} bytes failed"
  | typeMismatch => "type mismatch"
  | nothing => "nothing"
  | stackOverflow height => s!"stack overflow at height {height}"
  | fatalError => "fatal error"
  | success => "success"

/-- Whether a collection may turn the failure into a success. -/
def isAllocationFailure : Signal → Bool
  | allocationFailed _ => true
  | _ => false

/-- The number a signal word carries in its type bits. -/
def tag : Signal → Nat
  | allocationFailed _ => 0
  | typeMismatch => 1
  | nothing => 2
  | stackOverflow _ => 3
  | fatalError => 4
  | success => 5

/-- The size or height a signal carries, zero for the others. -/
def payload : Signal → Nat
  | allocationFailed size => size
  | stackOverflow height => height
  | _ => 0

/-- The signal with the given type number and payload. Unassigned numbers read as a fatal
error. -/
def ofTag (tag payload : Nat) : Signal :=
  match tag with
  | 0 => allocationFailed payload
  | 1 => typeMismatch
  | 2 => nothing
  | 3 => stackOverflow payload
  | 5 => success
  | _ => fatalError

theorem ofTag_tag_payload (s : Signal) : ofTag s.tag s.payload = s := by
  cases s <;> rfl

/-- How many payloads a word can tell apart. -/
def payloadSpan : Nat := 0x100000000000000

/-- What is left of a signal once it has been stored in a word, which keeps 56 bits of
payload. -/
def stored (s : Signal) : Signal := ofTag s.tag (s.payload % payloadSpan)

theorem stored_of_lt (s : Signal) (fits : s.payload < payloadSpan) : s.stored = s := by
  rw [stored, Nat.mod_eq_of_lt fits, ofTag_tag_payload]

end Signal

end ObjectMachine
