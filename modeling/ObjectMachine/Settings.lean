/-
# ObjectMachine.Settings -- how large things start and may become

The settings of a machine are checked once, before anything is built from them. The first
rule that fails gives the reason.
-/
import ObjectMachine.Growth

namespace ObjectMachine

/-- The sizes of the heap. -/
structure HeapSettings where
  /-- Bytes of the first space. -/
  initialSize : Nat := 1048576
  /-- The largest size a space may grow to. -/
  maxSize : Nat := 268435456
  /-- Live data above this percentage of the capacity makes the space grow. -/
  growthPercent : Nat := 75
  deriving DecidableEq, Inhabited

namespace HeapSettings

/-- The first rule the settings break. -/
def problem? (s : HeapSettings) : Option String :=
  if s.initialSize = 0 then
    some "semi_space_size must be > 0"
  else if s.initialSize % Size.word ≠ 0 then
    some "semi_space_size must be a multiple of the word size"
  else if s.maxSize < s.initialSize then
    some "max_semi_space_size must be >= semi_space_size"
  else if s.growthPercent < 1 ∨ 100 < s.growthPercent then
    some "growth_threshold_percent must be between 1 and 100"
  else
    none

end HeapSettings

/-- The sizes of a machine. -/
structure Settings where
  heap : HeapSettings := {}
  /-- Words in the stack of a fresh task. -/
  stackHeight : Nat := 1024
  deriving DecidableEq, Inhabited

namespace Settings

/-- The least height of a fresh stack: room for eight frame headers. -/
def minStackHeight : Nat := 24

/-- The first rule the settings break. -/
def problem? (s : Settings) : Option String :=
  match s.heap.problem? with
  | some reason => some reason
  | none =>
    if s.stackHeight < minStackHeight then
      some "initial_stack_height must hold at least eight frame headers"
    else
      none

end Settings

end ObjectMachine
