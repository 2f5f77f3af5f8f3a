/-
# ObjectMachine.Log -- what a machine reports about itself

A log keeps the records of its level and above. It counts all of them and keeps the text of the
first ones only.
-/

namespace ObjectMachine

/-- How important a record is. -/
inductive LogLevel where
  | warn
  | info
  | debug
  | trace
  deriving DecidableEq, Inhabited

namespace LogLevel

/-- More important levels come first. -/
def rank : LogLevel → Nat
  | warn => 1
  | info => 2
  | debug => 3
  | trace => 4

/-- The name of a level in front of its records. -/
def name : LogLevel → String
  | warn => "WARN"
  | info => "INFO"
  | debug => "DEBUG"
  | trace => "TRACE"

end LogLevel

/-- The records of a machine. -/
structure Log where
  /-- The least important level that is recorded. -/
  level : Option LogLevel := none
  /-- The first records. -/
  lines : Array String := #[]
  /-- How many records there were. -/
  count : Nat := 0
  deriving Inhabited

namespace Log

/-- How many records are kept as text. -/
def kept : Nat := 200

/-- Whether records of a level are taken. -/
def takes (log : Log) (level : LogLevel) : Bool :=
  log.level.any fun least => level.rank ≤ least.rank

/-- Add a record, whose text is only made if it is kept. -/
def add (log : Log) (level : LogLevel) (message : Unit → String) : Log :=
  if log.takes level then
    let { level := least, lines, count } := log
    let lines := if count < kept then lines.push (level.name ++ " " ++ message ()) else lines
    { level := least, lines, count := count + 1 }
  else
    log

/-- The log without its records. -/
def clear (log : Log) : Log := { level := log.level }

end Log

end ObjectMachine
