/-
# ObjectMachine.Session.Run -- scripts

A script is carried out line by line. A step that fails does not end it, but a broken invariant
does. Each line is answered together with what was printed and logged meanwhile.
-/
import ObjectMachine.Session.Inspection
import ObjectMachine.Session.Programs
import ObjectMachine.Session.Storage

namespace ObjectMachine

namespace Session

/-- Carry out a step. -/
def perform (name : Option String) (command : Command) : Work Answer :=
  match command with
  | .letValue .. | .drop .. | .leak .. | .handles | .typeOf .. | .narrow .. | .toInteger ..
  | .deref .. | .isKey .. | .hash .. | .compare .. | .display .. | .debug .. | .object ..
  | .stringAt .. => inspect name command
  | .layoutOf .. | .distance .. | .score .. | .search .. | .lookup .. | .lookupSuper .. =>
    lookUp command
  | .build .. | .lambda .. | .rawLambda .. | .lazyLambda .. | .setCompiler .. | .lambdaInfo ..
  | .call .. | .defineGlobal .. | .global .. | .runEntry .. | .builtin .. | .request ..
  | .importPlain .. | .exportPlain .. => runCode name command
  | .collect .. | .heap | .validate | .rawAlloc .. | .fill .. | .leave .. | .retry ..
  | .forwardHeader .. | .stack .. | .stackDo .. | .task .. | .taskInfo .. =>
    workOnStorage name command
  | .unreadable => malformed
  | command => modifyObjects name command

/-- Do work whose slots are given up when it ends. -/
def inScope {α : Type} (work : Work α) : Work α := fun s =>
  let start := s.machine.references.scopedCount
  let leave (s : State) : State :=
    let { machine, bindings, budget } := s
    { machine := { machine with references := machine.references.leave start }
      bindings, budget }
  match work s with
  | .ok answer s => .ok answer (leave s)
  | .error stop s => .error stop (leave s)

/-- Do work, and answer its trouble instead of ending in it. -/
def attempt {α : Type} (work : Work α) : Work (Except Trouble α) := fun s =>
  match work s with
  | .ok answer s => .ok (.ok answer) s
  | .error (.raised trouble) s => .ok (.error trouble) s
  | .error (.broken violation) s => .error (.broken violation) s
  | .error .unfinished s => .error .unfinished s

mutual

/-- Carry out a line. -/
def runLine : Line → Work Answer
  | .step command name => inScope (perform name command)
  | .block terms lines => inScope do
    let held ← evalList terms
    match lines with
    | none => malformed
    | some lines => do
      let outside ← ask fun m => m.references.scopedCount
      let (inside, steps, values) ← inScope do
        let copies ← held.mapM fun index => do hold (← slot index)
        let inside ← ask fun m => m.references.scopedCount - outside
        let steps ← runBlock lines
        let values ← copies.mapM fun index => do renderAt defaultLevels (← slot index)
        pure (inside, steps, values)
      let after ← ask fun m => m.references.scopedCount - outside
      pure (.block inside after steps values)

/-- Carry out lines, and collect their answers and their trouble. -/
def runBlock : List Line → Work (List (Except Trouble Answer))
  | [] => pure []
  | line :: rest => do
    let answer ← attempt (runLine line)
    let answers ← runBlock rest
    pure (answer :: answers)

end

/-- How a line ended: with an answer, in trouble, or by a broken invariant, which ends the
session. -/
inductive Ending where
  | answered (answer : Answer)
  | trouble (trouble : Trouble)
  | broken (violation : Violation)
  | unfinished

/-- A line that has been carried out. -/
structure Entry where
  ending : Ending
  /-- What was printed. -/
  output : String
  /-- What was logged, with addresses hidden. -/
  lines : List String
  /-- How many records there were. -/
  logged : Nat

/-- The records of a log, with addresses hidden. -/
def logLines (log : Log) : List String := log.lines.toList.map Text.hideAddresses

/-- Take what was printed and logged out of a machine. -/
def harvest (ending : Ending) (s : State) : Entry × State :=
  let { machine, bindings, budget } := s
  let { store, references, settings, compiler, output, log } := machine
  let entry := { ending, output, lines := logLines log, logged := log.count }
  let machine := { store, references, settings, compiler, output := "", log := log.clear }
  (entry, { machine, bindings, budget })

/-- Carry out one line. The answer says whether the session goes on. -/
def runEntry (line : Line) (s : State) : Entry × State × Bool :=
  match runLine line s with
  | .ok answer s =>
    let (entry, s) := harvest (.answered answer) s
    (entry, s, true)
  | .error (.raised trouble) s =>
    let (entry, s) := harvest (.trouble trouble) s
    (entry, s, true)
  | .error (.broken violation) s =>
    let (entry, s) := harvest (.broken violation) s
    (entry, s, false)
  | .error .unfinished s =>
    let (entry, s) := harvest .unfinished s
    (entry, s, false)

/-- A script that has been carried out, as far as it went. -/
structure Transcript where
  entries : List Entry
  /-- Whether every line was carried out. -/
  complete : Bool
  state : State

/-- Carry out lines. -/
def runLines : List Line → State → Transcript
  | [], s => { entries := [], complete := true, state := s }
  | line :: rest, s =>
    match runEntry line s with
    | (entry, s, true) =>
      let { entries, complete, state } := runLines rest s
      { entries := entry :: entries, complete, state }
    | (entry, s, false) => { entries := [entry], complete := false, state := s }

/-- A session on a machine. -/
def begin (budget : Nat) (machine : Machine) : State := { machine, bindings := [], budget }

/-- The machine after a session, all of whose handles have been given up. -/
def close (s : State) : Machine :=
  let { machine, bindings, .. } := s
  let references := bindings.foldl (fun (references : References) entry =>
    match entry.2 with
    | .handle handle =>
      match references.dispose handle with
      | .ok references => references
      | .error _ => references
    | .immediate _ => references) machine.references
  { machine with references }

/-- Carry out a script on a machine of its own. The answer has what was logged while the machine
was made, and then the script. -/
def run (budget : Nat) (settings : Settings) (level : Option LogLevel) (lines : List Line) :
    Except (Stop RunError) (List String × List Entry) := do
  let machine ← Machine.create settings { level }
  let boot := logLines machine.log
  let machine := { machine with log := machine.log.clear }
  pure (boot, (runLines lines (begin budget machine)).entries)

end Session

end ObjectMachine
