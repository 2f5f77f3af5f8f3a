/-
# ObjectMachine.Main -- the program

Reads the command line, runs the chosen program, and prints its answer. The exit code is 1 if
the run failed and 2 if the command line was not taken.
-/
import ObjectMachine.CommandLine

namespace ObjectMachine

namespace CommandLine

/-- The version of the program. -/
def version : String := "object-machine 0.1.0"

/-- How to use the program. -/
def help : String := "\n".intercalate
  ["Usage: object-machine [OPTIONS]",
    "",
    "Options:",
    "      --demo <DEMO>                    Program to run [default: arithmetic]",
    "                                       [possible values: " ++
      ", ".intercalate (Demo.all.map Demo.name) ++ "]",
    "      --entry <ENTRY>                  Toplevel name the program is bound to [default: main]",
    "      --heap-size <HEAP_SIZE>          Initial semi-space size in bytes",
    "      --max-heap-size <MAX_HEAP_SIZE>  Largest semi-space size in bytes",
    "      --stack-height <STACK_HEIGHT>    Words in a fresh task stack",
    "      --n <N>                          Input for the fib and conditions demos [default: 20]",
    "  -v, --verbose...                     Log more (-v info, -vv debug, -vvv trace)",
    "  -h, --help                           Print help",
    "  -V, --version                        Print version"]

/-- Instructions that a run may take. -/
def budget : Nat := 0x4000000000000000

/-- Tell how a run ended, and answer the exit code. -/
def tell : Outcome → IO UInt32
  | .printed text => do
    IO.println text
    pure 0
  | .usage .displayHelp => do
    IO.println help
    pure 0
  | .usage .displayVersion => do
    IO.println version
    pure 0
  | .usage error => do
    IO.eprintln ("error: " ++ error.message ++ "\n\nFor more information, try --help.")
    pure 2
  | .failed demo error => do
    IO.eprintln ("Error running " ++ demo.title ++ ": " ++ error.message)
    pure 1
  | .broken violation => do
    IO.eprintln violation.message
    pure 101
  | .unfinished => do
    IO.eprintln "the run takes too long"
    pure 1

end CommandLine

end ObjectMachine

open ObjectMachine in
/-- Run the program. -/
def main (words : List String) : IO UInt32 := do
  let report := CommandLine.run CommandLine.budget words
  report.log.forM IO.eprintln
  CommandLine.tell report.outcome
