/-
# ObjectMachine.CommandLine -- options of the program

Options may be followed by their value as the next word, or carry it after an equals sign. A
value that stands as a word of its own is only looked at when the next option comes, or at the
end; a word that is no option and no value is reported before that.
-/
import ObjectMachine.Demo

namespace ObjectMachine

namespace CommandLine

/-- Why a command line was not taken, or what it asked for instead. -/
inductive UsageError where
  /-- An option without its value, or a name that is not among the possible ones. -/
  | invalidValue
  /-- A value that is no number, or too large a number. -/
  | valueValidation
  | unknownArgument
  /-- An option that is given twice. -/
  | argumentConflict
  /-- A value for a flag. -/
  | tooManyValues
  | displayHelp
  | displayVersion
  deriving DecidableEq, Inhabited

namespace UsageError

/-- The text of a usage error. -/
def message : UsageError → String
  | invalidValue => "a value is missing or is not one of the possible values"
  | valueValidation => "a value is not a number in range"
  | unknownArgument => "unexpected argument"
  | argumentConflict => "an option cannot be used multiple times"
  | tooManyValues => "unexpected value for a flag"
  | displayHelp | displayVersion => ""

end UsageError

/-- The options that take a value. -/
inductive Setting where
  | demo
  | entry
  | heapSize
  | maxHeapSize
  | stackHeight
  | n
  deriving DecidableEq, Inhabited

/-- The options that take none. -/
inductive Flag where
  | verbose
  | help
  | version
  deriving DecidableEq, Inhabited

/-- What the command line says. -/
structure Options where
  demo : Option Demo := none
  entry : Option String := none
  heapSize : Option Nat := none
  maxHeapSize : Option Nat := none
  stackHeight : Option Nat := none
  n : Option Int := none
  verbose : Nat := 0
  deriving Inhabited

namespace Options

/-- The sizes of the machine. A large initial size of the heap also raises the largest size. -/
def settings (o : Options) : Settings :=
  let heap : HeapSettings := {}
  let heap := match o.heapSize with
    | some size => { heap with initialSize := size, maxSize := max heap.maxSize size }
    | none => heap
  let heap := match o.maxHeapSize with
    | some size => { heap with maxSize := size }
    | none => heap
  let settings : Settings := { heap }
  match o.stackHeight with
  | some height => { settings with stackHeight := height }
  | none => settings

/-- The level of the log: every repetition of the flag asks for more. -/
def level (o : Options) : Option LogLevel :=
  match o.verbose with
  | 0 => none
  | 1 => some .info
  | 2 => some .debug
  | _ => some .trace

/-- Whether an option has been given. -/
def has (o : Options) : Setting → Bool
  | .demo => o.demo.isSome
  | .entry => o.entry.isSome
  | .heapSize => o.heapSize.isSome
  | .maxHeapSize => o.maxHeapSize.isSome
  | .stackHeight => o.stackHeight.isSome
  | .n => o.n.isSome

end Options

/-- The number that digits write. -/
def digits? (cs : List Char) : Option Nat :=
  if cs.isEmpty || !cs.all Char.isDigit then none
  else some (cs.foldl (fun n c => 10 * n + (c.toNat - '0'.toNat)) 0)

/-- A size: digits, possibly after a plus sign, that fit a machine word. -/
def size? (text : String) : Option Nat := do
  let n ← match text.toList with
    | '+' :: cs => digits? cs
    | cs => digits? cs
  if n < Size.limit then some n else none

/-- An integer of 64 bits: digits, possibly after a sign. -/
def integer? (text : String) : Option Int := do
  let n : Int ← match text.toList with
    | '+' :: cs => (digits? cs).map Int.ofNat
    | '-' :: cs => (digits? cs).map fun n => -(n : Int)
    | cs => (digits? cs).map Int.ofNat
  if -0x8000000000000000 ≤ n ∧ n < 0x8000000000000000 then some n else none

/-- The content of a value, or that it is no value of its kind. -/
def required {α : Type} (error : UsageError) : Option α → Except UsageError α
  | some content => .ok content
  | none => .error error

/-- Set an option that must not have been set before. -/
def assign (o : Options) (setting : Setting) (text : String) : Except UsageError Options :=
  if o.has setting then
    .error .argumentConflict
  else
    match setting with
    | .demo => do pure { o with demo := some (← required .invalidValue (Demo.ofName? text)) }
    | .entry => .ok { o with entry := some text }
    | .heapSize => do
      pure { o with heapSize := some (← required .valueValidation (size? text)) }
    | .maxHeapSize => do
      pure { o with maxHeapSize := some (← required .valueValidation (size? text)) }
    | .stackHeight => do
      pure { o with stackHeight := some (← required .valueValidation (size? text)) }
    | .n => do pure { o with n := some (← required .valueValidation (integer? text)) }

/-- A command line that has been read in part. -/
structure Reading where
  options : Options := {}
  /-- An option that has not been looked at yet, with the word after it. -/
  pending : Option (Setting × Option String) := none
  deriving Inhabited

namespace Reading

/-- Look at the option that is pending. -/
def resolve (r : Reading) : Except UsageError Options :=
  match r.pending with
  | none => .ok r.options
  | some (_, none) => .error .invalidValue
  | some (setting, some text) => assign r.options setting text

/-- Take a flag. -/
def flag (r : Reading) (flag : Flag) : Except UsageError Reading := do
  let options ← r.resolve
  match flag with
  | .verbose => pure { options := { options with verbose := options.verbose + 1 } }
  | .help => throw .displayHelp
  | .version => throw .displayVersion

end Reading

/-- The option with a long name. -/
def long? : String → Option (Setting ⊕ Flag)
  | "demo" => some (.inl .demo)
  | "entry" => some (.inl .entry)
  | "heap-size" => some (.inl .heapSize)
  | "max-heap-size" => some (.inl .maxHeapSize)
  | "stack-height" => some (.inl .stackHeight)
  | "n" => some (.inl .n)
  | "verbose" => some (.inr .verbose)
  | "help" => some (.inr .help)
  | "version" => some (.inr .version)
  | _ => none

/-- The flag with a short name. -/
def short? : Char → Option Flag
  | 'v' => some .verbose
  | 'h' => some .help
  | 'V' => some .version
  | _ => none

/-- Take the flags of a word with one dash. -/
def shortFlags (r : Reading) : List Char → Except UsageError Reading
  | [] => .ok r
  | c :: rest =>
    match short? c with
    | some flag => do shortFlags (← r.flag flag) rest
    | none => .error .unknownArgument

/-- Split a word at its first equals sign. -/
def splitValue (cs : List Char) : String × Option String :=
  let name := String.ofList (cs.takeWhile (· ≠ '='))
  match cs.dropWhile (· ≠ '=') with
  | _ :: value => (name, some (String.ofList value))
  | [] => (name, none)

/-- Take a word with two dashes. -/
def longOption (r : Reading) (cs : List Char) : Except UsageError Reading := do
  let (name, value) := splitValue cs
  match long? name, value with
  | none, _ => throw .unknownArgument
  | some (.inl setting), some text => do
    let options ← r.resolve
    pure { options := ← assign options setting text }
  | some (.inl setting), none => do
    pure { options := ← r.resolve, pending := some (setting, none) }
  | some (.inr _), some _ => throw .tooManyValues
  | some (.inr flag), none => r.flag flag

/-- Take a word that is no option: the value of the option before it, if that still lacks one. -/
def plainWord (r : Reading) (word : String) : Except UsageError Reading :=
  match r.pending with
  | some (setting, none) => .ok { r with pending := some (setting, some word) }
  | _ => .error .unknownArgument

/-- Read words. After two dashes alone, no word is an option or a value. -/
def readWords (r : Reading) : List String → Except UsageError Options
  | [] => r.resolve
  | word :: rest =>
    match word.toList with
    | ['-', '-'] => if rest.isEmpty then r.resolve else .error .unknownArgument
    | '-' :: '-' :: cs => do readWords (← longOption r cs) rest
    | '-' :: c :: cs => do readWords (← shortFlags r (c :: cs)) rest
    | _ => do readWords (← plainWord r word) rest

/-- Read a command line. -/
def parse (words : List String) : Except UsageError Options := readWords {} words

/-- How a run ended. -/
inductive Outcome where
  | printed (text : String)
  | usage (error : UsageError)
  | failed (demo : Demo) (error : RunError)
  | broken (violation : Violation)
  | unfinished

/-- How a run ended, and what was reported on the way. -/
structure Report where
  outcome : Outcome
  log : List String := []

/-- Run the program that the options choose. -/
def execute (budget : Nat) (o : Options) : Report :=
  let demo := o.demo.getD .arithmetic
  match Machine.create o.settings { level := o.level } with
  | .error (.raised error) => { outcome := .failed demo error }
  | .error (.broken violation) => { outcome := .broken violation }
  | .error .unfinished => { outcome := .unfinished }
  | .ok machine =>
    match demo.runAs budget (o.entry.getD "main") (o.n.getD 20) machine with
    | .ok text m => { outcome := .printed text, log := m.log.lines.toList }
    | .error (.raised error) m => { outcome := .failed demo error, log := m.log.lines.toList }
    | .error (.broken violation) m =>
      { outcome := .broken violation, log := m.log.lines.toList }
    | .error .unfinished m => { outcome := .unfinished, log := m.log.lines.toList }

/-- Read a command line and run the program it chooses. -/
def run (budget : Nat) (words : List String) : Report :=
  match parse words with
  | .error error => { outcome := .usage error }
  | .ok options => execute budget options

end CommandLine

end ObjectMachine
