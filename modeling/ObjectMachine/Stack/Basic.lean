/-
# ObjectMachine.Stack.Basic -- stacks of activation frames

A stack is a fixed buffer of words in which activation frames are chained. A frame starts
with three header words: the program counter to return to, the link to the frame below, and
the lambda that runs in it. Its operands follow.

```
| sentinel | entry | frame | ... | frame | operands | free ... | reserve |
  pc link lambda   operands ...
```

A link is an address while the stack can run (`linked`), and an offset into the buffer while
the buffer may move (`relocatable`). An address names the stack it points into, so an address
that has outlived a move points into a stack that is not there any more. The bottom frame
links to nothing.

Markers are two words, the offset of the next marker and a table of handlers. They are
linked by offsets in either mode.

Frames that overlap share words, so that a link may be met where a value is expected and the other
way round. Such a word is read by its bits: `Slot.asValue?` says which value a link looks like, and
`Slot.place` where a word leads as an address.
-/
import ObjectMachine.Growth
import ObjectMachine.Word

namespace ObjectMachine

namespace Frame

/-- Header word with the program counter of the frame below. -/
def pcWord : Nat := 0

/-- Header word with the link to the frame below. -/
def linkWord : Nat := 1

/-- Header word with the lambda of the frame. -/
def lambdaWord : Nat := 2

/-- Words of a frame header. -/
def size : Nat := 3

/-- Frame headers kept free above the limit of a stack, so that parking always fits. -/
def reserved : Nat := 4

end Frame

namespace Marker

/-- Words of a marker. -/
def size : Nat := 2

end Marker

/-- The link from a frame to the frame below it. -/
inductive Link where
  /-- The link of the bottom frame. -/
  | bottom
  /-- The address of the word at `offset` of the buffer of `stack`. -/
  | address (stack : Ref) (offset : Nat)
  /-- A position in whichever buffer the link is read from. -/
  | offset (offset : Nat)
  deriving DecidableEq, Inhabited

/-- A word of a stack. -/
inductive Slot where
  | value (value : Value)
  | link (link : Link)
  deriving DecidableEq, Inhabited

namespace Link

/-- The word of a link that is an offset: one more than the offset, as the bottom link is zero. -/
def offsetWord (offset : Nat) : Word := ⟨UInt64.ofNat (offset + 1)⟩

/-- Half the address that stands for the start of a buffer wherever an address is met as a value.
Addresses are multiples of eight, so such a value is an integer; nothing else is known of it. -/
def nominalStart : Int := 0x200000000000

end Link

/-- Where a word leads when it is read as an address, seen from the buffer of a stack. -/
inductive Place where
  | bottom
  /-- The address of a word of the buffer, or of one past it. -/
  | inside (offset : Nat)
  | below
  | above
  /-- The upper half of the addresses, where nothing lies. As a signed number such an address is
  below everything. -/
  | upperHalf
  deriving DecidableEq, Inhabited

namespace Place

/-- Stacks lie in the addresses below this one. -/
def addressSpan : Nat := 0x800000000000

/-- The place of an address that was not made from a stack. -/
def ofAddress (address : Nat) : Place :=
  if address = 0 then bottom
  else if address < addressSpan then below
  else if address < 0x8000000000000000 then above
  else upperHalf

/-- The place of an object, seen from the stack at `self`. Objects lie in the order they were
made. -/
def ofRef (self ref : Ref) : Place := if ref.position ≤ self.position then below else above

end Place

namespace Slot

/-- The slot as a value. A link that is an offset may look like the address of an object, but there
is none that low; then the slot is no value. -/
def asValue? : Slot → Option Value
  | value v => some v
  | link .bottom => some (.int 0)
  | link (.offset offset) =>
    match (Link.offsetWord offset).content with
    | .int n => some (.int n)
    | .signal signal => some (.signal signal)
    | .object _ => none
  | link (.address _ offset) => some (.int (Link.nominalStart + 4 * offset))

/-- The place the slot leads to as an address, seen from the stack at `self`. -/
def place (self : Ref) : Slot → Place
  | value (.int n) => .ofAddress (Size.ofInt (2 * n))
  | value (.signal signal) => .ofAddress (Word.ofSignal signal).bits.toNat
  | value (.object ref) => .ofRef self ref
  | link .bottom => .bottom
  | link (.offset offset) => .ofAddress (offset + 1)
  | link (.address stack offset) => if stack = self then .inside offset else .ofRef self stack

/-- A cleared word. -/
def clear : Slot := value (.int 0)

end Slot

/-- Whether a stack can run, does run, or has finished. -/
inductive StackStatus where
  | empty
  | parked
  | running
  deriving DecidableEq, Inhabited

/-- How the links of a stack are written. -/
inductive StackMode where
  | linked
  | relocatable
  deriving DecidableEq, Inhabited

/-- A buffer of words with chained frames. -/
structure Stack where
  words : Array Slot
  /-- Link to the top frame. -/
  top : Link
  /-- Offset of the innermost marker. -/
  marker : Option Nat
  status : StackStatus
  mode : StackMode
  deriving DecidableEq, Inhabited

namespace Stack

/-- Words in the buffer. -/
def height (s : Stack) : Nat := s.words.size

/-- A cleared stack that has nothing to run. -/
def fresh (height : Nat) : Stack :=
  { words := Array.replicate height Slot.clear
    top := .bottom
    marker := none
    status := .empty
    mode := .linked }

/-- The word at an offset, as a value. -/
def valueAt (s : Stack) (offset : Nat) : Except Violation Value :=
  match s.words[offset]?.bind Slot.asValue? with
  | some v => .ok v
  | none => .error .wildStackAccess

/-- The place that the word at an offset leads to, seen from the stack at `self`. -/
def placeAt (words : Array Slot) (self : Ref) (offset : Nat) : Except Violation Place :=
  match words[offset]? with
  | some slot => .ok (slot.place self)
  | none => .error .wildStackAccess

/-- Write a word. A write outside the buffer changes nothing. -/
def setWord (s : Stack) (offset : Nat) (slot : Slot) : Stack :=
  { s with words := s.words.setIfInBounds offset slot }

/-- Write a frame header. -/
def writeFrame (s : Stack) (frame pc : Nat) (link : Link) (lambda : Value) : Stack :=
  ((s.setWord (frame + Frame.pcWord) (.value (.ofNat pc))).setWord
    (frame + Frame.linkWord) (.link link)).setWord (frame + Frame.lambdaWord) (.value lambda)

/-- Room an unstarted stack needs beside its entry values. -/
def entryRoom : Nat := (Frame.reserved + 2) * Frame.size

/-- Lay out a stack that has not started: the bottom frame holds the entry values, a lambda
and its arguments, as its operands, and the stack is parked at the first instruction.
`self` is where the stack lives. -/
def prepare (s : Stack) (self : Ref) (bottomLambda : Value) (entry : Array Value) :
    Except Violation Stack :=
  if s.height < entry.size + entryRoom then
    .error .stackTooSmall
  else if s.mode ≠ .linked then
    .error .stackNotLinked
  else
    let parked := Frame.size + entry.size
    let s := s.writeFrame 0 0 .bottom bottomLambda
    let s := entry.foldl (fun (acc : Stack × Nat) v =>
      (acc.1.setWord acc.2 (.value v), acc.2 + 1)) (s, Frame.size) |>.1
    let s := s.writeFrame parked 0 (.address self 0) bottomLambda
    .ok { s with top := .address self parked, marker := none, status := .parked }

/-- The links of the linked stack at `self`, from `place` down to the bottom link, written as
offsets plus one. -/
def linksFrom (words : Array Slot) (self : Ref) : Nat → Place → List Nat
  | fuel + 1, .inside offset =>
    match words[offset + Frame.linkWord]? with
    | some slot => (offset + 1) :: linksFrom words self fuel (slot.place self)
    | none => [offset + 1]
  | _ + 1, .bottom => [0]
  | _, _ => []

/-- The chain of links of the stack at `self`. -/
def links (s : Stack) (self : Ref) : List Nat :=
  linksFrom s.words self (s.height + 2) ((Slot.link s.top).place self)

end Stack

end ObjectMachine
