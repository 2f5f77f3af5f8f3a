/-
# ObjectMachine.Word -- values as machine words

A word of 64 bits holds a small integer (low bit clear), the address of an object (low bits
01) or a signal (low bits 11). An object's header may hold a forward word, which shares the
low bits of signals. The three readings are disjoint, so a word has exactly one content.
-/
import ObjectMachine.Value

namespace ObjectMachine

/-- A machine word that encodes a value. -/
structure Word where
  /-- The 64 bits. -/
  bits : UInt64
  deriving DecidableEq, Inhabited

namespace Word

/-- What a word says: an integer, the address of an object, or a signal. -/
inductive Content where
  | int (n : Int)
  | object (address : UInt64)
  | signal (signal : Signal)
  deriving DecidableEq

/-- The bits that tell object addresses and signals apart. -/
def tagMask : UInt64 := 3

/-- The word of a small integer: twice its value. Integers of more than 63 bits have none. -/
def ofInt? (n : Int) : Option Word :=
  if Value.isSmall n then some ⟨UInt64.ofInt (2 * n)⟩ else none

/-- The word of an object at an aligned address. -/
def ofAddress? (address : UInt64) : Option Word :=
  if address &&& tagMask = 0 then some ⟨address ||| 1⟩ else none

/-- The word of a signal. Payload bits above the 56th are lost. -/
def ofSignal (s : Signal) : Word :=
  ⟨(UInt64.ofNat s.payload <<< 8) ||| (UInt64.ofNat s.tag <<< 2) ||| 3⟩

/-- Whether the word holds a small integer. -/
def isInt (w : Word) : Bool := w.bits &&& 1 == 0

/-- Whether the word holds the address of an object. -/
def isObject (w : Word) : Bool := w.bits &&& tagMask == 1

/-- Whether the word holds a signal. -/
def isSignal (w : Word) : Bool := w.bits &&& tagMask == 3

/-- The integer reading of the bits: a signed shift by one. -/
def int (w : Word) : Int := w.bits.toInt64.toInt / 2

/-- The address reading of the bits. -/
def address (w : Word) : UInt64 := w.bits &&& ~~~tagMask

/-- The signal reading of the bits. -/
def signal (w : Word) : Signal :=
  Signal.ofTag ((w.bits >>> 2) &&& 7).toNat (w.bits >>> 8).toNat

/-- The one content of a word. -/
def content (w : Word) : Content :=
  if w.isInt then .int w.int
  else if w.isObject then .object w.address
  else .signal w.signal

/-- The integer a word holds, if it holds one. -/
def asInt? (w : Word) : Option Int := if w.isInt then some w.int else none

/-- The signal a word holds, if it holds one. -/
def asSignal? (w : Word) : Option Signal := if w.isSignal then some w.signal else none

/-- The forward word that leads to the object of `target`. -/
def forwardTo (target : Word) : Word := ⟨(target.bits &&& ~~~tagMask) ||| 3⟩

/-- Whether a header word is a forward word. -/
def isForward (w : Word) : Bool := w.isSignal

/-- The object word a forward word leads to. -/
def forwardTarget (w : Word) : Word := ⟨(w.bits &&& ~~~tagMask) ||| 1⟩

/-- The diagnostic text of a word. -/
def describe (w : Word) : String :=
  match w.content with
  | .int n => s!"SmallInteger({n})"
  | .object address => "Object(0x" ++ Value.hexDigits address.toNat ++ ")"
  | .signal _ => "Signal(0x" ++ Value.hexDigits w.bits.toNat ++ ")"

end Word

end ObjectMachine
