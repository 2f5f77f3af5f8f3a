/-
# ObjectMachine.Structural -- keys

Integers, strings, tuples, selectors and singletons are keys: they are hashed by their contents,
so a hash outlives every collection. Strings, tuples and selectors are also compared by their
contents; everything else is equal only to itself.

The contents of a key form a tree, so a walk that is as deep as there are objects has gone in a
circle.
-/
import ObjectMachine.Heap.Basic

namespace ObjectMachine

namespace Heap

/-- Whether a value can be hashed and compared by its contents. -/
def isKey (h : Heap) : Value → Bool
  | .int _ => true
  | .signal _ => false
  | v => (h.kindOf? v).any Kind.isKey

/-- Depth that no walk over contents exceeds unless it goes in a circle. -/
def walkFuel (h : Heap) : Nat := h.objects.size + 1

/-- One round of hashing: mix in a word and multiply. -/
def mix (hash word : UInt64) : UInt64 := (hash ^^^ word) * 0x100000001b3

/-- What hashing starts from. -/
def hashBasis : UInt64 := 0xcbf29ce484222325

/-- What hashing the elements of a tuple starts from. -/
def tupleBasis : UInt64 := 0x84222325

/-- What hashing a singleton starts from. -/
def singletonBasis : UInt64 := 0x5bd1e995

/-- The bits of a hash, so that it fits a small integer. -/
def hashMask : UInt64 := 0x1fffffffffffffff

/-- The hash of a value by its contents. -/
def hashWith (h : Heap) : Nat → Value → Except Violation UInt64
  | 0, _ => .error .endless
  | fuel + 1, v =>
    match v with
    | .int n => .ok (mix hashBasis (UInt64.ofInt n) &&& hashMask)
    | .signal signal => .error (.hashOfSignal signal)
    | .object _ =>
      match h.bodyOf? v with
      | some (.string text) =>
        .ok (text.content.toList.foldl (fun hash c => mix hash c.val.toUInt64) hashBasis &&& hashMask)
      | some (.tuple t) => do
        let hash ← t.elements.foldlM (fun hash element => do
          pure (mix hash (← h.hashWith fuel element))) tupleBasis
        pure (hash &&& hashMask)
      | some (.selector s) => do
        pure (mix (← h.hashWith fuel s.name) (UInt64.ofNat s.argc) &&& hashMask)
      | some (.singleton s) => .ok (mix singletonBasis (UInt64.ofNat s.ordinal) &&& hashMask)
      | some body => .error (.noStructuralHash body.kind)
      | none => .error (.castFailed none v)

/-- The hash of a value by its contents. -/
def hash (h : Heap) (v : Value) : Except Violation UInt64 := h.hashWith h.walkFuel v

/-- Insist that a value is a key before it is compared as one. -/
def checkKey (h : Heap) : Value → Except Violation Unit
  | .int _ => .ok ()
  | .signal signal => .error (.equalityOfSignal signal)
  | v =>
    match h.kindOf? v with
    | some kind => if kind.isKey then .ok () else .error (.noStructuralEquality kind)
    | none => .error (.castFailed none v)

/-- Compare two lists of one length by a test that may end early, up to the first difference. -/
def allEqual (test : Value → Value → Except Violation Bool) :
    List (Value × Value) → Except Violation Bool
  | [] => .ok true
  | (a, b) :: rest => do
    if ← test a b then allEqual test rest else pure false

/-- Whether two selectors name the same message, given how their names and keywords compare. -/
def selectorsAgree (test : Value → Value → Except Violation Bool) (a b : Selector) :
    Except Violation Bool := do
  if !(← test a.name b.name) then
    pure false
  else if a.argc ≠ b.argc then
    pure false
  else if !(← test a.keywords b.keywords) then
    pure false
  else
    pure (decide (a.accessor = b.accessor))

/-- Equality by contents for keys and by identity for everything else. -/
def equalWith (h : Heap) : Nat → Value → Value → Except Violation Bool
  | 0, _, _ => .error .endless
  | fuel + 1, a, b =>
    if a = b then
      .ok true
    else
      match h.bodyOf? a, h.bodyOf? b with
      | some (.string x), some (.string y) => .ok (x.content == y.content)
      | some (.tuple x), some (.tuple y) =>
        if x.elements.size = y.elements.size then
          allEqual (h.equalWith fuel) (x.elements.toList.zip y.elements.toList)
        else
          .ok false
      | some (.selector x), some (.selector y) =>
        selectorsAgree (fun p q => do
          h.checkKey p
          h.checkKey q
          h.equalWith fuel p q) x y
      | _, _ => .ok false

/-- Equality by contents for keys and by identity for everything else. -/
def equal (h : Heap) (a b : Value) : Except Violation Bool := h.equalWith h.walkFuel a b

/-- Equality of two values that have to be keys. -/
def keyEqual (h : Heap) (a b : Value) : Except Violation Bool := do
  h.checkKey a
  h.checkKey b
  h.equal a b

/-- Whether two selectors name the same message. -/
def selectorsEqual (h : Heap) (a b : Selector) : Except Violation Bool :=
  selectorsAgree h.keyEqual a b

end Heap

end ObjectMachine
