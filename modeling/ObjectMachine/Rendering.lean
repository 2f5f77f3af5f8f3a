/-
# ObjectMachine.Rendering -- values as text

Strings inside sequences are quoted; at the top they may stand bare. Sequences open only down
to a given depth. A protocol shows its name and an instance the name of its protocol, neither of
which costs depth, so the walk is also bounded by how many objects there are.
-/
import ObjectMachine.Structural
import ObjectMachine.Roots
import ObjectMachine.Text.Quoted

namespace ObjectMachine

namespace Heap

/-- The name of a singleton. -/
def singletonText (ordinal : Nat) : String :=
  if ordinal = Roots.voidOrdinal then "#<void>"
  else if ordinal = Roots.nullOrdinal then "null"
  else if ordinal = Roots.trueOrdinal then "true"
  else if ordinal = Roots.falseOrdinal then "false"
  else s!"#<singleton {ordinal}>"

/-- The protocol that the layout of an object names. -/
def protocolOf? (h : Heap) (v : Value) : Except Violation (Option Protocol) := do
  let layout ← h.layoutOf v
  let l ← h.cast Layout layout
  pure (h.view? Protocol l.protocol)

/-- The text of a value that opens at most `depth` levels of sequences. -/
def renderWith (h : Heap) : Nat → Nat → Bool → Value → Except Violation String
  | 0, _, _, _ => .error .endless
  | fuel + 1, depth, quoted, v =>
    let sequence (start : String) (elements : Array Value) (finish : String) :
        Except Violation String :=
      if depth = 0 then
        .ok (start ++ "..." ++ finish)
      else do
        let texts ← elements.toList.mapM (h.renderWith fuel (depth - 1) true)
        pure (start ++ ", ".intercalate texts ++ finish)
    match v with
    | .int n => .ok (toString n)
    | .signal signal => .ok ("#<signal: " ++ signal.message ++ ">")
    | .object _ =>
      match h.bodyOf? v with
      | some (.string text) => .ok (if quoted then Text.quote text.content else text.content)
      | some (.tuple t) => sequence "(" t.elements ")"
      | some (.array s) => sequence "[" s.elements "]"
      | some (.singleton s) => .ok (singletonText s.ordinal)
      | some (.protocol p) => do
        let name ← h.renderWith fuel depth false p.name
        pure ("#<protocol " ++ name ++ ">")
      | some (.lambda l) => .ok s!"#<lambda/{l.argc}>"
      | some (.inst _) => do
        match ← h.protocolOf? v with
        | some p => do
          let name ← h.renderWith fuel depth false p.name
          pure ("#<" ++ name ++ ">")
        | none => pure "#<instance>"
      | some body => .ok ("#<" ++ body.kind.name ++ ">")
      | none => .error (.castFailed none v)

/-- Depth of a rendering nobody gave a depth. -/
def defaultDepth : Nat := 4

/-- The text of a value. -/
def render (h : Heap) (quoted : Bool) (depth : Nat) (v : Value) : Except Violation String :=
  h.renderWith ((depth + 1) * h.walkFuel) depth quoted v

/-- The text of a value as it is printed. -/
def display (h : Heap) (v : Value) : Except Violation String := h.render false defaultDepth v

end Heap

end ObjectMachine
