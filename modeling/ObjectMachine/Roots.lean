/-
# ObjectMachine.Roots -- the objects every machine starts with

One layout for each kind, the four singletons, the protocol that all protocols refine, a few
empty objects that stand for absent ones, and the table of global names. A collection starts
from them.
-/
import ObjectMachine.Heap.Collection

namespace ObjectMachine

/-- References to the objects that are always reachable. -/
structure Roots where
  /-- The layout of each kind, at the number of the kind. -/
  layouts : Vector Ref Kind.count
  void : Ref
  null : Ref
  yes : Ref
  no : Ref
  /-- The protocol at the end of every chain. -/
  objectProtocol : Ref
  emptyTuple : Ref
  emptyString : Ref
  /-- The lambda of every bottom frame. -/
  emptyLambda : Ref
  emptyContext : Ref
  /-- The table of global names. -/
  toplevel : Ref
  deriving Inhabited

namespace Roots

/-- Ordinals of the singletons. -/
def voidOrdinal : Nat := 0

@[inherit_doc voidOrdinal]
def nullOrdinal : Nat := 1

@[inherit_doc voidOrdinal]
def trueOrdinal : Nat := 2

@[inherit_doc voidOrdinal]
def falseOrdinal : Nat := 3

/-- The layout of the objects of a kind. -/
def layout (r : Roots) (kind : Kind) : Ref := r.layouts.get ⟨kind.tag, kind.tag_lt⟩

/-- The singleton of a truth value. -/
def boolean (r : Roots) (truth : Bool) : Value := if truth then r.yes else r.no

/-- Roots whose references all lead to the first object, to be filled in. -/
def unset : Roots := default

/-- The roots after the move. -/
def migrate (r : Roots) : Migration Roots := do
  let layouts ← r.layouts.mapM Transfer.migrateRef
  let void ← Transfer.migrateRef r.void
  let null ← Transfer.migrateRef r.null
  let yes ← Transfer.migrateRef r.yes
  let no ← Transfer.migrateRef r.no
  let objectProtocol ← Transfer.migrateRef r.objectProtocol
  let emptyTuple ← Transfer.migrateRef r.emptyTuple
  let emptyString ← Transfer.migrateRef r.emptyString
  let emptyLambda ← Transfer.migrateRef r.emptyLambda
  let emptyContext ← Transfer.migrateRef r.emptyContext
  let toplevel ← Transfer.migrateRef r.toplevel
  pure { layouts, void, null, yes, no, objectProtocol, emptyTuple, emptyString, emptyLambda,
         emptyContext, toplevel }

end Roots

end ObjectMachine
