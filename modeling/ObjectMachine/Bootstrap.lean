/-
# ObjectMachine.Bootstrap -- the first objects

The layout of layouts describes itself. The other layouts follow, then the empty tuple, which
becomes the table of methods of every layout, the singletons, the protocols with their names,
and the empty objects. Nothing is collected meanwhile, so the first space has to hold them all.
-/
import ObjectMachine.Construction

namespace ObjectMachine

namespace Store

/-- Change the roots. -/
def modifyRoots {ε : Type} (f : Roots → Roots) : Action Store ε Unit := fun s =>
  let { heap, roots } := s
  .ok () { heap, roots := f roots }

/-- Change the layout of a kind. -/
def modifyLayout (kind : Kind) (f : Layout → Layout) : Alloc Unit := fun s =>
  let { heap, roots } := s
  let change : Body → Body
    | .layout l => .layout (f l)
    | body => body
  .ok () { heap := heap.adjust (roots.layout kind) change, roots }

/-- The reference of an object that has just been made. -/
def made (work : Alloc Value) : Alloc Ref := do
  match ← work with
  | .object ref => pure ref
  | v => Action.violate (.castFailed none v)

/-- The layouts, whose protocols and methods are still missing. -/
def makeLayouts : Alloc Unit :=
  Kind.all.forM fun kind => do
    let described ← ask fun s => s.heap.objects.size
    let _ ← Make.placeAs ⟨0⟩ 40 fun _ =>
      .layout { kind, fieldCount := 0, protocol := .int 0, methods := .int 0 }
    modifyRoots fun r => { r with layouts := r.layouts.setIfInBounds kind.tag ⟨described⟩ }

/-- The protocol of each kind, under the protocol `parent`. -/
def makeProtocols (parent : Ref) : Alloc (List (Kind × Value)) :=
  Kind.all.mapM fun kind => do
    let name ← Make.string kind.protocolName
    let protocol ← Make.protocol name parent
    pure (kind, protocol)

/-- Make the objects every machine starts with. -/
def bootstrap : Alloc Unit := do
  makeLayouts
  let emptyTuple ← made (Make.tuple #[])
  Kind.all.forM fun kind => modifyLayout kind fun l => { l with methods := emptyTuple }
  modifyRoots fun r => { r with emptyTuple }
  let void ← made (Make.singleton Roots.voidOrdinal)
  let null ← made (Make.singleton Roots.nullOrdinal)
  let yes ← made (Make.singleton Roots.trueOrdinal)
  let no ← made (Make.singleton Roots.falseOrdinal)
  modifyRoots fun r => { r with void, null, yes, no }
  let name ← Make.string "Object"
  let objectProtocol ← made (Make.protocol name null)
  let protocols ← makeProtocols objectProtocol
  protocols.forM fun (kind, protocol) => modifyLayout kind fun l => { l with protocol }
  let emptyString ← made (Make.string "")
  let emptyContext ← made Make.context
  let code ← Make.code #[]
  let emptyLambda ← made (Make.lambda
    { argc := 0, maxHeight := 0, code, constants := emptyTuple, outers := emptyTuple,
      context := emptyContext, source := null })
  let toplevel ← made (Make.table Make.defaultCapacity)
  modifyRoots fun r =>
    { r with objectProtocol, emptyString, emptyContext, emptyLambda, toplevel }

/-- A store with the first objects, or the signal of the allocation that did not fit. -/
def create (settings : HeapSettings) : Except (Stop Signal) Store :=
  match Heap.create settings with
  | .error violation => .error (.broken violation)
  | .ok heap =>
    match bootstrap { heap, roots := Roots.unset } with
    | .ok _ s => .ok s
    | .error stop _ => .error stop

end Store

end ObjectMachine
