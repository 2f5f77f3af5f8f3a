/-
# ObjectMachine.Stack.Relocation -- moving a stack

Before a buffer moves, every frame link is turned from an address into an offset (`uncook`).
Once the buffer has its final place, the offsets become addresses again (`recook`). Only a
parked stack is converted; an empty one has no frames to convert.

`liveSlots` lists the words of a relocatable stack that hold values: the lambda of each frame
and the operands of each frame below the parking frame, from the top down. If the frames are out of
order, a word may be listed more than once.
-/
import ObjectMachine.Stack.Basic

namespace ObjectMachine

namespace Stack

/-- Convert the links of the frames from the frame at `frame` down. `convert` gives the new form of
a link and the offset it leads to, or nothing for the bottom link. -/
def relink (convert : Slot → Except Violation (Option (Link × Nat))) :
    Nat → Nat → Array Slot → Except Violation (Array Slot)
  | 0, _, _ => .error .endless
  | fuel + 1, frame, words =>
    match words[frame + Frame.linkWord]? with
    | none => .error .wildStackAccess
    | some slot => do
      match ← convert slot with
      | none => pure words
      | some (link, below) =>
        relink convert fuel below (words.setIfInBounds (frame + Frame.linkWord) (.link link))

/-- A slot of the stack at `self` as an offset. Addresses below the stack have none. -/
def toOffset (self : Ref) (slot : Slot) : Except Violation (Option (Link × Nat)) :=
  match slot.place self with
  | .bottom => .ok none
  | .inside offset => .ok (some (.offset offset, offset))
  | .below | .upperHalf => .error .linkBelowStack
  | .above => .error .wildStackAccess

/-- A slot as an address in the stack at `self`. -/
def toAddress (self : Ref) : Slot → Except Violation (Option (Link × Nat))
  | .link (.offset offset) => .ok (some (.address self offset, offset))
  | .link .bottom | .value (.int 0) => .ok none
  | _ => .error .wildStackAccess

/-- Frames a chain can have before it must repeat one. -/
def chainFuel (s : Stack) : Nat := s.height + 1

/-- Turn every link of the stack at `self` into an offset. -/
def uncook (s : Stack) (self : Ref) : Except Violation Stack :=
  match s.status with
  | .empty => .ok s
  | .running => .error .uncookingUnparked
  | .parked =>
    if s.mode = .relocatable then
      .error .alreadyUncooked
    else do
      match ← toOffset self (.link s.top) with
      | none => throw .linkBelowStack
      | some (top, frame) => do
        let words ← relink (toOffset self) s.chainFuel frame s.words
        pure { s with words, top, mode := .relocatable }

/-- Turn every link into an address in the stack at `self`. -/
def recook (s : Stack) (self : Ref) : Except Violation Stack :=
  match s.status with
  | .empty => .ok { s with mode := .linked }
  | .running => .error .recookingUnparked
  | .parked =>
    if s.mode = .linked then
      .error .alreadyCooked
    else do
      match ← toAddress self (.link s.top) with
      | none => throw .stackNotLinked
      | some (top, frame) => do
        let words ← relink (toAddress self) s.chainFuel frame s.words
        pure { s with words, top, mode := .linked }

/-- The stack `s` with the frames of the relocatable stack `old`, which is not higher. -/
def copyContents (s old : Stack) : Except Violation Stack :=
  if old.mode = .linked then
    .error .copyingCooked
  else if s.height < old.height then
    .error .copyingIntoSmaller
  else
    .ok { old with words := old.words ++ s.words.extract old.height s.height }

/-- The words that hold values, from the frame at `frame` down. The operands of that frame end
at `limit`. -/
def liveFrom (words : Array Slot) : Nat → Nat → Nat → Except Violation (List Nat)
  | 0, _, _ => .error .endless
  | fuel + 1, frame, limit => do
    let operands := List.range' (frame + Frame.size) (limit - (frame + Frame.size))
    let here := (frame + Frame.lambdaWord) :: operands
    match words[frame + Frame.linkWord]? with
    | some (.link (.offset below)) => do
      let rest ← liveFrom words fuel below frame
      pure (here ++ rest)
    | some (.link .bottom) | some (.value (.int 0)) => pure here
    | _ => throw .wildStackAccess

/-- The words of a relocatable stack that hold values, in the order they are visited. -/
def liveSlots (s : Stack) : Except Violation (List Nat) :=
  if s.status = .empty then
    .ok []
  else if s.mode = .linked then
    .error .visitingCooked
  else
    match s.top with
    | .offset frame => liveFrom s.words s.chainFuel frame (frame + Frame.size)
    | _ => .error .wildStackAccess

/-- Walk down the frames of the stack at `self`. Each lies in the buffer, carries a lambda and
lies above the next. -/
def validateFrom (s : Stack) (self : Ref) (isLambda : Value → Bool) :
    Nat → Place → Except Violation Unit
  | 0, _ => .error .endless
  | fuel + 1, .inside frame =>
    if s.height ≤ frame then
      .error .frameOutsideStack
    else if !(s.words[frame + Frame.lambdaWord]?.bind Slot.asValue? |>.any isLambda) then
      .error .frameWithoutLambda
    else do
      match ← placeAt s.words self (frame + Frame.linkWord) with
      | .bottom => pure ()
      | .inside below =>
        if below < frame then validateFrom s self isLambda fuel (.inside below)
        else throw .frameChainAscends
      | .below => throw .frameOutsideStack
      | .above | .upperHalf => throw .frameChainAscends
  | _ + 1, _ => .error .frameOutsideStack

/-- Check that the frames of the linked stack at `self` end in the bottom frame. -/
def validate (s : Stack) (self : Ref) (isLambda : Value → Bool) : Except Violation Unit :=
  if s.status = .empty then
    .ok ()
  else if s.mode = .relocatable then
    .error .stackNotLinked
  else
    validateFrom s self isLambda s.chainFuel ((Slot.link s.top).place self)

end Stack

end ObjectMachine
