/-
# ObjectMachine.Heap.Collection -- keeping what is reachable

A collection copies every object that the roots reach into a fresh space and forgets the rest. The
roots are migrated first; then the copies are scanned in order, and whatever they hold is migrated
in turn. A migrated object leaves a forward header behind, so it is copied once. The links of a
stack become offsets before the stack is copied and addresses once its copy has been scanned.

What an object is, how large it is and which fields it has is read from its layout (`Object.read`),
and layouts move like everything else. While an object is copied its layout is read in the old
space, where its fields stay even when its own header forwards. A copy that is scanned has its
header migrated first, and the fields of an instance are counted by the layout's copy.

If the copies crowd the new space, or the allocation that is waiting does not fit, the space grows
and everything is copied once more, up to the largest size the settings allow.

* `nextCapacity_gt` -- growing makes strict progress, so a collection ends.
-/
import ObjectMachine.Heap.Basic

namespace ObjectMachine

/-- Whether a layout describes a body: it is of the layout's kind and, if it is an instance, has as
many fields as the layout counts. -/
def Layout.describes (l : Layout) : Body → Bool
  | .inst i => l.kind == .inst && i.fields.size == l.fieldCount
  | body => l.kind == body.kind

/-- The body of an object as the layout describes it that its header leads to among `objects`. The
header of the layout is not looked at. -/
def Object.read (objects : Array Object) (object : Object) : Except Violation Body :=
  match object.header with
  | .forward _ => .error .forwardedHeader
  | .layout ref =>
    match objects[ref.position]? with
    | none => .error .fieldOutsideSpace
    | some { body := .layout layout, .. } =>
      if layout.describes object.body then .ok object.body else .error .misdescribed
    | some _ => .error .misdescribed

/-- A collection under way: the space that is left behind, and the space that is filled. -/
structure Transfer where
  source : Array Object
  target : Array Object
  space : Space

/-- A part of a collection. -/
abbrev Migration := StateT Transfer (Except Violation)

namespace Transfer

/-- A body ready to be copied: the links of a stack are offsets. -/
def detach (ref : Ref) : Body → Except Violation Body
  | .stack s => do pure (.stack (← s.uncook ref))
  | body => .ok body

/-- A body that has been copied to its place: the links of a stack are addresses. -/
def attach (ref : Ref) : Body → Except Violation Body
  | .stack s => do pure (.stack (← s.recook ref))
  | body => .ok body

/-- Copy one object of the old space, leaving a forward header. -/
def copy (ref : Ref) (object : Object) : Migration Ref := do
  let { source, target, space } ← get
  let body ← object.read source
  let body ← detach ref body
  match ← space.allocate body.size with
  | none => throw (.toSpaceExhausted body.size)
  | some space =>
    let moved : Ref := ⟨target.size⟩
    set { source := source.setIfInBounds ref.position { object with header := .forward moved }
          target := target.push { header := object.header, body }
          space : Transfer }
    pure moved

/-- The new place of an object, which is copied unless it has been already. -/
def migrateRef (ref : Ref) : Migration Ref := do
  match (← get).source[ref.position]? with
  | none => throw .fieldOutsideSpace
  | some { header := .forward moved, .. } => pure moved
  | some object => copy ref object

/-- A value after the move. Only objects move. -/
def migrate : Value → Migration Value
  | .object ref => do pure (.object (← migrateRef ref))
  | v => pure v

/-- A header after the move. -/
def migrateHeader : Header → Migration Header
  | .layout ref => do pure (.layout (← migrateRef ref))
  | .forward target => pure (.forward target)

/-- Migrate whatever the copy at `position` holds. -/
def scanAt (position : Nat) (object : Object) : Migration Unit := do
  let body ← object.read (← get).source
  let header ← migrateHeader object.header
  -- from here on the layout's copy is read
  let body ← { header, body : Object }.read (← get).target
  let body ← body.traverse migrate
  let body ← attach ⟨position⟩ body
  modify fun { source, target, space } =>
    { source, target := target.setIfInBounds position { header, body }, space }

/-- Scan the copies from `position` on. -/
def scanFrom : Nat → Nat → Migration Unit
  | 0, _ => throw .endless
  | fuel + 1, position => do
    match (← get).target[position]? with
    | none => pure ()
    | some object => do
      scanAt position object
      scanFrom fuel (position + 1)

end Transfer

namespace Heap

variable {ρ : Type}

/-- Copy every object that the roots reach into a fresh space of `capacity` bytes. `walk`
migrates the roots. -/
def copyLive (walk : ρ → Migration ρ) (roots : ρ) (capacity : Nat) (h : Heap) :
    Except Violation (ρ × Heap) := do
  let { objects, settings, stats, .. } := h
  let fuel := objects.size + 1
  let space ← Space.create capacity
  let transfer : Transfer := { source := objects, target := #[], space }
  let (roots, transfer) ← (walk roots).run transfer
  let (_, { target, space, .. }) ← (Transfer.scanFrom fuel 0).run transfer
  pure (roots,
    { objects := target, space, settings,
      stats := { collections := stats.collections + 1
                 last := space.used
                 total := stats.total + space.used } })

/-- Whether the copies leave too little room. -/
def wantsRoom (h : Heap) (capacity pending : Nat) : Except Violation Bool := do
  let filled ← Size.mul h.used 100
  let allowed ← Size.mul capacity h.settings.growthPercent
  pure (decide (h.free < pending) || decide (allowed < filled))

/-- The capacity to try after `capacity`. -/
def nextCapacity (live pending capacity maxSize : Nat) : Except Violation Nat := do
  let grown ← Size.grow capacity
  let wanted ← Size.add live pending
  let aligned ← Size.align (max grown wanted)
  pure (min aligned maxSize)

theorem nextCapacity_gt {live pending capacity maxSize next : Nat} (room : capacity < maxSize)
    (isNext : nextCapacity live pending capacity maxSize = .ok next) :
    capacity < next ∧ next ≤ maxSize := by
  obtain ⟨grown, isGrown, isNext⟩ := ok_of_bind isNext
  obtain ⟨wanted, _, isNext⟩ := ok_of_bind isNext
  obtain ⟨aligned, isAligned, isNext⟩ := ok_of_bind isNext
  cases isNext
  have grows := Size.grow_gt isGrown
  have rounded := Space.align_ok isAligned
  have above := Size.roundUp_ge (max grown wanted)
  omega

/-- A collection: the capacities it grew through, and the moved roots with the new heap, unless it
found a broken invariant on the way. -/
structure Collected (ρ : Type) where
  growths : List Nat
  outcome : Except Violation (ρ × Heap)

/-- Collect into a space of `capacity` bytes, growing it up to `maxSize` as long as it is too
small. -/
def collectInto (walk : ρ → Migration ρ) (pending maxSize capacity : Nat) (roots : ρ) (h : Heap) :
    Collected ρ :=
  match copyLive walk roots capacity h with
  | .error violation => ⟨[], .error violation⟩
  | .ok (roots, h) =>
    match h.wantsRoom capacity pending with
    | .error violation => ⟨[], .error violation⟩
    | .ok small =>
      if room : capacity < maxSize ∧ small = true then
        match isNext : nextCapacity h.used pending capacity maxSize with
        | .error violation => ⟨[], .error violation⟩
        | .ok next =>
          have := (nextCapacity_gt room.1 isNext).1
          let { growths, outcome } := collectInto walk pending maxSize next roots h
          ⟨next :: growths, outcome⟩
      else
        ⟨[], .ok (roots, h)⟩
termination_by maxSize - capacity
decreasing_by omega

/-- Keep what the roots reach. `pending` is the size of the allocation that is waiting. -/
def collect (walk : ρ → Migration ρ) (pending : Nat) (roots : ρ) (h : Heap) : Collected ρ :=
  collectInto walk pending h.settings.maxSize h.capacity roots h

end Heap

end ObjectMachine
