/-
# ObjectMachine.Proofs.Image -- one heap as the image of another

What a collection is to achieve, said without the collector. `Heap.Reachable` is what the roots lead
to, over headers and over what bodies hold. `Heap.Image h live place h'` says that the heap `h'`
consists of the `live` objects of `h` and nothing else, each at the place `place` gives it and with
everything it refers to moved along.

* `Heap.Describes.read` -- an object can be read if its layout describes it.
* `Body.detach_settled` -- a body that is detached, visited and attached again is the moved body; a
  stack has to have nothing to run or be parked.
-/
import Mathlib
import ObjectMachine.Proofs.ParkedStack
import ObjectMachine.Store

namespace ObjectMachine

namespace Body

/-- The values a body holds. Those of a stack are the ones its frames hold. -/
def held : Body → List Value
  | stack s => s.held
  | b => b.fields

/-- The body at its new place `home`, when objects have gone where `place` says. -/
def relocated (place : Ref → Ref) (home : Ref) : Body → Body
  | stack s => stack (s.relocated place home)
  | b => b.mapFields (Value.move place)

/-- A stack at `home` has nothing to run or is parked. -/
def Settled (home : Ref) (b : Body) : Prop :=
  ∀ s, b = .stack s → s.status = .empty ∨ ∃ top, s.ParkedAt home top

theorem held_of_ne {b : Body} (noStack : b.kind ≠ .stack) : b.held = b.fields := by
  cases b with
  | stack s => exact absurd rfl noStack
  | _ => rfl

theorem relocated_of_ne {b : Body} (noStack : b.kind ≠ .stack) (place : Ref → Ref) (home : Ref) :
    b.relocated place home = b.mapFields (Value.move place) := by
  cases b with
  | stack s => exact absurd rfl noStack
  | _ => rfl

@[simp] theorem kind_relocated (place : Ref → Ref) (home : Ref) (b : Body) :
    (b.relocated place home).kind = b.kind := by
  cases b <;> rfl

@[simp] theorem size_relocated (place : Ref → Ref) (home : Ref) (b : Body) :
    (b.relocated place home).size = b.size := by
  cases b with
  | stack s => simp [relocated, size]
  | _ => exact size_mapFields _ _

theorem relocated_congr {f g : Ref → Ref} {b : Body} (same : ∀ r, .object r ∈ b.held → f r = g r)
    (home : Ref) : b.relocated f home = b.relocated g home := by
  cases b with
  | stack s => exact congrArg Body.stack (Stack.relocated_congr same home)
  | _ =>
    refine mapFields_congr fun v member => Value.move_congr ?_
    rintro r rfl
    exact same r member

/-- A body on its way: `loose` is what is copied in place of `b`. -/
structure Loose (b loose : Body) : Prop where
  size : loose.size = b.size
  visitable : loose.Visitable
  holds : ∀ r, .object r ∈ loose.fields ↔ .object r ∈ b.held
  attach : ∀ place target, Transfer.attach target (loose.mapFields (Value.move place)) =
    .ok (b.relocated place target)

theorem detach_settled {b : Body} {home : Ref} (settled : b.Settled home) :
    ∃ loose, Transfer.detach home b = .ok loose ∧ Loose b loose := by
  cases b with
  | stack s =>
    obtain idle | ⟨top, parked⟩ := settled s rfl
    · have nothing : s.liveSlots = .ok [] := by simp [Stack.liveSlots, idle]
      refine ⟨.stack s, by simp [Transfer.detach, Stack.uncook, idle, bind, Except.bind, pure,
        Except.pure], rfl, ?_, ?_, ?_⟩
      · rintro _ ⟨⟩
        exact ⟨[], nothing, List.nodup_nil, by simp⟩
      · intro r
        simp [fields, Stack.visited, nothing, Stack.valuesAt, held, Stack.held, idle]
      · intro place target
        simp [Transfer.attach, mapFields, refill, Stack.refill, nothing, Stack.overwrite,
          Stack.recook, idle, relocated, Stack.relocated, bind, Except.bind, pure, Except.pure]
    · refine ⟨.stack (s.loosened top), by simp [Transfer.detach, Stack.uncook_parked parked, bind,
        Except.bind, pure, Except.pure], ?_, ?_, ?_, ?_⟩
      · simp [size, Stack.loosened, Stack.height]
      · rintro _ ⟨⟩
        exact (Stack.loosened_loose parked).visitable
      · exact Stack.mem_visited_loosened parked
      · intro place target
        simp only [Transfer.attach, mapFields, refill, fields, Stack.recook_visited parked place]
        rfl
  | _ =>
    refine ⟨_, rfl, rfl, ?_, fun r => Iff.rfl, fun place target => rfl⟩
    rintro _ ⟨⟩

end Body

namespace Header

/-- The header when objects have gone where `place` says. -/
def move (place : Ref → Ref) : Header → Header
  | layout r => layout (place r)
  | forward target => forward target

end Header

/-- A layout describes the bodies of its kind that have as many fields as it counts. -/
theorem Layout.describes_iff {l : Layout} {b : Body} : l.describes b = true ↔
    l.kind = b.kind ∧ ∀ i, b = .inst i → i.fields.size = l.fieldCount := by
  cases b <;> simp [describes, Body.kind]

namespace Object

/-- An object is read as what it is, by a layout that describes it. -/
theorem read_eq_ok {objects : Array Object} {o : Object} {b : Body} : o.read objects = .ok b ↔
    b = o.body ∧ ∃ r header l, o.header = .layout r ∧
      objects[r.position]? = some ⟨header, .layout l⟩ ∧ l.describes o.body = true := by
  unfold read
  cases o.header with
  | forward target => simp
  | layout r =>
    rcases found : objects[r.position]? with _ | ⟨header, body⟩
    · simp [found]
    · cases body with
      | layout l => by_cases fits : l.describes o.body = true <;> simp [found, fits, eq_comm (a := b)]
      | _ => simp [found]

/-- The object at its new place `home`, when objects have gone where `place` says. -/
def relocated (place : Ref → Ref) (home : Ref) (o : Object) : Object :=
  { header := o.header.move place, body := o.body.relocated place home }

/-- The object leads to `r`, by its header or by what its body holds. -/
def Mentions (o : Object) (r : Ref) : Prop := o.header = .layout r ∨ .object r ∈ o.body.held

end Object

namespace Heap

/-- Bytes of the object a reference leads to, in whole words. -/
def sizeAt (h : Heap) (r : Ref) : Nat := (h.object? r).elim 0 fun o => Size.roundUp o.body.size

/-- What `start` leads to over headers and over what bodies hold. -/
inductive Reachable (h : Heap) (start : Ref → Prop) : Ref → Prop
  | root {r : Ref} (isRoot : start r) : Reachable h start r
  | edge {r s : Ref} {o : Object} (reached : Reachable h start r) (found : h.object? r = some o)
      (mentioned : o.Mentions s) : Reachable h start s

/-- The objects of `h'` are the `live` objects of `h`, each moved to where `place` says, and they
alone take room. -/
structure Image (h : Heap) (live : Ref → Prop) (place : Ref → Ref) (h' : Heap) : Prop where
  bijection : Set.BijOn place {r | live r} {r | r.position < h'.objects.size}
  object : ∀ r o, live r → h.object? r = some o → h'.object? (place r) = some (o.relocated place (place r))
  used : ∃ order : List Ref, order.Nodup ∧ (∀ r, r ∈ order ↔ live r) ∧ h'.used = (order.map h.sizeAt).sum

/-- The cursor stands where the sizes of all objects add up to, within the capacity. -/
structure Accounted (h : Heap) : Prop where
  used : h.used = (h.objects.toList.map fun o => Size.roundUp o.body.size).sum
  fits : h.used ≤ h.capacity

/-- Something `live` leads nowhere. -/
def Stray (h : Heap) (live : Ref → Prop) : Prop := ∃ r, live r ∧ h.object? r = none

/-- The layout at `r` describes bodies of this kind and number of fields. -/
def Describes (h : Heap) (r : Ref) (b : Body) : Prop :=
  ∃ l, h.view? Layout (.object r) = some l ∧ l.kind = b.kind ∧
    ∀ i, b = .inst i → i.fields.size = l.fieldCount

theorem Describes.read {h : Heap} {r : Ref} {o : Object} (described : h.Describes r o.body)
    (header : o.header = .layout r) : o.read h.objects = .ok o.body := by
  obtain ⟨l, found, fits⟩ := described
  obtain ⟨b, isBody, isLayout⟩ := Option.bind_eq_some_iff.mp found
  obtain ⟨o', found, rfl⟩ := Option.map_eq_some_iff.mp isBody
  have isBody : o'.body = .layout l := (HeapKind.view?_eq_some _ _).mp isLayout
  exact Object.read_eq_ok.mpr ⟨rfl, r, o'.header, l, header, isBody ▸ found, Layout.describes_iff.mpr fits⟩

/-- A heap in which every object that `start` leads to can be moved: its header leads to a layout
that describes it, and a stack has nothing to run or is parked. -/
structure Collectable (h : Heap) (start : Ref → Prop) : Prop where
  accounted : h.Accounted
  described : ∀ r o, h.Reachable start r → h.object? r = some o →
    ∃ l, o.header = .layout l ∧ h.Describes l o.body
  settled : ∀ r o, h.Reachable start r → h.object? r = some o → o.body.Settled r

end Heap

namespace Store

/-- A store to try things on: it holds the given bodies and a layout for each kind behind them, that
of instances with `fields` fields, and has `room` bytes left. -/
def ofBodies (bodies : List Body) (fields room : Nat) : Store :=
  let layouts := Kind.all.map fun kind => Body.layout
    { kind, fieldCount := if kind = .inst then fields else 0, protocol := .int 0, methods := .int 0 }
  let objects := (bodies ++ layouts).map fun b =>
    ({ header := .layout ⟨bodies.length + b.kind.tag⟩, body := b } : Object)
  let used := (objects.map fun o => Size.roundUp o.body.size).sum
  { heap := { objects := objects.toArray, space := { capacity := used + room, used }, settings := {}, stats := {} }
    roots := { Roots.unset with
      layouts := ⟨(Kind.all.map fun kind => ⟨bodies.length + kind.tag⟩).toArray, rfl⟩ } }

theorem accounted_ofBodies (bodies : List Body) (fields room : Nat) :
    (ofBodies bodies fields room).heap.Accounted :=
  ⟨rfl, Nat.le_add_right _ _⟩

theorem described_ofBodies {bodies : List Body} {fields room : Nat}
    (counted : ∀ i, .inst i ∈ bodies → i.fields.size = fields) {r : Ref} {o : Object}
    (found : (ofBodies bodies fields room).heap.object? r = some o) :
    ∃ l, o.header = .layout l ∧ (ofBodies bodies fields room).heap.Describes l o.body := by
  have member := Array.mem_of_getElem? found
  simp only [ofBodies, List.mem_toArray, List.mem_map] at member
  obtain ⟨b, member, rfl⟩ := member
  let layout : Layout :=
    { kind := b.kind, fieldCount := if b.kind = .inst then fields else 0, protocol := .int 0, methods := .int 0 }
  refine ⟨_, rfl, layout, ?_, rfl, ?_⟩
  · have isKind : Kind.all[b.kind.tag]? = some b.kind := Kind.ofTag?_tag b.kind
    simp [Heap.view?, Heap.bodyOf?, Heap.object?, ofBodies, List.getElem?_append_right, isKind, HeapKind.view?,
      layout]
  · rintro i rfl
    exact counted i (by simpa using member)

end Store

end ObjectMachine
