/-
# ObjectMachine.Proofs.Moving -- a machine after a collection

A collection may copy several times, each time into a larger space. `Heap.Carried h outside place
h'` is what all copies together achieve, and it composes (`Heap.Carried.trans`). Everything the
frames know about their lambdas holds of the copies, too, so a sound machine is sound after a
collection (`Machine.Carried.sound`).

* `Heap.collectInto_carries` -- a collection carries everything reachable along, or fails for a
  reason that is not the state of a stack.
* `Machine.ends_collect` -- the same for the machine.
-/
import Mathlib
import ObjectMachine.Proofs.Collection
import ObjectMachine.Proofs.Library

namespace ObjectMachine

open ObjectMachine.Action (Ends ends_bind)
open Value (move)

theorem Size.roundUp_mono {a b : Nat} (le : a ≤ b) : roundUp a ≤ roundUp b := by
  simp only [roundUp, word]
  omega

namespace Value

theorem move_move (p q : Ref → Ref) (v : Value) : (v.move p).move q = v.move (q ∘ p) := by
  cases v <;> rfl

/-- A value that leads to nothing or to something that is kept. -/
def Kept (kept : Ref → Prop) (v : Value) : Prop := ∀ r, v = .object r → kept r

end Value

namespace Stack

variable {s : Stack} {home target : Ref} {place : Ref → Ref} {top : Nat}

theorem status_relocated : (s.relocated place target).status = s.status := by
  unfold relocated
  split <;> rfl

theorem relocated_of_parked (place : Ref → Ref) (target : Ref) (parked : s.status = .parked)
    (top_eq : s.top = .address home top) : s.relocated place target =
      { s with words := mapBelow (top + 3) (Slot.move place target) s.words
               top := .address target top
               mode := .linked } := by
  simp [relocated, parked, top_eq]

theorem getElem?_relocated (parked : s.status = .parked)
    (top_eq : s.top = .address home top) {i : Nat} (low : i < top + 3) :
    (s.relocated place target).words[i]? = (s.words[i]?).map fun slot =>
      (slot.mapLink (Link.tighten target)).mapValue (move place) := by
  rw [relocated_of_parked place target parked top_eq, getElem?_mapBelow]
  simp only [low, if_true]
  congr 1
  funext slot
  cases slot <;> rfl

theorem mem_held (parked : s.status = .parked) (top_eq : s.top = .address home top) {i : Nat}
    {v : Value} (low : i < top + 3) (found : s.words[i]? = some (.value v)) : v ∈ s.held := by
  simp only [held, parked, top_eq, List.mem_filterMap]
  exact ⟨.value v, List.mem_iff_getElem?.mpr ⟨i, by simp [low, found]⟩, rfl⟩

theorem relocated_relocated (p q : Ref → Ref) (first second : Ref) (s : Stack) :
    (s.relocated p first).relocated q second = s.relocated (q ∘ p) second := by
  cases isStatus : s.status with
  | parked =>
    cases isTop : s.top with
    | address at_ top =>
      have moved := relocated_of_parked p first isStatus isTop
      have status : (s.relocated p first).status = .parked := status_relocated.trans isStatus
      have top_eq : (s.relocated p first).top = .address first top := by rw [moved]
      rw [relocated_of_parked q second status top_eq, relocated_of_parked (q ∘ p) second isStatus isTop,
        moved]
      simp only [mapBelow_mapBelow]
      congr 2
      funext slot
      cases slot with
      | value v => exact congrArg Slot.value (Value.move_move p q v)
      | link l => cases l <;> rfl
    | _ => simp [relocated, isStatus, isTop]
  | _ => simp [relocated, isStatus]

theorem held_relocated : (s.relocated place target).held = s.held.map (move place) := by
  cases isStatus : s.status with
  | parked =>
    cases isTop : s.top with
    | address at_ top =>
      rw [relocated_of_parked place target isStatus isTop]
      simp only [held, isStatus, isTop]
      have moved : (mapBelow (top + 3) (Slot.move place target) s.words).toList.take (top + 3) =
          (s.words.toList.take (top + 3)).map (Slot.move place target) := by
        apply List.ext_getElem?
        intro i
        rw [List.getElem?_map, List.getElem?_take, List.getElem?_take, Array.getElem?_toList,
          Array.getElem?_toList, getElem?_mapBelow]
        by_cases low : i < top + 3 <;> simp [low]
      rw [moved, List.filterMap_map, List.map_filterMap]
      congr 1
      funext slot
      cases slot <;> rfl
    | _ => simp [held, relocated, isStatus, isTop]
  | _ => simp [held, relocated, isStatus]

theorem ParkedAt.relocated (parked : s.ParkedAt home top) :
    (s.relocated place target).ParkedAt target top := by
  have moved := relocated_of_parked place target parked.status parked.top_eq
  refine ⟨by rw [status_relocated, parked.status], by rw [moved], by rw [moved], ?_⟩
  exact parked.frames.map (f := Link.tighten target) (g := move place) (fun _ => rfl) rfl
    (fun _ => rfl) fun i low => getElem?_relocated parked.status parked.top_eq low

end Stack

namespace Body

theorem relocated_relocated (p q : Ref → Ref) (first second : Ref) (b : Body) :
    (b.relocated p first).relocated q second = b.relocated (q ∘ p) second := by
  cases b with
  | stack s => exact congrArg Body.stack (Stack.relocated_relocated p q first second s)
  | _ => simp [relocated, mapFields, refill, fields, Value.move_move]

theorem held_relocated (place : Ref → Ref) (target : Ref) (b : Body) :
    (b.relocated place target).held = b.held.map (move place) := by
  cases isBody : b with
  | stack s => exact Stack.held_relocated
  | _ =>
    have moved := fields_mapFields (move place) (b := b) (by simp [isBody, kind])
    simpa [isBody, held, relocated, mapFields, refill] using moved

theorem Settled.relocated {home target : Ref} {place : Ref → Ref} {b : Body}
    (settled : b.Settled home) : (b.relocated place target).Settled target := by
  cases b with
  | stack s =>
    rintro _ ⟨⟩
    obtain empty | ⟨top, parked⟩ := settled s rfl
    · exact .inl (by rw [Stack.status_relocated, empty])
    · exact .inr ⟨top, parked.relocated⟩
  | _ =>
    intro s isStack
    have kind := congrArg kind isStack
    rw [kind_relocated] at kind
    cases kind

end Body

namespace Object

variable {place : Ref → Ref} {target : Ref} {o : Object}

theorem Mentions.relocated {r : Ref} (mentions : o.Mentions r) :
    (o.relocated place target).Mentions (place r) := by
  rcases mentions with header | held
  · exact .inl (by simp [Object.relocated, header, Header.move])
  · refine .inr ?_
    rw [Object.relocated, Body.held_relocated]
    exact List.mem_map.mpr ⟨_, held, rfl⟩

theorem relocated_relocated (p q : Ref → Ref) (first second : Ref) (o : Object) :
    (o.relocated p first).relocated q second = o.relocated (q ∘ p) second := by
  obtain ⟨header, body⟩ := o
  simp only [relocated, Body.relocated_relocated]
  cases header <;> rfl

end Object

namespace References

variable {place : Ref → Ref} {r : References}

theorem slot_of_map {r' : References} (slots : r'.slots = r.slots.map (Value.move place))
    (index : Nat) : r'.slot index = (r.slot index).move place := by
  simp only [slot, slots, Array.getD_eq_getD_getElem?, Array.getElem?_map]
  cases r.slots[index]? <;> rfl

theorem slot_move (index : Nat) : (r.move place).slot index = (r.slot index).move place :=
  slot_of_map rfl index

theorem mem_slots_of_slot {index : Nat} {s : Ref} (found : r.slot index = .object s) :
    .object s ∈ r.slots.toList := by
  simp only [slot, Array.getD_eq_getD_getElem?] at found
  cases inSlots : r.slots[index]? with
  | none => simp [inSlots] at found
  | some v =>
    obtain rfl : v = .object s := by simpa [inSlots] using found
    exact Array.mem_toList_iff.mpr (Array.mem_of_getElem? inSlots)

theorem startsAt_slot {index : Nat} {s : Ref} (found : r.slot index = .object s) : r.StartsAt s :=
  .inl (mem_slots_of_slot found)

theorem WellRegistered.move (registered : r.WellRegistered) : (r.move place).WellRegistered := by
  intro i handle found
  obtain ⟨record, isRecord, index⟩ := registered i handle found
  simp only [References.move, Array.getElem?_mapIdx, isRecord, Option.map_some]
  by_cases member : (⟨handle.number⟩ : Handle) ∈ r.registry.toList
  · exact ⟨{ record with value := record.value.move place }, by rw [if_pos member], index⟩
  · exact ⟨record, by rw [if_neg member], index⟩

theorem StartsAt.move {s : Ref} (registered : r.WellRegistered) (starts : r.StartsAt s) :
    (r.move place).StartsAt (place s) := by
  rcases starts with member | ⟨handle, member, isValue⟩
  · refine .inl ?_
    simp only [References.move, Array.toList_map, List.mem_map]
    exact ⟨_, member, rfl⟩
  · refine .inr ⟨handle, member, ?_⟩
    obtain ⟨i, atIndex⟩ := List.mem_iff_getElem?.mp member
    obtain ⟨record, isRecord, -⟩ := registered i handle (by simpa using atIndex)
    have isRegistered : (⟨handle.number⟩ : Handle) ∈ r.registry := Array.mem_toList_iff.mp member
    simp only [value, Array.getD_eq_getD_getElem?, isRecord, Option.getD_some] at isValue
    simp [value, References.move, isRecord, isRegistered, isValue]

end References

theorem Machine.moveOutside_moveOutside (p q : Ref → Ref) (outside : Roots × References) :
    moveOutside q (moveOutside p outside) = moveOutside (q ∘ p) outside := by
  obtain ⟨roots, references⟩ := outside
  have layouts : (roots.layouts.map p).map q = roots.layouts.map (q ∘ p) := Vector.map_map
  have slots : (references.slots.map (move p)).map (move q) = references.slots.map (move (q ∘ p)) := by
    rw [Array.map_map]
    congr 1
    funext v
    exact Value.move_move p q v
  have records : (references.move p).move q = references.move (q ∘ p) := by
    simp only [References.move, slots, References.mk.injEq, and_true, true_and]
    apply Array.ext_getElem?
    intro i
    simp only [Array.getElem?_mapIdx, Option.map_map]
    congr 1
    funext record
    by_cases member : (⟨i⟩ : Handle) ∈ references.registry.toList <;>
      simp only [Function.comp, member, if_true, if_false, Value.move_move]
  simp only [moveOutside, records, Roots.move, layouts]
  rfl

theorem Roots.layout_move (roots : Roots) (place : Ref → Ref) (kind : Kind) :
    (roots.move place).layout kind = place (roots.layout kind) := by
  have inside := kind.tag_lt
  show (roots.layouts.map place)[kind.tag] = place roots.layouts[kind.tag]
  rw [Vector.getElem_map]

theorem Roots.layout_mem_refs (roots : Roots) (kind : Kind) : roots.layout kind ∈ roots.refs :=
  List.mem_append_left _ (Vector.mem_toList_iff.mpr (Vector.getElem_mem _))

theorem Roots.mem_refs_move {roots : Roots} {place : Ref → Ref} {r : Ref}
    (isRoot : r ∈ roots.refs) : place r ∈ (roots.move place).refs := by
  simp only [Roots.refs, Roots.move, Roots.others] at isRoot ⊢
  rcases List.mem_append.mp isRoot with isLayout | other
  · refine List.mem_append_left _ ?_
    rw [Vector.toList_map]
    exact List.mem_map_of_mem isLayout
  · exact List.mem_append_right _ (List.mem_map_of_mem (f := place) other)

theorem Machine.StartsAt.move {outside : Roots × References} {place : Ref → Ref} {r : Ref}
    (registered : outside.2.WellRegistered) (starts : StartsAt outside r) :
    StartsAt (moveOutside place outside) (place r) := by
  rcases starts with isRoot | isReference
  · exact .inl (Roots.mem_refs_move isRoot)
  · exact .inr (isReference.move registered)

namespace Heap

/-- Everything that can be reached from outside is in `h'`, and nothing else is: each object at the
place `place` gives it and with everything it refers to moved along. -/
structure Carried (h : Heap) (outside : Roots × References) (place : Ref → Ref) (h' : Heap) :
    Prop where
  there : ∀ r, h.Reachable (Machine.StartsAt outside) r → ∃ o, h.object? r = some o
  bijection : Set.BijOn place {r | h.Reachable (Machine.StartsAt outside) r}
    {r | r.position < h'.objects.size}
  object : ∀ r o, h.Reachable (Machine.StartsAt outside) r → h.object? r = some o →
    h'.object? (place r) = some (o.relocated place (place r))

/-- A value leads to something that can be reached from outside, if it leads to an object at all. -/
def Live (h : Heap) (outside : Roots × References) (v : Value) : Prop :=
  v.Kept (h.Reachable (Machine.StartsAt outside))

section Carried

variable {h h' h'' : Heap} {outside : Roots × References} {place more : Ref → Ref} {v : Value}

theorem Live.held {b : Body} (live : h.Live outside v) (found : h.bodyOf? v = some b) {w : Value}
    (held : w ∈ b.held) : h.Live outside w := by
  obtain ⟨r, o, rfl, isObject, rfl⟩ := bodyOf?_eq_some.mp found
  rintro s rfl
  exact .edge (live r rfl) isObject (.inr held)

namespace Carried

theorem reach (carried : h.Carried outside place h') (registered : outside.2.WellRegistered)
    {r : Ref} (reached : h.Reachable (Machine.StartsAt outside) r) :
    h'.Reachable (Machine.StartsAt (Machine.moveOutside place outside)) (place r) := by
  induction reached with
  | root isRoot => exact .root (isRoot.move registered)
  | edge reached found mentioned ih =>
    exact .edge ih (carried.object _ _ reached found) mentioned.relocated

theorem trans (first : h.Carried outside place h') (registered : outside.2.WellRegistered)
    (second : h'.Carried (Machine.moveOutside place outside) more h'') :
    h.Carried outside (more ∘ place) h'' where
  there := first.there
  bijection := by
    have reach : ∀ r, h.Reachable (Machine.StartsAt outside) r →
        h'.Reachable (Machine.StartsAt (Machine.moveOutside place outside)) (place r) :=
      fun r reached => first.reach registered reached
    refine ⟨fun r reached => second.bijection.mapsTo (reach r reached), ?_, ?_⟩
    · intro r reached s reached' same
      exact first.bijection.injOn reached reached'
        (second.bijection.injOn (reach r reached) (reach s reached') same)
    · intro r inside
      obtain ⟨middle, reached, rfl⟩ := second.bijection.surjOn inside
      obtain ⟨o, found⟩ := second.there middle reached
      obtain ⟨r, reached', rfl⟩ := first.bijection.surjOn
        (show middle.position < h'.objects.size from (Array.getElem?_eq_some_iff.mp found).1)
      exact ⟨r, reached', rfl⟩
  object := by
    intro r o reached found
    have moved := second.object _ _ (first.reach registered reached) (first.object r o reached found)
    rwa [Object.relocated_relocated] at moved

variable (carried : h.Carried outside place h')
include carried

/-- Every object of the new heap is the copy of one that can be reached. -/
theorem source {r' : Ref} {o' : Object} (found' : h'.object? r' = some o') :
    ∃ r o, h.Reachable (Machine.StartsAt outside) r ∧ h.object? r = some o ∧ r' = place r ∧
      o' = o.relocated place (place r) := by
  obtain ⟨r, reached, rfl⟩ := carried.bijection.surjOn
    (show r'.position < h'.objects.size from (Array.getElem?_eq_some_iff.mp found').1)
  obtain ⟨o, found⟩ := carried.there r reached
  rw [carried.object r o reached found] at found'
  exact ⟨r, o, reached, found, rfl, (Option.some.inj found').symm⟩

theorem body (live : h.Live outside v) {b : Body} (found : h.bodyOf? v = some b) :
    ∃ r, v = .object r ∧ h'.bodyOf? (v.move place) = some (b.relocated place (place r)) := by
  obtain ⟨r, o, rfl, isObject, rfl⟩ := bodyOf?_eq_some.mp found
  exact ⟨r, rfl, bodyOf?_eq_some.mpr ⟨_, _, rfl, carried.object r o (live r rfl) isObject, rfl⟩⟩

theorem view_layout (live : h.Live outside v) {l : Layout} (found : h.view? Layout v = some l) :
    ∃ l', h'.view? Layout (v.move place) = some l' ∧ l'.kind = l.kind ∧
      l'.fieldCount = l.fieldCount := by
  obtain ⟨r, -, found'⟩ := carried.body live (view?_eq_some.mp found)
  exact ⟨_, view?_eq_some.mpr found', rfl, rfl⟩

theorem view_lambda (live : h.Live outside v) {l : Lambda} (found : h.view? Lambda v = some l) :
    ∃ l', h'.view? Lambda (v.move place) = some l' ∧ l'.code = l.code.move place ∧
      l'.constants = l.constants.move place ∧ l'.maxHeight = l.maxHeight := by
  obtain ⟨r, -, found'⟩ := carried.body live (view?_eq_some.mp found)
  exact ⟨_, view?_eq_some.mpr found', rfl, rfl, rfl⟩

theorem view_code (live : h.Live outside v) {c : Code} (found : h.view? Code v = some c) :
    h'.view? Code (v.move place) = some c := by
  obtain ⟨r, -, found'⟩ := carried.body live (view?_eq_some.mp found)
  exact view?_eq_some.mpr found'

theorem is_code_iff (live : h.Live outside v) :
    h'.is Code (v.move place) = true ↔ h.is Code v = true := by
  constructor
  · intro isCode
    obtain ⟨c, found'⟩ := is_iff.mp isCode
    obtain ⟨q, o', isRef, isObject', isBody'⟩ := view?_iff.mp found'
    cases v with
    | object r =>
      cases isRef
      obtain ⟨o, isObject⟩ := carried.there r (live r rfl)
      cases (carried.object r o (live r rfl) isObject).symm.trans isObject'
      have isCode : o.body = .code c := by
        cases isBody : o.body <;> simp only [Object.relocated, isBody] at isBody' <;> cases isBody'
        rfl
      exact is_iff.mpr ⟨c, view?_iff.mpr ⟨r, o, rfl, isObject, isCode⟩⟩
    | _ => cases isRef
  · intro isCode
    obtain ⟨c, found⟩ := is_iff.mp isCode
    exact is_iff.mpr ⟨c, carried.view_code live found⟩

theorem view_task (live : h.Live outside v) {t : Task} (found : h.view? Task v = some t) :
    ∃ t', h'.view? Task (v.move place) = some t' ∧ t'.stack = t.stack.move place := by
  obtain ⟨r, -, found'⟩ := carried.body live (view?_eq_some.mp found)
  exact ⟨_, view?_eq_some.mpr found', rfl⟩

theorem view_tuple (live : h.Live outside v) {t : Tuple} (found : h.view? Tuple v = some t) :
    h'.view? Tuple (v.move place) = some ⟨t.elements.map (move place)⟩ := by
  obtain ⟨r, -, found'⟩ := carried.body live (view?_eq_some.mp found)
  rw [view?_eq_some, found']
  simp only [HeapKind.wrap, Body.relocated, Body.mapFields, Body.refill, Body.fields]
  rw [← Array.toList_map, Array.toArray_toList]

theorem is_lambda (live : h.Live outside v) (isLambda : h.is Lambda v = true) :
    h'.is Lambda (v.move place) = true := by
  obtain ⟨l, found⟩ := is_iff.mp isLambda
  obtain ⟨l', found', -⟩ := carried.view_lambda live found
  exact is_iff.mpr ⟨l', found'⟩

theorem fieldCountsIn {pool : Array Value} (live : ∀ v ∈ pool, h.Live outside v) (index : UInt16)
    (count : Nat) (known : h.fieldCountsIn pool index = some count) :
    h'.fieldCountsIn (pool.map (move place)) index = some count := by
  obtain ⟨v, isConstant, known⟩ := Option.bind_eq_some_iff.mp known
  obtain ⟨l, isLayout, rfl⟩ := Option.map_eq_some_iff.mp known
  obtain ⟨l', isLayout', -, same⟩ := carried.view_layout (live v (Array.mem_of_getElem? isConstant)) isLayout
  simp [Heap.fieldCountsIn, isConstant, fieldCount?, isLayout', same]

theorem fieldCounts {constants : Value} (live : h.Live outside constants)
    (index : UInt16) (count : Nat) (known : h.fieldCounts constants index = some count) :
    h'.fieldCounts (constants.move place) index = some count := by
  obtain ⟨t, isTuple, known⟩ := Option.bind_eq_some_iff.mp known
  have elements : ∀ v ∈ t.elements, h.Live outside v := fun v member =>
    live.held (view?_eq_some.mp isTuple) (Array.mem_toList_iff.mpr member)
  simp [Heap.fieldCounts, carried.view_tuple live isTuple, carried.fieldCountsIn elements _ _ known]

theorem runs (live : h.Live outside v) {l : Lambda} {c : Code} {pc height : Nat}
    (runs : h.Runs v l c pc height) :
    ∃ l', h'.Runs (v.move place) l' c pc height ∧ l'.maxHeight = l.maxHeight := by
  obtain ⟨l', found', code, constants, declared⟩ := carried.view_lambda live runs.lambda
  have holds : ∀ w ∈ [l.code, l.constants, l.outers, l.context, l.source], h.Live outside w :=
    fun w member => live.held (view?_eq_some.mp runs.lambda) member
  have more := carried.fieldCounts (holds l.constants (by simp))
  refine ⟨l', ⟨found', ?_, ?_, ?_⟩, declared⟩
  · rw [code]
    exact carried.view_code (holds l.code (by simp)) runs.code
  · rw [constants, declared]
    exact runs.disciplined.mono more
  · rw [constants]
    exact (runs.disciplined.heightAt_iff more).mpr runs.path

theorem parked {r : Ref}
    {s : Stack} {least : Nat} (reached : h.Reachable (Machine.StartsAt outside) r)
    (found : h.bodyOf? (.object r) = some (.stack s)) (parked : h.Parked r least s) :
    h'.Parked (place r) least (s.relocated place (place r)) := by
  obtain ⟨top, frame, v, counter, parked⟩ := parked
  have live : h.Live outside (.object r) := by
    rintro _ ⟨⟩
    exact reached
  have holds : ∀ i w, i < top + 3 → s.words[i]? = some (.value w) → h.Live outside w :=
    fun i w low isValue => live.held found (Stack.mem_held parked.status parked.top_eq low isValue)
  have moved : ∀ i, i < top + 3 → (s.relocated place (place r)).words[i]? = _ :=
    fun i low => Stack.getElem?_relocated parked.status parked.top_eq low
  have shape := Stack.relocated_of_parked place (place r) parked.status parked.top_eq
  refine ⟨top, frame, v.move place, counter, ?_, ?_, ?_, ?_, ?_, parked.operands, ?_⟩
  · rw [Stack.status_relocated, parked.status]
  · rw [shape]
  · rw [shape]
  · exact parked.parking.map (f := Link.tighten (place r)) (fun _ => rfl) fun i _ low => moved i low
  · exact carried.is_lambda (holds (top + 2) v (by omega) parked.parking.lambda) parked.isLambda
  · rw [Stack.height_relocated]
    exact parked.chain.carry (f := Link.tighten (place r)) (g := move place) (fun _ => rfl) rfl
      (fun _ => rfl) (fun i low => moved i (by omega))
      (fun i w low isValue => carried.is_lambda (holds i w (by omega) isValue))
      (fun i w _ _ _ _ low isValue => carried.runs (holds i w (by omega) isValue)) le_rfl

theorem describes {layout target : Ref} {b : Body}
    (live : h.Live outside (.object layout)) (described : h.Describes layout b) :
    h'.Describes (place layout) (b.relocated place target) := by
  obtain ⟨l, isLayout, kind, count⟩ := described
  obtain ⟨l', isLayout', kind', count'⟩ := carried.view_layout live isLayout
  refine ⟨l', isLayout', by rw [kind', kind, Body.kind_relocated], fun i' isInstance' => ?_⟩
  have kind := Body.kind_relocated place target b
  have size := Body.size_relocated place target b
  rw [isInstance'] at kind size
  cases isInstance : b with
  | inst i =>
    rw [isInstance] at size
    simp only [Body.size] at size
    rw [count', ← count i isInstance]
    omega
  | _ => rw [isInstance] at kind; cases kind

theorem described {r : Ref} {o : Object} (reached : h.Reachable (Machine.StartsAt outside) r)
    (found : h.object? r = some o) (described : ∃ l, o.header = .layout l ∧ h.Describes l o.body) :
    ∃ l, (o.relocated place (place r)).header = .layout l ∧
      h'.Describes l (o.relocated place (place r)).body := by
  obtain ⟨l, header, described⟩ := described
  have live : h.Live outside (.object l) := by
    rintro _ ⟨⟩
    exact .edge reached found (.inl header)
  exact ⟨place l, by simp [Object.relocated, header, Header.move], carried.describes live described⟩

theorem lambdaSound {l l' : Lambda} (sound : h.LambdaSound l)
    (holds : ∀ w ∈ [l.code, l.constants, l.outers, l.context, l.source], h.Live outside w)
    (moved : Body.lambda l' = (Body.lambda l).mapFields (move place)) : h'.LambdaSound l' := by
  obtain ⟨code, constants, declared⟩ : l'.code = l.code.move place ∧
      l'.constants = l.constants.move place ∧ l'.maxHeight = l.maxHeight := by
    cases moved
    exact ⟨rfl, rfl, rfl⟩
  -- the object of the new heap that the code has gone to
  have source : ∀ q, l'.code = .object q → ∃ p target, l.code = .object p ∧
      h.object? p = some target ∧ h'.object? q = some (target.relocated place q) := by
    intro q isCode
    rw [code] at isCode
    cases isRef : l.code with
    | object p =>
      rw [isRef] at isCode
      cases isCode
      have reached : h.Reachable (Machine.StartsAt outside) p := holds l.code (by simp) p isRef
      obtain ⟨target, isTarget⟩ := carried.there p reached
      exact ⟨p, target, rfl, isTarget, carried.object p target reached isTarget⟩
    | _ => rw [isRef] at isCode; cases isCode
  refine ⟨fun q isCode => ?_, fun c isCode => ?_⟩
  · obtain ⟨_, _, -, -, found⟩ := source q isCode
    exact ⟨_, found⟩
  · obtain ⟨q, o', isRef, isObject', isBody'⟩ := view?_iff.mp isCode
    obtain ⟨p, target, isRef', isTarget, moved⟩ := source q isRef
    rw [isObject'] at moved
    cases moved
    have isOld : target.body = .code c := by
      cases isBody : target.body <;> simp only [Object.relocated, isBody] at isBody' <;> cases isBody'
      rfl
    have found : h.view? Code l.code = some c := view?_iff.mpr ⟨p, target, isRef', isTarget, isOld⟩
    rw [constants, declared]
    exact (sound.disciplined c found).mono (carried.fieldCounts (holds l.constants (by simp)))

/-- What is at rest stays at rest. -/
theorem sound {busy : Ref → Prop} (sound : h.Sound busy) (accounted : h'.Accounted)
    (addressable : h'.capacity < Space.addressLimit) :
    h'.Sound fun r' => ∃ r, busy r ∧ h.Reachable (Machine.StartsAt outside) r ∧ place r = r' := by
  refine ⟨accounted, addressable, fun r' o' found' => ?_⟩
  obtain ⟨r, o, reached, found, rfl, rfl⟩ := carried.source found'
  have old := sound.objects r o found
  have live : h.Live outside (.object r) := by
    rintro _ ⟨⟩
    exact reached
  have isBody : h.bodyOf? (.object r) = some o.body := bodyOf?_eq_some.mpr ⟨r, o, rfl, found, rfl⟩
  have kind := Body.kind_relocated place (place r) o.body
  refine ⟨?_, fun l' isLambda' => ?_, fun s' isStack' idle => ?_⟩
  · exact carried.described reached found old.described
  · have moved : Body.lambda l' = o.body.relocated place (place r) := isLambda'.symm
    rw [← moved] at kind
    cases isLambda : o.body with
    | lambda l =>
      rw [isLambda] at moved
      exact carried.lambdaSound (old.lambda l isLambda)
        (fun w member => live.held isBody (isLambda ▸ member)) moved
    | _ => rw [isLambda] at kind; cases kind
  · have moved : Body.stack s' = o.body.relocated place (place r) := isStack'.symm
    rw [← moved] at kind
    cases isStack : o.body with
    | stack s =>
      rw [isStack] at moved
      cases moved
      obtain empty | parked := old.stack s isStack fun isBusy => idle ⟨r, isBusy, reached, rfl⟩
      · exact .inl (Stack.status_relocated.trans empty)
      · exact .inr (carried.parked reached (isStack ▸ isBody) parked)
    | _ => rw [isStack] at kind; cases kind

end Carried

end Carried

section Collecting

variable {h : Heap} {outside : Roots × References}

theorem Sound.collectable {busy : Ref → Prop} (sound : h.Sound busy) (start : Ref → Prop)
    (settled : ∀ r s, busy r → h.bodyOf? (.object r) = some (.stack s) → (Body.stack s).Settled r) :
    h.Collectable start where
  accounted := sound.accounted
  described r o _ found := (sound.objects r o found).described
  settled := by
    rintro r o - found s isStack
    by_cases isBusy : busy r
    · exact settled r s isBusy (bodyOf?_eq_some.mpr ⟨r, o, rfl, found, isStack⟩) s rfl
    · exact ((sound.objects r o found).stack s isStack isBusy).settled s rfl

theorem Carried.collectable {h' : Heap} {place : Ref → Ref} (carried : h.Carried outside place h')
    (collectable : h.Collectable (Machine.StartsAt outside)) (accounted : h'.Accounted)
    (start : Ref → Prop) : h'.Collectable start := by
  refine ⟨accounted, fun r' o' _ found' => ?_, fun r' o' _ found' => ?_⟩
  all_goals obtain ⟨r, o, reached, found, rfl, rfl⟩ := carried.source found'
  · exact carried.described reached found (collectable.described r o reached found)
  · exact (collectable.settled r o reached found).relocated

/-- A collection carries everything reachable along, however often it has to start over, or fails
for a reason that is not the state of a stack. -/
theorem collectInto_carries (h : Heap)
    (outside : Roots × References) (pending maxSize capacity : Nat)
    (registered : outside.2.WellRegistered) (collectable : h.Collectable (Machine.StartsAt outside))
    (large : h.used ≤ Size.roundUp capacity) :
    (∃ place h', (h.collectInto Machine.migrateRoots pending maxSize capacity outside).outcome =
      .ok (Machine.moveOutside place outside, h') ∧ h.Carried outside place h' ∧
      h'.Accounted ∧ h'.capacity < Space.addressLimit ∧ h'.settings = h.settings) ∨
      ∃ violation, (h.collectInto Machine.migrateRoots pending maxSize capacity outside).outcome =
      .error violation ∧ violation.isMistimed = false := by
  by_cases addressable : Size.roundUp capacity < Space.addressLimit
  case neg =>
    right
    unfold collectInto
    simp [copyLive, Space.create, addressable, bind, Except.bind]
  obtain ⟨place, h', copied, image, accounted, capacity_eq, settings, closed⟩ | ⟨failed, -⟩ :=
    copyLive_migrateRoots registered collectable large addressable
  case inr =>
    right
    unfold collectInto
    rw [failed]
    exact ⟨_, rfl, rfl⟩
  have carried : h.Carried outside place h' := by
    refine ⟨fun r reached => ?_, image.bijection, image.object⟩
    cases found : h.object? r with
    | none => exact absurd ⟨r, reached, found⟩ closed
    | some o => exact ⟨o, rfl⟩
  have calmWants : Calm (h'.wantsRoom capacity pending) := by simp [wantsRoom]
  unfold collectInto
  rw [copied]
  simp only
  cases wants : h'.wantsRoom capacity pending with
  | error violation => exact .inr ⟨violation, rfl, calmWants violation wants⟩
  | ok small =>
    simp only
    split
    · rename_i room
      split
      · rename_i violation failed
        have calm : Calm (nextCapacity h'.used pending capacity maxSize) := by simp [nextCapacity]
        exact .inr ⟨violation, rfl, calm violation failed⟩
      · rename_i next isNext
        have grows := nextCapacity_gt room.1 isNext
        have fits : h'.used ≤ Size.roundUp next := by
          have := accounted.fits
          rw [capacity_eq] at this
          exact this.trans (Size.roundUp_mono grows.1.le)
        obtain ⟨more, h'', collected, carried', rest⟩ | failed :=
          collectInto_carries h' (Machine.moveOutside place outside) pending maxSize next
            registered.move (carried.collectable collectable accounted _) fits
        · refine .inl ⟨more ∘ place, h'', ?_, carried.trans registered carried', ?_⟩
          · rw [collected, Machine.moveOutside_moveOutside]
          · rwa [settings] at rest
        · exact .inr failed
    · exact .inl ⟨place, h', rfl, carried, accounted, capacity_eq ▸ addressable, settings⟩
termination_by maxSize - capacity
decreasing_by omega

end Collecting

end Heap

namespace Machine

variable {ε : Type} {m m' : Machine} {place : Ref → Ref}

/-- What the machine refers to from outside its heap. -/
def outside (m : Machine) : Roots × References := (m.store.roots, m.references)

/-- The machine after a collection that has moved objects where `place` says. -/
structure Carried (m : Machine) (place : Ref → Ref) (m' : Machine) : Prop where
  heap : m.store.heap.Carried m.outside place m'.store.heap
  accounted : m'.store.heap.Accounted
  addressable : m'.store.heap.capacity < Space.addressLimit
  outside : m'.outside = moveOutside place m.outside
  heapSettings : m'.store.heap.settings = m.store.heap.settings
  settings : m'.settings = m.settings
  compiler : m'.compiler = m.compiler
  output : m'.output = m.output

namespace Carried

theorem roots (carried : m.Carried place m') : m'.store.roots = m.store.roots.move place :=
  congrArg Prod.fst carried.outside

theorem references (carried : m.Carried place m') : m'.references = m.references.move place :=
  congrArg Prod.snd carried.outside

theorem layout (carried : m.Carried place m') (kind : Kind) :
    m'.store.roots.layout kind = place (m.store.roots.layout kind) := by
  rw [carried.roots, Roots.layout_move]

theorem live_layout (kind : Kind) :
    m.store.heap.Live m.outside (.object (m.store.roots.layout kind)) := by
  rintro _ ⟨⟩
  exact .root (.inl (Roots.layout_mem_refs _ kind))

theorem live_slot (index : Nat) : m.store.heap.Live m.outside (m.references.slot index) :=
  fun _ found => .root (.inr (References.startsAt_slot found))

theorem slot (carried : m.Carried place m') (index : Nat) :
    m'.references.slot index = (m.references.slot index).move place := by
  rw [carried.references, References.slot_move]

theorem layouts (carried : m.Carried place m') {kind : Kind} (isLayout : ∃ l,
      m.store.heap.view? Layout (.object (m.store.roots.layout kind)) = some l ∧ l.kind = kind) :
    ∃ l, m'.store.heap.view? Layout (.object (m'.store.roots.layout kind)) = some l ∧
      l.kind = kind := by
  obtain ⟨l, found, isKind⟩ := isLayout
  obtain ⟨l', found', kind', -⟩ := carried.heap.view_layout (live_layout kind) found
  exact ⟨l', by rw [carried.layout]; exact found', kind'.trans isKind⟩

theorem sound {busy : Ref → Prop} (carried : m.Carried place m') (sound : m.store.Sound busy) :
    m'.store.Sound fun r' => ∃ r, busy r ∧ m.store.heap.Reachable (StartsAt m.outside) r ∧
      place r = r' where
  heap := carried.heap.sound sound.heap carried.accounted carried.addressable
  layouts kind := carried.layouts (sound.layouts kind)

end Carried

theorem reports_ok {level : LogLevel} {message : Nat → String} (list : List Nat) (m : Machine) :
    ∃ log, (list.forM fun n => report level fun _ => message n : Op ε Unit) m = .ok () { m with log } := by
  induction list generalizing m with
  | nil => exact ⟨m.log, rfl⟩
  | cons n list ih => exact ih { m with log := m.log.add level fun _ => message n }

theorem ends_reports {level : LogLevel} {message : Nat → String} (list : List Nat) :
    Ends (list.forM fun n => report level fun _ => message n : Op ε Unit) m
      (fun _ m' => ∃ log, m' = { m with log }) fun _ _ => False := by
  obtain ⟨log, done⟩ := reports_ok list m
  unfold Ends
  rw [done]
  exact ⟨log, rfl⟩

theorem ends_collect (pending : Nat) (registered : m.references.WellRegistered)
    (collectable : m.store.heap.Collectable (StartsAt m.outside)) :
    Ends (collect pending : Op ε Unit) m (fun _ m' => ∃ place, m.Carried place m') fun _ _ =>
      False := by
  have large : m.store.heap.used ≤ Size.roundUp m.store.heap.capacity :=
    collectable.accounted.fits.trans (Size.roundUp_ge _)
  have collected := m.store.heap.collectInto_carries m.outside pending m.store.heap.settings.maxSize
    m.store.heap.capacity registered collectable large
  unfold collect
  rw [ends_bind, ends_ask]
  simp only
  rw [ends_bind, ends_report, ends_bind, ends_ask]
  simp only
  refine (ends_reports _).bind ?_
  rintro - _ ⟨log, rfl⟩
  rw [ends_bind]
  have calm : Calm (m.store.heap.collect migrateRoots pending (m.store.roots, m.references)).outcome := by
    intro violation failed
    obtain ⟨place, h', outcome, -⟩ | ⟨violation', outcome, calm⟩ := collected
    · exact absurd (failed.symm.trans outcome) (by simp)
    · obtain rfl : violation = violation' := Except.error.inj (failed.symm.trans outcome)
      exact calm
  refine Action.ends_check calm fun answer found => ?_
  obtain ⟨place, h', outcome, carried, accounted, addressable, settings⟩ | ⟨_, outcome, -⟩ := collected
  · obtain rfl : answer = (moveOutside place m.outside, h') := Except.ok.inj (found.symm.trans outcome)
    exact ⟨place, carried, accounted, addressable, rfl, settings, rfl, rfl, rfl⟩
  · exact absurd (found.symm.trans outcome) (by simp)

end Machine

end ObjectMachine
