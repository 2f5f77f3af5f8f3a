/-
# ObjectMachine.Proofs.Hauling -- what every successful collection keeps

Whatever the stacks of a heap look like, a collection that succeeds has copied objects one by one:
each copy has the kind and the size of its object, refers to the copies of what its object referred
to, and a stack is as far as it was (`Heap.Hauled`). Frames may be in any disorder; only headers
have to lead to layouts.

The invariant is `Transfer.Copied` for a plan that asks nothing of stacks and lets any violation
stop the work (`Heap.roughPlan`).

* `Transfer.finishes_roughPlan` -- scanning leaves finished copies.
* `Heap.collectInto_hauls` -- so does a collection, however often it has to start over.
-/
import Mathlib
import ObjectMachine.Proofs.Moving

namespace ObjectMachine

open Transfer (placeIn placeIn_append)

namespace Stack

variable {s s' : Stack}

/-- What is sure of the copy of a stack: it is as high as it was and as far as it was. -/
structure Towed (s s' : Stack) : Prop where
  height : s'.height = s.height
  status : s'.status = s.status

theorem Towed.trans {s'' : Stack} (first : s.Towed s') (second : s'.Towed s'') : s.Towed s'' :=
  ⟨second.height.trans first.height, second.status.trans first.status⟩

end Stack

namespace Body

/-- What is sure of the copy of a body: anything but a stack has got the copies of what it held. -/
def Towed (place : Ref → Ref) : Body → Body → Prop
  | stack s, b' => ∃ s', b' = stack s' ∧ s.Towed s'
  | b, b' => b' = b.mapFields (Value.move place)

/-- What the copy of a body has to refer to. The frames of a stack are left out. -/
def lasting : Body → List Value
  | stack _ => []
  | b => b.fields

variable {place place' : Ref → Ref} {b b' : Body}

theorem Towed.kind (towed : b.Towed place b') : b'.kind = b.kind := by
  cases b with
  | stack s =>
    obtain ⟨s', rfl, -⟩ := towed
    rfl
  | _ =>
    cases towed
    exact kind_mapFields _ _

theorem Towed.size (towed : b.Towed place b') : b'.size = b.size := by
  cases b with
  | stack s =>
    obtain ⟨s', rfl, towed⟩ := towed
    simp [Body.size, towed.height]
  | _ =>
    cases towed
    exact size_mapFields _ _

theorem Towed.congr (towed : b.Towed place b')
    (same : ∀ r, .object r ∈ b.lasting → place r = place' r) : b.Towed place' b' := by
  cases b with
  | stack s => exact towed
  | _ =>
    refine Eq.trans towed (mapFields_congr fun v member => Value.move_congr ?_)
    rintro r rfl
    exact same r member

theorem Towed.trans {more : Ref → Ref} {b'' : Body} (first : b.Towed place b')
    (second : b'.Towed more b'') : b.Towed (more ∘ place) b'' := by
  cases b with
  | stack s =>
    obtain ⟨s', rfl, first⟩ := first
    obtain ⟨s'', rfl, second⟩ := second
    exact ⟨s'', rfl, first.trans second⟩
  | _ =>
    cases first
    refine Eq.trans second ?_
    simp [mapFields, refill, fields, Value.move_move]

theorem lasting_of_ne (noStack : b.kind ≠ .stack) : b.lasting = b.fields := by
  cases b with
  | stack s => exact absurd rfl noStack
  | _ => rfl

theorem Towed.eq_mapFields (towed : b.Towed place b') (noStack : b.kind ≠ .stack) :
    b' = b.mapFields (Value.move place) := by
  cases b with
  | stack s => exact absurd rfl noStack
  | _ => exact towed

theorem Towed.lasting {s : Ref} (towed : b.Towed place b') (held : .object s ∈ b.lasting) :
    .object (place s) ∈ b'.lasting := by
  have noStack : b.kind ≠ .stack := by
    intro isStack
    cases b with
    | stack st => cases held
    | _ => cases isStack
  rw [lasting_of_ne noStack] at held
  rw [lasting_of_ne (by rwa [towed.kind]), towed.eq_mapFields noStack, fields_mapFields _ noStack]
  exact List.mem_map_of_mem (f := Value.move place) held

end Body

namespace Heap

/-- Nothing is known of stacks, and anything may stop the work. -/
def roughPlan (h : Heap) (capacity : Nat) : Transfer.Plan where
  heap := h
  live _ := True
  capacity := capacity
  copies place _ b b' := b.Towed place b'
  kept := Body.lasting
  stops _ := True
  congr same towed := towed.congr same
  size := Body.Towed.size
  layout := by
    rintro _ _ l _ rfl
    exact ⟨_, rfl, rfl, rfl⟩

/-- The header of every object leads to a layout. -/
def Headed (h : Heap) : Prop := ∀ r o, h.object? r = some o → ∃ l, o.header = .layout l

end Heap

namespace Transfer

variable {h : Heap} {scanned capacity : Nat} {p : Plan}

theorem movable_roughPlan (headed : h.Headed) : Movable (h.roughPlan capacity) where
  layout r o _ found := by
    obtain ⟨l, header⟩ := headed r o found
    exact ⟨l, header, trivial⟩
  absent _ _ _ := trivial
  reads _ _ _ _ _ _ := trivial
  detaches _ _ _ _ _ _ := trivial
  room := .inl fun _ => trivial

theorem traverse_stack_moves (movable : Movable (h.roughPlan capacity)) (s : Stack) :
    Moves (h.roughPlan capacity) scanned (s.traverse migrate) fun _ s' =>
      s'.status = s.status ∧ s'.height = s.height := by
  unfold Stack.traverse
  refine Moves.next (fun _ => True) (moves_lift (fun _ _ => trivial) fun _ _ _ => trivial) fun slots _ => ?_
  refine (Moves.foldlM (fun _ _ (state : Array Slot × Array Bool) => state.1.size = s.words.size)
    (fun _ _ _ _ size => size) slots
    (fun _ offset _ _ state _ size => ?_) fun _ => rfl).next _ fun state size => moves_pure fun _ => ⟨rfl, size⟩
  obtain ⟨words, replaced⟩ := state
  have outside : ∀ work : Migration (Array Slot × Array Bool), Moves (h.roughPlan capacity) scanned (do
      (liftM (Except.error Violation.fieldOutsideSpace : Except Violation Unit) : Migration Unit)
      work) fun _ state => words.size = s.words.size → state.1.size = s.words.size :=
    fun work t order copied => trivial
  dsimp only
  split
  · split
    · exact outside _
    · exact (migrate_moves movable fun _ _ => trivial).mono (fun _ _ _ => trivial) |>.next (fun _ => True)
        fun moved _ => moves_pure fun _ size => by simpa using size
  · split
    · exact outside _
    · exact moves_pure fun _ size => size
  · exact moves_pure fun _ size => size

theorem finishes_roughPlan (movable : Movable (h.roughPlan capacity)) :
    Finishes (h.roughPlan capacity) := by
  intro scanned r o loose home _ _ detached
  obtain ⟨header, b⟩ := o
  have settles : (∀ s, b ≠ .stack s) → b.Loose loose := by
    intro noStack
    obtain ⟨_, detached', isLoose⟩ := Body.detach_settled fun s isStack => absurd isStack (noStack s)
    cases detached.symm.trans detached'
    exact isLoose
  cases b with
  | stack s =>
    obtain ⟨s₁, uncooked, detached⟩ := ok_of_bind detached
    cases detached
    obtain ⟨status, height⟩ := Stack.relinked_ok (.inl uncooked)
    have visits : Moves (h.roughPlan capacity) scanned ((Body.stack s₁).traverse migrate) fun _ body =>
        ∃ s₂, body = .stack s₂ ∧ s₂.status = s₁.status ∧ s₂.height = s₁.height :=
      (traverse_stack_moves movable s₁).next _ fun s₂ same => moves_pure fun _ => ⟨s₂, rfl, same⟩
    refine visits.next _ ?_
    rintro _ ⟨s₂, rfl, status', height'⟩
    refine moves_lift (fun _ _ => trivial) fun order body attached => ⟨?_, by simp [Heap.roughPlan, Body.lasting]⟩
    obtain ⟨s', recooked, attached⟩ := ok_of_bind attached
    cases attached
    obtain ⟨status'', height''⟩ := Stack.relinked_ok (.inr recooked)
    exact ⟨s', rfl, height''.trans (height'.trans height), status''.trans (status'.trans status)⟩
  | _ => exact finishLoose_moves movable (settles (by simp)) fun _ _ => trivial

end Transfer

/-- Handles lead to copies. -/
theorem References.migrateHandles_rough {h : Heap}
    {scanned capacity : Nat} (movable : Transfer.Movable (h.roughPlan capacity)) (r : References) :
    Transfer.Moves (h.roughPlan capacity) scanned
      (r.registry.toList.foldlM migrateHandle r.records) fun order records =>
      ∀ handle ∈ r.registry.toList, ∀ q, (records.getD handle.number default).value = .object q →
      ∃ s ∈ order, placeIn order s = q := by
  refine Transfer.Moves.foldlM (fun (done : List Handle) order (records : Array HandleRecord) => ∀ handle ∈ done, ∀ q,
      (records.getD handle.number default).value = .object q → ∃ s ∈ order, placeIn order s = q)
    ?_ _ ?_ (by simp)
  · intro done order more records known handle member q isValue
    obtain ⟨s, inOrder, rfl⟩ := known handle member q isValue
    exact ⟨s, List.mem_append_left _ inOrder, placeIn_append inOrder⟩
  · intro done handle _ _ records _ _
    unfold migrateHandle
    rw [← map_eq_pure_bind]
    refine ((Transfer.migrate_moves movable fun _ _ => trivial).map _).mono ?_
    rintro order _ ⟨moved, ⟨inOrder, rfl⟩, rfl⟩ known other member q isValue
    rw [Array.getD_eq_getD_getElem?, Array.getElem?_modify] at isValue
    split at isValue
    · rename_i same
      rw [same] at inOrder isValue
      cases found : records[other.number]? with
      | none =>
        rw [found] at isValue
        cases isValue
      | some record =>
        have isRecord : records.getD other.number default = record := by
          simp [Array.getD_eq_getD_getElem?, found]
        rw [found, isRecord] at isValue
        rw [isRecord] at inOrder
        cases isOld : record.value with
        | object s =>
          simp only [isOld, Value.move_object, Option.map_some, Option.getD_some, Value.object.injEq]
            at isValue
          exact ⟨s, inOrder s isOld, isValue⟩
        | _ =>
          rw [isOld] at isValue
          cases isValue
    · rename_i differs
      refine known other ?_ q (by rwa [Array.getD_eq_getD_getElem?])
      rcases List.mem_append.mp member with old | isHere
      · exact old
      · obtain rfl : other = handle := by simpa using isHere
        exact absurd rfl differs

namespace Heap

variable {outside outside' : Roots × References}

/-- The objects of `h'` are copies of the objects of `h` that were `kept`. -/
structure Hauled (h : Heap) (kept : Ref → Prop) (place : Ref → Ref) (h' : Heap) : Prop where
  object : ∀ r, kept r → ∃ o o', h.object? r = some o ∧ h'.object? (place r) = some o' ∧
    o'.header = o.header.move place ∧ o.body.Towed place o'.body
  onto : ∀ r' o', h'.object? r' = some o' → ∃ r, kept r ∧ place r = r'
  injective : ∀ r s, kept r → kept s → place r = place s → r = s
  headers : ∀ r o l, kept r → h.object? r = some o → o.header = .layout l → kept l
  lasting : ∀ r o s, kept r → h.object? r = some o → .object s ∈ o.body.lasting → kept s

/-- Everything outside has been moved along. Of handles it is only sure that they lead to copies. -/
structure MovedAlong (kept : Ref → Prop) (place : Ref → Ref) (before after : Roots × References) :
    Prop where
  roots : after.1 = before.1.move place
  rootsKept : ∀ r ∈ before.1.refs, kept r
  slots : after.2.slots = before.2.slots.map (Value.move place)
  slotsKept : ∀ r, .object r ∈ before.2.slots.toList → kept r
  registry : after.2.registry = before.2.registry
  handles : ∀ handle ∈ after.2.registry, ∀ q, after.2.value handle = .object q → ∃ r, kept r ∧ place r = q

variable {h h' h'' : Heap} {kept kept' : Ref → Prop} {place more : Ref → Ref}

theorem hauled_of_copied {order : List Ref} {t : Transfer}
    {capacity : Nat} (copied : Transfer.Copied (h.roughPlan capacity) order order.length t)
    (objects : h'.objects = t.target) : h.Hauled (· ∈ order) (placeIn order) h' := by
  have done : ∀ r o, r ∈ order → h.object? r = some o → ∃ o', h'.object? (placeIn order r) = some o' ∧
      Transfer.Finished (h.roughPlan capacity) order (placeIn order r) o o' := by
    intro r o member found
    rw [object?, objects]
    exact copied.done _ r o (List.getElem?_idxOf member) (List.idxOf_lt_length_iff.mpr member) found
  refine ⟨fun r member => ?_, fun r' o' found' => ?_, fun r s member _ same => ?_, ?_, ?_⟩
  · obtain ⟨o, found⟩ := copied.there r member
    obtain ⟨o', found', finished⟩ := done r o member found
    exact ⟨o, o', found, found', finished.header, finished.body⟩
  · rw [object?, objects] at found'
    have inside := (Array.getElem?_eq_some_iff.mp found').1
    rw [copied.size] at inside
    refine ⟨order[r'.position], List.getElem_mem inside, ?_⟩
    simp [placeIn, copied.distinct.idxOf_getElem]
  · exact (List.idxOf_inj member).mp (congrArg Ref.position same)
  · intro r o l member found isHeader
    obtain ⟨_, -, finished⟩ := done r o member found
    exact finished.layout l isHeader
  · intro r o s member found held
    obtain ⟨_, -, finished⟩ := done r o member found
    exact finished.kept s held

/-- Copying what can be reached, whenever it succeeds. -/
theorem copyLive_hauls {capacity : Nat} (headed : h.Headed)
    (done : h.copyLive Machine.migrateRoots outside capacity = .ok (outside', h')) :
    ∃ kept place, h.Hauled kept place h' ∧ MovedAlong kept place outside outside' ∧ h'.Accounted ∧
      h'.capacity = Size.roundUp capacity ∧ h'.capacity < Space.addressLimit ∧
      h'.settings = h.settings := by
  have addressable : Size.roundUp capacity < Space.addressLimit := by
    obtain ⟨_, isSpace, -⟩ := ok_of_bind done
    unfold Space.create at isSpace
    split at isSpace
    · assumption
    · cases isSpace
  have movable : Transfer.Movable (h.roughPlan (Size.roundUp capacity)) := Transfer.movable_roughPlan headed
  have copies := copyLive_finishes movable (Transfer.finishes_roughPlan movable)
    (show (h.roughPlan _).heap = h from rfl) rfl addressable
    (Machine.migrateRoots_moves_of movable (fun _ _ => trivial)
      (References.migrate_moves_of movable (fun _ _ => trivial)
        (References.migrateHandles_rough movable outside.2)))
  rw [done] at copies
  obtain ⟨first, more, t, copied, ⟨knowsRoots, roots, knowsSlots, slots, registry, handles⟩, objects, space,
    settings⟩ := copies
  have isCapacity : h'.capacity = Size.roundUp capacity :=
    (congrArg Space.capacity space).trans copied.capacity_eq
  refine ⟨_, _, hauled_of_copied copied objects, ⟨?_, fun r member => ?_, ?_, fun r member => ?_, registry,
    fun handle member q isValue => ?_⟩,
    accounted_of_copied copied objects space, isCapacity, isCapacity ▸ addressable, settings⟩
  · rw [roots]
    exact Roots.move_congr fun r member => (placeIn_append (knowsRoots r member)).symm
  · exact List.mem_append_left _ (knowsRoots r member)
  · rw [slots]
    refine Array.map_congr_left fun v member => Value.move_congr ?_
    rintro r rfl
    exact (placeIn_append (knowsSlots r (Array.mem_toList_iff.mpr member))).symm
  · exact List.mem_append_left _ (knowsSlots r member)
  · rw [registry] at member
    obtain ⟨r, inOrder, isPlace⟩ := handles handle (Array.mem_toList_iff.mpr member) q isValue
    exact ⟨r, List.mem_append_left _ inOrder, (placeIn_append inOrder).trans isPlace⟩

theorem Hauled.trans (first : h.Hauled kept place h') (second : h'.Hauled kept' more h'') :
    h.Hauled (fun r => kept r ∧ kept' (place r)) (more ∘ place) h'' where
  object := by
    intro r ⟨isKept, isKept'⟩
    obtain ⟨o, o', found, found', header, towed⟩ := first.object r isKept
    obtain ⟨_, o'', same, found'', header', towed'⟩ := second.object (place r) isKept'
    cases found'.symm.trans same
    refine ⟨o, o'', found, found'', ?_, towed.trans towed'⟩
    rw [header', header]
    cases o.header <;> rfl
  onto := by
    intro r'' o'' found''
    obtain ⟨r', isKept', rfl⟩ := second.onto r'' o'' found''
    obtain ⟨o', -, found', -⟩ := second.object r' isKept'
    obtain ⟨r, isKept, rfl⟩ := first.onto r' o' found'
    exact ⟨r, ⟨isKept, isKept'⟩, rfl⟩
  injective := by
    intro r s ⟨isKept, isKept'⟩ ⟨isKept₁, isKept₁'⟩ same
    exact first.injective r s isKept isKept₁ (second.injective _ _ isKept' isKept₁' same)
  headers := by
    intro r o l ⟨isKept, isKept'⟩ found isHeader
    refine ⟨first.headers r o l isKept found isHeader, ?_⟩
    obtain ⟨_, o', same, found', header, -⟩ := first.object r isKept
    cases found.symm.trans same
    exact second.headers _ o' _ isKept' found' (by rw [header, isHeader]; rfl)
  lasting := by
    intro r o s ⟨isKept, isKept'⟩ found held
    refine ⟨first.lasting r o s isKept found held, ?_⟩
    obtain ⟨_, o', same, found', -, towed⟩ := first.object r isKept
    cases found.symm.trans same
    exact second.lasting _ o' _ isKept' found' (towed.lasting held)

theorem Hauled.headed (hauled : h.Hauled kept place h') (headed : h.Headed) : h'.Headed := by
  intro r' o' found'
  obtain ⟨r, isKept, rfl⟩ := hauled.onto r' o' found'
  obtain ⟨o, _, found, same, header, -⟩ := hauled.object r isKept
  cases found'.symm.trans same
  obtain ⟨l, isLayout⟩ := headed r o found
  exact ⟨place l, by rw [header, isLayout]; rfl⟩

theorem MovedAlong.trans {before middle after : Roots × References}
    (first : MovedAlong kept place before middle) (second : MovedAlong kept' more middle after)
    (hauled : h.Hauled kept place h') (hauled' : h'.Hauled kept' more h'') :
    MovedAlong (fun r => kept r ∧ kept' (place r)) (more ∘ place) before after where
  roots := by
    rw [second.roots, first.roots]
    exact congrArg Prod.fst (Machine.moveOutside_moveOutside place more before)
  rootsKept := by
    intro r member
    refine ⟨first.rootsKept r member, second.rootsKept _ ?_⟩
    rw [first.roots]
    exact Roots.mem_refs_move member
  slots := by
    rw [second.slots, first.slots, Array.map_map]
    exact Array.map_congr_left fun v _ => Value.move_move place more v
  slotsKept := by
    intro r member
    refine ⟨first.slotsKept r member, second.slotsKept _ ?_⟩
    rw [first.slots, Array.toList_map]
    exact List.mem_map_of_mem (f := Value.move place) member
  registry := second.registry.trans first.registry
  handles := by
    intro handle member q isValue
    obtain ⟨r', isKept', rfl⟩ := second.handles handle member q isValue
    obtain ⟨o', -, found', -⟩ := hauled'.object r' isKept'
    obtain ⟨r, isKept, rfl⟩ := hauled.onto r' o' found'
    exact ⟨r, ⟨isKept, isKept'⟩, rfl⟩

/-- A collection that succeeds copies and is done, or copies and goes on with a larger space. -/
@[elab_as_elim] theorem collectInto_rounds {motive : Nat → Roots × References → Heap → Prop}
    {outside' : Roots × References}
    {h' : Heap} {pending maxSize : Nat} (capacity : Nat) (outside : Roots × References) (h : Heap)
    (done : (h.collectInto Machine.migrateRoots pending maxSize capacity outside).outcome =
      .ok (outside', h')) (last : ∀ capacity outside h small,
      h.copyLive Machine.migrateRoots outside capacity = .ok (outside', h') →
      h'.wantsRoom capacity pending = .ok small → ¬ (capacity < maxSize ∧ small = true) →
      motive capacity outside h) (again : ∀ capacity outside h next middle h₁,
      h.copyLive Machine.migrateRoots outside capacity = .ok (middle, h₁) →
      capacity < next ∧ next ≤ maxSize → motive next middle h₁ → motive capacity outside h) :
    motive capacity outside h := by
  unfold collectInto at done
  split at done
  · cases done
  · rename_i middle h₁ copied
    split at done
    · cases done
    · rename_i small wanted
      split at done
      · rename_i room
        split at done
        · cases done
        · rename_i next isNext
          have grows := nextCapacity_gt room.1 isNext
          exact again _ _ _ _ _ _ copied grows (collectInto_rounds next middle h₁ done last again)
      · cases done
        exact last _ _ _ small copied wanted ‹_›
termination_by maxSize - capacity
decreasing_by omega

/-- A collection that succeeds has hauled objects, however often it had to start over. -/
theorem collectInto_hauls {h h' : Heap} {pending maxSize capacity : Nat} (headed : h.Headed)
    (done : (h.collectInto Machine.migrateRoots pending maxSize capacity outside).outcome =
      .ok (outside', h')) :
    ∃ kept place, h.Hauled kept place h' ∧ MovedAlong kept place outside outside' ∧ h'.Accounted ∧
      h'.capacity < Space.addressLimit ∧ h'.settings = h.settings := by
  revert headed
  refine collectInto_rounds capacity outside h done (fun capacity outside h small copied _ _ headed => ?_)
    fun capacity outside h next middle h₁ copied _ ih headed => ?_
  · obtain ⟨kept, place, hauled, along, accounted, -, addressable, settings⟩ := copyLive_hauls headed copied
    exact ⟨kept, place, hauled, along, accounted, addressable, settings⟩
  · obtain ⟨kept, place, hauled, along, -, -, -, settings⟩ := copyLive_hauls headed copied
    obtain ⟨kept', more, hauled', along', accounted', addressable', settings'⟩ := ih (hauled.headed headed)
    exact ⟨_, _, hauled.trans hauled', along.trans along' hauled hauled', accounted', addressable',
      settings'.trans settings⟩

end Heap

end ObjectMachine
