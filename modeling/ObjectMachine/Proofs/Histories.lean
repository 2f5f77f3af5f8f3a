/-
# ObjectMachine.Proofs.Histories -- what happens to a heap

A heap changes in few ways, whoever changes it: objects are made of values that are there, copied,
or written to; descriptors of forwarders get other targets or are closed; and a collection moves
what is kept. `Heap.Event` is one such change, and `Heap.History` any number of them. Strings,
tuples, selectors and singletons are never written to, forwarders neither, and descriptors only in
the way of their own.

* `Heap.Event.mirrors` -- keys outlive every event with their contents.
* `Heap.Advances.made`, `Heap.Advances.adjust`, `Table.advances_set` -- constructors that are given
  what is there, writes and the entering of keys are such events.
* `Heap.isPlain_of_create` -- what a heap starts with.
-/
import Mathlib
import ObjectMachine.Proofs.Building
import ObjectMachine.Proofs.Forming
import ObjectMachine.Proofs.Tables

namespace ObjectMachine

open ObjectMachine.Action (Leads asks_lift bind_ok leads_bind leads_of)
open Store (asks_check check_ok)

namespace Heap

/-- Kinds of objects that nobody writes to. -/
def setKinds : List Kind := [.string, .tuple, .selector, .singleton, .forwarder]

theorem set_of_isKey {kind : Kind} (isKey : kind.isKey = true) : kind ∈ setKinds := by
  cases kind <;> first | decide | cases isKey

/-- What a selector or a forwarder has to be made of. -/
def Admits (h : Heap) : Body → Prop
  | .selector s => h.is Text s.name = true ∧ h.is Tuple s.keywords = true
  | .forwarder f => h.is Descriptor f.descriptor = true
  | _ => True

/-- An object may be made of values that are there, or as a copy. -/
def Makes (h : Heap) (o : Object) : Prop :=
  ((∃ l, o.header = .layout l) ∧ (∀ v ∈ o.body.fields, h.There v) ∧ h.Admits o.body) ∨
    ∃ r, h.object? r = some o

/-- Objects stay and keep their kinds, and those of some kinds keep their bodies. -/
def Keeps (h : Heap) (kinds : List Kind) (h' : Heap) : Prop :=
  ∀ r o, h.object? r = some o → ∃ o', h'.object? r = some o' ∧ o'.body.kind = o.body.kind ∧
    (o.body.kind ∈ kinds → o'.body = o.body)

/-- Objects have been written to, but to no descriptor and to none of a kind that is set. -/
structure Writes (h h' : Heap) : Prop where
  keeps : h.Keeps (.forwarderDescriptor :: setKinds) h'
  layout : ∀ r o, h'.object? r = some o → ∃ l, o.header = .layout l
  none : ∀ r, h.object? r = none → h'.object? r = none

/-- A descriptor gets a target that is there, or is opened or closed. -/
def Rebinds (h : Heap) (descriptor : Value) (d : Descriptor) : Prop := (∃ target, h.There target ∧
    (h.retargeted descriptor target = .ok d ∨ h.bound descriptor target = .ok d)) ∨
  ∃ binding, h.rebound descriptor binding = .ok d

/-- One thing that happens to a heap. What is `kept` lies where `place` says afterwards. -/
inductive Event (h : Heap) : (Ref → Prop) → (Ref → Ref) → Heap → Prop
  | made {o : Object} {size : Nat} (makes : h.Makes o) : Event h (fun _ => True) id (h.extended o size)
  | written {h' : Heap} (writes : h.Writes h') : Event h (fun _ => True) id h'
  | rebound {descriptor : Value} {d : Descriptor} (rebinds : h.Rebinds descriptor d) :
      Event h (fun _ => True) id (h.put descriptor d)
  | collected {kept : Ref → Prop} {place : Ref → Ref} {h' : Heap} {outside outside' : Roots × References}
      {pending : Nat} (done : (h.collect Machine.migrateRoots pending outside).outcome = .ok (outside', h'))
      (hauled : h.Hauled kept place h') : Event h kept place h'

/-- Any number of events. -/
inductive History (h : Heap) : (Ref → Prop) → (Ref → Ref) → Heap → Prop
  | start : History h (fun _ => True) id h
  | next {kept kept' : Ref → Prop} {place more : Ref → Ref} {h' h'' : Heap}
      (history : History h kept place h') (event : h'.Event kept' more h'') :
      History h (fun r => kept r ∧ kept' (place r)) (more ∘ place) h''

variable {h h' : Heap} {kept : Ref → Prop} {place : Ref → Ref} {v : Value}

theorem History.invariant {P : Heap → Prop}
    (step : ∀ {h kept place h'}, Event h kept place h' → P h → P h')
    (history : h.History kept place h') (start : P h) : P h' := by
  induction history with
  | start => exact start
  | next _ event ih => exact step event ih

section Bodies

/-- A descriptor that is changed was open, and it does not lead to a new target. -/
theorem Rebinds.old {descriptor : Value} {d : Descriptor} (rebinds : h.Rebinds descriptor d) :
    ∃ old, h.view? Descriptor descriptor = some old ∧ old.binding ≠ .closed ∧ (d.target =
      old.target ∨ h.There d.target ∧ h.leadsTo descriptor h.walkFuel d.target = .ok false) := by
  have retargets : ∀ {target d}, h.retargeted descriptor target = .ok d →
      ∃ old, h.view? Descriptor descriptor = some old ∧ old.binding ≠ .closed ∧ d.target = target ∧
        h.leadsTo descriptor h.walkFuel target = .ok false := by
    intro target d done
    obtain ⟨old, isOld, done⟩ := ok_of_bind done
    split_ifs at done with closed signal
    obtain ⟨leads, isLeads, done⟩ := ok_of_bind done
    cases leads with
    | true => cases done
    | false =>
      cases done
      exact ⟨old, cast_eq_ok.mp isOld, closed, rfl, isLeads⟩
  obtain ⟨target, there, done | done⟩ | ⟨binding, done⟩ := rebinds
  · obtain ⟨old, isOld, isOpen, rfl, leads⟩ := retargets done
    exact ⟨old, isOld, isOpen, .inr ⟨there, leads⟩⟩
  · obtain ⟨_, isTarget, ⟨⟩⟩ := ok_of_bind done
    obtain ⟨old, isOld, isOpen, rfl, leads⟩ := retargets isTarget
    exact ⟨old, isOld, isOpen, .inr ⟨there, leads⟩⟩
  · obtain ⟨old, isOld, done⟩ := ok_of_bind done
    split_ifs at done with closed
    cases done
    exact ⟨old, cast_eq_ok.mp isOld, closed, .inl rfl⟩

theorem keeps_extended {kinds : List Kind} (o : Object) (size : Nat) :
    h.Keeps kinds (h.extended o size) :=
  fun _ old found => ⟨old, object?_extended_of_some found, rfl, fun _ => rfl⟩

/-- What an event does to objects that were there: in a collection they are moved, and otherwise
those that are set stay as they are. -/
theorem Event.keeps (event : h.Event kept place h') :
    h.Hauled kept place h' ∨ place = id ∧ (∀ r, kept r) ∧ h.Keeps setKinds h' := by
  cases event with
  | made => exact .inr ⟨rfl, fun _ => trivial, keeps_extended _ _⟩
  | written writes =>
    refine .inr ⟨rfl, fun _ => trivial, fun r o found => ?_⟩
    obtain ⟨o', found', kind, same⟩ := writes.keeps r o found
    exact ⟨o', found', kind, fun set => same (List.mem_cons_of_mem _ set)⟩
  | rebound rebinds =>
    refine .inr ⟨rfl, fun _ => trivial, fun r o found => ?_⟩
    obtain ⟨old, isOld, -⟩ := rebinds.old
    obtain ⟨q, o', rfl, isObject, isBody⟩ := view?_iff.mp isOld
    refine ⟨_, (object?_adjust q r).trans (congrArg _ found), ?_⟩
    split
    · rename_i here
      subst here
      cases found.symm.trans isObject
      rw [isBody]
      exact ⟨rfl, fun set => absurd (HeapKind.kind_wrap old ▸ set) (by decide)⟩
    · exact ⟨rfl, fun _ => rfl⟩
  | collected _ hauled => exact .inl hauled

/-- What is there after an event was there before, or has been made. -/
theorem Event.back (event : h.Event kept place h')
    {r' : Ref} {o' : Object} (found' : h'.object? r' = some o') :
    (∃ r o, kept r ∧ place r = r' ∧ h.object? r = some o ∧
      ((∃ l, o.header = .layout l) → ∃ l, o'.header = .layout l)) ∨ place = id ∧ (∀ r, kept r) ∧
      h.Makes o' := by
  cases event with
  | made makes =>
    rw [object?_extended] at found'
    split at found'
    · cases found'
      exact .inr ⟨rfl, fun _ => trivial, makes⟩
    · exact .inl ⟨r', o', trivial, rfl, found', id⟩
  | written writes =>
    cases old : h.object? r' with
    | none => cases (writes.none r' old).symm.trans found'
    | some o => exact .inl ⟨r', o, trivial, rfl, old, fun _ => writes.layout r' o' found'⟩
  | rebound rebinds =>
    obtain ⟨old, isOld, -⟩ := rebinds.old
    obtain ⟨q, -, rfl, -⟩ := view?_iff.mp isOld
    rw [put, object?_adjust] at found'
    obtain ⟨o, isObject, rfl⟩ := Option.map_eq_some_iff.mp found'
    exact .inl ⟨r', o, trivial, rfl, isObject, fun layout => by split <;> exact layout⟩
  | collected _ hauled =>
    obtain ⟨r, isKept, rfl⟩ := hauled.onto r' o' found'
    obtain ⟨o, _, found, same, header, -⟩ := hauled.object r isKept
    cases found'.symm.trans same
    refine .inl ⟨r, o, isKept, rfl, found, ?_⟩
    rintro ⟨l, layout⟩
    refine ⟨place l, ?_⟩
    rw [header, layout]
    rfl

end Bodies

/-- A collection moves keys with their contents. -/
theorem Hauled.mirrors (hauled : h.Hauled kept place h') :
    h.Mirrors (Value.Kept kept) (Value.move place) h' := by
  refine .ofMove (fun r q keptR keptQ => hauled.injective r q (keptR r rfl) (keptQ q rfl))
    fun v b isKept found => ?_
  obtain ⟨r, -, rfl, -⟩ := bodyOf?_eq_some.mp found
  obtain ⟨b', found', towed⟩ := hauled.body (isKept r rfl) found
  refine ⟨b', found', towed.kind, fun isKey => ?_⟩
  obtain ⟨moved, kepts⟩ := hauled.moved (isKept r rfl) found
    fun isStack => by rw [isStack] at isKey; cases isKey
  exact ⟨Option.some.inj (found'.symm.trans moved), kepts⟩

/-- Keys outlive every event with their contents. -/
theorem Event.mirrors (event : h.Event kept place h') :
    h.Mirrors (Value.Kept kept) (Value.move place) h' := by
  obtain hauled | ⟨rfl, all, keeps⟩ := event.keeps
  · exact hauled.mirrors
  · have spares : h.Spares h' := by
      intro v b found
      obtain ⟨r, o, rfl, isObject, rfl⟩ := bodyOf?_eq_some.mp found
      obtain ⟨o', isObject', kind, same⟩ := keeps r o isObject
      exact ⟨o'.body, bodyOf?_eq_some.mpr ⟨r, o', rfl, isObject', rfl⟩, kind, fun isKey =>
        same (set_of_isKey isKey)⟩
    have mirrors := Mirrors.ofSpares spares
    rw [show Value.move id = id from funext Value.move_id]
    refine ⟨mirrors.plain, fun a b _ _ => mirrors.injective a b trivial trivial, fun v b _ found => ?_⟩
    obtain ⟨b', found', kind, same⟩ := mirrors.body v b trivial found
    exact ⟨b', found', kind, fun isKey => ⟨(same isKey).1, fun _ _ r _ => all r⟩⟩

theorem Event.headed (event : h.Event kept place h') (headed : h.Headed) : h'.Headed := by
  intro r' o' found'
  obtain ⟨r, o, -, -, found, layout⟩ | ⟨-, -, ⟨layout, -⟩ | ⟨r, found⟩⟩ := event.back found'
  · exact layout (headed r o found)
  · exact layout
  · exact headed r o' found

/-- Any number of events without a collection. Everything is where it was. -/
def Advances (h h' : Heap) : Prop := ∃ kept, (∀ r, kept r) ∧ h.History kept id h'

namespace Advances

theorem refl (h : Heap) : h.Advances h := ⟨_, fun _ => trivial, .start⟩

theorem next {h'' : Heap} (advances : h.Advances h') (event : h'.Event (fun _ => True) id h'') :
    h.Advances h'' := by
  obtain ⟨_, all, history⟩ := advances
  exact ⟨_, fun r => ⟨all r, trivial⟩, history.next event⟩

/-- An object may be written to, unless it is of a kind that is set or a descriptor. -/
theorem adjust {f : Body → Body} (advances : h.Advances h') (headed : h.Headed)
    (keeps : ∀ b, h'.bodyOf? v = some b →
      (f b).kind = b.kind ∧ (b.kind ∈ .forwarderDescriptor :: setKinds → f b = b)) :
    h.Advances (h'.adjust v f) := by
  cases v with
  | object q =>
    refine advances.next (.written ⟨fun r o found => ?_, fun r o found => ?_, fun r absent => ?_⟩)
    · refine ⟨_, (object?_adjust q r).trans (congrArg _ found), ?_⟩
      split
      · rename_i here
        subst here
        exact keeps o.body (bodyOf?_eq_some.mpr ⟨_, o, rfl, found, rfl⟩)
      · exact ⟨rfl, fun _ => rfl⟩
    · rw [object?_adjust] at found
      obtain ⟨old, isOld, rfl⟩ := Option.map_eq_some_iff.mp found
      obtain ⟨_, -, history⟩ := advances
      split <;> exact history.invariant Event.headed headed r old isOld
    · rw [object?_adjust, absent]
      rfl
  | _ => exact advances

theorem put {α : Type} [HeapKind α] {data : α} (advances : h.Advances h') (headed : h.Headed)
    (found : h'.view? α v = some data) (free : HeapKind.kind α ∉ .forwarderDescriptor :: setKinds)
    (data' : α) : h.Advances (h'.put v data') := by
  refine advances.adjust headed fun b isBody => ?_
  cases (view?_eq_some.mp found).symm.trans isBody
  rw [HeapKind.kind_wrap, HeapKind.kind_wrap]
  exact ⟨rfl, fun set => absurd set free⟩

/-- Whatever constructor places an object, it may be made of values that are there. -/
theorem made {s s' : Store} {kind : Kind} {size : Nat} {body : Unit → Body}
    (advances : h.Advances s.heap) (done : Make.placeLazy kind size body s = .ok v s')
    (there : ∀ v ∈ (body ()).fields, s.heap.There v) (admits : s.heap.Admits (body ())) :
    h.Advances s'.heap := by
  obtain ⟨-, rfl⟩ := Make.placeLazy_ok done
  exact advances.next (.made (.inl ⟨⟨_, rfl⟩, there, admits⟩))

end Advances

section Starting

variable {settings : HeapSettings}

/-- Whether an object is no task, no selector and no forwarder, and empty if it is a tuple. -/
def isPlainBody : Body → Bool
  | .tuple t => t.elements.isEmpty
  | .task _ | .selector _ | .forwarder _ | .forwarderDescriptor _ => false
  | _ => true

/-- Whether the objects have layouts and are plain. -/
def isPlain (objects : Array Object) : Bool := objects.toList.all fun o =>
    (match o.header with | .layout _ => true | .forward _ => false) && isPlainBody o.body

theorem isPlain_of_create {s : Store} (created : Store.create settings = .ok s) :
    isPlain s.heap.objects = true :=
  Store.holds_of_create (fun s => isPlain s.heap.objects = true) (fun alike => by rw [alike.objects])
    (by decide +kernel) created

theorem plain_of_create {s : Store} (created : Store.create settings = .ok s) {v : Value}
    {b : Body} (found : s.heap.bodyOf? v = some b) : isPlainBody b = true := by
  obtain ⟨r, o, -, isObject, rfl⟩ := bodyOf?_eq_some.mp found
  exact (Bool.and_eq_true_iff.mp (List.all_eq_true.mp (isPlain_of_create created) o
    (Array.mem_toList_iff.mpr (Array.mem_of_getElem? isObject)))).2

theorem headed_of_create {s : Store} (created : Store.create settings = .ok s) : s.heap.Headed := by
  intro r o found
  have plain := List.all_eq_true.mp (isPlain_of_create created) o
    (Array.mem_toList_iff.mpr (Array.mem_of_getElem? found))
  cases isHeader : o.header with
  | layout l => exact ⟨l, rfl⟩
  | forward target => simp [isHeader] at plain

end Starting

end Heap

namespace Make

variable {s s' : Store} {v : Value}

theorem advances_tuple {elements : Array Value} (there : ∀ v ∈ elements, s.heap.There v)
    (done : tuple elements s = .ok v s') : s.heap.Advances s'.heap := by
  obtain ⟨_, _, lifted, done⟩ := bind_ok done
  cases (asks_lift _).same lifted
  obtain ⟨_, s₁, placed, done⟩ := bind_ok done
  have advances := (Heap.Advances.refl s.heap).made placed (by simpa [Body.fields] using there) trivial
  split at done
  · cases done
  · cases done
    exact advances

end Make

namespace Table

variable {s : Store} {map key value : Value} {h : Heap}

theorem advances_enter (advances : h.Advances s.heap) (headed : h.Headed) :
    Leads (enter map key value) s (fun _ s' => h.Advances s'.heap) fun _ _ => True := by
  refine (asks_check _).leads_bind fun t checked => (asks_check _).leads_bind fun hash _ =>
    (asks_check _).leads_bind ?_
  rintro ⟨index, taken⟩ -
  have isTable := Heap.cast_eq_ok.mp (check_ok checked)
  have first : h.Advances (s.heap.adjust t.entries (written index ⟨key, value, hash⟩)) := by
    refine advances.adjust headed fun b _ => ?_
    cases b with
    | array a => exact ⟨rfl, fun set => absurd set (by simp [Body.kind, Heap.setKinds])⟩
    | _ => exact ⟨rfl, fun _ => rfl⟩
  cases taken with
  | true => exact first
  | false =>
    refine first.put headed (?_ : _ = some t) (by simp [HeapKind.kind, Heap.setKinds]) _
    rw [Heap.view?_eq_some, Heap.bodyOf?_adjust (Heap.view?_eq_some.mp isTable)]
    split <;> rfl

theorem advances_extend (headed : s.heap.Headed) (there : s.heap.There (.object s.roots.null)) :
    Leads (extend map) s (fun _ s' => s.heap.Advances s'.heap) fun _ _ => True := by
  refine (asks_check _).leads_bind fun t checked => (asks_check _).leads_bind fun e _ =>
    (asks_lift _).leads_bind fun capacity _ => (asks_lift _).leads_bind fun length _ =>
    leads_bind.mpr ((asks_lift _).leads_bind fun size _ => (Store.asks_ask _).leads_bind fun null asked =>
    leads_of (fun entries s₁ placed => ?_) fun _ _ _ => trivial)
  cases asked
  have advances := (Heap.Advances.refl s.heap).made placed
    (by simpa [Body.fields] using fun _ => there) trivial
  have isTable : s₁.heap.view? Table map = some t := by
    obtain ⟨-, rfl⟩ := Make.placeLazy_ok placed
    have isTable := Heap.cast_eq_ok.mp (check_ok checked)
    exact Heap.view?_eq_some.mpr (Heap.bodyOf?_extended_of_some (Heap.view?_eq_some.mp isTable))
  refine (asks_check _).leads_bind fun fresh checked' => (asks_check _).leads_bind fun filled _ => ?_
  have isFresh := Heap.cast_eq_ok.mp (check_ok checked')
  have filled := advances.put headed isFresh (by simp [HeapKind.kind, Heap.setKinds]) ⟨filled.words⟩
  exact filled.put headed (Heap.view?_put_other _ (Heap.ne_of_view isFresh isTable (by decide)) isTable)
    (by simp [HeapKind.kind, Heap.setKinds]) _

/-- Entering a key goes on with the history, whether or not the map has to grow. -/
theorem advances_set (headed : s.heap.Headed) (there : s.heap.There (.object s.roots.null)) :
    Leads (set map key value) s (fun _ s' => s.heap.Advances s'.heap) fun _ _ => True := by
  refine (Store.asks_ask _).leads_bind fun _ _ => ?_
  split_ifs
  · trivial
  · trivial
  refine (asks_check _).leads_bind fun t _ => (asks_check _).leads_bind fun e _ =>
    (asks_lift _).leads_bind fun full _ => ?_
  cases full with
  | true => exact leads_bind.mpr ((advances_extend headed there).imp fun _ _ advances =>
      advances_enter advances headed)
  | false => exact advances_enter (.refl s.heap) headed

end Table

end ObjectMachine
