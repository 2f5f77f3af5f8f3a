/-
# ObjectMachine.Proofs.Forming -- every program leaves a heap that can be walked

A program whose code obeys no discipline may leave frames in any state, but not objects: every
header leads to a layout that describes its object, and the bytes in use are those of the objects
(`Heap.Formed`). `Store.Forms` says so of work that leaves objects where they are, tasks that hand
over to each other included. `Heap.Passes` goes on where a collection moves objects: it says what
becomes of tasks and stacks then, `place` being where an object has gone.

* `Machine.surviving_collect` -- a collection moves tasks and stacks and keeps the form of the heap.
* `Exec.run_ends` -- how a run of any length ends.
-/
import Mathlib
import ObjectMachine.Proofs.Calls
import ObjectMachine.Proofs.Hauling
import ObjectMachine.Proofs.Tending

namespace ObjectMachine

open ObjectMachine.Action (Asks Gentle Leads asks_pure)

namespace Body

theorem Similar.stack {s s' : Stack} (height : s'.height = s.height) :
    (Body.stack s).Similar (.stack s') :=
  ⟨rfl, by simp [Body.size, height], by simp, by simp [Body.kind]⟩

theorem Similar.task (t t' : Task) : (Body.task t).Similar (.task t') :=
  ⟨rfl, rfl, by simp, by simp [Body.kind]⟩

end Body

namespace Stack

theorem height_setWord (s : Stack) (offset : Nat) (slot : Slot) :
    (s.setWord offset slot).height = s.height := by
  simp [setWord, height]

theorem height_foldl_setWord (list : List Value) (acc : Stack × Nat) :
    (list.foldl (fun acc v => (acc.1.setWord acc.2 (.value v), acc.2 + 1)) acc).1.height =
      acc.1.height := by
  induction list generalizing acc with
  | nil => rfl
  | cons v list ih => rw [List.foldl_cons, ih, height_setWord]

/-- A stack that has been laid out is parked, and as high as it was. -/
theorem prepare_ok {s s' : Stack} {home : Ref}
    {bottom : Value} {entry : Array Value} (prepared : s.prepare home bottom entry = .ok s') :
    s'.height = s.height ∧ s'.status = .parked := by
  unfold prepare at prepared
  split at prepared
  · cases prepared
  split at prepared
  · cases prepared
  cases prepared
  refine ⟨?_, rfl⟩
  change (writeFrame _ _ _ _ _).height = _
  rw [height_writeFrame, ← Array.foldl_toList, height_foldl_setWord, height_writeFrame]

end Stack

/-- Objects stay where they are, and a store that was well formed still is. -/
structure Store.Forms (s s' : Store) : Prop where
  stays : s.heap.Stays s'.heap
  roots : s'.roots = s.roots
  formed : s.Formed → s'.Formed

/-- Objects stay where they are, whatever happens to references. -/
structure Machine.Forms (m m' : Machine) : Prop where
  store : m.store.Forms m'.store
  settings : m'.settings = m.settings
  compiler : m'.compiler = m.compiler

/-- Objects stay where they are, whatever happens to registers. -/
structure Execution.Forms (x y : Execution) : Prop where
  machine : x.machine.Forms y.machine
  rootTask : y.rootTask = x.rootTask
  currentTask : y.currentTask = x.currentTask

instance : IsPreorder Store Store.Forms where
  refl s := ⟨.refl s.heap, rfl, id⟩
  trans _ _ _ first second := ⟨first.stays.trans second.stays, second.roots.trans first.roots,
    fun formed => second.formed (first.formed formed)⟩

instance : IsPreorder Machine Machine.Forms where
  refl m := ⟨refl m.store, rfl, rfl⟩
  trans _ _ _ first second := ⟨Trans.trans first.store second.store,
    second.settings.trans first.settings, second.compiler.trans first.compiler⟩

instance : IsPreorder Execution Execution.Forms where
  refl x := ⟨refl x.machine, rfl, rfl⟩
  trans _ _ _ first second := ⟨Trans.trans first.machine second.machine,
    second.rootTask.trans first.rootTask, second.currentTask.trans first.currentTask⟩

theorem Store.Tends.forms {s s' : Store} (tends : s.Tends s') : s.Forms s' :=
  ⟨tends.heap.steady.stays, tends.roots, tends.formed⟩

theorem Machine.Tends.forms {m m' : Machine} (tends : m.Tends m') : m.Forms m' :=
  ⟨tends.store.forms, tends.settings, tends.compiler⟩

theorem Store.forms_adjust {s : Store} {v : Value} {f : Body → Body}
    (similar : ∀ b, s.heap.bodyOf? v = some b → b.Similar (f b)) :
    s.Forms { s with heap := s.heap.adjust v f } where
  stays := Heap.adjust_stays similar
  roots := rfl
  formed formed := formed.stay (Heap.adjust_stays similar) (formed.heap.adjust similar)

namespace Exec

variable {α : Type} {x y : Execution}

theorem forms_withHeap {heap : Heap} (forms : x.machine.store.Forms { x.machine.store with heap }) :
    x.Forms { x with machine := x.machine.withHeap heap } := ⟨⟨forms, rfl, rfl⟩, rfl, rfl⟩

section Switching

theorem preparedStack_ok {h : Heap} {task bottom stack : Value} {entry : Array Value} {s' : Stack}
    (prepared : h.preparedStack task bottom entry = .ok (stack, s')) :
    ∃ t home s, h.view? Task task = some t ∧ stack = t.stack ∧ t.stack = .object home ∧
      h.view? Stack t.stack = some s ∧ s.prepare home bottom entry = .ok s' := by
  obtain ⟨t, isTask, prepared⟩ := ok_of_bind prepared
  split at prepared
  · rename_i home isHome
    obtain ⟨s, isStack, prepared⟩ := ok_of_bind prepared
    obtain ⟨s'', isPrepared, prepared⟩ := ok_of_bind prepared
    cases prepared
    exact ⟨t, home, s, Heap.cast_eq_ok.mp isTask, rfl, isHome, Heap.cast_eq_ok.mp isStack, isPrepared⟩
  · cases prepared

theorem forms_abandonFrom {fuel : Nat} {task : Value} {s : Store} {heap : Heap}
    (abandoned : abandonFrom fuel task s.heap = .ok heap) : s.Forms { s with heap } := by
  induction fuel generalizing task s with
  | zero => cases abandoned
  | succ fuel ih =>
    obtain ⟨t, -, abandoned⟩ := ok_of_bind abandoned
    have emptied : s.Forms { s with
        heap := s.heap.adjustStack t.stack fun st => { st with status := .empty } } :=
      Store.forms_adjust fun b _ => Heap.emptied_similar b
    simp only at abandoned
    split at abandoned
    · exact IsTrans.trans _ _ _ emptied (ih abandoned)
    · cases abandoned
      exact emptied

end Switching

end Exec

namespace Heap

/-- What becomes of tasks and stacks when objects move: `kept` are those that were not given up, and
`place` says where they have gone. New tasks have nothing to run. -/
structure Passes (null : Ref) (kept : Ref → Prop) (place : Ref → Ref) (h h' : Heap) : Prop where
  nullKept : kept null
  injective : ∀ r s, kept r → kept s → place r = place s → r = s
  kind : ∀ r o, kept r → h.object? r = some o →
    ∃ o', h'.object? (place r) = some o' ∧ o'.body.kind = o.body.kind
  task : ∀ r t, kept r → h.view? Task (.object r) = some t → h'.view? Task (.object (place r)) =
      some { stack := t.stack.move place, caller := t.caller.move place }
  mentions : ∀ r t q, kept r → h.view? Task (.object r) = some t →
    t.stack = .object q ∨ t.caller = .object q → kept q
  stack : ∀ r s, kept r → h.view? Stack (.object r) = some s →
    ∃ s', h'.view? Stack (.object (place r)) = some s' ∧ s'.status = s.status
  back : ∀ r' t', h'.view? Task (.object r') = some t' →
    (∃ r t, kept r ∧ place r = r' ∧ h.view? Task (.object r) = some t) ∨
      t'.caller = .object (place null) ∧ ∃ s, h'.view? Stack t'.stack = some s ∧ s.status = .empty
  owned : h.Owned → h'.Owned

namespace Passes

variable {null : Ref} {kept kept' : Ref → Prop} {place more : Ref → Ref} {h h' h'' : Heap}

theorem trans (first : h.Passes null kept place h')
    (second : h'.Passes (place null) kept' more h'') :
    h.Passes null (fun r => kept r ∧ kept' (place r)) (more ∘ place) h'' where
  nullKept := ⟨first.nullKept, second.nullKept⟩
  injective r s isKept isKept' same :=
    first.injective r s isKept.1 isKept'.1 (second.injective _ _ isKept.2 isKept'.2 same)
  kind := by
    intro r o ⟨isKept, isKept'⟩ found
    obtain ⟨o', found', kind⟩ := first.kind r o isKept found
    obtain ⟨o'', found'', kind'⟩ := second.kind _ o' isKept' found'
    exact ⟨o'', found'', kind'.trans kind⟩
  task := by
    intro r t ⟨isKept, isKept'⟩ found
    rw [Function.comp, second.task _ _ isKept' (first.task r t isKept found), Value.move_move,
      Value.move_move]
  mentions := by
    intro r t q ⟨isKept, isKept'⟩ found mentioned
    refine ⟨first.mentions r t q isKept found mentioned,
      second.mentions _ _ _ isKept' (first.task r t isKept found) ?_⟩
    rcases mentioned with isStack | isCaller
    · exact .inl (by rw [isStack]; rfl)
    · exact .inr (by rw [isCaller]; rfl)
  stack := by
    intro r s ⟨isKept, isKept'⟩ found
    obtain ⟨s', found', status⟩ := first.stack r s isKept found
    obtain ⟨s'', found'', status'⟩ := second.stack _ s' isKept' found'
    exact ⟨s'', found'', status'.trans status⟩
  back := by
    intro r'' t'' found''
    rcases second.back r'' t'' found'' with ⟨r', t', isKept', rfl, found'⟩ | fresh
    · rcases first.back r' t' found' with ⟨r, t, isKept, rfl, found⟩ | ⟨caller, s, isStack, status⟩
      · exact .inl ⟨r, t, ⟨isKept, isKept'⟩, rfl, found⟩
      · -- a task that was new in between has been moved along with its stack
        right
        obtain rfl := Option.some.inj (found''.symm.trans (second.task r' t' isKept' found'))
        obtain ⟨home, o, isHome, -⟩ := view?_iff.mp isStack
        have homeKept := second.mentions r' t' home isKept' found' (.inl isHome)
        rw [isHome] at isStack
        obtain ⟨s', isStack', status'⟩ := second.stack home s homeKept isStack
        refine ⟨by simp only [caller]; rfl, s', ?_, status'.trans status⟩
        simp only [isHome]
        exact isStack'
    · exact .inr fresh
  owned := fun owned => second.owned (first.owned owned)

end Passes

theorem Tends.passes {null : Ref} {h h' : Heap} (tends : h.Tends (.object null) h') :
    h.Passes null (fun _ => True) id h' where
  nullKept := trivial
  injective _ _ _ _ same := same
  kind := by
    intro r o _ found
    obtain ⟨o', found', -, steady⟩ := tends.steady r o found
    exact ⟨o', found', steady.kind⟩
  task := by
    intro r t _ found
    rw [Value.move_id, Value.move_id]
    exact tends.steady.view_task found
  mentions _ _ _ _ _ _ := trivial
  stack _ s _ found := tends.steady.view_stack found
  back := by
    intro r' t' found'
    rcases tends.steady.task_cases found' with found | absent
    · exact .inl ⟨r', t', trivial, rfl, found⟩
    · exact .inr (tends.fresh r' t' found' absent)
  owned := tends.owned

theorem Formed.headed {h : Heap} (formed : h.Formed) : h.Headed := fun r o found =>
  (formed.described r o found).imp fun _ layout => layout.1

section Hauling

variable {kept : Ref → Prop} {place : Ref → Ref} {h h' : Heap} {r : Ref}

variable (hauled : h.Hauled kept place h')
include hauled

theorem Hauled.body (isKept : kept r) {b : Body} (found : h.bodyOf? (.object r) = some b) :
    ∃ b', h'.bodyOf? (.object (place r)) = some b' ∧ b.Towed place b' := by
  obtain ⟨_, o, ⟨⟩, isObject, rfl⟩ := bodyOf?_eq_some.mp found
  obtain ⟨_, o', same, isObject', -, towed⟩ := hauled.object r isKept
  cases isObject.symm.trans same
  exact ⟨o'.body, bodyOf?_eq_some.mpr ⟨_, o', rfl, isObject', rfl⟩, towed⟩

/-- Whatever is not a stack is moved with its contents. -/
theorem Hauled.moved (isKept : kept r)
    {b : Body} (found : h.bodyOf? (.object r) = some b) (noStack : b.kind ≠ .stack) :
    h'.bodyOf? (.object (place r)) = some (b.mapFields (Value.move place)) ∧
      ∀ v ∈ b.fields, v.Kept kept := by
  obtain ⟨b', found', towed⟩ := hauled.body isKept found
  obtain ⟨_, o, ⟨⟩, isObject, rfl⟩ := bodyOf?_eq_some.mp found
  refine ⟨found'.trans (congrArg some (towed.eq_mapFields noStack)), ?_⟩
  rintro _ member s rfl
  exact hauled.lasting r o s isKept isObject ((Body.lasting_of_ne noStack).symm ▸ member)

theorem Hauled.view_task (isKept : kept r) {t : Task} (found : h.view? Task (.object r) = some t) :
    h'.view? Task (.object (place r)) =
      some { stack := t.stack.move place, caller := t.caller.move place } := by
  obtain ⟨b', found', towed⟩ := hauled.body isKept (view?_eq_some.mp found)
  cases towed
  exact view?_eq_some.mpr found'

theorem Hauled.view_stack (isKept : kept r)
    {s : Stack} (found : h.view? Stack (.object r) = some s) :
    ∃ s', h'.view? Stack (.object (place r)) = some s' ∧ s'.status = s.status := by
  obtain ⟨b', found', towed⟩ := hauled.body isKept (view?_eq_some.mp found)
  obtain ⟨s', rfl, towed⟩ := towed
  exact ⟨s', view?_eq_some.mpr found', towed.status⟩

/-- Whatever is a task afterwards was one before. -/
theorem Hauled.task_back {r' : Ref} {t' : Task} (found' : h'.view? Task (.object r') = some t') :
    ∃ r t, kept r ∧ place r = r' ∧ h.view? Task (.object r) = some t := by
  obtain ⟨_, o', ⟨⟩, isObject', isTask⟩ := view?_iff.mp found'
  obtain ⟨r, isKept, rfl⟩ := hauled.onto r' o' isObject'
  obtain ⟨o, _, isObject, same, -, towed⟩ := hauled.object r isKept
  cases isObject'.symm.trans same
  have kind := towed.kind
  cases isBody : o.body with
  | task t =>
    exact ⟨r, t, isKept, rfl, view?_iff.mpr ⟨r, o, rfl, isObject, isBody⟩⟩
  | _ =>
    rw [isTask, isBody] at kind
    cases kind

theorem Hauled.mentions (isKept : kept r)
    {t : Task} {q : Ref} (found : h.view? Task (.object r) = some t)
    (mentioned : t.stack = .object q ∨ t.caller = .object q) : kept q := by
  obtain ⟨_, o, ⟨⟩, isObject, isTask⟩ := view?_iff.mp found
  refine hauled.lasting r o q isKept isObject ?_
  rw [isTask]
  rcases mentioned with isStack | isCaller
  · rw [← isStack]
    exact List.mem_cons_self
  · rw [← isCaller]
    exact List.mem_cons_of_mem _ List.mem_cons_self

theorem Hauled.passes {null : Ref} (nullKept : kept null) : h.Passes null kept place h' where
  nullKept := nullKept
  injective := hauled.injective
  kind := by
    intro r o isKept found
    obtain ⟨_, o', same, found', -, towed⟩ := hauled.object r isKept
    cases found.symm.trans same
    exact ⟨o', found', towed.kind⟩
  task _ _ isKept found := hauled.view_task isKept found
  mentions _ _ _ isKept found mentioned := hauled.mentions isKept found mentioned
  stack _ _ isKept found := hauled.view_stack isKept found
  back _ _ found' := .inl (hauled.task_back found')
  owned := by
    intro owned
    constructor
    · intro v t' found'
      obtain ⟨_, _, rfl, -⟩ := view?_iff.mp found'
      obtain ⟨r, t, isKept, rfl, found⟩ := hauled.task_back found'
      obtain rfl := Option.some.inj (found'.symm.trans (hauled.view_task isKept found))
      obtain ⟨s, isStack⟩ := is_iff.mp (owned.stack _ t found)
      obtain ⟨home, _, isHome, -⟩ := view?_iff.mp isStack
      rw [isHome] at isStack
      obtain ⟨s', isStack', -⟩ := hauled.view_stack (hauled.mentions isKept found (.inl isHome)) isStack
      refine is_iff.mpr ⟨s', ?_⟩
      simp only [isHome]
      exact isStack'
    · intro v w t' u' found' other' same
      obtain ⟨_, _, rfl, -⟩ := view?_iff.mp found'
      obtain ⟨_, _, rfl, -⟩ := view?_iff.mp other'
      obtain ⟨r, t, isKept, rfl, found⟩ := hauled.task_back found'
      obtain ⟨q, u, isKept', rfl, other⟩ := hauled.task_back other'
      obtain rfl := Option.some.inj (found'.symm.trans (hauled.view_task isKept found))
      obtain rfl := Option.some.inj (other'.symm.trans (hauled.view_task isKept' other))
      -- the stacks were the same before they moved
      obtain ⟨_, isStack⟩ := is_iff.mp (owned.stack _ t found)
      obtain ⟨_, isStack'⟩ := is_iff.mp (owned.stack _ u other)
      obtain ⟨home, _, isHome, -⟩ := view?_iff.mp isStack
      obtain ⟨home', _, isHome', -⟩ := view?_iff.mp isStack'
      simp only [isHome, isHome', Value.move_object, Value.object.injEq] at same
      have sameHome := hauled.injective home home' (hauled.mentions isKept found (.inl isHome))
        (hauled.mentions isKept' other (.inl isHome')) same
      cases owned.apart _ _ t u found other (by rw [isHome, isHome', sameHome])
      rfl

/-- The copies of a well-formed heap are well formed. -/
theorem Hauled.describes {layout : Ref} {b b' : Body} (described : h.Describes layout b)
    (isKept : kept layout) (towed : b.Towed place b') : h'.Describes (place layout) b' := by
  obtain ⟨l, found, kind, count⟩ := described
  obtain ⟨_, found', isLayout⟩ := hauled.body isKept (view?_eq_some.mp found)
  cases isLayout
  refine ⟨_, view?_eq_some.mpr found', kind.trans towed.kind.symm, ?_⟩
  rintro i rfl
  have isInstance := towed.kind
  cases b with
  | inst j =>
    have size := towed.size
    simp only [Body.size] at size
    have count := count j rfl
    change i.fields.size = l.fieldCount
    omega
  | _ => cases isInstance

theorem Hauled.formed (formed : h.Formed) (accounted : h'.Accounted)
    (addressable : h'.capacity < Space.addressLimit) : h'.Formed where
  accounted := accounted
  addressable := addressable
  described := by
    intro r' o' found'
    obtain ⟨r, isKept, rfl⟩ := hauled.onto r' o' found'
    obtain ⟨o, _, found, same, header, towed⟩ := hauled.object r isKept
    cases found'.symm.trans same
    obtain ⟨layout, isLayout, described⟩ := formed.described r o found
    refine ⟨place layout, by rw [header, isLayout]; rfl, ?_⟩
    exact hauled.describes described (hauled.headers r o layout isKept found isLayout) towed

end Hauling

end Heap

theorem Roots.move_move (p q : Ref → Ref) (roots : Roots) :
    (roots.move p).move q = roots.move (q ∘ p) :=
  congrArg Prod.fst (Machine.moveOutside_moveOutside p q (roots, {}))

theorem Roots.move_id (roots : Roots) : roots.move id = roots := by
  simp [Roots.move]

namespace Machine

/-- A machine that can be collected, with a compiler that leaves tasks alone. -/
structure Formed (m : Machine) : Prop where
  store : m.store.Formed
  compiler : ∀ compiler, m.compiler = some compiler → ∀ v, Store.Tended (compiler v)

/-- What becomes of a machine whose objects move. The first `count` slots are moved along. -/
structure Passes (count : Nat) (kept : Ref → Prop) (place : Ref → Ref) (m m' : Machine) : Prop where
  heap : m.store.heap.Passes m.store.roots.null kept place m'.store.heap
  roots : m'.store.roots = m.store.roots.move place
  slots : ∀ i, i < count → m'.references.slot i = (m.references.slot i).move place
  slotsKept : ∀ i r, i < count → m.references.slot i = .object r → kept r
  settings : m'.settings = m.settings
  compiler : m'.compiler = m.compiler

/-- A well-formed machine stays so while its objects move or not. -/
def Survives (count : Nat) (m m' : Machine) : Prop := m.Formed → count ≤ m.references.slots.size →
    m'.Formed ∧ count ≤ m'.references.slots.size ∧ ∃ kept place, m.Passes count kept place m'

section Surviving

variable {ε α : Type} {count : Nat} {m m' : Machine}
variable {work : Op ε α}

theorem survives_of_tends (store : m.store.Tends m'.store) (settings : m'.settings = m.settings)
    (compiler : m'.compiler = m.compiler)
    (slots : count ≤ m.references.slots.size → count ≤ m'.references.slots.size ∧
      ∀ i, i < count → m'.references.slot i = m.references.slot i) : Survives count m m' := by
  intro formed room
  obtain ⟨room', same⟩ := slots room
  refine ⟨⟨store.formed formed.store, compiler ▸ formed.compiler⟩, room', fun _ => True, id,
    store.heap.passes, ?_, fun i low => ?_, fun _ _ _ _ => trivial,
    settings, compiler⟩
  · rw [Roots.move_id, store.roots]
  · rw [Value.move_id, same i low]

theorem Tends.survives (tends : m.Tends m') : Survives count m m' :=
  survives_of_tends tends.store tends.settings tends.compiler fun room => by
    rw [tends.references]
    exact ⟨room, fun _ _ => rfl⟩

instance : IsPreorder Machine (Survives count) where
  refl m := Tends.survives (refl m)
  trans m m' m'' first second := by
    intro formed room
    obtain ⟨formed', room', kept, place, passes⟩ := first formed room
    obtain ⟨formed'', room'', kept', more, passes'⟩ := second formed' room'
    have null : m'.store.roots.null = place m.store.roots.null := by rw [passes.roots]; rfl
    refine ⟨formed'', room'', _, _, passes.heap.trans (null ▸ passes'.heap),
      ?_, fun i low => ?_, fun i r low isSlot => ?_,
      passes'.settings.trans passes.settings, passes'.compiler.trans passes.compiler⟩
    · rw [passes'.roots, passes.roots, Roots.move_move]
    · rw [passes'.slots i low, passes.slots i low, Value.move_move]
    · refine ⟨passes.slotsKept i r low isSlot, passes'.slotsKept i _ low ?_⟩
      rw [passes.slots i low, isSlot]
      rfl

/-- Work that keeps machines well formed. -/
abbrev Surviving (count : Nat) (work : Op ε α) : Prop := Gentle (Survives count) (fun _ => True) work

theorem Tended.surviving (tended : Tended work) : Surviving count work where
  answered m answer m' done := (tended.answered m answer m' done).survives
  raised m cause m' stopped again := (tended.raised m cause m' stopped again).survives

theorem surviving_of_formed (works : ∀ m, m.Formed → count ≤ m.references.slots.size →
    Action.Within (Survives count) work m fun _ _ => True) : Surviving count work where
  answered m _ _ done formed room := ((works m formed room).answer done).1 formed room
  raised m _ _ stopped _ formed room := (works m formed room).cause stopped formed room

theorem tended_report (level : LogLevel) (message : Unit → String) :
    Tended (report level message : Op ε Unit) where
  answered := by
    rintro m _ _ ⟨⟩
    exact ⟨refl m.store, rfl, rfl, rfl⟩
  raised := by rintro _ _ _ ⟨⟩

theorem leads_collect (pending : Nat) : Leads (collect pending : Op ε Unit) m
    (fun _ m' => (m.store.heap.collect migrateRoots pending m.outside).outcome =
      .ok (m'.outside, m'.store.heap) ∧ m'.settings = m.settings ∧ m'.compiler = m.compiler)
    fun _ _ => False := by
  refine (asks_ask _).leads_bind fun ⟨used, capacity⟩ _ => Action.leads_bind.mpr ?_
  refine (asks_ask _).leads_bind fun ⟨growths, outcome⟩ asked => Action.leads_bind.mpr ?_
  refine (ends_reports growths).leads.imp ?_
  rintro - _ ⟨log, rfl⟩
  refine (Action.asks_check _).leads_bind fun ⟨⟨roots, references⟩, heap⟩ checked => ?_
  have isOutcome : (m.store.heap.collect migrateRoots pending m.outside).outcome =
      .ok ((roots, references), heap) := by
    have collected : m.store.heap.collect migrateRoots pending m.outside = { growths, outcome } := by
      injection asked
    cases outcome with
    | ok found =>
      cases checked
      rw [collected]
    | error violation => cases checked
  exact ⟨isOutcome, rfl, rfl⟩

/-- A collection of a well-formed machine that succeeds moves what it keeps. -/
theorem leads_collect_hauls (pending : Nat) (formed : m.store.Formed) :
    Leads (collect pending : Op ε Unit) m (fun _ m' => (∃ kept place, m.store.heap.Hauled kept
      place m'.store.heap ∧ Heap.MovedAlong kept place m.outside m'.outside) ∧ m'.store.Formed ∧
      m'.settings = m.settings ∧ m'.compiler = m.compiler) fun _ _ => False := by
  refine (leads_collect pending).imp ?_
  rintro - m' ⟨collected, same⟩
  obtain ⟨kept, place, hauled, along, accounted, addressable, -⟩ := Heap.collectInto_hauls
    formed.heap.headed collected
  have roots : m'.store.roots = m.store.roots.move place := along.roots
  refine ⟨⟨kept, place, hauled, along⟩, ⟨hauled.formed formed.heap accounted addressable, fun kind => ?_⟩, same⟩
  obtain ⟨l, found, isKind⟩ := formed.layouts kind
  obtain ⟨_, found', isLayout⟩ := hauled.body
    (along.rootsKept _ (Roots.layout_mem_refs _ kind)) (Heap.view?_eq_some.mp found)
  cases isLayout
  rw [roots, Roots.layout_move]
  exact ⟨_, Heap.view?_eq_some.mpr found', isKind⟩

theorem surviving_collect (pending : Nat) : Surviving count (collect pending : Op ε Unit) := by
  refine surviving_of_formed fun m formed room => (leads_collect_hauls pending formed.store).mono ?_
    fun _ _ absurd => absurd.elim
  rintro - m' ⟨⟨kept, place, hauled, along⟩, formed', settings, compiler⟩
  have slots : m'.references.slots = m.references.slots.map (Value.move place) := along.slots
  have nullKept : kept m.store.roots.null := along.rootsKept _ (by simp [outside, Roots.refs, Roots.others])
  exact ⟨fun _ _ => ⟨⟨formed', compiler ▸ formed.compiler⟩, by rw [slots]; simpa using room, kept, place,
    hauled.passes nullKept, along.roots, fun i _ => References.slot_of_map slots i,
    fun i r _ isSlot => along.slotsKept r (References.mem_slots_of_slot isSlot), settings, compiler⟩, trivial⟩

/-- Work is done again after a collection if it ran out of room. Whatever the work, a collection and
a line of the log keep, all of that keeps. -/
theorem leads_retrying_within {R : Machine → Machine → Prop}
    [IsPreorder Machine R] {work : Op Signal α} (gentle : Gentle R (fun _ => True) work)
    (collects : ∀ size, Gentle R (fun _ => True) (collect size : Op RunError Unit))
    (reports : ∀ level message,
      Gentle R (fun _ => True) (report level message : Op RunError Unit)) :
    Leads (retrying work) m (fun answer m' => ∃ m₁, R m m₁ ∧ work m₁ = .ok answer m') fun _ m' =>
      R m m' := by
  unfold Leads retrying
  cases attempt : work m with
  | ok answer m' => exact ⟨m, Std.Refl.refl m, attempt⟩
  | error stop m₁ =>
    cases stop with
    | raised signal =>
      have first := gentle.raised m signal m₁ attempt trivial
      cases signal with
      | allocationFailed size =>
        have again : Leads (do
            report .debug fun _ => s!"allocation of {size} bytes failed, collecting"
            collect size
            work.mapError RunError.ofSignal : Op RunError α) m₁
            (fun answer m' => ∃ m₁, R m m₁ ∧ work m₁ = .ok answer m') fun _ m' => R m m' := by
          refine Gentle.leads_bind (reports _ _) (fun _ _ more => IsTrans.trans _ _ _ first more) fun _ m₂ more => ?_
          refine Gentle.leads_bind (collects size) (fun _ _ more' => IsTrans.trans _ _ _
            first (IsTrans.trans _ _ _ more more')) fun _ m₃ more' => ?_
          have before : R m m₃ := IsTrans.trans _ _ _ first (IsTrans.trans _ _ _ more more')
          exact Action.leads_mapError.mpr (Action.leads_of
            (fun answer m' done => ⟨m₃, before, done⟩) fun cause m' stopped =>
              IsTrans.trans _ _ _ before (gentle.raised m₃ cause m' stopped trivial))
        exact again
      | _ => exact first
    | _ => trivial

theorem leads_retrying {work : Op Signal α} (surviving : Surviving count work) :
    Leads (retrying work) m (fun answer m' => ∃ m₁, Survives count m m₁ ∧
      work m₁ = .ok answer m') fun _ m' => Survives count m m' :=
  leads_retrying_within surviving surviving_collect fun level message => (tended_report level message).surviving

theorem surviving_retrying {work : Op Signal α} (surviving : Surviving count work) :
    Surviving count (retrying work) where
  answered m answer m' done := by
    obtain ⟨m₁, before, done⟩ := (leads_retrying surviving).answer done
    exact Trans.trans before (surviving.answered m₁ answer m' done)
  raised m cause m' stopped _ := (leads_retrying surviving).cause stopped

/-- Leaving a scope does not concern the slots before it. -/
theorem Survives.left {start : Nat} (survives : Survives count m m') (low : count ≤ start) :
    Survives count m (m'.left start) := by
  refine IsTrans.trans _ _ _ survives (survives_of_tends (refl m'.store) rfl rfl fun room => ?_)
  refine ⟨?_, fun i inside => slot_left (by omega)⟩
  have size : (m'.left start).references.slots.size = min start m'.references.slots.size := by
    simp [Machine.left, References.leave]
  omega

theorem surviving_inScope (surviving : Surviving count work) : Surviving count (inScope work) := by
  refine surviving_of_formed fun m formed room => ?_
  have within := surviving.within m
  unfold Action.Within Leads at within ⊢
  unfold inScope
  cases result : work m with
  | ok answer m' =>
    rw [result] at within
    exact ⟨within.1.left room, trivial⟩
  | error stop m' =>
    rw [result] at within
    cases stop with
    | raised cause => exact within.left room
    | _ => trivial

theorem surviving_root (v : Value) : Surviving count (root v : Op ε Nat) where
  answered := by
    rintro m _ _ ⟨⟩
    refine survives_of_tends (refl m.store) rfl rfl fun room => ⟨?_, fun i low => ?_⟩
    · simp only [References.push, Array.size_push]
      omega
    · have inside : i < m.references.slots.size := by omega
      simp [References.push, References.slot, Array.getD_eq_getD_getElem?, Array.getElem?_push, inside,
        Nat.ne_of_lt inside]
  raised := by rintro _ _ _ ⟨⟩

theorem surviving_rootAll (values : List Value) :
    Surviving count (rootAll values : Op ε (List Nat)) :=
  .mapM _ fun v => surviving_root v

theorem asks_slots (indices : List Nat) : Asks (slots indices : Op ε (Array Value)) := by
  refine Asks.bind ?_ fun _ => asks_pure _
  induction indices with
  | nil => exact asks_pure _
  | cons index indices ih =>
    rw [List.mapM_cons]
    exact (asks_ask _).bind fun _ => ih.bind fun _ => asks_pure _

theorem check_ok {f : Machine → Except Violation α} {answer : α}
    (done : (check f : Op ε α) m = .ok answer m') : f m = .ok answer := by
  unfold check at done
  cases result : f m with
  | ok found => rw [result] at done; cases done; rfl
  | error violation => rw [result] at done; cases done

/-- Code comes from the compiler, with collections where there was no room. -/
theorem surviving_compile (v : Value) : Surviving count (compile v) := by
  refine surviving_inScope ((surviving_root v).bind fun index => surviving_of_formed fun m formed _ => ?_)
  refine (asks_ask _).within_bind fun compiler asked => ?_
  have isCompiler : m.compiler = compiler := by injection asked
  cases compiler with
  | none => exact Action.within_fail _
  | some compiler =>
    have tended := formed.compiler compiler isCompiler
    refine (Gentle.within ?_ m).forget
    refine (asks_check _).gentle.bind fun argc => (tended_report _ _).surviving.bind fun _ =>
      Gentle.bind (surviving_retrying ((asks_ask _).gentle.bind fun w =>
        (tended_onStore (tended w)).surviving)) fun assembly =>
      (surviving_rootAll _).bind fun constants => surviving_retrying ?_
    refine (asks_slots _).gentle.bind fun values =>
      (tended_onStore (Make.tended_plain (.code _) rfl)).surviving.bind fun code =>
      (tended_onStore (Make.tended_plain (.tuple _) rfl)).surviving.bind fun pool => (asks_ask _).gentle.bind
      fun w => Action.gentle_of_within fun m' => (asks_check _).within_bind fun l checked => ?_
    have isLambda := Heap.cast_eq_ok.mp (check_ok checked)
    refine ⟨Tends.survives ⟨Store.tends_adjust fun b isBody => ?_, rfl, rfl, rfl⟩, trivial⟩
    cases (Heap.view?_eq_some.mp isLambda).symm.trans isBody
    exact .ofPlain rfl rfl (by simp [HeapKind.wrap, Body.kind, Body.notedKinds])

end Surviving

end Machine

namespace Heap

variable {h h' : Heap} {v : Value}

theorem Stays.view_stack (stays : h.Stays h') {s : Stack} (found : h.view? Stack v = some s) :
    ∃ s', h'.view? Stack v = some s' ∧ s'.height = s.height := by
  obtain ⟨b', found', similar⟩ := stays.body (view?_eq_some.mp found)
  cases b' with
  | stack s' =>
    have size := similar.size
    simp only [HeapKind.wrap, Body.size] at size
    exact ⟨s', view?_eq_some.mpr found', by omega⟩
  | _ => cases similar.kind

theorem Stays.view_task (stays : h.Stays h') {t : Task} (found : h.view? Task v = some t) :
    ∃ t', h'.view? Task v = some t' := by
  obtain ⟨b', found', similar⟩ := stays.body (view?_eq_some.mp found)
  cases b' with
  | task t' => exact ⟨t', view?_eq_some.mpr found'⟩
  | _ => cases similar.kind

end Heap

theorem Store.forms_put {κ : Type} [HeapKind κ] {s : Store} {v : Value} {old new : κ}
    (found : s.heap.view? κ v = some old) (similar : (HeapKind.wrap old : Body).Similar (HeapKind.wrap new)) :
    s.Forms { s with heap := s.heap.put v new } := by
  refine Store.forms_adjust fun b isBody => ?_
  cases (Heap.view?_eq_some.mp found).symm.trans isBody
  exact similar

namespace Exec

variable {α : Type} {x y : Execution}

/-- What the checks before a stack is replaced have found. -/
structure Replacing (h : Heap) (task grown : Value) (t : Task) (moved kept : Stack) (old ref : Ref)
    (fresh parked : Stack) : Prop where
  isTask : h.view? Task task = some t
  isStack : t.stack = .object old
  isGrown : grown = .object ref
  isFresh : h.view? Stack grown = some fresh
  isParked : h.view? Stack t.stack = some parked
  height : moved.height = fresh.height
  height' : kept.height = parked.height
  status : moved.status = parked.status
  status' : kept.status = parked.status

theorem replacing_of_checks {h : Heap} {task grown : Value} {t : Task} {s moved kept : Stack} {old ref : Ref}
    (first : (do
      let t ← h.cast Task task
      match t.stack, grown with
      | .object old, .object ref => pure (t, ← h.cast Stack grown, old, ref)
      | v, _ => throw (.castFailed (some .stack) v) : Except Violation _) = .ok (t, s, old, ref))
    (second : (do
      let parked ← h.cast Stack t.stack
      let loose ← parked.uncook old
      let copied ← s.copyContents loose
      pure (← copied.recook ref, ← loose.recook old) : Except Violation _) = .ok (moved, kept)) :
    ∃ parked, Replacing h task grown t moved kept old ref s parked := by
  obtain ⟨t', isTask, first⟩ := ok_of_bind first
  obtain ⟨parked, isParked, second⟩ := ok_of_bind second
  obtain ⟨loose, isLoose, second⟩ := ok_of_bind second
  obtain ⟨copied, isCopied, second⟩ := ok_of_bind second
  obtain ⟨moved', isMoved, second⟩ := ok_of_bind second
  obtain ⟨kept', isKept, second⟩ := ok_of_bind second
  cases second
  have copiedOk : copied.status = loose.status ∧ copied.height = s.height := by
    obtain ⟨-, _, failed⟩ | ⟨-, words, done, size, -⟩ := s.copyContents_cases loose
    · cases isCopied.symm.trans failed
    · cases isCopied.symm.trans done
      exact ⟨rfl, size⟩
  obtain ⟨looseStatus, looseHeight⟩ := Stack.relinked_ok (.inl isLoose)
  obtain ⟨movedStatus, movedHeight⟩ := Stack.relinked_ok (.inr isMoved)
  obtain ⟨keptStatus, keptHeight⟩ := Stack.relinked_ok (.inr isKept)
  split at first
  · rename_i isStack isGrown
    obtain ⟨s', isFresh, first⟩ := ok_of_bind first
    cases first
    exact ⟨parked, Heap.cast_eq_ok.mp isTask, isStack, rfl, Heap.cast_eq_ok.mp isFresh,
      Heap.cast_eq_ok.mp isParked, movedHeight.trans copiedOk.2, keptHeight.trans looseHeight,
      movedStatus.trans (copiedOk.1.trans looseStatus), keptStatus.trans looseStatus⟩
  · cases first

/-- The heap after a task has got another stack. -/
def replaced (h : Heap) (task grown : Value) (t : Task) (moved kept : Stack) : Heap :=
  ((h.put grown moved).put t.stack kept).put task { t with stack := grown }

theorem Replacing.forms {s : Store} {task grown : Value} {t : Task} {moved kept fresh parked : Stack}
    {old ref : Ref} (replacing : Replacing s.heap task grown t moved kept old ref fresh parked) :
    s.Forms { s with heap := replaced s.heap task grown t moved kept } := by
  have first := Store.forms_put replacing.isFresh (.stack replacing.height)
  obtain ⟨s₁, isStack₁, height₁⟩ := first.stays.view_stack replacing.isParked
  have second := Store.forms_put isStack₁ (.stack (replacing.height'.trans height₁.symm))
  have both := Trans.trans first second
  obtain ⟨t₂, isTask₂⟩ := both.stays.view_task replacing.isTask
  exact Trans.trans both (Store.forms_put isTask₂ (.task _ _))

theorem tended_shortOf (pc size : Nat) : Tended (shortOf pc size) :=
  (asks_ask _).gentle.bind fun _ => (asks_check _).gentle.bind fun _ =>
    tended_of_answers fun x => ⟨_, _, rfl, refl x.machine, rfl, rfl, rfl⟩

section Running

variable {again : Interrupt → Prop}

theorem final_report (level : LogLevel) (message : Unit → String) :
    Action.Final again (report level message) := Action.final_of_answers fun _ => ⟨_, _, rfl⟩

theorem final_shortOf (pc size : Nat) : Action.Final again (shortOf pc size) :=
  (asks_ask _).final.bind fun _ => (asks_check _).final.bind fun _ =>
    Action.final_of_answers fun _ => ⟨_, _, rfl⟩

theorem final_collect (pending : Nat) :
    Action.Final again (onMachine (Machine.collect pending)) := by
  intro x cause y stopped
  have leads : Leads (onMachine (Machine.collect pending) : Exec Unit) x (fun _ _ => True) fun _ _ => False :=
    leads_onMachine.mpr ((Machine.leads_collect pending).imp fun _ _ _ => trivial)
  exact (leads.cause stopped).elim

theorem final_growStack (once : ∀ error, ¬ again (.failed error)) (height : Nat) :
    Action.Final again (growStack height) :=
  (asks_ask _).final.bind fun _ => (asks_checkStore _).final.bind fun _ =>
    (Action.asks_lift _).final.bind fun _ => (Action.asks_lift _).final.bind fun _ =>
    (final_report _ _).bind fun _ => (final_onMachine once _).bind fun _ =>
    (asks_ask _).final.bind fun _ => (asks_checkStore _).final.bind fun _ =>
    (asks_checkStore _).final.bind fun _ => final_modifyHeap _

/-- Dealing with an interrupt fails only by ending the call with an error. -/
theorem final_recover (once : ∀ error, ¬ again (.failed error)) {pc : Nat}
    {interrupt : Interrupt} (goesOn : ∀ answer, interrupt ≠ .done answer) :
    Action.Final again (do recover pc interrupt; resume : Exec Unit) := by
  refine Action.Final.bind ?_ fun _ => final_resume
  cases interrupt with
  | collect size =>
    refine (final_shortOf pc size).bind fun _ => (final_park pc).bind fun _ =>
      (final_collect _).bind fun _ => (asks_askStore _).final.bind fun free => ?_
    split
    · exact Action.final_fail (once _)
    · exact (asks_pure _).final
  | grow height => exact (final_park pc).bind fun _ => final_growStack once height
  | compile v => exact (final_park pc).bind fun _ => final_onMachine once _
  | done answer => exact absurd rfl (goesOn answer)
  | failed error => exact Action.final_fail (once error)

/-- Turns one after the other. -/
abbrev Reaches : Execution → Execution → Prop := Relation.ReflTransGen Turn

/-- How a run ends: with an instruction that is done, with an interrupt that could not be dealt
with, or without an outcome. -/
inductive RunEnds (x : Execution) : EStateM.Result (Stop RunError) Execution Value → Prop
  | done {y z : Execution} {answer : Value} (reaches : Reaches x y)
    (stepped : step y = .error (.raised (.done answer)) z) : RunEnds x (.ok answer z)
  | failed {y z w : Execution} {interrupt : Interrupt} {error : RunError} (reaches : Reaches x y)
    (stepped : step y = .error (.raised interrupt) z)
    (recovered : (do recover y.pc interrupt; resume : Exec Unit) z = .error (.raised (.failed error)) w) :
    RunEnds x (giveUp error w)
  | stopped {stop : Stop RunError} {z : Execution} (neither : ∀ error, stop ≠ .raised error) :
    RunEnds x (.error stop z)

theorem RunEnds.head {result : EStateM.Result (Stop RunError) Execution Value} (turn : Turn x y)
    (ends : RunEnds y result) : RunEnds x result := by
  cases ends with
  | done reaches stepped => exact .done (.head turn reaches) stepped
  | failed reaches stepped recovered => exact .failed (.head turn reaches) stepped recovered
  | stopped neither => exact .stopped neither

theorem run_ends (budget : Nat) (x : Execution) : RunEnds x (run budget x) := by
  induction budget generalizing x with
  | zero => exact .stopped (by simp)
  | succ budget ih =>
    cases stepped : step x with
    | ok _ x' =>
      have turn := Turn.completed stepped
      rw [turn.run]
      exact (ih _).head turn
    | error stop y =>
      cases stop with
      | broken violation =>
        simp only [run, stepped]
        exact .stopped (by simp)
      | unfinished =>
        simp only [run, stepped]
        exact .stopped (by simp)
      | raised interrupt =>
        by_cases isDone : ∃ answer, interrupt = .done answer
        · obtain ⟨answer, rfl⟩ := isDone
          simp only [run, stepped]
          exact .done .refl stepped
        have goesOn : ∀ answer, interrupt ≠ .done answer := fun answer same => isDone ⟨answer, same⟩
        cases recovered : (do recover x.pc interrupt; resume : Exec Unit) y with
        | ok _ x' =>
          have turn := Turn.recovered stepped recovered
          rw [turn.run]
          exact (ih _).head turn
        | error stop x' =>
          rw [run_interrupted stepped goesOn, recovered]
          cases stop with
          | raised interrupt' =>
            obtain ⟨error, rfl⟩ : ∃ error, interrupt' = .failed error := by
              by_contra none
              exact @final_recover (fun cause => ¬ ∃ error, cause = .failed error)
                (fun error isOther => isOther ⟨error, rfl⟩) _ _ goesOn _ _ _ recovered none
            exact .failed .refl stepped recovered
          | broken violation => exact .stopped (by simp)
          | unfinished => exact .stopped (by simp)

end Running

end Exec

end ObjectMachine
