/-
# ObjectMachine.Proofs.Hosting -- what is done to a machine from outside

Whoever owns a machine makes objects, changes them, enters keys into maps, names globals, collects
and makes calls, in any order, and goes on after each failure. A `Deed` is one such operation, and
`Machine.Reached` says which machines deeds lead to. A deed is `Orderly` if the code it brings in is
disciplined; nothing else is asked of it.

* `Deed.settles` -- an orderly deed leaves an idle machine, however it ends.
* `Machine.Reached.idle` -- so every machine that orderly deeds lead to is idle.
-/
import Mathlib
import ObjectMachine.Proofs.Bootstrap
import ObjectMachine.Proofs.Calls

namespace ObjectMachine

open ObjectMachine.Action (Ends ends_bind mapError)

/-- Something that is written into an object. An object of another kind than is meant stays as it
is. -/
inductive Change where
  | element (index : Nat) (v : Value)
  | field (index : Nat) (v : Value)
  | content (v : Value)
  | target (v : Value)
  | binding (binding : Binding)
  | protocol (v : Value)
  | methods (v : Value)
  | outers (v : Value)
  | compiled (code constants : Value) (maxHeight : Nat)
  | stack (v : Value)
  | caller (v : Value)

/-- An object after something has been written into it. -/
def Change.apply : Change → Body → Body
  | element index v, .array s => .array ⟨s.elements.setIfInBounds index v⟩
  | field index v, .inst i => .inst ⟨i.fields.setIfInBounds index v⟩
  | content v, .cell _ => .cell ⟨v⟩
  | target v, .forwarderDescriptor d => .forwarderDescriptor { d with target := v }
  | binding b, .forwarderDescriptor d => .forwarderDescriptor { d with binding := b }
  | protocol v, .layout l => .layout { l with protocol := v }
  | methods v, .layout l => .layout { l with methods := v }
  | methods v, .protocol p => .protocol { p with methods := v }
  | outers v, .lambda l => .lambda { l with outers := v }
  | compiled code constants maxHeight, .lambda l => .lambda { l with code, constants, maxHeight }
  | stack v, .task t => .task { t with stack := v }
  | caller v, .task t => .task { t with caller := v }
  | _, body => body

/-- Something that is done to a machine from outside. -/
inductive Deed where
  /-- A constructor is tried once. -/
  | make (making : Making)
  | change (v : Value) (written : Change)
  | enter (map key value : Value)
  | addMethod (holder method : Value)
  | defineGlobal (name : String) (v : Value)
  | assemble (assembly : Assembly) (argc : Nat)
  | uncompiled (argc : Nat) (source : Value)
  | register (compiler : Compiler)
  /-- References are taken and given up. -/
  | refer (references : References)
  | collect (pending : Nat)
  | call (budget : Nat) (lambda : Value) (arguments : Array Value)

namespace Deed

/-- What a deed does. -/
def work : Deed → Op RunError Unit
  | make making => discard (mapError RunError.ofSignal (Machine.onStore making.work))
  | change v written => Machine.modifyHeap fun h => h.adjust v written.apply
  | enter map key value =>
    mapError RunError.ofSignal (Machine.onStore (Table.set map key value))
  | addMethod holder method => Machine.addMethod holder method
  | defineGlobal name v => Machine.defineGlobal name v
  | assemble assembly argc => discard (Machine.assemble assembly argc)
  | uncompiled argc source => discard (Machine.uncompiledLambda argc source)
  | register compiler => modify fun m => { m with compiler := some compiler }
  | refer references => Machine.modifyReferences fun _ => references
  | collect pending => Machine.collect pending
  | call budget lambda arguments => discard (Machine.call budget lambda arguments)

/-- Whether lambdas get disciplined code only, and get it once. References that are taken have to be
registered as references are. -/
def Orderly (m : Machine) : Deed → Prop
  | make (.lambda data) => m.store.heap.LambdaSound data
  | change v (.compiled code constants maxHeight) =>
    ∀ l, m.store.heap.view? Lambda v = some l → m.store.heap.is Code l.code = false ∧
      m.store.heap.LambdaSound { l with code, constants, maxHeight }
  | assemble assembly _ =>
    m.store.heap.Fits assembly.units assembly.constants assembly.maxHeight
  | register compiler => compiler.Lawful
  | refer references => references.WellRegistered
  | _ => True

end Deed

/-- The state that work leaves, with an answer or with an error. -/
def Action.Leaves {σ ε α : Type} (work : Action σ ε α) (s s' : σ) : Prop :=
  (∃ answer, work s = .ok answer s') ∨ ∃ cause, work s = .error (.raised cause) s'

/-- The machines that deeds lead to, if all that are done are `admitted`. -/
inductive Machine.Reached (admitted : Machine → Deed → Prop) : Machine → Prop
  | created {settings : Settings} {log : Log} {m : Machine}
      (created : create settings log = .ok m) : Reached admitted m
  | done {m m' : Machine} (deed : Deed) (reached : Reached admitted m) (fits : admitted m deed)
      (leaves : deed.work.Leaves m m') : Reached admitted m'

theorem Action.Settles.leaves {σ ε α : Type} {work : Action σ ε α} {s s' : σ} {settled : σ → Prop}
    (settles : work.Settles s settled) (leaves : work.Leaves s s') : settled s' := by
  unfold Settles at settles
  obtain ⟨answer, ended⟩ | ⟨cause, ended⟩ := leaves <;> rw [ended] at settles <;> exact settles

theorem Action.leaves_discard {σ ε α : Type} {work : Action σ ε α} {answer : α} {s s' : σ}
    (answered : work s = .ok answer s') : (Functor.discard work).Leaves s s' := by
  refine .inl ⟨(), ?_⟩
  change EStateM.map (fun _ => ()) work s = _
  rw [EStateM.map, answered]

namespace Change

theorem similar_apply (change : Change) (b : Body) : b.Similar (change.apply b) := by
  cases change <;> cases b <;>
    first
    | exact .refl _
    | exact ⟨rfl, by simp [apply, Body.size], by simp [apply], by simp [apply, Body.kind]⟩

/-- Nothing is written into stacks. -/
theorem apply_stack (change : Change) (s : Stack) : change.apply (.stack s) = .stack s := by
  cases change <;> rfl

/-- A lambda keeps its code unless it is to get code. -/
theorem apply_lambda (change : Change) (l : Lambda) :
    (∃ code constants maxHeight, change = .compiled code constants maxHeight) ∨
      ∃ l', change.apply (.lambda l) = .lambda l' ∧ l.SameCode l' := by
  cases change with
  | compiled code constants maxHeight => exact .inl ⟨code, constants, maxHeight, rfl⟩
  | _ => exact .inr ⟨_, rfl, rfl, rfl, rfl⟩

end Change

namespace Machine

variable {m m' : Machine}

theorem Idle.changed {v : Value} {change : Change} (idle : m.Idle)
    (orderly : Deed.Orderly m (.change v change)) :
    (m.withHeap (m.store.heap.adjust v change.apply)).Idle := by
  have similar : ∀ b, m.store.heap.bodyOf? v = some b → b.Similar (change.apply b) :=
    fun b _ => change.similar_apply b
  -- all that may be touched is `v`, unless it is a stack
  have evolves : m.store.heap.Evolves (fun r => v = .object r ∧ ∀ s, m.store.heap.bodyOf? v ≠ some (.stack s))
      (m.store.heap.adjust v change.apply) := by
    refine Heap.adjust_evolves similar (fun r b isRef found tight => ?_) fun l found compiled => ?_
    · obtain ⟨s, isStack⟩ : ∃ s, m.store.heap.bodyOf? v = some (.stack s) := by
        by_contra none
        exact tight ⟨isRef, fun s isStack => none ⟨s, isStack⟩⟩
      cases found.symm.trans isStack
      rw [change.apply_stack]
    · obtain ⟨code, constants, maxHeight, rfl⟩ | same := change.apply_lambda l
      · have noCode := (orderly l (Heap.view?_eq_some.mpr found)).1
        rw [compiled] at noCode
        cases noCode
      · exact same
  refine idle.withHeap evolves (idle.store.heap.adjust evolves ?_ similar ?_)
  · rintro r s isStack ⟨rfl, noStack⟩
    exact noStack s isStack
  · intro l l' found becomes
    obtain ⟨code, constants, maxHeight, rfl⟩ | ⟨l'', becomes', same⟩ := change.apply_lambda l
    · cases becomes
      exact .inr ((orderly l (Heap.view?_eq_some.mpr found)).2.evolve evolves ⟨rfl, rfl, rfl⟩)
    · cases becomes.symm.trans becomes'
      exact .inl same

/-- Work on the store that keeps it sound, with whatever signal it ends. -/
theorem ends_attempt {α : Type} {work : Alloc α} {post : α → Store → Prop}
    (idle : m.Idle) (keeps : Store.Keeps (fun _ => False) work m.store post) :
    Ends (mapError RunError.ofSignal (onStore work)) m (fun _ m' => m'.Idle) fun _ m' =>
      m'.Idle := by
  rw [Action.ends_mapError]
  exact (keeps_onStore keeps idle.store).mono (fun _ _ ⟨grown, _⟩ => idle.grown grown)
    fun _ _ ⟨grown, _⟩ => idle.grown grown

theorem ends_make {making : Making} (idle : m.Idle) (orderly : Deed.Orderly m (.make making)) :
    Ends (mapError RunError.ofSignal (onStore making.work)) m (fun _ m' => m'.Idle) fun _ m' =>
      m'.Idle := by
  cases making with
  | lambda data => exact ends_attempt idle (Make.keeps_lambda orderly)
  | inst v => exact ends_attempt idle Make.keeps_inst
  | stack height => exact ends_attempt idle (Make.keeps_stack height)
  | task height => exact ends_attempt idle (Make.keeps_task height)
  | clone v => exact ends_attempt idle (Make.keeps_clone v)
  | _ => exact ends_attempt idle (Making.places _ rfl).keeps

/-- The methods of a holder, or a signal. -/
theorem keeps_methodTable {busy : Ref → Prop} {s : Store} (holder : Value) :
    Store.Keeps busy (methodTable holder) s fun _ _ => True := by
  refine .ask_bind ?_
  split
  · exact .check_bind (by simp) fun _ _ => Store.keeps_pure trivial
  · exact .check_bind (by simp) fun _ _ => Store.keeps_pure trivial
  · exact Store.keeps_fail rfl

theorem ends_retrying_idle {α : Type} {work : Op Signal α} (idle : m.Idle)
    (keeps : ∀ m : Machine, Keeps (fun _ => False) work m fun _ _ => True) :
    Ends (retrying work) m (fun _ m' => m'.Idle) fun _ m' => m'.Idle := by
  refine (ends_retrying (fun _ => True) idle trivial (fun _ _ _ _ _ => trivial)
    (fun _ _ _ _ _ => trivial) fun m idle _ => ?_).mono (fun _ _ idle => idle)
    fun _ _ ⟨idle, _⟩ => idle
  exact (keeps m idle.store).mono (fun _ _ ⟨grown, _⟩ => idle.grown grown) fun _ _ ⟨grown, _⟩ => grown

theorem ends_addMethod {holder method : Value} (idle : m.Idle) :
    Ends (addMethod holder method) m (fun _ m' => m'.Idle) fun _ m' => m'.Idle := by
  refine ends_inScope_idle ?_
  rw [ends_bind, ends_root, ends_bind, ends_root]
  refine (ends_retrying_idle ((idle.push holder).push method) fun m => ?_).bind ?_
  · refine .ask_bind (.bind (keeps_onStore (keeps_methodTable _)) fun table m' _ _ => .ask_bind ?_)
    exact keeps_onStore ((Make.keeps_tuple _).mono fun _ _ _ _ => trivial)
  · intro methods m' idle
    rw [ends_bind, slot, ends_ask, ends_modifyHeap]
    have written := @Idle.changed _ (m'.references.slot m.references.scopedCount)
      (.methods methods) idle trivial
    convert written using 4 with b
    cases b <;> rfl

theorem ends_defineGlobal {name : String} {v : Value} (idle : m.Idle) :
    Ends (defineGlobal name v) m (fun _ m' => m'.Idle) fun _ m' => m'.Idle := by
  refine ends_inScope_idle ?_
  rw [ends_bind, ends_root]
  refine ends_retrying_idle (idle.push v) fun m => .ask_bind ?_
  refine .bind (keeps_onStore (Make.keeps_string name)) fun key m' _ _ => .ask_bind ?_
  exact keeps_onStore (Table.keeps_set _ _ _)

end Machine

/-- The answer of work does not matter to what it leaves. -/
theorem Action.Settles.discard {σ ε α : Type} {work : Action σ ε α} {s : σ} {settled : σ → Prop}
    (settles : work.Settles s settled) : (Functor.discard work).Settles s settled := by
  have sequence : (Functor.discard work) s = EStateM.map (fun _ => ()) work s := rfl
  unfold Settles at settles ⊢
  rw [sequence, EStateM.map]
  cases result : work s with
  | ok answer s' =>
    rw [result] at settles
    exact settles
  | error stop s' =>
    rw [result] at settles
    cases stop <;> exact settles

namespace Deed

open ObjectMachine.Machine

variable {m : Machine} {deed : Deed}

/-- An orderly deed leaves a machine that runs nothing, however it ends. -/
theorem settles (idle : m.Idle) (orderly : deed.Orderly m) : deed.work.Settles m Idle := by
  cases deed with
  | make making => exact (ends_make idle orderly).settles.discard
  | change v written => exact idle.changed orderly
  | enter map key value => exact (ends_attempt idle (Table.keeps_set map key value)).settles
  | addMethod holder method => exact (ends_addMethod idle).settles
  | defineGlobal name v => exact (ends_defineGlobal idle).settles
  | assemble assembly argc => exact (ends_assemble idle orderly).settles.discard
  | uncompiled argc source => exact (ends_uncompiledLambda idle).settles.discard
  | register compiler =>
    have same : ∀ other, some compiler = some other → other.Lawful := by
      rintro _ ⟨⟩
      exact orderly
    exact { idle with compiler := same }
  | refer references => exact idle.withReferences rfl rfl orderly
  | collect pending =>
    refine ((ends_collect pending idle.registered (idle.collectable _)).mono ?_
      fun _ _ absurd => absurd.elim).settles
    rintro - m' ⟨place, carried⟩
    exact idle.carried carried
  | call budget lambda arguments => exact (settles_call idle).discard

end Deed

/-- Whatever has been done to a machine, it runs nothing and is in order. -/
theorem Machine.Reached.idle {m : Machine} (reached : m.Reached fun m deed => deed.Orderly m) :
    m.Idle := by
  induction reached with
  | created created => exact idle_of_create created
  | done deed _ orderly leaves ih => exact (Deed.settles ih orderly).leaves leaves

end ObjectMachine
