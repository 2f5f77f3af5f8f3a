/-
# ObjectMachine.Proofs.Interruption -- interrupted instructions have no effect

An instruction that is interrupted for lack of room, of height or of code is executed again, so it
must not have done anything yet. `Execution.Undisturbed` says what that means: nothing but the
counter and the log differs, and whatever existed is as it was. New objects may lie about that
nobody knows.

Work is put together from three kinds. `Action.Gentle` work disturbs nothing, neither when it
answers nor when it is to be done again; `Action.Final` work is never to be done again; and
`Action.Careful` work disturbs nothing if it is to be done again. Gentle work before careful work is
careful, and so is careful work before final work.

* `Make.adds` -- constructors and builtins only add objects.
* `Exec.Passes.execute` -- what holds of all that instructions are made of holds of instructions.
* `Exec.careful_execute`, `Exec.careful_step` -- every instruction is careful.
* `Exec.step_interrupted_undisturbed` -- an interrupted instruction has had no effect.
-/
import Mathlib
import ObjectMachine.Proofs.Switching

namespace ObjectMachine

namespace Heap

/-- Whatever exists in `h` is the same in `h'`, which may have further objects. -/
structure Extends (h h' : Heap) : Prop where
  object : ∀ r o, h.object? r = some o → h'.object? r = some o
  capacity : h'.capacity = h.capacity
  settings : h'.settings = h.settings
  stats : h'.stats = h.stats

namespace Extends

variable {h h' h'' : Heap}

theorem refl (h : Heap) : h.Extends h := ⟨fun _ _ found => found, rfl, rfl, rfl⟩

theorem trans (first : h.Extends h') (second : h'.Extends h'') : h.Extends h'' :=
  ⟨fun r o found => second.object r o (first.object r o found), second.capacity.trans first.capacity,
    second.settings.trans first.settings, second.stats.trans first.stats⟩

variable (extends' : h.Extends h')
include extends'

theorem view? {α : Type} [HeapKind α] {v : Value} {data : α} (found : h.view? α v = some data) :
    h'.view? α v = some data := by
  obtain ⟨r, o, rfl, isObject, isBody⟩ := view?_iff.mp found
  exact view?_iff.mpr ⟨r, o, rfl, extends'.object r o isObject, isBody⟩

theorem adjust (v : Value) (f : Body → Body) : (h.adjust v f).Extends (h'.adjust v f) := by
  cases v with
  | object r =>
    refine ⟨fun q o found => ?_, extends'.capacity, extends'.settings, extends'.stats⟩
    rw [object?_adjust, Option.map_eq_some_iff] at found ⊢
    obtain ⟨old, isOld, same⟩ := found
    exact ⟨old, extends'.object q old isOld, same⟩
  | _ => exact extends'

theorem adjust_new {r : Ref} (isNew : h.object? r = none) (f : Body → Body) :
    h.Extends (h'.adjust (.object r) f) := by
  refine ⟨fun q o found => ?_, extends'.capacity, extends'.settings, extends'.stats⟩
  have differs : r ≠ q := by
    rintro rfl
    rw [isNew] at found
    cases found
  rw [object?_adjust, extends'.object q o found, Option.map_some, if_neg differs]

/-- What nothing leads to is not found later on either: new objects are garbage. -/
theorem reachable_iff {start : Ref → Prop}
    (inside : ∀ r, h.Reachable start r → ∃ o, h.object? r = some o) (r : Ref) :
    h'.Reachable start r ↔ h.Reachable start r := by
  constructor
  · intro reached
    induction reached with
    | root isRoot => exact .root isRoot
    | edge _ found mentioned ih =>
      obtain ⟨o, isOld⟩ := inside _ ih
      cases (extends'.object _ o isOld).symm.trans found
      exact .edge ih isOld mentioned
  · intro reached
    induction reached with
    | root isRoot => exact .root isRoot
    | edge _ found mentioned ih => exact .edge ih (extends'.object _ _ found) mentioned

end Extends

end Heap

/-- The store has the same roots and whatever it had. -/
structure Store.Extends (s s' : Store) : Prop where
  heap : s.heap.Extends s'.heap
  roots : s'.roots = s.roots

/-- Nothing has happened to a machine but new objects and reports. -/
structure Machine.Undisturbed (m m' : Machine) : Prop where
  store : m.store.Extends m'.store
  references : m'.references = m.references
  settings : m'.settings = m.settings
  compiler : m'.compiler = m.compiler
  output : m'.output = m.output

/-- Nothing has happened to a call but new objects, reports, and another next instruction. -/
structure Execution.Undisturbed (x y : Execution) : Prop where
  machine : x.machine.Undisturbed y.machine
  rootTask : y.rootTask = x.rootTask
  currentTask : y.currentTask = x.currentTask
  stack : y.stack = x.stack
  limit : y.limit = x.limit
  fp : y.fp = x.fp
  sp : y.sp = x.sp
  lambda : y.lambda = x.lambda
  shortage : y.shortage = x.shortage

theorem Execution.Undisturbed.adjust_new {x y : Execution} {r : Ref} (undisturbed : x.Undisturbed y)
    (isNew : x.heap.object? r = none) (f : Body → Body) :
    x.Undisturbed { y with
      machine := y.machine.withHeap (y.heap.adjust (.object r) f) } :=
  { undisturbed with machine := { undisturbed.machine with
      store := ⟨undisturbed.machine.store.heap.adjust_new isNew f, undisturbed.machine.store.roots⟩ } }

instance : IsPreorder Store Store.Extends where
  refl s := ⟨.refl s.heap, rfl⟩
  trans _ _ _ first second := ⟨first.heap.trans second.heap, second.roots.trans first.roots⟩

theorem Execution.Undisturbed.stacked {x y : Execution} {s : Stack} (undisturbed : x.Undisturbed y)
    (found : x.Stacked s) : y.Stacked s := by
  rw [Stacked, undisturbed.stack]
  exact Heap.view?_eq_some.mp (undisturbed.machine.store.heap.view?
    (Heap.view?_eq_some (α := Stack).mpr found))

instance : IsPreorder Machine Machine.Undisturbed where
  refl m := ⟨refl m.store, rfl, rfl, rfl, rfl⟩
  trans _ _ _ first second := ⟨Trans.trans first.store second.store, second.references.trans first.references,
      second.settings.trans first.settings, second.compiler.trans first.compiler,
      second.output.trans first.output⟩

instance : IsPreorder Execution Execution.Undisturbed where
  refl x := ⟨refl x.machine, rfl, rfl, rfl, rfl, rfl, rfl, rfl, rfl⟩
  trans _ _ _ first second := ⟨Trans.trans first.machine second.machine, second.rootTask.trans first.rootTask,
      second.currentTask.trans first.currentTask, second.stack.trans first.stack,
      second.limit.trans first.limit, second.fp.trans first.fp, second.sp.trans first.sp,
      second.lambda.trans first.lambda, second.shortage.trans first.shortage⟩

namespace Action

variable {σ ε α β : Type}

/-- Work that is harmless when it answers, and when it is to be done again. -/
structure Gentle (harmless : σ → σ → Prop) (again : ε → Prop) (work : Action σ ε α) : Prop where
  answered : ∀ s answer s', work s = .ok answer s' → harmless s s'
  raised : ∀ s cause s', work s = .error (.raised cause) s' → again cause → harmless s s'

/-- Work that is harmless when it is to be done again. -/
def Careful (harmless : σ → σ → Prop) (again : ε → Prop) (work : Action σ ε α) : Prop :=
  ∀ s cause s', work s = .error (.raised cause) s' → again cause → harmless s s'

/-- Work that is never to be done again. -/
def Final (again : ε → Prop) (work : Action σ ε α) : Prop :=
  ∀ s cause s', work s = .error (.raised cause) s' → ¬ again cause

variable {harmless : σ → σ → Prop} {again : ε → Prop} {work : Action σ ε α}
  {first : Action σ ε α} {next : α → Action σ ε β}

theorem Gentle.careful (gentle : Gentle harmless again work) : Careful harmless again work := gentle.raised

theorem Final.careful (final : Final again work) : Careful harmless again work :=
  fun s cause s' stopped isAgain => absurd isAgain (final s cause s' stopped)

theorem bind_error {s : σ}
    {stop : Stop ε} {s' : σ} (stopped : (first >>= next) s = .error stop s') :
    first s = .error stop s' ∨ ∃ middle s₁, first s = .ok middle s₁ ∧
      next middle s₁ = .error stop s' := by
  cases result : first s with
  | ok middle s₁ => exact .inr ⟨middle, s₁, rfl, (bind_eq_of_ok result).symm.trans stopped⟩
  | error stop₁ s₁ =>
    cases (bind_eq_of_error result).symm.trans stopped
    exact .inl rfl

theorem Careful.after [IsTrans σ harmless] (gentle : Gentle harmless again first)
    (careful : ∀ answer, Careful harmless again (next answer)) :
    Careful harmless again (first >>= next) := by
  intro s cause s' stopped isAgain
  obtain stopped | ⟨middle, s₁, done, stopped⟩ := bind_error stopped
  · exact gentle.raised s cause s' stopped isAgain
  · exact Trans.trans (gentle.answered s middle s₁ done) (careful middle s₁ cause s' stopped isAgain)

theorem Careful.before (careful : Careful harmless again first)
    (final : ∀ answer, Final again (next answer)) : Careful harmless again (first >>= next) := by
  intro s cause s' stopped isAgain
  obtain stopped | ⟨middle, s₁, -, stopped⟩ := bind_error stopped
  · exact careful s cause s' stopped isAgain
  · exact absurd isAgain (final middle s₁ cause s' stopped)

theorem Gentle.bind [IsTrans σ harmless]
    (gentle : Gentle harmless again first) (rest : ∀ answer, Gentle harmless again (next answer)) :
    Gentle harmless again (first >>= next) where
  answered s answer s' done := by
    obtain ⟨middle, s₁, isFirst, isNext⟩ := bind_ok done
    exact Trans.trans (gentle.answered s middle s₁ isFirst) ((rest middle).answered s₁ answer s' isNext)
  raised := Careful.after gentle fun answer => (rest answer).careful

theorem Final.bind (final : Final again first) (rest : ∀ answer, Final again (next answer)) :
    Final again (first >>= next) := by
  intro s cause s' stopped
  obtain stopped | ⟨middle, s₁, -, stopped⟩ := bind_error stopped
  · exact final s cause s' stopped
  · exact rest middle s₁ cause s' stopped

/-- Work that only asks: it answers or finds a broken invariant, and the state stays. -/
def Asks (work : Action σ ε α) : Prop :=
  ∀ s, (∃ answer, work s = .ok answer s) ∨ ∃ violation, work s = .error (.broken violation) s

theorem Asks.same (asks : Asks work) {s s' : σ} {answer : α} (done : work s = .ok answer s') :
    s' = s := by
  obtain ⟨_, same⟩ | ⟨_, same⟩ := asks s
  · cases done.symm.trans same
    rfl
  · cases done.symm.trans same

theorem Asks.bind_ok (asks : Asks first)
    {s s' : σ} {answer : β} (done : (first >>= next) s = .ok answer s') :
    ∃ middle, first s = .ok middle s ∧ next middle s = .ok answer s' := by
  obtain ⟨middle, s₁, isMiddle, done⟩ := Action.bind_ok done
  cases asks.same isMiddle
  exact ⟨middle, isMiddle, done⟩

theorem Asks.final (asks : Asks work) : Final again work := by
  intro s cause s' stopped
  obtain ⟨_, same⟩ | ⟨_, same⟩ := asks s <;> cases stopped.symm.trans same

theorem Asks.gentle [Std.Refl harmless] (asks : Asks work) : Gentle harmless again work where
  answered s answer s' done := by
    cases asks.same done
    exact refl s
  raised := asks.final.careful

theorem Asks.bind (asks : Asks first) (rest : ∀ answer, Asks (next answer)) :
    Asks (first >>= next) := by
  intro s
  obtain ⟨answer, same⟩ | ⟨violation, same⟩ := asks s
  · rw [bind_eq_of_ok same]
    exact rest answer s
  · exact .inr ⟨violation, bind_eq_of_error same⟩

theorem asks_pure (answer : α) : Asks (pure answer : Action σ ε α) := fun _ => .inl ⟨_, rfl⟩

theorem asks_violate (violation : Violation) : Asks (violate violation : Action σ ε α) :=
  fun _ => .inr ⟨_, rfl⟩

theorem asks_check (result : Except Violation α) : Asks (check result : Action σ ε α) := by
  cases result with
  | ok answer => exact asks_pure answer
  | error violation => exact asks_violate violation

theorem asks_lift (result : Except Violation α) : Asks (liftM result : EStateM (Stop ε) σ α) :=
  asks_check result

theorem final_fail {cause : ε} (isOnce : ¬ again cause) :
    Final again (fail cause : Action σ ε α) := by
  rintro s _ s' ⟨⟩
  exact isOnce

theorem final_of_answers (answers : ∀ s, ∃ answer s', work s = .ok answer s') :
    Final again work := by
  intro s cause s' stopped
  obtain ⟨_, _, done⟩ := answers s
  cases stopped.symm.trans done

theorem Gentle.lift_bind {result : Except Violation α} {next : α → Action σ ε β}
    (rest : ∀ answer, result = .ok answer → Gentle harmless again (next answer)) :
    Gentle harmless again ((liftM result : EStateM (Stop ε) σ α) >>= next) := by
  cases result with
  | ok answer => exact rest answer rfl
  | error violation => exact ⟨by rintro _ _ _ ⟨⟩, by rintro _ _ _ ⟨⟩⟩

theorem gentle_fail [Std.Refl harmless] (cause : ε) :
    Gentle harmless again (fail cause : Action σ ε α) where
  answered := by rintro _ _ _ ⟨⟩
  raised := by
    rintro s _ _ ⟨⟩ -
    exact refl s

theorem Gentle.ite {p : Prop} [Decidable p] {no : Action σ ε α}
    (yes : p → Gentle harmless again work) (rest : ¬ p → Gentle harmless again no) :
    Gentle harmless again (if p then work else no) := by
  split
  · exact yes ‹p›
  · exact rest ‹¬ p›

theorem Gentle.mapM [IsPreorder σ harmless] {f : α → Action σ ε β} (list : List α)
    (each : ∀ a, Gentle harmless again (f a)) : Gentle harmless again (list.mapM f) := by
  induction list with
  | nil => exact (asks_pure _).gentle
  | cons a list ih =>
    rw [List.mapM_cons]
    exact (each a).bind fun _ => ih.bind fun _ => (asks_pure _).gentle

end Action

open ObjectMachine.Action (Asks asks_lift asks_pure asks_violate bind_eq_of_ok bind_ok final_of_answers
  gentle_fail mapError)

namespace Store

variable {α β : Type}

/-- Work that only adds objects, however it ends. -/
abbrev Adds (work : Alloc α) : Prop := Action.Gentle Store.Extends (fun _ => True) work

theorem asks_ask {ε : Type} (f : Store → α) : Asks (ask f : Action Store ε α) := fun _ => .inl ⟨_, rfl⟩

theorem asks_check {ε : Type} (f : Store → Except Violation α) :
    Asks (check f : Action Store ε α) := by
  intro s
  unfold check
  cases f s with
  | ok answer => exact .inl ⟨answer, rfl⟩
  | error violation => exact .inr ⟨violation, rfl⟩

/-- A property that several steps of work have together, and that work has which only asks or
refuses. -/
structure Composes (P : {α : Type} → Alloc α → Prop) : Prop where
  bind {α β : Type} {first : Alloc α} {next : α → Alloc β} (isFirst : P first) (rest : ∀ a, P (next a)) :
    P (first >>= next)
  asks {α : Type} {work : Alloc α} (asks : Asks work) : P work
  fail {α : Type} {signal : Signal} (roomy : ∀ size, signal ≠ .allocationFailed size) :
    P (Action.fail signal : Alloc α)

namespace Composes

variable {P : {α : Type} → Alloc α → Prop} (composes : Composes P)
include composes

theorem narrow (κ : Type) [HeapKind κ] (v : Value) : P (narrow κ v) := by
  refine composes.bind (composes.asks (asks_check _)) fun target =>
    composes.bind (composes.asks (asks_ask _)) fun found => ?_
  cases found with
  | some data => exact composes.asks (asks_pure _)
  | none => exact composes.fail nofun

theorem narrowInt (v : Value) : P (narrowInt v) := by
  refine composes.bind (composes.asks (asks_check _)) fun target => ?_
  cases target with
  | int n => exact composes.asks (asks_pure _)
  | _ => exact composes.fail nofun

/-- The most that a builtin does to the store is to make a string. -/
theorem closed (string : ∀ content, P (Make.string content)) :
    Builtin.Closed fun _ work => P work where
  pure _ := composes.asks (asks_pure _)
  bind := composes.bind
  fail _ := composes.fail
  ask _ := composes.asks (asks_ask _)
  argument _ _ := composes.asks (asks_lift _)
  equal _ _ := composes.asks (asks_check _)
  display _ := composes.asks (asks_check _)
  narrow κ := composes.narrow κ
  narrowInt := composes.narrowInt
  string := string

/-- What placing one plain object has, work that places such objects has. -/
theorem places {work : Alloc α} (places : Make.Places work)
    (each : ∀ {size : Nat} {kind : Kind} {body : Unit → Body}, (body ()).kind = kind →
      Make.isPlain kind = true → Size.roundUp size = Size.roundUp (body ()).size →
      P (Make.placeLazy kind size body)) : P work := by
  induction places with
  | done answer => exact composes.asks (asks_pure answer)
  | refused storage => exact composes.asks (asks_violate _)
  | root f _ ih => exact composes.bind (composes.asks (asks_ask _)) ih
  | @lift _ _ _ result _ _ ih =>
    cases result with
    | ok answer => exact ih answer rfl
    | error violation => exact composes.asks fun _ => .inr ⟨violation, rfl⟩
  | place isKind plain fits => exact each isKind plain fits
  | bind _ _ ih ih' => exact composes.bind ih ih'

end Composes

theorem gentle_composes {R : Store → Store → Prop} [IsPreorder Store R] {again : Signal → Prop} :
    Composes fun {_} work => Action.Gentle R again work :=
  ⟨fun isFirst rest => isFirst.bind rest, fun asks => asks.gentle, fun _ => gentle_fail _⟩

end Store

namespace Heap

theorem Extends.extended (h : Heap) (object : Object) (size : Nat) :
    h.Extends (h.extended object size) :=
  ⟨fun _ _ found => object?_extended_of_some found, rfl, rfl, rfl⟩

end Heap

namespace Make

open Store

/-- A property that work of constructors has if the allocation of one object has it. -/
structure Allots (P : {α : Type} → Alloc α → Prop) : Prop extends Composes P where
  allocate (size : Nat) (object : Unit → Object) : P (onHeap (Heap.allocate size object))

namespace Allots

variable {P : {α : Type} → Alloc α → Prop} (allots : Allots P)
include allots

theorem placeAs (layout : Ref) (size : Nat) (body : Unit → Body) : P (placeAs layout size body) :=
  allots.bind (allots.allocate _ _) fun _ => allots.asks (asks_pure _)

theorem placeLazy (kind : Kind) (size : Nat) (body : Unit → Body) : P (placeLazy kind size body) :=
  allots.bind (allots.asks (asks_ask _)) fun _ => allots.placeAs _ _ _

theorem plain (making : Making) (plain : making.isPlain = true) : P making.work :=
  allots.places (making.places plain) fun _ _ _ => allots.placeLazy _ _ _

theorem inst (layout : Value) : P (inst layout) := by
  refine allots.bind (allots.asks (asks_check _)) fun l => iteInduction (fun _ => allots.asks (asks_violate _))
    fun _ => allots.bind (allots.asks (asks_lift _)) fun size => allots.bind (allots.asks (asks_ask _)) fun null => ?_
  cases layout with
  | object r => exact allots.placeAs _ _ _
  | _ => exact allots.asks (asks_violate _)

theorem stack (height : Nat) : P (stack height) :=
  allots.bind (allots.asks (asks_lift _)) fun _ => allots.placeLazy _ _ _

theorem task (height : Nat) : P (task height) :=
  allots.bind (allots.stack height) fun _ => allots.bind (allots.asks (asks_ask _)) fun _ => allots.placeLazy _ _ _

theorem clone (v : Value) : P (clone v) := by
  refine allots.bind (allots.asks (asks_ask _)) fun found => ?_
  split
  · exact allots.asks (asks_violate _)
  · exact allots.asks (asks_violate _)
  · exact allots.bind (allots.allocate _ _) fun _ => allots.asks (asks_pure _)

theorem string : Builtin.Closed fun _ work => P work := allots.closed fun _ => allots.plain (.string _) rfl

end Allots

/-- Constructors only add objects. -/
theorem adds : Allots fun {_} work => Adds work where
  toComposes := gentle_composes
  allocate size object :=
    { answered s answer s' done := by
        obtain ⟨-, -, rfl⟩ := onHeap_allocate_ok done
        exact ⟨.extended _ _ _, rfl⟩
      raised s cause s' stopped _ := by
        cases onHeap_allocate_error stopped
        exact refl s }

theorem clone_ok {v made : Value} {s s' : Store} (done : clone v s = .ok made s') :
    ∃ o, s.heap.objectOf? v = some o ∧ made = .object ⟨s.heap.objects.size⟩ ∧
      s' = { s with heap := s.heap.extended o o.body.size } := by
  obtain ⟨found, s₁, asked, done⟩ := bind_ok done
  obtain ⟨isFound, rfl⟩ : s.heap.objectOf? v = found ∧ s = s₁ := by
    injection asked with isFound same
    exact ⟨isFound, same⟩
  split at done
  · cases done
  · cases done
  · rename_i o _
    obtain ⟨r, s₂, allocated, ⟨⟩⟩ := bind_ok done
    obtain ⟨-, rfl, rfl⟩ := onHeap_allocate_ok allocated
    exact ⟨o, isFound, rfl, rfl⟩

end Make

namespace Machine

variable {α : Type}

theorem asks_ask {ε : Type} (f : Machine → α) : Asks (ask f : Op ε α) := fun _ => .inl ⟨_, rfl⟩

theorem asks_check {ε : Type} (f : Machine → Except Violation α) : Asks (check f : Op ε α) := by
  intro m
  unfold check
  cases f m with
  | ok answer => exact .inl ⟨answer, rfl⟩
  | error violation => exact .inr ⟨violation, rfl⟩

section Stored

variable {ε : Type} {work : Action Store ε α} {m m' : Machine}

theorem onStore_ok {answer : α} (done : onStore work m = .ok answer m') :
    ∃ store, work m.store = .ok answer store ∧ m' = { m with store } := by
  cases result : work m.store with
  | ok found store =>
    simp only [onStore, result] at done
    cases done
    exact ⟨store, rfl, rfl⟩
  | error stop store =>
    simp only [onStore, result] at done
    cases done

theorem onStore_error {stop : Stop ε} (stopped : onStore work m = .error stop m') :
    ∃ store, work m.store = .error stop store ∧ m' = { m with store } := by
  cases result : work m.store with
  | ok found store =>
    simp only [onStore, result] at stopped
    cases stopped
  | error stop store =>
    simp only [onStore, result] at stopped
    cases stopped
    exact ⟨store, rfl, rfl⟩

end Stored

theorem gentle_onStore {work : Alloc α} (adds : Store.Adds work) :
    Action.Gentle Undisturbed (fun _ => True) (onStore work) where
  answered m answer m' done := by
    obtain ⟨_, isDone, rfl⟩ := onStore_ok done
    exact ⟨adds.answered _ _ _ isDone, rfl, rfl, rfl, rfl⟩
  raised m cause m' stopped _ := by
    obtain ⟨_, isStop, rfl⟩ := onStore_error stopped
    exact ⟨adds.raised _ _ _ isStop trivial, rfl, rfl, rfl, rfl⟩

end Machine

namespace Builtin

open Store

/-- Printing cannot fail. -/
theorem final_print {again : Signal → Prop} (call : Call) : Action.Final again (print call) :=
  (asks_lift _).final.bind fun _ => (Machine.asks_check _).final.bind fun _ =>
    Action.Final.bind (final_of_answers fun _ => ⟨_, _, rfl⟩) fun _ => (Machine.asks_ask _).final

/-- A builtin that fails has disturbed nothing. -/
theorem careful_run {builtin : Builtin} (member : builtin ∈ all) (call : Call) :
    Action.Careful Machine.Undisturbed (fun _ => True) (builtin.run call) := by
  rcases Make.adds.string.run member call with ⟨work, isRun, adds⟩ | isPrint
  · rw [isRun]
    exact (Machine.gentle_onStore adds).careful
  · rw [isPrint]
    exact (final_print call).careful

end Builtin

/-- An instruction that was interrupted so is executed again. -/
def Interrupt.isRetried : Interrupt → Bool
  | collect _ | grow _ | compile _ => true
  | done _ | failed _ => false

/-- Instructions that may hand over to another task, or make one. -/
def Instruction.switches : Instruction → Bool
  | .ret | .task | .yield | .attach => true
  | _ => false

/-- Instructions that change the innermost marker. -/
def Instruction.marks : Instruction → Bool
  | .mark _ | .unmark => true
  | _ => false

namespace Exec

variable {α β : Type} {again : Interrupt → Prop}

/-- Work that disturbs nothing, unless it ends the call. -/
abbrev Gentle (work : Exec α) : Prop :=
  Action.Gentle Execution.Undisturbed (fun interrupt => interrupt.isRetried = true) work

/-- Work that disturbs nothing if the instruction is executed again. -/
abbrev Careful (work : Exec α) : Prop :=
  Action.Careful Execution.Undisturbed (fun interrupt => interrupt.isRetried = true) work

/-- Work after which the instruction is not executed again. -/
abbrev Final (work : Exec α) : Prop := Action.Final (fun interrupt => interrupt.isRetried = true) work

section Layers

variable {ε : Type} {f : ε → Interrupt} {work : Op ε α}

theorem onMachine_ok {x y : Execution} {answer : α} (done : onMachine (mapError f work) x = .ok answer y) :
    ∃ m, work x.machine = .ok answer m ∧ y = { x with machine := m } := by
  cases result : work x.machine with
  | ok found m =>
    simp only [onMachine, mapError, result] at done
    cases done
    exact ⟨m, rfl, rfl⟩
  | error stop m =>
    simp only [onMachine, mapError, result] at done
    cases done

theorem onMachine_error {x y : Execution} {cause : Interrupt}
    (stopped : onMachine (mapError f work) x = .error (.raised cause) y) :
    ∃ raised m, work x.machine = .error (.raised raised) m ∧ cause = f raised ∧ y = { x with machine := m } := by
  cases result : work x.machine with
  | ok found m =>
    simp only [onMachine, mapError, result] at stopped
    cases stopped
  | error stop m =>
    simp only [onMachine, mapError, result] at stopped
    cases stop <;> cases stopped
    exact ⟨_, m, rfl, rfl, rfl⟩

/-- Work on the machine is not done again for reasons that it does not have. -/
theorem final_onMachine (other : ∀ cause, ¬ again (f cause)) (work : Op ε α) :
    Action.Final again (onMachine (mapError f work)) := by
  intro x cause y stopped
  obtain ⟨raised, _, -, rfl, -⟩ := onMachine_error stopped
  exact other raised

theorem undisturbed_withMachine {x : Execution} {m : Machine} (undisturbed : x.machine.Undisturbed m) :
    x.Undisturbed { x with machine := m } := ⟨undisturbed, rfl, rfl, rfl, rfl, rfl, rfl, rfl, rfl⟩

theorem careful_onMachine (careful : Action.Careful Machine.Undisturbed (fun _ => True) work) :
    Careful (onMachine (mapError f work)) := by
  intro x cause y stopped _
  obtain ⟨_, _, isStop, -, rfl⟩ := onMachine_error stopped
  exact undisturbed_withMachine (careful _ _ _ isStop trivial)

theorem gentle_onMachine (gentle : Action.Gentle Machine.Undisturbed (fun _ => True) work) :
    Gentle (onMachine (mapError f work)) where
  answered x answer y done := by
    obtain ⟨_, isDone, rfl⟩ := onMachine_ok done
    exact undisturbed_withMachine (gentle.answered _ _ _ isDone)
  raised := careful_onMachine gentle.careful

theorem gentle_alloc {work : Alloc α} (adds : Store.Adds work) : Gentle (alloc work) :=
  gentle_onMachine (Machine.gentle_onStore adds)

end Layers

section Registers

theorem asks_ask (f : Execution → α) : Asks (ask f) := fun _ => .inl ⟨_, rfl⟩

theorem asks_check (f : Execution → Except Violation α) : Asks (check f) := by
  intro x
  unfold check
  cases f x with
  | ok answer => exact .inl ⟨answer, rfl⟩
  | error violation => exact .inr ⟨violation, rfl⟩

theorem asks_askStore (f : Store → α) : Asks (askStore f) := asks_ask _

theorem asks_checkStore (f : Store → Except Violation α) : Asks (checkStore f) := asks_check _

theorem asks_peek (index : Nat) : Asks (peek index) := (asks_check _).bind fun _ => asks_check _

theorem asks_top (count : Nat) : Asks (top count) := (asks_check _).bind fun _ => asks_check _

theorem asks_argument (index : Nat) : Asks (argument index) := (asks_check _).bind fun _ => asks_check _

theorem asks_localValue (index : Nat) : Asks (localValue index) := (asks_ask _).bind fun _ => asks_check _

theorem asks_constant (index : UInt16) : Asks (constant index) := asks_check _

theorem gentle_narrow (κ : Type) [HeapKind κ] (v : Value) : Gentle (narrow κ v) :=
  gentle_alloc (Store.gentle_composes.narrow κ v)

theorem gentle_jump (pc : Nat) : Gentle (jump pc) where
  answered := by
    rintro x _ _ ⟨⟩
    exact ⟨refl x.machine, rfl, rfl, rfl, rfl, rfl, rfl, rfl, rfl⟩
  raised := by rintro _ _ _ ⟨⟩

theorem gentle_report (level : LogLevel) (message : Unit → String) :
    Gentle (report level message) where
  answered := by
    rintro x _ _ ⟨⟩
    exact undisturbed_withMachine ⟨refl x.machine.store, rfl, rfl, rfl, rfl⟩
  raised := by rintro _ _ _ ⟨⟩

theorem final_fail (error : RunError) : Final (fail error : Exec α) :=
  Action.final_fail (by simp [Interrupt.isRetried])

theorem final_modifyHeap (f : Heap → Heap) : Action.Final again (modifyHeap f) :=
  final_of_answers fun _ => ⟨_, _, rfl⟩

theorem final_write (offset : Nat) (slot : Slot) : Action.Final again (write offset slot) :=
  final_of_answers fun _ => ⟨_, _, rfl⟩

/-- A property that work of several steps has if its steps have it, of work that asks, writes words
and changes registers. -/
structure Steps (P : {α : Type} → Exec α → Prop) : Prop where
  bind {α β : Type} {first : Exec α} {next : α → Exec β} (isFirst : P first) (rest : ∀ a, P (next a)) :
    P (first >>= next)
  asks {α : Type} {work : Exec α} (asks : Asks work) : P work
  write (offset : Nat) (slot : Slot) : P (write offset slot)
  registers {work : Exec Unit} (answers : ∀ x, ∃ fp sp pc lambda, work x = .ok () { x with fp, sp, pc, lambda }) :
    P work

namespace Steps

variable {P : {α : Type} → Exec α → Prop} (steps : Steps P)
include steps

theorem ask {first : Exec α} {next : α → Exec β} (asks : Asks first) (rest : ∀ a, P (next a)) :
    P (first >>= next) := steps.bind (steps.asks asks) rest

theorem violate (violation : Violation) : P (Action.violate violation : Exec α) := steps.asks (asks_violate _)

theorem jump (pc : Nat) : P (jump pc) := steps.registers fun _ => ⟨_, _, _, _, rfl⟩

theorem push (v : Value) : P (push v) :=
  iteInduction (fun _ => steps.violate _) fun _ => steps.ask (asks_ask _) fun _ => steps.bind (steps.write _ _)
    fun _ => steps.registers fun _ => ⟨_, _, _, _, rfl⟩

theorem drop (count : Nat) : P (drop count) :=
  steps.ask (asks_check _) fun _ => steps.registers fun _ => ⟨_, _, _, _, rfl⟩

theorem setPeek (index : Nat) (v : Value) : P (setPeek index v) :=
  steps.ask (asks_check _) fun _ => steps.write _ _

theorem pop : P pop := steps.ask (asks_peek _) fun _ => steps.bind (steps.drop _) fun _ =>
    steps.asks (asks_pure _)

end Steps

theorem final_steps : Steps fun {_} work => Action.Final again work where
  bind final rest := final.bind rest
  asks asks := asks.final
  write := final_write
  registers answers := final_of_answers fun x => by
    obtain ⟨_, _, _, _, isAnswer⟩ := answers x
    exact ⟨_, _, isAnswer⟩

theorem final_push (v : Value) : Action.Final again (push v) := final_steps.push v

theorem final_drop (count : Nat) : Action.Final again (drop count) := final_steps.drop count

theorem final_setPeek (index : Nat) (v : Value) : Action.Final again (setPeek index v) :=
  final_steps.setPeek index v

theorem final_pop : Action.Final again pop := final_steps.pop

theorem final_setMarker (marker : Option Nat) : Action.Final again (setMarker marker) :=
  (asks_ask _).final.bind fun _ => final_modifyHeap _

theorem final_setCurrentTask (task : Value) : Action.Final again (setCurrentTask task) :=
  (asks_ask _).final.bind fun _ => final_of_answers fun _ => ⟨_, _, rfl⟩

/-- Looking through forwarders does not allocate. -/
theorem final_narrow (κ : Type) [HeapKind κ] (v : Value) : Final (narrow κ v) := by
  have only : Action.Final (fun signal => signal ≠ .typeMismatch) (Store.narrow κ v) := by
    refine (Store.asks_check _).final.bind fun target => (Store.asks_ask _).final.bind fun found => ?_
    cases found with
    | some data => exact (asks_pure _).final
    | none => exact Action.final_fail (by simp)
  intro x cause y stopped
  obtain ⟨signal, _, isStop, rfl, -⟩ := onMachine_error stopped
  obtain ⟨_, isStop', -⟩ := Machine.onStore_error isStop
  obtain rfl : signal = .typeMismatch := by simpa using only _ _ _ isStop'
  simp [Interrupt.ofSignal, Interrupt.isRetried]

end Registers

section Frames

theorem final_park (pc : Nat) : Action.Final again (park pc) := by
  refine (asks_ask _).final.bind fun _ => (asks_ask _).final.bind fun _ =>
    (asks_check _).final.bind fun _ => ?_
  split
  · exact (asks_violate _).final
  · split
    · exact (asks_violate _).final
    · exact (final_write _ _).bind fun _ => (final_write _ _).bind fun _ =>
        (final_write _ _).bind fun _ => final_modifyHeap _

theorem final_resume : Action.Final again resume := by
  refine (asks_ask _).final.bind fun _ => (asks_checkStore _).final.bind fun ⟨stack, s⟩ => ?_
  dsimp only
  split
  · exact (asks_violate _).final
  · split
    · exact (asks_violate _).final
    · exact (asks_lift _).final.bind fun _ => (asks_lift _).final.bind fun _ =>
        (asks_lift _).final.bind fun _ => (asks_lift _).final.bind fun _ =>
        (asks_checkStore _).final.bind fun _ =>
        Action.Final.bind (final_of_answers fun _ => ⟨_, _, rfl⟩) fun _ => final_modifyHeap _

theorem final_switchTo (task : Value) (pc : Nat) : Action.Final again (switchTo task pc) :=
  (final_park pc).bind fun _ => Action.Final.bind (final_of_answers fun _ => ⟨_, _, rfl⟩)
    fun _ => (final_setCurrentTask task).bind fun _ => final_resume

theorem final_finishTask (answer : Value) : Final (finishTask answer) := by
  refine (asks_ask _).final.bind fun _ => (final_modifyHeap _).bind fun _ =>
    (asks_ask _).final.bind fun _ => (asks_checkStore _).final.bind fun _ =>
    (asks_ask _).final.bind fun _ => ?_
  split
  · exact Action.final_fail (by simp [Interrupt.isRetried])
  · refine (asks_askStore _).final.bind fun caller => ?_
    cases caller with
    | none => exact (asks_violate _).final
    | some caller =>
      exact (asks_askStore _).final.bind fun _ => (final_modifyHeap _).bind fun _ =>
        Action.Final.bind (final_of_answers fun _ => ⟨_, _, rfl⟩) fun _ =>
        (final_setCurrentTask _).bind fun _ => final_resume.bind fun _ => final_setPeek _ _

theorem final_return (answer : Value) (s : Stack) (below fp pc : Nat) :
    Final (returnTo finishTask answer s below fp pc) := by
  unfold returnTo
  split
  · exact final_finishTask answer
  · exact (asks_checkStore _).final.bind fun _ =>
      Action.Final.bind (final_of_answers fun _ => ⟨_, _, rfl⟩) fun _ => final_setPeek _ _

theorem final_leave : Final leave := by
  refine final_pop.bind fun answer => (asks_ask _).final.bind fun ⟨_, fp⟩ =>
    (asks_check _).final.bind fun s => (asks_lift _).final.bind fun pc =>
    (asks_lift _).final.bind fun _ => (asks_lift _).final.bind fun below =>
    (asks_lift _).final.bind fun marker => ?_
  change Final (if marker ≠ s.marker then setMarker marker >>= fun _ => _ else _)
  split
  · exact (final_setMarker _).bind fun _ => final_return answer s below fp pc
  · exact final_return answer s below fp pc

end Frames

section Instructions

theorem alloc_clone_ok {x y : Execution}
    {v made : Value} (done : alloc (Make.clone v) x = .ok made y) :
    ∃ r, made = .object r ∧ x.heap.object? r = none := by
  obtain ⟨_, isDone, -⟩ := onMachine_ok done
  obtain ⟨_, isDone', -⟩ := Machine.onStore_ok isDone
  obtain ⟨_, -, rfl, -⟩ := Make.clone_ok isDone'
  exact ⟨_, rfl, by simp [Heap.object?]⟩

/-- The layout of an instance is a clone, so it may be changed before there is room for the
instance. -/
theorem careful_makeInstance (template : UInt16) : Careful (makeInstance template) := by
  refine .after (asks_constant _).gentle fun template => .after (asks_checkStore _).gentle fun l =>
    .after (asks_check _).gentle fun _ => .after (asks_check _).gentle fun _ =>
    .after (asks_check _).gentle fun protocol => ?_
  intro x cause y stopped again
  obtain stopped | ⟨layout, x₁, cloned, stopped⟩ := Action.bind_error stopped
  · exact (gentle_alloc (Make.adds.clone _)).raised x cause y stopped again
  have undisturbed := (gentle_alloc (Make.adds.clone _)).answered x layout x₁ cloned
  obtain ⟨r, rfl, isNew⟩ := alloc_clone_ok cloned
  dsimp only at stopped
  split at stopped
  · cases stopped
  obtain stopped | ⟨_, x₂, changed, stopped⟩ := Action.bind_error stopped
  · cases stopped
  cases changed
  refine IsTrans.trans _ _ _ ?_ (Action.Careful.before (gentle_alloc (Make.adds.inst _)).careful
    (fun made => ?_) _ cause y stopped again)
  · exact undisturbed.adjust_new isNew _
  · refine (asks_top _).final.bind fun fields => ?_
    split
    · exact (asks_violate _).final
    · exact (final_modifyHeap _).bind fun _ => (final_drop _).bind fun _ => final_push _

theorem final_attach (next : Nat) : Final (attach next) := by
  refine (asks_peek _).final.bind fun _ => (final_narrow _ _).bind fun _ =>
    (asks_checkStore _).final.bind fun _ => ?_
  split
  · exact final_fail _
  · refine (asks_ask _).final.bind fun _ => (asks_checkStore _).final.bind fun attached => ?_
    split
    · exact final_fail _
    · exact (final_modifyHeap _).bind fun _ => final_switchTo _ _

theorem final_yield (next : Nat) : Final (yield next) := by
  refine (asks_peek _).final.bind fun _ => (asks_askStore _).final.bind fun _ =>
    (final_setPeek _ _).bind fun _ => (asks_ask _).final.bind fun _ =>
    (asks_checkStore _).final.bind fun _ => (asks_askStore _).final.bind fun caller => ?_
  cases caller with
  | none =>
    exact (final_park _).bind fun _ => Action.final_fail (by simp [Interrupt.isRetried])
  | some caller =>
    exact (final_modifyHeap _).bind fun _ => (final_switchTo _ _).bind fun _ => final_setPeek _ _

theorem careful_makeTask : Careful makeTask :=
  .after (asks_peek _).gentle fun _ => .after (gentle_narrow _ _) fun _ =>
    .after (asks_ask _).gentle fun _ => .before (gentle_alloc (Make.adds.task _)).careful fun _ =>
    (asks_checkStore _).final.bind fun _ => (final_modifyHeap _).bind fun _ => final_setPeek _ _

theorem careful_makeClosure (template count : UInt16) : Careful (makeClosure template count) :=
  .after (asks_constant _).gentle fun _ => .after (asks_checkStore _).gentle fun _ =>
    .after (asks_top _).gentle fun _ => .after (gentle_alloc (Make.adds.plain (.tuple _) rfl)) fun _ =>
    .before (gentle_alloc (Make.adds.clone _)).careful fun _ => (final_modifyHeap _).bind fun _ =>
    (final_drop _).bind fun _ => final_push _

/-- Properties of work that prepares an instruction, that is one, and that brings it to an end.
Instructions have theirs if it holds of what they are made of: asking, writing a word, changing
registers, giving up, allocating and changing one object. -/
structure Passes (G P F : {α : Type} → Exec α → Prop) : Prop extends Steps F where
  prepare {α β : Type} {first : Exec α} {next : α → Exec β} (isFirst : G first) (rest : ∀ a, G (next a)) :
    G (first >>= next)
  lead {α β : Type} {first : Exec α} {next : α → Exec β} (isFirst : G first) (rest : ∀ a, P (next a)) :
    P (first >>= next)
  trail {α β : Type} {first : Exec α} {next : α → Exec β} (isFirst : P first) (rest : ∀ a, F (next a)) :
    P (first >>= next)
  prepared {α : Type} {work : Exec α} (isWork : G work) : P work
  finished {α : Type} {work : Exec α} (isWork : F work) : P work
  asking {α : Type} {work : Exec α} (asks : Asks work) : G work
  fail {α : Type} {cause : Interrupt} (undone : ∀ answer, cause ≠ .done answer)
    (roomy : ∀ size, cause ≠ .collect size) : G (Action.fail cause : Exec α)
  failed {α : Type} (error : RunError) : F (Exec.fail error : Exec α)
  narrow (κ : Type) [HeapKind κ] (v : Value) : G (narrow κ v)
  plain (making : Making) (isPlain : making.isPlain = true) : G (alloc making.work)
  concat (strings : List Value) : G (alloc (Builtin.concatStrings strings))
  builtin {builtin : Builtin} (member : builtin ∈ Builtin.all) (call : Builtin.Call) {f : Signal → Interrupt}
    (short : ∀ size, f (.allocationFailed size) = .collect size)
    (failed : ∀ signal, (∀ size, signal ≠ .allocationFailed size) → ∃ error, f signal = .failed error) :
    P (onMachine (mapError f (builtin.run call)))
  closure (template count : UInt16) : P (makeClosure template count)
  inst (template : UInt16) : P (makeInstance template)
  field (receiver v : Value) (index : Nat) : F (modifyHeap fun h => h.adjust receiver fun
    | .inst i => .inst ⟨i.fields.setIfInBounds index v⟩
    | body => body)
  bound (descriptor target : Value) : F (do
    let bound ← checkStore fun s => s.heap.bound descriptor target
    modifyHeap fun h => h.put descriptor bound)
  content (v content : Value) : F (do
    let (cell, _) ← Exec.narrow Cell v
    if content.isSignal then
      Action.violate (.signalStored .cell)
    modifyHeap fun h => h.put cell (⟨content⟩ : Cell)
    setPeek 0 content)

namespace Passes

variable {G P F : {α : Type} → Exec α → Prop} (passes : Passes G P F)
include passes

theorem after {first : Exec α} {next : α → Exec β} (asks : Asks first) (rest : ∀ a, P (next a)) :
    P (first >>= next) := passes.lead (passes.asking asks) rest

theorem made {first : Exec α} {next : α → Exec β} (isFirst : G first) (rest : ∀ a, F (next a)) :
    P (first >>= next) := passes.trail (passes.prepared isFirst) rest

theorem pushed (v : Value) : P (push v) := passes.finished (passes.push v)

theorem refused (error : RunError) : P (Exec.fail error : Exec α) := passes.finished (passes.failed error)

theorem violated (violation : Violation) : P (Action.violate violation : Exec α) :=
  passes.finished (passes.violate violation)

theorem enter (lambda : Value) (l : Lambda) (argc : Nat) (keymap : Option Value) (returnPc : Nat) :
    P (enter lambda l argc keymap returnPc) := by
  refine passes.after (asks_askStore _) fun _ => iteInduction
    (fun _ => passes.prepared (passes.fail (by simp) (by simp))) fun _ =>
    iteInduction (fun _ => passes.refused _) fun _ => passes.after (asks_ask _) fun _ =>
    passes.after (asks_check _) fun _ => iteInduction
      (fun _ => passes.after (asks_check _) fun _ => passes.prepared (passes.fail (by simp) (by simp))) fun _ =>
    passes.finished (passes.ask (asks_ask _) fun _ => passes.bind (passes.write _ _) fun _ =>
      passes.bind (passes.write _ _) fun _ => passes.bind (passes.write _ _) fun _ =>
      passes.bind (passes.registers fun _ => ⟨_, _, _, _, rfl⟩) fun _ => ?_)
  cases keymap with
  | some v => exact passes.push v
  | none => exact passes.asks (asks_pure _)

theorem start : P start := passes.after (asks_ask _) fun _ => passes.after (asks_localValue _) fun _ =>
    passes.lead (passes.narrow _ _) fun _ => passes.enter _ _ _ _ _

theorem invoke (selector argc keymap : UInt16) (signature : Option UInt16) (next : Nat) :
    P (invoke selector argc keymap signature next) := by
  refine passes.after (asks_constant _) fun _ => passes.after (asks_checkStore _)
    fun named => passes.after (asks_top _) fun _ => ?_
  have rest : ∀ found, P (answerWith named.name argc keymap next found) := by
    intro found
    cases found with
    | none => exact passes.after (asks_checkStore _) fun _ => passes.refused _
    | some method =>
      exact passes.after (asks_constant _) fun _ => passes.after (asks_askStore _)
        fun _ => passes.after (asks_checkStore _) fun _ => passes.enter _ _ _ _ _
  cases signature with
  | none => exact passes.after (asks_checkStore _) rest
  | some signature =>
    exact passes.after (asks_constant _) fun _ => passes.after (asks_checkStore _)
      fun _ => passes.after (asks_checkStore _) rest

theorem callBuiltin (argc index : UInt16) : P (callBuiltin argc index) := by
  unfold Exec.callBuiltin
  cases found : Builtin.ofIndex? index with
  | none => exact passes.violated _
  | some builtin =>
    have member : builtin ∈ Builtin.all := List.mem_of_find?_eq_some found
    refine iteInduction (fun _ => passes.violated _) fun _ => passes.after (asks_peek _) fun _ =>
      passes.after (asks_top _) fun _ => passes.trail
        (passes.builtin member _ (fun _ => rfl) fun signal other => ?_) fun _ => passes.push _
    cases signal with
    | allocationFailed size => exact absurd rfl (other size)
    | _ => exact ⟨_, rfl⟩

/-- One pass over all instructions but those that may hand over to another task, or make one. -/
theorem execute (pc next : Nat) {i : Instruction} (plain : i.switches = false)
    (markers : i.marks = true → ∀ marker, F (setMarker marker)) : P (execute pc next i) := by
  cases i with
  | ret | task | yield | attach => cases plain
  | push index => exact passes.after (asks_constant _) fun _ => passes.pushed _
  | global name =>
    refine passes.after (asks_constant _) fun _ => passes.after (asks_checkStore _) fun found => ?_
    cases found with
    | some v => exact passes.pushed v
    | none => exact passes.after (asks_checkStore _) fun _ => passes.refused _
  | call argc =>
    exact passes.after (asks_peek _) fun _ => passes.lead (passes.narrow _ _) fun _ =>
      passes.enter _ _ _ _ _
  | slap height =>
    exact passes.finished (passes.bind passes.pop fun _ => passes.bind (passes.drop _) fun _ => passes.push _)
  | argument index => exact passes.after (asks_argument _) fun _ => passes.pushed _
  | pushVoid | pushNull | pushTrue | pushFalse =>
    exact passes.after (asks_askStore _) fun _ => passes.pushed _
  | pop height => exact passes.finished (passes.drop _)
  | ifTrue target | ifFalse target =>
    exact passes.finished (passes.bind passes.pop fun _ => passes.ask (asks_checkStore _) fun _ =>
      iteInduction (fun _ => passes.jump _) fun _ => passes.asks (asks_pure _))
  | goto target => exact passes.finished (passes.jump _)
  | invoke selector argc keymap => exact passes.invoke _ _ _ none _
  | invokeSuper selector argc keymap signature => exact passes.invoke _ _ _ (some signature) _
  | builtin argc index => exact passes.callBuiltin argc index
  | tuple count =>
    exact passes.after (asks_top _) fun _ => passes.made (passes.plain (.tuple _) rfl) fun _ =>
      passes.bind (passes.drop _) fun _ => passes.push _
  | concat count =>
    exact passes.after (asks_top _) fun _ => passes.made (passes.concat _) fun _ =>
      passes.bind (passes.drop _) fun _ => passes.push _
  | loadLocal index => exact passes.after (asks_localValue _) fun _ => passes.pushed _
  | storeLocal index =>
    exact passes.finished (passes.ask (asks_peek _) fun _ => passes.ask (asks_ask _) fun _ => passes.write _ _)
  | checkHeight expected =>
    exact passes.after (asks_ask _) fun _ => iteInduction (fun _ => passes.violated _) fun _ =>
      passes.finished (passes.asks (asks_pure _))
  | outer index => exact passes.after (asks_check _) fun _ => passes.pushed _
  | closure template count => exact passes.closure template count
  | raise name argc =>
    refine passes.after (asks_constant _) fun _ => passes.after (asks_check _) fun handler => ?_
    cases handler with
    | none => exact passes.after (asks_checkStore _) fun _ => passes.refused _
    | some handler => exact passes.lead (passes.narrow _ _) fun _ => passes.enter _ _ _ _ _
  | mark handlers =>
    exact passes.finished (passes.ask (asks_ask _) fun _ => passes.ask (asks_check _) fun _ =>
      passes.bind (passes.push _) fun _ => passes.ask (asks_constant _) fun _ =>
      passes.bind (passes.push _) fun _ => markers rfl _)
  | unmark =>
    exact passes.finished (passes.ask (asks_check _) fun _ => passes.ask (asks_check _) fun _ =>
      iteInduction (fun _ => passes.violate _) fun _ => passes.ask (asks_check _) fun _ =>
      passes.bind (markers rfl _) fun _ => passes.drop _)
  | new template => exact passes.inst template
  | loadField index argc =>
    refine passes.made (passes.prepare (passes.asking (asks_argument _)) fun _ => passes.narrow _ _)
      fun ⟨_, i⟩ => ?_
    dsimp only
    split
    · exact passes.push _
    · exact passes.violate _
  | storeField index argc =>
    exact passes.made (passes.prepare (passes.asking (asks_argument _)) fun _ => passes.narrow _ _) fun _ =>
      passes.ask (asks_peek _) fun _ => iteInduction (fun _ => passes.violate _) fun _ =>
      iteInduction (fun _ => passes.violate _) fun _ => passes.field _ _ _
  | keyword index =>
    refine passes.after (asks_localValue _) fun _ => passes.after (asks_checkStore _) fun v => ?_
    cases v with
    | int n => exact passes.after (asks_argument _) fun _ => passes.pushed _
    | _ => exact passes.violated _
  | swap =>
    exact passes.finished (passes.ask (asks_peek _) fun _ => passes.ask (asks_peek _) fun _ =>
      passes.bind (passes.setPeek _ _) fun _ => passes.setPeek _ _)
  | newForwarder kind =>
    simp only [Exec.execute]
    split
    · exact passes.violated _
    · exact passes.after (asks_peek _) fun _ => passes.made (passes.plain (.forwarder _ _) rfl) fun _ => passes.setPeek _ _
  | bindForwarder =>
    refine passes.finished (passes.bind passes.pop fun target => passes.ask (asks_peek _) fun _ =>
      passes.ask (asks_askStore _) fun f => ?_)
    cases f with
    | none => exact passes.failed _
    | some f => exact passes.bound f.descriptor target
  | newCell =>
    exact passes.after (asks_peek _) fun _ => passes.made (passes.plain (.cell _) rfl) fun _ => passes.setPeek _ _
  | loadCell =>
    exact passes.after (asks_peek _) fun _ => passes.made (passes.narrow _ _) fun _ => passes.setPeek _ _
  | storeCell =>
    exact passes.finished (passes.bind passes.pop fun v => passes.ask (asks_peek _) fun cell =>
      passes.content cell v)

end Passes

/-- A property that does not tell the parts of an instruction apart. Allocating has it if the work
on the store has `A`, and so has changing an object unless that makes a stack or moves a marker. -/
structure Uniform (A : {α : Type} → Alloc α → Prop) (P : {α : Type} → Exec α → Prop) : Prop extends Steps P where
  allots : Make.Allots A
  make {α : Type} {work : Alloc α} {f : Signal → Interrupt} (isWork : A work)
    (undone : ∀ signal answer, f signal ≠ .done answer)
    (short : ∀ signal size, f signal = .collect size → signal = .allocationFailed size) :
    P (onMachine (mapError f (Machine.onStore work)))
  print (call : Builtin.Call) (f : Signal → Interrupt) : P (onMachine (mapError f (Builtin.print call)))
  fail {α : Type} {cause : Interrupt} (undone : ∀ answer, cause ≠ .done answer)
    (roomy : ∀ size, cause ≠ .collect size) : P (Action.fail cause : Exec α)
  adjust (v : Value) {f : Body → Body} (keeps : ∀ b s', f b = .stack s' → ∃ s, b = .stack s ∧ s'.marker = s.marker) :
    P (modifyHeap fun h => h.adjust v f)

namespace Uniform

variable {A : {α : Type} → Alloc α → Prop} {P : {α : Type} → Exec α → Prop} (uniform : Uniform A P)
include uniform

theorem alloc {work : Alloc α} (isWork : A work) : P (alloc work) :=
  uniform.make isWork (fun signal answer => by cases signal <;> nofun) fun signal size isShort => by
    cases signal <;> cases isShort
    rfl

theorem put (v : Value) {κ : Type} [HeapKind κ] (data : κ)
    (noStack : (HeapKind.wrap data : Body).kind ≠ .stack) : P (modifyHeap fun h => h.put v data) :=
  uniform.adjust v fun _ _ isStack => absurd (congrArg Body.kind isStack) noStack

theorem passes : Passes P P P where
  toSteps := uniform.toSteps
  prepare := uniform.bind
  lead := uniform.bind
  trail := uniform.bind
  prepared := id
  finished := id
  asking := uniform.asks
  fail := uniform.fail
  failed _ := uniform.fail nofun nofun
  narrow κ _ v := uniform.alloc (uniform.allots.narrow κ v)
  plain making isPlain := uniform.alloc (uniform.allots.plain making isPlain)
  concat _ := uniform.alloc (uniform.allots.string.concatStrings _)
  builtin member call f short failed := by
    rcases uniform.allots.string.run member call with ⟨work, isRun, isWork⟩ | isPrint
    · rw [isRun]
      have known (signal : Signal) : (∃ size, signal = .allocationFailed size) ∨ ∃ error, f signal = .failed error :=
        or_iff_not_imp_left.2 fun other => failed signal fun size isSize => other ⟨size, isSize⟩
      refine uniform.make isWork (fun signal answer => ?_) fun signal size isShort => ?_ <;>
        rcases known signal with ⟨_, rfl⟩ | ⟨_, isError⟩ <;> simp_all
    · rw [isPrint]
      exact uniform.print call f
  closure _ _ := by
    refine uniform.ask (asks_constant _) fun _ => uniform.ask (asks_checkStore _) fun _ =>
      uniform.ask (asks_top _) fun _ => uniform.bind (uniform.alloc (uniform.allots.plain (.tuple _) rfl)) fun _ =>
      uniform.bind (uniform.alloc (uniform.allots.clone _)) fun _ =>
      uniform.bind (uniform.adjust _ fun b s' isStack => ?_) fun _ =>
      uniform.bind (uniform.drop _) fun _ => uniform.push _
    cases b <;> cases isStack
    exact ⟨_, rfl, rfl⟩
  inst _ := by
    refine uniform.ask (asks_constant _) fun _ => uniform.ask (asks_checkStore _) fun _ =>
      uniform.ask (asks_check _) fun _ => uniform.ask (asks_check _) fun _ => uniform.ask (asks_check _) fun _ =>
      uniform.bind (uniform.alloc (uniform.allots.clone _)) fun _ => iteInduction (fun _ => uniform.violate _)
      fun _ => uniform.bind (uniform.adjust _ fun b s' isStack => ?_) fun _ =>
      uniform.bind (uniform.alloc (uniform.allots.inst _)) fun _ => uniform.ask (asks_top _) fun _ =>
      iteInduction (fun _ => uniform.violate _) fun _ => uniform.bind (uniform.put _ _ nofun) fun _ =>
      uniform.bind (uniform.drop _) fun _ => uniform.push _
    cases b <;> cases isStack
    exact ⟨_, rfl, rfl⟩
  field _ _ _ := uniform.adjust _ fun b s' isStack => by
    cases b <;> cases isStack
    exact ⟨_, rfl, rfl⟩
  bound _ _ := uniform.ask (asks_checkStore _) fun _ => uniform.put _ _ nofun
  content v _ := uniform.bind (uniform.alloc (uniform.allots.narrow Cell v)) fun _ =>
    iteInduction (fun _ => uniform.violate _) fun _ => uniform.bind (uniform.put _ _ nofun) fun _ =>
    uniform.setPeek _ _

end Uniform

theorem careful_passes : Passes @Gentle @Careful @Final where
  toSteps := final_steps
  prepare gentle rest := gentle.bind rest
  lead gentle rest := .after gentle rest
  trail careful rest := .before careful rest
  prepared gentle := gentle.careful
  finished final := final.careful
  asking asks := asks.gentle
  fail _ _ := gentle_fail _
  failed := final_fail
  narrow _ _ v := gentle_narrow _ v
  plain making isPlain := gentle_alloc (Make.adds.plain making isPlain)
  concat _ := gentle_alloc (Make.adds.string.concatStrings _)
  builtin member call _ _ _ := careful_onMachine (Builtin.careful_run member call)
  closure := careful_makeClosure
  inst := careful_makeInstance
  field _ _ _ := final_modifyHeap _
  bound _ _ := (asks_checkStore _).final.bind fun _ => final_modifyHeap _
  content _ _ := (final_narrow _ _).bind fun _ => iteInduction (fun _ => (asks_violate _).final) fun _ =>
    (final_modifyHeap _).bind fun _ => final_setPeek _ _

theorem careful_execute (pc next : Nat) (instruction : Instruction) :
    Careful (execute pc next instruction) := by
  cases instruction with
  | ret => exact final_leave.careful
  | task => exact careful_makeTask
  | yield => exact (final_yield next).careful
  | attach => exact (final_attach next).careful
  | _ => exact careful_passes.execute pc next rfl fun _ => final_setMarker

theorem careful_step : Careful step := by
  refine .after (asks_ask _).gentle fun _ => ?_
  split
  · exact careful_passes.start
  · exact .after (asks_ask _).gentle fun _ => .after (asks_check _).gentle fun _ =>
      .after (gentle_report _ _) fun _ => .after (gentle_jump _) fun _ => careful_execute _ _ _

end Instructions

section Parking

variable {x y : Execution} {s : Stack} {pc : Nat}

theorem check_ok {α : Type} {f : Execution → Except Violation α} {answer : α}
    (done : check f x = .ok answer y) : f x = .ok answer ∧ y = x := by
  unfold check at done
  cases result : f x with
  | ok found =>
    rw [result] at done
    cases done
    exact ⟨rfl, rfl⟩
  | error violation =>
    rw [result] at done
    cases done

theorem check_bind_ok {α β : Type} {f : Execution → Except Violation α}
    {next : α → Exec β} {answer : β} (done : (check f >>= next) x = .ok answer y) :
    ∃ middle, f x = .ok middle ∧ next middle x = .ok answer y := by
  obtain ⟨middle, checked, done⟩ := (asks_check f).bind_ok done
  exact ⟨middle, (check_ok checked).1, done⟩

theorem park_ok (done : park pc x = .ok () y) :
    ∃ s, x.Stacked s ∧ x.sp ≤ x.limit ∧ s.mode = .linked := by
  obtain ⟨_, _, ⟨⟩, done⟩ := bind_ok done
  obtain ⟨_, _, ⟨⟩, done⟩ := bind_ok done
  obtain ⟨s, isStack, done⟩ := check_bind_ok done
  dsimp only at done
  split at done
  · cases done
  split at done
  · cases done
  · rename_i fits mode
    exact ⟨s, Heap.view?_eq_some.mp (Heap.cast_eq_ok.mp isStack), by omega, by simpa using mode⟩

/-- Parked, an undisturbed call is as the call before. -/
theorem park_undisturbed (undisturbed : x.Undisturbed y) {x' : Execution}
    (parked : park pc x = .ok () x') : ∃ y', park pc y = .ok () y' ∧ x'.Undisturbed y' := by
  obtain ⟨s, found, fits, mode⟩ := park_ok parked
  cases (park_eq found fits mode).symm.trans parked
  refine ⟨_, park_eq (undisturbed.stacked found) ?_ mode, ?_⟩
  · rw [undisturbed.sp, undisturbed.limit]
    exact fits
  · have same : y.parkedStack s pc = x.parkedStack s pc := by
      simp [Execution.parkedStack, undisturbed.sp, undisturbed.fp, undisturbed.stack, undisturbed.lambda]
    rw [same]
    refine { undisturbed with machine := { undisturbed.machine with
      store := ⟨?_, undisturbed.machine.store.roots⟩ } }
    change (x.heap.put (.object x.stack) (x.parkedStack s pc)).Extends
      (y.heap.put (.object y.stack) (x.parkedStack s pc))
    rw [undisturbed.stack]
    exact undisturbed.machine.store.heap.adjust _ _

end Parking

/-- An instruction that is interrupted for lack of room, of height or of code has had no effect. The
registers, the references and the output are as they were, and so is every object, hence every stack
with its words and markers and every task with its caller and stack. New objects are garbage. Parked
at the instruction, the call is as it would have been before. -/
theorem step_interrupted_undisturbed {x y : Execution} {interrupt : Interrupt}
    (stopped : step x = .error (.raised interrupt) y) (retried : interrupt.isRetried = true) :
    x.Undisturbed y ∧
    (∀ start : Ref → Prop, (∀ r, x.machine.store.heap.Reachable start r →
        ∃ o, x.machine.store.heap.object? r = some o) →
      ∀ r, y.machine.store.heap.Reachable start r ↔ x.machine.store.heap.Reachable start r) ∧
    ∀ x', park x.pc x = .ok () x' → ∃ y', park x.pc y = .ok () y' ∧ x'.Undisturbed y' := by
  have undisturbed := careful_step x interrupt y stopped retried
  exact ⟨undisturbed, fun start inside => undisturbed.machine.store.heap.reachable_iff inside,
    fun x' parked => park_undisturbed undisturbed parked⟩

/-- A call about to make a forwarder for its only operand. There is room for the descriptor, and
then none for the forwarder. -/
def crowded : Execution :=
  { machine := {
      store := .ofBodies [
        .code ⟨#[37, 0]⟩,
        .lambda {
          argc := 0, maxHeight := 1, code := .object ⟨0⟩, constants := .int 0, outers := .int 0
          context := .int 0, source := .int 0 },
        .stack {
          words := #[.value (.int 0), .link .bottom, .value (.object ⟨1⟩), .value (.int 0),
            .link (.address ⟨2⟩ 0), .value (.object ⟨1⟩), .value (.int 5), .value (.int 0),
            .value (.int 0), .value (.int 0)]
          top := .bottom, marker := none, status := .running, mode := .linked }] 0 24
      references := { slots := #[.int 0] }
      settings := {}
      compiler := none
      output := "so far"
      log := {} }
    rootTask := 0, currentTask := 0, stack := ⟨2⟩, limit := 7, fp := 3, sp := 7, pc := 0
    lambda := .object ⟨1⟩, shortage := none }

/-- The descriptor has been made in vain. -/
theorem step_interrupted_crowded :
    ∃ y, step crowded = .error (.raised (.collect 16)) y ∧ y.machine.store.heap.objects.size = 24 ∧
      crowded.Undisturbed y ∧ ∃ y', park 0 y = .ok () y' := by
  have stopped : ∃ y, step crowded = .error (.raised (.collect 16)) y ∧
      y.machine.store.heap.objects.size = 24 := ⟨_, rfl, rfl⟩
  obtain ⟨y, stopped, size⟩ := stopped
  obtain ⟨undisturbed, -, parks⟩ := step_interrupted_undisturbed stopped rfl
  obtain ⟨y', parked, -⟩ := parks _ rfl
  exact ⟨y, stopped, size, undisturbed, y', parked⟩

end Exec

end ObjectMachine
