/-
# ObjectMachine.Proofs.Ending -- how work ends

`Action.Ends work s answered raised` says how `work` ends from the state `s`: with an answer and a
state of which `answered` holds, through its error channel with `raised`, or by a broken invariant.
Of a broken invariant it says one thing only: it is none of those that a stack at the wrong moment
causes (`Violation.isMistimed`), those being what the theory of stacks excludes.

Each way to put work together has one rule, `ends_bind` for sequences, and `Calm` says the same of
checks that have no state.
-/
import Mathlib
import ObjectMachine.Interpreter.Run

namespace ObjectMachine

namespace Violation

/-- A stack was converted, visited or parked when it was not its time. -/
@[simp] def isMistimed : Violation → Bool
  | uncookingUnparked | alreadyUncooked | recookingUnparked | alreadyCooked | visitingCooked
  | parkingAboveLimit => true
  | _ => false

end Violation

/-- A check that does not fail because of a stack at the wrong moment. -/
def Calm {α : Type} (result : Except Violation α) : Prop :=
  ∀ violation, result = .error violation → violation.isMistimed = false

namespace Calm

variable {α β : Type}
variable {next : α → Except Violation β} {first : Except Violation α}

@[simp] theorem ok (answer : α) : Calm (.ok answer) := by
  rintro _ ⟨⟩

@[simp] theorem pure (answer : α) : Calm (Pure.pure answer) := ok answer

@[simp] theorem error {violation : Violation} :
    Calm (.error violation : Except Violation α) ↔ violation.isMistimed = false :=
  ⟨fun calm => calm violation rfl, by rintro fine _ ⟨⟩; exact fine⟩

@[simp] theorem throw {violation : Violation} :
    Calm (MonadExcept.throw violation : Except Violation α) ↔ violation.isMistimed = false := error

theorem bind (calm : Calm first)
    (rest : ∀ answer, first = .ok answer → Calm (next answer)) : Calm (first >>= next) := by
  cases first with
  | error violation => exact error.mpr (error.mp calm)
  | ok answer => exact rest answer rfl

@[simp] theorem bind_iff :
    Calm (first >>= next) ↔ Calm first ∧ ∀ answer, first = .ok answer → Calm (next answer) := by
  refine ⟨fun calm => ?_, fun ⟨calm, rest⟩ => bind calm rest⟩
  cases first with
  | error violation => exact ⟨error.mpr (error.mp calm), by rintro _ ⟨⟩⟩
  | ok answer => exact ⟨ok answer, by rintro _ ⟨⟩; exact calm⟩

@[simp] theorem ite_iff {p : Prop} [Decidable p] {yes no : Except Violation α} :
    Calm (if p then yes else no) ↔ (p → Calm yes) ∧ (¬ p → Calm no) := by
  by_cases holds : p <;> simp [holds]

@[simp] theorem map_iff {result : Except Violation α} (f : α → β) :
    Calm (f <$> result) ↔ Calm result := by
  cases result with
  | error violation => exact error.trans error.symm
  | ok answer => exact iff_of_true (ok _) (ok _)

theorem mapM {f : α → Except Violation β} {list : List α} (calm : ∀ a ∈ list, Calm (f a)) :
    Calm (list.mapM f) := by
  induction list with
  | nil => exact ok _
  | cons a list ih =>
    rw [List.mapM_cons]
    refine bind (calm a List.mem_cons_self) fun b _ => ?_
    exact bind (ih fun c member => calm c (List.mem_cons_of_mem _ member)) fun _ _ => pure _

theorem foldlM {f : β → α → Except Violation β} {list : List α} {start : β}
    (calm : ∀ b, ∀ a ∈ list, Calm (f b a)) : Calm (list.foldlM f start) := by
  induction list generalizing start with
  | nil => exact ok _
  | cons a list ih =>
    rw [List.foldlM_cons]
    refine bind (calm start a List.mem_cons_self) fun b _ => ?_
    exact ih fun b c member => calm b c (List.mem_cons_of_mem _ member)

end Calm

namespace Action

variable {σ ε δ α β : Type}

/-- How work ends from a state. -/
def Ends (work : Action σ ε α) (s : σ) (answered : α → σ → Prop) (raised : ε → σ → Prop) : Prop :=
  match work s with
  | .ok answer s => answered answer s
  | .error (.raised cause) s => raised cause s
  | .error (.broken violation) _ => violation.isMistimed = false
  | .error .unfinished _ => False

variable {s : σ} {answered answered' : α → σ → Prop} {raised raised' : ε → σ → Prop}
variable {next : α → Action σ ε β} {first : Action σ ε α} {result : Except Violation α}
  {done : β → σ → Prop} {work : Action σ ε α}

theorem Ends.mono (ends : Ends work s answered raised)
    (onAnswer : ∀ answer s, answered answer s → answered' answer s)
    (onRaise : ∀ cause s, raised cause s → raised' cause s) : Ends work s answered' raised' := by
  unfold Ends at *
  split at ends
  · exact onAnswer _ _ ends
  · exact onRaise _ _ ends
  · exact ends
  · exact ends

theorem Ends.imp (ends : Ends work s answered raised)
    (onAnswer : ∀ answer s, answered answer s → answered' answer s) :
    Ends work s answered' raised :=
  ends.mono onAnswer fun _ _ holds => holds

theorem bind_eq_of_ok {s₁ : σ} {answer : α}
    (done : first s = .ok answer s₁) : (first >>= next) s = next answer s₁ := by
  change EStateM.bind first next s = _
  rw [EStateM.bind, done]

theorem bind_eq_of_error {s₁ : σ} {stop : Stop ε}
    (stopped : first s = .error stop s₁) : (first >>= next) s = .error stop s₁ := by
  change EStateM.bind first next s = _
  rw [EStateM.bind, stopped]

theorem bind_ok {answer : β} {s' : σ} (done : (first >>= next) s = .ok answer s') :
    ∃ middle s₁, first s = .ok middle s₁ ∧ next middle s₁ = .ok answer s' := by
  cases result : first s with
  | ok middle s₁ => exact ⟨middle, s₁, rfl, (bind_eq_of_ok result).symm.trans done⟩
  | error stop s₁ => cases done.symm.trans (bind_eq_of_error result)

theorem ends_bind : Ends (first >>= next) s done raised ↔
      Ends first s (fun answer s => Ends (next answer) s done raised) raised := by
  unfold Ends
  cases result : first s with
  | ok answer s => rw [bind_eq_of_ok result]
  | error stop s =>
    rw [bind_eq_of_error result]
    cases stop <;> rfl

theorem Ends.bind (ends : Ends first s answered raised)
    (rest : ∀ answer s, answered answer s → Ends (next answer) s done raised) :
    Ends (first >>= next) s done raised := ends_bind.mpr (ends.imp rest)

theorem ends_bind_modify {f : σ → σ} {next : Action σ ε β} :
    Ends ((fun s => EStateM.Result.ok () (f s) : Action σ ε Unit) >>= fun _ => next) s done raised ↔
      Ends next (f s) done raised := ends_bind

theorem ends_check (calm : Calm result)
    (onAnswer : ∀ answer, result = .ok answer → answered answer s) :
    Ends (check result : Action σ ε α) s answered raised := by
  cases result with
  | ok answer => exact onAnswer answer rfl
  | error violation => exact Calm.error.mp calm

@[simp] theorem ends_mapError {f : ε → δ} {refused : δ → σ → Prop} :
    Ends (mapError f work) s answered refused ↔
      Ends work s answered (fun cause s => refused (f cause) s) := by
  unfold Ends mapError
  cases work s with
  | ok answer s => rfl
  | error stop s => cases stop <;> rfl

theorem ends_lift (calm : Calm result) (onAnswer : ∀ answer, result = .ok answer → answered answer s) :
    Ends (liftM result : EStateM (Stop ε) σ α) s answered raised := ends_check calm onAnswer

theorem ends_lift_bind {next : α → EStateM (Stop ε) σ β} (calm : Calm result)
    (rest : ∀ answer, result = .ok answer → Ends (next answer) s done raised) :
    Ends (liftM result >>= next) s done raised := ends_bind.mpr (ends_lift calm rest)

end Action

/-- The heap of a call. -/
abbrev Execution.heap (x : Execution) : Heap := x.machine.store.heap

open ObjectMachine.Action (Ends)

section Layers

variable {ε α : Type}

namespace Store

variable {s : Store} {answered : α → Store → Prop} {raised : ε → Store → Prop}

@[simp] theorem ends_onHeap {work : Action Heap ε α} : Ends (onHeap work) s answered raised ↔
      Ends work s.heap (fun answer heap => answered answer { s with heap })
        (fun cause heap => raised cause { s with heap }) := by
  obtain ⟨heap, roots⟩ := s
  simp only [Ends, onHeap]
  cases work heap with
  | ok answer heap => rfl
  | error stop heap => cases stop <;> rfl

@[simp] theorem ends_modifyHeap {f : Heap → Heap} {done : Unit → Store → Prop} :
    Ends (modifyHeap f) s done raised ↔ done () { s with heap := f s.heap } := Iff.rfl

@[simp] theorem ends_ask {f : Store → α} : Ends (ask f) s answered raised ↔ answered (f s) s := Iff.rfl

theorem ends_check {f : Store → Except Violation α} (calm : Calm (f s))
    (onAnswer : ∀ answer, f s = .ok answer → answered answer s) :
    Ends (check f) s answered raised := by
  unfold Ends check
  cases result : f s with
  | ok answer => exact onAnswer answer result
  | error violation => exact calm violation result

end Store

namespace Machine

variable {m : Machine} {answered : α → Machine → Prop} {raised : ε → Machine → Prop}
variable {done : Unit → Machine → Prop}

@[simp] theorem ends_onStore {work : Action Store ε α} : Ends (onStore work) m answered raised ↔
      Ends work m.store (fun answer store => answered answer { m with store })
        (fun cause store => raised cause { m with store }) := by
  obtain ⟨store, references, settings, compiler, output, log⟩ := m
  simp only [Ends, onStore]
  cases work store with
  | ok answer store => rfl
  | error stop store => cases stop <;> rfl

@[simp] theorem ends_ask {f : Machine → α} : Ends (ask f) m answered raised ↔ answered (f m) m := Iff.rfl

theorem ends_check {f : Machine → Except Violation α} (calm : Calm (f m))
    (onAnswer : ∀ answer, f m = .ok answer → answered answer m) :
    Ends (check f) m answered raised := by
  unfold Ends check
  cases result : f m with
  | ok answer => exact onAnswer answer result
  | error violation => exact calm violation result

/-- The machine with another heap. -/
def withHeap (m : Machine) (heap : Heap) : Machine := { m with store := { m.store with heap } }

@[simp] theorem ends_modifyHeap {f : Heap → Heap} :
    Ends (modifyHeap f) m done raised ↔ done () (m.withHeap (f m.store.heap)) := Iff.rfl

@[simp] theorem ends_modifyReferences {f : References → References} :
    Ends (modifyReferences f) m done raised ↔ done () { m with references := f m.references } := Iff.rfl

@[simp] theorem ends_report {level : LogLevel} {message : Unit → String} :
    Ends (report level message) m done raised ↔ done () { m with log := m.log.add level message } := Iff.rfl

@[simp] theorem ends_root {v : Value} {done : Nat → Machine → Prop} : Ends (root v) m done raised ↔
      done m.references.scopedCount { m with references := m.references.push v } := Iff.rfl

end Machine

namespace Exec

variable {x : Execution} {answered : α → Execution → Prop} {raised : Interrupt → Execution → Prop}
variable {f : Execution → Except Violation α}

@[simp] theorem ends_onMachine {work : Op Interrupt α} : Ends (onMachine work) x answered raised ↔
      Ends work x.machine (fun answer machine => answered answer { x with machine })
        (fun cause machine => raised cause { x with machine }) := by
  obtain ⟨machine, rootTask, currentTask, stack, limit, fp, sp, pc, lambda, shortage⟩ := x
  simp only [Ends, onMachine]
  cases work machine with
  | ok answer machine => rfl
  | error stop machine => cases stop <;> rfl

@[simp] theorem ends_ask {f : Execution → α} : Ends (ask f) x answered raised ↔ answered (f x) x := Iff.rfl

theorem ends_check (calm : Calm (f x)) (onAnswer : ∀ answer, f x = .ok answer → answered answer x) :
    Ends (check f) x answered raised := by
  unfold Ends check
  cases result : f x with
  | ok answer => exact onAnswer answer result
  | error violation => exact calm violation result

theorem ends_check_bind {β : Type} {next : α → Exec β} {done : β → Execution → Prop} (calm : Calm (f x))
    (rest : ∀ answer, f x = .ok answer → Ends (next answer) x done raised) :
    Ends (check f >>= next) x done raised := Action.ends_bind.mpr (ends_check calm rest)

@[simp] theorem ends_jump {pc : Nat} {done : Unit → Execution → Prop} :
    Ends (jump pc) x done raised ↔ done () { x with pc } := Iff.rfl

end Exec

end Layers

end ObjectMachine
