/-
# ObjectMachine.Proofs.Answering -- what ends a call with an answer

A call is done when the task it started on returns or hands over. No other instruction ends it with
an answer, whatever state it is carried out in, and none fails for want of no memory at all
(`Exec.final_execute`): nothing can always be had.
-/
import Mathlib
import ObjectMachine.Proofs.Shortage

namespace ObjectMachine

namespace Action.Final

variable {σ ε α : Type} {again again' : ε → Prop}

theorem ite {p : Prop} [Decidable p] {yes no : Action σ ε α} (onYes : p → Final again yes)
    (onNo : ¬ p → Final again no) : Final again (if p then yes else no) := by
  split
  · exact onYes ‹p›
  · exact onNo ‹¬ p›

theorem mono {work : Action σ ε α} (final : Final again work) (weaker : ∀ cause, again' cause → again cause) :
    Final again' work := fun s cause s' stopped isAgain => final s cause s' stopped (weaker cause isAgain)

end Action.Final

/-- Work that does not fail for want of nothing. -/
abbrev Store.Wants {α : Type} (work : Alloc α) : Prop :=
  Action.Final (fun signal => signal = .allocationFailed 0) work

theorem Make.wants : Allots fun {_} work => Store.Wants work where
  bind isFirst rest := isFirst.bind rest
  asks asks := asks.final
  fail roomy := Action.final_fail (roomy 0)
  allocate size object := by
    rintro s _ s' stopped rfl
    obtain ⟨_, _, -, -, tight⟩ :=
      (Store.draws_onHeap (Heap.draws_allocate size object s.heap)).cause stopped 0 rfl
    simp [Size.roundUp, Size.word] at tight

namespace Exec

variable {α : Type} {again : Interrupt → Prop}

/-- Work that does not end the call with an answer. -/
abbrev Undone (work : Exec α) : Prop :=
  Action.Final (fun interrupt => ∃ answer, interrupt = Interrupt.done answer) work

/-- A lambda that is not entered has no code, takes another number of arguments, or is too high. -/
theorem final_enter (compile : ∀ v, ¬ again (.compile v)) (grow : ∀ height, ¬ again (.grow height))
    (arity : ∀ expected actual, ¬ again (.failed (.arityMismatch expected actual)))
    (lambda : Value) (l : Lambda) (argc : Nat) (keymap : Option Value) (returnPc : Nat) :
    Action.Final again (enter lambda l argc keymap returnPc) := by
  refine (asks_askStore _).final.bind fun _ => .ite (fun _ => Action.final_fail (compile _)) fun _ =>
    .ite (fun _ => Action.final_fail (arity _ _)) fun _ => (asks_ask _).final.bind fun _ =>
    (asks_check _).final.bind fun _ => .ite (fun _ => (asks_check _).final.bind fun _ =>
      Action.final_fail (grow _)) fun _ => (asks_ask _).final.bind fun _ =>
    (final_write _ _).bind fun _ => (final_write _ _).bind fun _ => (final_write _ _).bind fun _ =>
    Action.Final.bind (Action.final_of_answers fun _ => ⟨_, _, rfl⟩) fun _ => ?_
  cases keymap with
  | some v => exact final_push v
  | none => exact (Action.asks_pure _).final

section Passing

variable (once : ∀ cause, (∀ answer, cause ≠ Interrupt.done answer) → cause ≠ .collect 0 → ¬ again cause)
include once

theorem final_uniform : Uniform @Store.Wants fun {_} work => Action.Final again work where
  toSteps := final_steps
  allots := Make.wants
  make wants undone short x cause y stopped := by
    obtain ⟨signal, _, isStop, rfl, -⟩ := onMachine_error stopped
    obtain ⟨_, isStop, -⟩ := Machine.onStore_error isStop
    exact once _ (undone signal) fun isShort => wants _ _ _ isStop (short _ _ isShort)
  print call f x cause y stopped _ := by
    obtain ⟨signal, _, isStop, -⟩ := onMachine_error stopped
    exact @Builtin.final_print (fun _ => True) call _ _ _ isStop trivial
  fail undone roomy := Action.final_fail (once _ undone (roomy 0))
  adjust _ _ _ := final_modifyHeap _

theorem final_execute (pc next : Nat) {instruction : Instruction}
    (plain : instruction.switches = false) : Action.Final again (execute pc next instruction) :=
  (final_uniform once).passes.execute pc next plain fun _ => final_setMarker

theorem final_makeTask : Action.Final again makeTask :=
  (asks_peek _).final.bind fun _ => ((final_uniform once).alloc (Make.wants.narrow _ _)).bind fun _ =>
    (asks_ask _).final.bind fun _ => ((final_uniform once).alloc (Make.wants.task _)).bind fun _ =>
    (asks_checkStore _).final.bind fun _ => (final_modifyHeap _).bind fun _ => final_setPeek _ _

end Passing

theorem once_done (cause : Interrupt) (undone : ∀ answer, cause ≠ .done answer) (_ : cause ≠ .collect 0) :
    ¬ ∃ answer, cause = .done answer := fun ⟨answer, isDone⟩ => undone answer isDone

end Exec

end ObjectMachine
