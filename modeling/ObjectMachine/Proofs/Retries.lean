/-
# ObjectMachine.Proofs.Retries -- an instruction is not collected for without end

An instruction that lacks memory is executed again after a collection for all that it has failed to
get. What it has failed to get grows from round to round, and has fitted into the space after each
of them (`Exec.leads_again`). The space is bounded, and so is the number of rounds
(`Exec.retries_end`). Nothing is asked of the code for that; where the code is disciplined, it is
the same instruction that is executed again (`Exec.recovered_here`).
-/
import Mathlib
import ObjectMachine.Proofs.Answering
import ObjectMachine.Proofs.Sizing
import ObjectMachine.Proofs.Strides

namespace ObjectMachine

open ObjectMachine.Action (Leads leads_bind)

namespace Exec

open Size (roundUp)

variable {x y y' z : Execution} {pc size limit : Nat} {sizes : List Nat}

/-- Collect for an instruction that lacks memory, and be about to execute it again. -/
abbrev again (pc size : Nat) : Exec Unit := do recover pc (.collect size); resume

/-- No instruction is collected for without lacking anything. -/
theorem wants_step : Action.Final (fun cause => cause = .collect 0) step := by
  have once : ∀ cause, (∀ answer, cause ≠ Interrupt.done answer) → cause ≠ .collect 0 →
      ¬ cause = .collect 0 := fun _ _ => id
  have retried : ∀ cause, cause = Interrupt.collect 0 → cause.isRetried = true := by
    rintro _ rfl
    rfl
  refine (asks_ask _).final.bind fun _ => .ite (fun _ => (final_uniform once).passes.start) fun _ =>
    (asks_ask _).final.bind fun _ => (asks_check _).final.bind fun instruction => (final_report _ _).bind
    fun _ => Action.Final.bind (Action.final_of_answers fun _ => ⟨_, _, rfl⟩) fun _ => ?_
  cases instruction with
  | ret => exact final_leave.mono retried
  | task => exact final_makeTask once
  | yield => exact (final_yield _).mono retried
  | attach => exact (final_attach _).mono retried
  | _ => exact final_execute once _ _ rfl

/-- A collection for an instruction makes room for all that it lacks, unless the space is as large
as it may become. -/
theorem leads_again (high : x.heap.settings.maxSize ≤ limit)
    (within : x.heap.capacity ≤ roundUp limit) :
    Leads (again pc size) x (fun _ y => (y.lacks pc = x.lacks pc + size ∧
      ∀ other ≠ pc, y.lacks other = 0) ∧ y.lacks pc ≤ y.heap.free ∧ y.heap.space.InWords ∧
      y.heap.capacity ≤ roundUp limit ∧ y.heap.settings = x.heap.settings) fun cause y =>
      cause = .failed (.outOfMemory (x.lacks pc + size)) ∧
      x.heap.settings.maxSize < y.heap.used + (x.lacks pc + size) := by
  refine leads_bind.mpr (leads_bind.mpr ((final_shortOf pc size).leads fun pending x₁ counted => ?_))
  obtain ⟨rfl, rfl⟩ := shortOf_ok counted
  refine leads_bind.mpr ((final_park pc).leads fun _ x₂ parked => ?_)
  obtain ⟨s, found, fits, mode⟩ := park_ok parked
  cases (park_eq found fits mode).symm.trans parked
  refine leads_bind.mpr ((final_collect _).leads fun _ x₃ collecting => ?_)
  obtain ⟨m, collected, rfl⟩ := answered_ok collecting
  obtain ⟨outcome, -⟩ := (Machine.leads_collect _).answer collected
  obtain ⟨inWords, settings, room⟩ := Heap.collectInto_room outcome
  obtain ⟨-, within'⟩ := Heap.collectInto_capacity within high outcome
  refine (asks_askStore _).leads_bind fun free asked => ?_
  cases asked
  split
  · rename_i short
    have short : m.store.heap.capacity - m.store.heap.used < x.lacks pc + size := short
    have full := room.resolve_right fun ⟨room, _⟩ => absurd room (not_le.mpr short)
    exact ⟨rfl, lt_of_le_of_lt full (show m.store.heap.capacity < m.store.heap.used + _ by omega)⟩
  · rename_i enough
    refine final_resume.leads fun _ z resumed => ?_
    obtain ⟨home, s, sp, fp, pc', lambda, -, -, -, -, -, -, rfl⟩ := resume_ok resumed
    have lacks : ∀ y : Execution, y.shortage = some ⟨pc, x.lacks pc + size⟩ →
        y.lacks pc = x.lacks pc + size ∧ ∀ other ≠ pc, y.lacks other = 0 := fun y short =>
      ⟨by simp [Execution.lacks, short], fun other differs => by simp [Execution.lacks, short, Ne.symm differs]⟩
    exact ⟨lacks _ rfl, (lacks _ rfl).1.trans_le (not_lt.mp enough), inWords, within', settings⟩

/-- An instruction that lacks memory has not changed what it lacks. -/
theorem step_short (short : step y = .error (.raised (.collect size)) z) :
    0 < size ∧ z.lacks = y.lacks ∧ z.heap.settings = y.heap.settings ∧
      z.heap.capacity = y.heap.capacity := by
  have undisturbed := careful_step y _ z short rfl
  obtain ⟨-, capacity, settings, -⟩ := undisturbed.machine.store.heap
  refine ⟨Nat.pos_of_ne_zero ?_, ?_, settings, capacity⟩
  · rintro rfl
    exact wants_step y _ z short rfl
  · unfold Execution.lacks
    rw [undisturbed.shortage]

/-- Rounds in which the instruction at one place lacks memory, so much each time, and is to be
executed again. -/
inductive Retries (x : Execution) : List Nat → Execution → Prop
  | first : Retries x [] x
  | again {sizes : List Nat} {size : Nat} {y z y' : Execution} (earlier : Retries x sizes y)
      (short : step y = .error (.raised (.collect size)) z) (recovered : again y.pc size z = .ok () y')
      (here : y'.pc = y.pc) : Retries x (sizes ++ [size]) y'

/-- The instruction lacks memory only for a block of `size` bytes, and only if there is no room for
it. -/
def Takes (size : Nat) (x : Execution) : Prop :=
  ∀ lack y, step x = .error (.raised (.collect lack)) y → lack = size ∧ x.heap.free < roundUp size

namespace Retries

theorem run (retries : Retries x sizes y) (budget : Nat) :
    Exec.run (sizes.length + budget) x = Exec.run budget y := by
  induction retries generalizing budget with
  | first => rw [List.length_nil, Nat.zero_add]
  | again _ short recovered _ ih =>
    rw [List.length_append, List.length_singleton, Nat.add_assoc, Nat.add_comm 1, ih]
    exact (Turn.recovered short recovered).run budget

/-- All that the instruction lacks is counted, and has room at the end of each round. -/
theorem counted (retries : Retries x sizes y) :
    y.pc = x.pc ∧ y.lacks x.pc = x.lacks x.pc + sizes.sum ∧
      sizes.length ≤ sizes.sum ∧ y.heap.settings = x.heap.settings ∧
      y.heap.capacity ≤ roundUp (max x.heap.capacity x.heap.settings.maxSize) ∧ (sizes ≠ [] →
      (∀ other ≠ x.pc, y.lacks other = 0) ∧ y.lacks x.pc ≤ y.heap.free ∧ y.heap.space.InWords) := by
  induction retries with
  | first => exact ⟨rfl, rfl, le_rfl, rfl, (le_max_left _ _).trans (Size.roundUp_ge _), absurd rfl⟩
  | again _ short recovered here ih =>
    obtain ⟨pc, lacks, length, settings, within, -⟩ := ih
    obtain ⟨positive, same, settings', capacity⟩ := step_short short
    have settings := settings'.trans settings
    obtain ⟨⟨counts, others⟩, room, inWords, within, settings''⟩ :=
      (leads_again (settings ▸ le_max_right _ _) (capacity.trans_le within)).answer recovered
    rw [same, pc, lacks, Nat.add_assoc] at counts
    rw [List.length_append, List.length_singleton, List.sum_append, List.sum_singleton]
    exact ⟨here.trans pc, counts, by omega, settings''.trans settings, within,
      fun _ => ⟨pc ▸ others, pc ▸ room, inWords⟩⟩

/-- There are no more rounds than bytes in the largest space. -/
theorem length_le (retries : Retries x sizes y) :
    sizes.length ≤ roundUp (max x.heap.capacity x.heap.settings.maxSize) := by
  obtain ⟨-, lacks, length, -, within, room⟩ := retries.counted
  have free : y.heap.free = y.heap.capacity - y.heap.used := rfl
  by_cases none : sizes = []
  · simp [none]
  · have := (room none).2.1
    omega

/-- One block is collected for once. -/
theorem single (takes : ∀ sizes y, Retries x sizes y → Takes size y) (retries : Retries x sizes y) :
    sizes = [] ∨ sizes = [size] ∧ ∀ lack z, step y ≠ .error (.raised (.collect lack)) z := by
  induction retries with
  | first => exact .inl rfl
  | again earlier short recovered here ih =>
    obtain rfl | ⟨-, never⟩ := ih
    · cases (takes _ _ earlier _ _ short).1
      refine .inr ⟨rfl, fun lack z again => ?_⟩
      have next := earlier.again short recovered here
      obtain ⟨-, lacks, -, -, -, room⟩ := next.counted
      obtain ⟨-, room, inWords⟩ := room nofun
      rw [List.nil_append, List.sum_singleton] at lacks
      exact absurd (inWords.roundUp_le (Nat.le_of_add_left_le (lacks ▸ room))) (not_le.mpr (takes _ _ next lack z again).2)
    · exact absurd short (never _ _)

end Retries

end Exec

end ObjectMachine
