/-
# ObjectMachine.Proofs.Framing -- the frames of a call, at every moment

A call is laid out, resumed, and then takes turns. `Machine.Visits` are its states between two
turns, and `Machine.CollectsIn` the machines that it collects: where its task is laid out, where an
instruction has failed to allocate, and where a higher stack or the code of a lambda does not fit.

In each of the former the frames descend from the registers to the bottom frame and leave room to
park; in each of the latter no stack runs.

* `Execution.Running.ordered` -- what the invariant of calls says about the registers.
* `Machine.Visits.running`, `Machine.CollectsIn.resting` -- the two kinds of moments.
* `Machine.Reached.call_ordered` -- both, for every call of a machine that orderly deeds lead to.
-/
import Mathlib
import ObjectMachine.Proofs.Shortage
import ObjectMachine.Proofs.Validity

namespace ObjectMachine

open ObjectMachine.Action (Ends ends_bind)

/-- The registers of a call and the stack that runs. -/
structure Execution.Ordered (x : Execution) (s : Stack) : Prop where
  found : x.machine.store.heap.bodyOf? (.object x.stack) = some (.stack s)
  running : s.status = .running
  linked : s.mode = .linked
  /-- The stack is that of the task that runs. -/
  hosts : x.machine.Hosts x.currentTask x.stack
  /-- No other stack runs. -/
  alone : ∀ r other, x.machine.store.heap.bodyOf? (.object r) = some (.stack other) →
    other.status = .running → r = x.stack
  frames : x.machine.store.heap.Descends x.stack s.words x.fp
  lambda : s.words[x.fp + Frame.lambdaWord]? = some (.value x.lambda)
  above : x.fp < x.sp
  room : x.sp ≤ x.limit
  reserve : x.limit + Frame.reserved * Frame.size = s.height

/-- A stack that is not busy does not run. -/
theorem Heap.Sound.stack_rests {h : Heap} {busy : Ref → Prop} (sound : h.Sound busy)
    {r : Ref} {s : Stack} (found : h.bodyOf? (.object r) = some (.stack s)) (idle : ¬ busy r) :
    s.status = .empty ∨ s.status = .parked ∧ s.mode = .linked := by
  obtain ⟨_, o, ⟨⟩, isObject, isStack⟩ := bodyOf?_eq_some.mp found
  obtain empty | ⟨_, _, _, _, parked⟩ := (sound.objects r o isObject).stack s isStack idle
  · exact .inl empty
  · exact .inr ⟨parked.status, parked.mode⟩

theorem Execution.Running.ordered {x : Execution} (running : x.Running) : ∃ s, x.Ordered s := by
  obtain ⟨s, atPc⟩ := running
  have room := atPc.chain.above_le
  have above := atPc.chain.room
  have limit := atPc.limit
  refine ⟨s, ⟨atPc.found, atPc.status, atPc.mode, atPc.hosts, ?_, atPc.chain.descends,
    atPc.registered, by omega, room, by omega⟩⟩
  intro r other found isRunning
  by_contra differs
  obtain empty | ⟨parked, -⟩ := atPc.sound.store.heap.stack_rests found differs
  · cases empty.symm.trans isRunning
  · cases parked.symm.trans isRunning

/-- No stack runs, and those that are parked can be moved. -/
def Machine.Resting (m : Machine) : Prop := ∀ r s, m.store.heap.bodyOf? (.object r) = some (.stack s) →
    s.status = .empty ∨ s.status = .parked ∧ s.mode = .linked

namespace Machine

variable {m : Machine}

theorem Idle.resting (idle : m.Idle) : m.Resting := fun _ _ found =>
  idle.store.heap.stack_rests found id

theorem resting_of_suspended {x : Execution} {least : Nat} (suspended : x.Suspended least) :
    x.machine.Resting := by
  intro r s found
  by_cases isHome : r = x.stack
  · subst isHome
    obtain ⟨s', found', _, _, _, _, parked⟩ := suspended.parked
    cases found.symm.trans found'
    exact .inr ⟨parked.status, parked.mode⟩
  · exact suspended.sound.store.heap.stack_rests found isHome

/-- The states of a call between two turns. -/
inductive Visits (m : Machine) (lambda : Value) (arguments : Array Value) : Execution → Prop
  | entered {rootTask currentTask : Nat} {bottom : Value} {m' : Machine} {x : Execution}
      (laidOut : layOut lambda arguments m = .ok (rootTask, currentTask, bottom) m')
      (resumed : Exec.resume (m'.entering rootTask currentTask bottom) = .ok () x) :
      Visits m lambda arguments x
  | turned {x x' : Execution} (visits : Visits m lambda arguments x) (turn : Exec.Turn x x') :
      Visits m lambda arguments x'

/-- Work is refused an allocation, whatever has been reported before, and leaves `c`. -/
def Refused {α : Type} (work : Op Signal α) (m c : Machine) : Prop :=
  ∃ log size, work { m with log } = .error (.raised (.allocationFailed size)) c

/-- The call is interrupted and parked. -/
def Parks (interrupt : Interrupt) (x z : Execution) : Prop :=
  ∃ y, Exec.step x = .error (.raised interrupt) y ∧ Exec.park x.pc y = .ok () z

/-- The compiler is asked for the code of the lambda in a slot. -/
def asking (compiler : Compiler) (lambda : Nat) : Op Signal Assembly := do
  let v ← slot lambda
  onStore (compiler v)

/-- The machine while the code of a lambda is made: the lambda is in the next slot. -/
def compiling (m : Machine) (v : Value) : Machine := { m with references := m.references.push v }

/-- The machines in which a call collects. -/
inductive CollectsIn (m : Machine) (lambda : Value) (arguments : Array Value) : Machine → Prop
  | layingOut {c : Machine} (refused : Refused (onStore (Make.task
        (max m.settings.stackHeight (arguments.size + 1 + Stack.entryRoom))))
        (m.rooted (lambda :: arguments.toList)) c) : CollectsIn m lambda arguments c
  | instruction {x y z : Execution} {size : Nat} (visits : Visits m lambda arguments x)
      (interrupted : Exec.step x = .error (.raised (.collect size)) y)
      (parked : (do let _ ← Exec.shortOf x.pc size; Exec.park x.pc : Exec Unit) y = .ok () z) :
      CollectsIn m lambda arguments z.machine
  | growing {x z : Execution} {height newHeight : Nat} {c : Machine}
      (visits : Visits m lambda arguments x) (parks : Parks (.grow height) x z)
      (refused : Refused (onStore (Make.stack newHeight)) z.machine c) :
      CollectsIn m lambda arguments c
  | asking {x z : Execution} {v : Value} {compiler : Compiler} {c : Machine}
      (visits : Visits m lambda arguments x) (parks : Parks (.compile v) x z)
      (isCompiler : z.machine.compiler = some compiler)
      (refused : Refused (asking compiler z.machine.references.scopedCount)
        (z.machine.compiling v) c) : CollectsIn m lambda arguments c
  | installing {x z : Execution} {v : Value} {compiler : Compiler} {log : Log} {assembly : Assembly}
      {n c : Machine} (visits : Visits m lambda arguments x) (parks : Parks (.compile v) x z)
      (isCompiler : z.machine.compiler = some compiler)
      (asked : retrying (asking compiler z.machine.references.scopedCount)
        { z.machine.compiling v with log } = .ok assembly n)
      (refused : Refused (installing assembly z.machine.references.scopedCount
          (n.freeSlots assembly.constants.toList.length)) (n.rooted assembly.constants.toList) c) :
      CollectsIn m lambda arguments c

variable {lambda : Value} {arguments : Array Value} {x z : Execution} {c : Machine}

/-- Every state of a call satisfies the invariant of calls. -/
theorem Visits.running (visits : Visits m lambda arguments x) (idle : m.Idle) : x.Running := by
  induction visits with
  | @entered rootTask currentTask bottom m' x laidOut resumed =>
    have idle' := (@ends_layOut m lambda arguments idle).leads.answer laidOut
    have resumes := @Exec.ends_resume (m'.entering rootTask currentTask bottom) _ (fun _ _ => False)
      (idle'.resumable currentTask)
    exact (resumes.leads.answer resumed).1
  | turned _ turn ih => exact turn.running ih

/-- Work that only makes objects leaves an idle machine where it is refused. -/
theorem Refused.resting {α : Type} {work : Op Signal α} (refused : Refused work m c) (idle : m.Idle)
    (grows : ∀ log, Ends work { m with log } (fun _ _ => True)
      fun _ m' => Grown (fun _ => False) { m with log } m') : c.Resting := by
  obtain ⟨log, size, refused⟩ := refused
  exact ((idle.withLog log).grown ((grows log).leads.cause refused)).resting

theorem Refused.resting_onStore {α : Type} {work : Alloc α} {post : α → Store → Prop}
    (refused : Refused (onStore work) m c) (idle : m.Idle)
    (keeps : Store.Keeps (fun _ => False) work m.store post) : c.Resting := by
  refine refused.resting idle fun log => ?_
  have keeps : Store.Keeps (fun _ => False) work ({ m with log } : Machine).store post := keeps
  exact (keeps_onStore keeps idle.store).mono (fun _ _ _ => trivial) fun _ _ ⟨grown, _⟩ => grown

/-- A call that asks for a higher stack, or for code, is parked with an operand to go on with. -/
theorem Parks.suspended {interrupt : Interrupt} (parks : Parks interrupt x z) (running : x.Running)
    (asks : ∀ y, x.Interrupted interrupt y → x.Stalled y ∧ x.fp + 3 < x.sp) : z.Suspended 1 := by
  obtain ⟨y, interrupted, parked⟩ := parks
  obtain ⟨stalled, operand⟩ := asks y ((Exec.ends_step running).leads.cause interrupted)
  obtain ⟨s, atPc⟩ := running
  have atPc := stalled.at atPc
  obtain ⟨machine, pc, rfl, -⟩ := stalled
  have ends := @Exec.ends_park _ s x.pc (fun _ z => z.Suspended 1) (fun _ _ => False) atPc
    (atPc.suspended operand)
  exact ends.leads.answer parked

/-- The lambda that has no code is still in its slot when the compiler is asked. -/
theorem Parks.uncompiled {v : Value} (parks : Parks (.compile v) x z) (running : x.Running) :
    (z.machine.compiling v).Uncompiled z.machine.references.scopedCount := by
  obtain ⟨y, interrupted, parked⟩ := parks
  obtain ⟨stalled, operand, l, isLambda, noCode⟩ := (Exec.ends_step running).leads.cause interrupted
  obtain ⟨s, atPc⟩ := running
  have atPc := stalled.at atPc
  obtain ⟨l', isLambda', noCode'⟩ := atPc.uncompiled_parked isLambda noCode
  have ends := @Exec.ends_park y s x.pc (fun _ z => z = y.withStack (y.parkedStack s x.pc))
    (fun _ _ => False) atPc rfl
  obtain rfl := ends.leads.answer parked
  refine ⟨l', ?_, noCode'⟩
  rw [compiling, slot_push_last]
  exact isLambda'

/-- Where a call collects, no stack runs. -/
theorem CollectsIn.resting (collects : CollectsIn m lambda arguments c) (idle : m.Idle) :
    c.Resting := by
  cases collects with
  | layingOut refused => exact refused.resting_onStore (idle.rooted _) (Make.keeps_task _)
  | @instruction x y z size visits interrupted parked =>
    have running := visits.running idle
    have stalled : x.Stalled y := (Exec.ends_step running).leads.cause interrupted
    obtain ⟨s, atPc⟩ := running
    have atPc := stalled.at atPc
    have ends : Ends (do let _ ← Exec.shortOf x.pc size; Exec.park x.pc : Exec Unit) y
        (fun _ z => z.Suspended 0) fun _ _ => False := by
      refine ends_bind.mpr (ends_bind.mpr (Exec.ends_ask.mpr (ends_bind.mpr ?_)))
      refine Exec.ends_check (by simp) fun pending _ => ?_
      have atPc := atPc.withShortage (some { pc := x.pc, pending })
      exact Exec.ends_park atPc (atPc.suspended atPc.chain.room)
    exact resting_of_suspended (ends.leads.answer parked)
  | growing visits parks refused =>
    have suspended := parks.suspended (visits.running idle) fun _ interrupted => interrupted
    exact refused.resting_onStore suspended.idle (Make.keeps_stack _)
  | @asking x z v compiler _ visits parks isCompiler refused =>
    have suspended := parks.suspended (visits.running idle) fun _ ⟨stalled, operand, _⟩ => ⟨stalled, operand⟩
    have lawful := suspended.idle.compiler compiler isCompiler
    refine refused.resting (suspended.idle.push v) fun log => ?_
    rw [Machine.asking, ends_bind, slot, ends_ask, ends_onStore]
    exact (lawful _ _ _ suspended.idle.store).mono (fun _ _ _ => trivial)
      fun _ _ grown => ⟨grown, rfl, rfl, rfl⟩
  | @installing x z v compiler log assembly n _ visits parks isCompiler asked refused =>
    have running := visits.running idle
    have suspended := parks.suspended running fun _ ⟨stalled, operand, _⟩ => ⟨stalled, operand⟩
    have waits : (({ z.machine.compiling v with log } : Machine)).Waits z.currentTask 1 :=
      suspended.waits.withReferences rfl (slot_push suspended.waits.inside v)
    have answers := ends_askCompiler (suspended.idle.compiler compiler isCompiler)
      ((suspended.idle.push v).withLog log) (parks.uncompiled running) waits
    obtain ⟨idle, fits, -, -⟩ := answers.leads.answer asked
    refine refused.resting (idle.rooted _) fun log => ?_
    unfold Machine.installing
    rw [ends_bind, ends_slots]
    have fits : FitsSlots { n.rooted assembly.constants.toList with log } assembly.units
      (n.freeSlots assembly.constants.toList.length) assembly.maxHeight := fitsSlots_rooted fits
    refine ends_assembly ((idle.rooted assembly.constants.toList).withLog log).store fits (fun code constants m' grown _ => ?_)
      fun _ _ grown => grown
    rw [ends_bind, slot, ends_ask, ends_bind]
    exact ends_check (by simp) fun l _ => trivial

/-- At every moment of a call the frames descend from the registers to the bottom frame, there is
room to park, and no other stack runs; wherever the call collects no stack runs at all. So no stack
is ever converted, visited or parked at the wrong moment. -/
theorem Reached.call_ordered {m : Machine} (reached : m.Reached fun m deed => deed.Orderly m)
    (lambda : Value) (arguments : Array Value) :
    (∀ x, Visits m lambda arguments x → ∃ s, x.Ordered s) ∧
    (∀ c, CollectsIn m lambda arguments c → c.Resting) ∧
    ∀ budget violation m', call budget lambda arguments m = .error (.broken violation) m' →
      violation ∉ [.uncookingUnparked, .alreadyUncooked, .recookingUnparked, .alreadyCooked,
        .visitingCooked, .parkingAboveLimit] := by
  refine ⟨fun x visits => (visits.running reached.idle).ordered,
    fun c collects => collects.resting reached.idle, fun budget violation m' broken member => ?_⟩
  have settles := @settles_call m lambda budget arguments reached.idle
  unfold Action.Settles at settles
  rw [broken] at settles
  fin_cases member <;> cases settles

/-- The call of a lambda without arguments, before its first step. -/
def entry (lambda : Value) (m : Machine) : Option Execution :=
  match layOut lambda #[] m with
  | .error _ _ => none
  | .ok (rootTask, currentTask, bottom) m =>
    match Exec.resume (m.entering rootTask currentTask bottom) with
    | .error _ _ => none
    | .ok _ x => some x

/-- The call after some steps. -/
def after : Nat → Execution → Option Execution
  | 0, x => some x
  | count + 1, x =>
    match Exec.step x with
    | .ok _ x => after count { x with shortage := none }
    | .error _ _ => none

theorem visits_after {lambda : Value} {count : Nat}
    {y : Execution} (isEntry : entry lambda m = some x) (isAfter : after count x = some y) :
    Visits m lambda #[] y := by
  have visits : Visits m lambda #[] x := by
    unfold entry at isEntry
    split at isEntry
    · cases isEntry
    rename_i laidOut
    split at isEntry
    · cases isEntry
    rename_i resumed
    cases isEntry
    exact .entered laidOut resumed
  clear isEntry
  induction count generalizing x with
  | zero =>
    cases isAfter
    exact visits
  | succ count ih =>
    unfold after at isAfter
    split at isAfter
    · rename_i done
      exact ih isAfter (visits.turned (.completed done))
    · cases isAfter

theorem exists_visits {lambda : Value} {count : Nat}
    {holds : Execution → Bool} (tried : ((entry lambda m).bind (after count)).any holds = true) :
    ∃ x, Visits m lambda #[] x ∧ holds x = true := by
  obtain ⟨x, isAfter, holds⟩ := (Option.any_eq_true _ _).mp tried
  obtain ⟨x₀, isEntry, isAfter⟩ := Option.bind_eq_some_iff.mp isAfter
  exact ⟨x, visits_after isEntry isAfter, holds⟩

theorem call_ordered_yielding : ∃ m m₁ lambda x, create { stackHeight := 32 } {} = .ok m ∧
    assemble (trialCode [.push 0, .yield, .ret]) 0 m = .ok lambda m₁ ∧
    Visits m₁ lambda #[] x ∧ x.fp = 4 ∧ ∃ s, x.Ordered s := by
  obtain ⟨m, m₁, lambda, isMachine, isLambda, turns⟩ :=
    @exists_of_trial [.push 0, .yield, .ret] (fun lambda m => ((entry lambda m).bind (after 1)).any (·.fp == 4))
      (by decide +kernel)
  obtain ⟨x, visits, isFrame⟩ := exists_visits turns
  have reached : m₁.Reached fun m deed => deed.Orderly m :=
    .done (.assemble (trialCode [.push 0, .yield, .ret]) 0) (.created isMachine) (fits_yielding _)
      (Action.leaves_discard isLambda)
  exact ⟨m, m₁, lambda, x, isMachine, isLambda, visits, eq_of_beq isFrame,
    (reached.call_ordered lambda #[]).1 x visits⟩

end Machine

end ObjectMachine
