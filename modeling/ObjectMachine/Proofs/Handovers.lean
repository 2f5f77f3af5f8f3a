/-
# ObjectMachine.Proofs.Handovers -- what task instructions do when tasks are in line

Attaching, yielding and returning look at tasks through the heap: they follow callers, and compare
the task that runs with the one that the call started on. When tasks are in line that comes to
looking at the line. `yieldTo` and `leaveWith (finishTo …)` are told the tasks below the first and
ask the heap nothing, and they are what `yield` and `leave` do.

* `Exec.yield_eq`, `Exec.leave_eq` -- yielding and returning go to the second task in line.
* `Exec.abides` -- all that task instructions do.
-/
import Mathlib
import ObjectMachine.Proofs.Tasks

namespace ObjectMachine

open ObjectMachine.Action (Leads asks_lift)

/-- Two ways to go on that do not differ where they are reached. -/
theorem Action.bind_congr {σ ε α β : Type} {first : Action σ ε α} {f g : α → Action σ ε β} {s : σ}
    (same : ∀ answer s', first s = .ok answer s' → f answer s' = g answer s') :
    (first >>= f) s = (first >>= g) s := by
  change EStateM.bind first f s = EStateM.bind first g s
  unfold EStateM.bind
  cases result : first s with
  | ok answer s' => exact same answer s' result
  | error stop s' => rfl

/-- Questions leave the state alone. -/
theorem Action.Asks.bind_congr {σ ε α β : Type}
    {first : Action σ ε α} {f g : α → Action σ ε β} {s : σ} (asks : Asks first)
    (same : ∀ answer, first s = .ok answer s → f answer s = g answer s) :
    (first >>= f) s = (first >>= g) s := by
  refine Action.bind_congr fun answer s' done => ?_
  obtain ⟨_, asked⟩ | ⟨_, broken⟩ := asks s
  · cases done.symm.trans asked
    exact same answer done
  · cases done.symm.trans broken

namespace Exec

open Execution (Ranked Manned Runs)

variable {x y : Execution} {r : Ref} {rest tasks : List Ref} {status : StackStatus}

/-- Hand the top operand to the first of the tasks `rest`. If there is none the call is done. -/
def yieldTo (rest : List Ref) (next : Nat) : Exec Unit := do
  let v ← peek 0
  let null ← askStore fun s => s.roots.null
  setPeek 0 null
  let task ← currentTask
  let t ← checkStore fun s => s.heap.cast Task task
  match rest with
  | [] => do
    park next
    Action.fail (.done v)
  | caller :: _ => do
    modifyHeap fun h => h.put task { t with caller := null }
    switchTo (.object caller) next
    setPeek 0 v

/-- The task that a line says, and the one that the heap says. -/
theorem callerOf?_manned {t : Task} (manned : x.Manned status (r :: rest))
    (isTask : x.heap.view? Task (.object r) = some t) :
    callerOf? x.heap t = rest.head?.map Value.object :=
  Heap.callerOf?_line manned.staffed.plain manned.lined.line isTask

theorem askStore_bind {α β : Type} {f : Store → β} {next : β → Exec α} :
    (askStore f >>= next) x = next (f x.machine.store) x := rfl

theorem yield_eq (runs : x.Runs (r :: rest)) (next : Nat) : yield next x = yieldTo rest next x := by
  refine (asks_peek 0).bind_congr fun v _ => (asks_askStore _).bind_congr fun null _ =>
    Action.bind_congr fun _ y done => ?_
  have tends := (@leads_setPeek x (fun _ _ => False) 0 null).answer done
  have manned := runs.toManned.tends tends
  refine (asks_ask _).bind_congr fun task asked => (asks_checkStore _).bind_congr fun t checked => ?_
  obtain rfl : task = .object r := by
    cases asked
    exact manned.slot
  have isTask := Heap.cast_eq_ok.mp (checkStore_ok checked)
  rw [askStore_bind, callerOf?_manned manned isTask]
  cases rest <;> rfl

/-- The running task has returned from its entry lambda, and the first of the tasks `rest` goes on.
If there is none the call is done. -/
def finishTo (rest : List Ref) (answer : Value) : Exec Unit := do
  let stack ← ask fun x => x.stack
  modifyHeap fun h => h.adjustStack stack fun { words, top, marker, mode, .. } =>
    { words, top, marker, status := .empty, mode }
  let task ← currentTask
  let t ← checkStore fun s => s.heap.cast Task task
  match rest with
  | [] => Action.fail (.done answer)
  | caller :: _ => do
    let null ← askStore fun s => s.roots.null
    modifyHeap fun h => h.put task { t with caller := null }
    report .debug fun _ => "task " ++ task.describe ++ " finished"
    setCurrentTask (.object caller)
    resume
    setPeek 0 answer

theorem finishTask_eq (runs : x.Runs (r :: rest)) (answer : Value) :
    finishTask answer x = finishTo rest answer x := by
  refine (asks_ask _).bind_congr fun stack asked => Action.bind_congr fun _ y done => ?_
  cases asked
  obtain ⟨manned, -⟩ := (@leads_emptied x (fun _ _ => False) r rest runs).answer done
  refine (asks_ask _).bind_congr fun task asked => (asks_checkStore _).bind_congr fun t checked => ?_
  obtain rfl : task = .object r := by
    cases asked
    exact manned.slot
  have isTask := Heap.cast_eq_ok.mp (checkStore_ok checked)
  have isRoot := manned.root_iff
  cases rest with
  | nil => rw [ask_bind, if_pos (isRoot.mpr rfl)]
  | cons caller below =>
    rw [ask_bind, if_neg fun same => nomatch isRoot.mp same]
    refine askStore_bind.trans ?_
    rw [callerOf?_manned manned isTask]
    rfl

theorem leave_eq (runs : x.Runs (r :: rest)) : leave x = leaveWith (finishTo rest) x := by
  refine Action.bind_congr fun answer y done => ?_
  have tends : x.Tends y := tended_steps.pop.answered x answer y done
  refine (asks_ask _).bind_congr fun ⟨_, fp⟩ _ => (asks_check _).bind_congr fun s _ =>
    (asks_lift _).bind_congr fun pc _ => (asks_lift _).bind_congr fun _ _ =>
    (asks_lift _).bind_congr fun below _ => (asks_lift _).bind_congr fun marker _ => ?_
  -- whether or not the marker changes, the task has finished only if it was in its last frame
  have finished : ∀ y, x.Tends y → returnTo finishTask answer s below fp pc y =
      returnTo (finishTo rest) answer s below fp pc y := by
    intro y tends
    unfold returnTo
    by_cases isEntry : below = 0
    · rw [if_pos isEntry, if_pos isEntry]
      exact finishTask_eq (runs.tends tends) answer
    · rw [if_neg isEntry, if_neg isEntry]
  by_cases changed : marker ≠ s.marker
  · rw [if_pos changed, if_pos changed]
    exact Action.bind_congr fun _ z marked => finished z
      (Trans.trans tends ((tended_setMarker marker).answered y _ z marked))
  · rw [if_neg changed, if_neg changed]
    exact finished y tends

section Attaching

variable {q : Ref} {t : Task}

/-- The top operand stands for a task. -/
def Operand (x : Execution) (q : Ref) (t : Task) : Prop :=
  (do narrow Task (← peek 0) : Exec (Value × Task)) x = .ok (.object q, t) x

/-- The stack of a task is empty. -/
def Finished (x : Execution) (q : Ref) : Prop := ∃ caller, x.roster q = some ⟨caller, .empty⟩

theorem Operand.isTask (operand : Operand x q t) : x.heap.view? Task (.object q) = some t := by
  have leads : Leads (do narrow Task (← peek 0) : Exec (Value × Task)) x
      (fun found _ => x.heap.view? Task found.1 = some found.2) fun _ _ => True :=
    (asks_peek _).leads_bind fun v _ => by
      rw [← bind_pure (narrow Task v)]
      exact leads_narrow_bind trivial fun _ _ isFound => isFound
  exact leads.answer operand

theorem Operand.attach_eq (operand : Operand x q t) (next : Nat) :
    attach next x = attachTo next (.object q, t) x := by
  have split : attach next = (do narrow Task (← peek 0) : Exec (Value × Task)) >>= attachTo next :=
    (bind_assoc _ _ _).symm
  rw [split]
  change EStateM.bind _ _ x = _
  rw [EStateM.bind, operand]

/-- How attaching ends: the task has finished, is in line, or gets into line. -/
theorem attach_cases (runs : x.Runs tasks) (operand : Operand x q t) (next : Nat) :
    Finished x q ∧ attach next x = .error (.raised (.failed .deadTask)) x ∨ ¬ Finished x q ∧
      q ∈ tasks ∧ attach next x = .error (.raised (.failed .taskBusy)) x ∨ ¬ Finished x q ∧
      q ∉ tasks ∧ Leads (attach next) x (fun _ y => y.Runs (q :: tasks)) fun _ _ => False := by
  obtain ⟨r, rest, rfl⟩ := exists_first runs
  have isTask := operand.isTask
  obtain ⟨⟨caller, status⟩, posted⟩ := runs.staffed.owned.posted isTask
  have finished : Finished x q ↔ status = .empty := by
    constructor
    · rintro ⟨_, isEmpty⟩
      cases posted.symm.trans isEmpty
      rfl
    · rintro rfl
      exact ⟨caller, posted⟩
  by_cases dead : status = .empty
  · refine .inl ⟨finished.mpr dead, ?_⟩
    subst dead
    rw [operand.attach_eq, attachTo_dead isTask posted]
  have alive := (operand.attach_eq next).trans (attachTo_alive runs isTask posted dead)
  by_cases inLine : q ∈ r :: rest
  · refine .inr (.inl ⟨mt finished.mp dead, inLine, ?_⟩)
    rw [alive, if_pos inLine]
    rfl
  · refine .inr (.inr ⟨mt finished.mp dead, inLine, ?_⟩)
    rw [if_neg inLine] at alive
    unfold Leads
    rw [alive]
    exact (leads_attaching runs isTask posted dead inLine).imp fun _ _ ⟨runs, _⟩ => runs

end Attaching

/-- What task instructions do in a state of a call whose line `tasks` is. -/
structure Abides (x : Execution) (tasks : List Ref) : Prop where
  /-- The walk down the callers ends, and tells who is in line. -/
  walks : ∀ q, isAttached x.machine.store.heap (.object q) x.machine.store.heap.walkFuel
    (x.machine.references.slot x.currentTask) = .ok (decide (q ∈ tasks))
  dead : ∀ next q t, Operand x q t →
    ((∃ y, attach next x = .error (.raised (.failed .deadTask)) y) ↔ Finished x q)
  busy : ∀ next q t, Operand x q t →
    ((∃ y, attach next x = .error (.raised (.failed .taskBusy)) y) ↔ ¬ Finished x q ∧ q ∈ tasks)
  attaches : ∀ next q t, Operand x q t → Leads (attach next) x (fun _ y => y.Runs (q :: tasks))
    fun cause _ => cause = .failed .deadTask ∨ cause = .failed .taskBusy
  /-- Yielding goes to the task that attached this one. -/
  yields : ∀ next, yield next x = yieldTo tasks.tail next x
  yielded : ∀ next, Leads (yield next) x (fun _ y => y.Runs tasks.tail)
    fun cause y => tasks.tail = [] ∧ (∃ v, cause = .done v) ∧ y.machine.Quiet
  alone : x.machine.references.slot x.currentTask = x.machine.references.slot x.rootTask ↔ tasks.tail = []
  /-- A task that is not alone has a task to return to. -/
  returns : leave x = leaveWith (finishTo tasks.tail) x
  /-- A call that cannot go on is given up, with all its tasks. -/
  abandons : ∀ interrupt y error z, step x = .error (.raised interrupt) y →
    (do recover x.pc interrupt; resume : Exec Unit) y = .error (.raised (.failed error)) z →
    ∃ w, abandon z = .ok () w ∧ w.machine.Quiet ∧ x.KeepsFinished w

theorem abides (runs : x.Runs tasks) : Abides x tasks := by
  obtain ⟨r, rest, rfl⟩ := exists_first runs
  constructor
  case walks =>
    intro q
    rw [runs.slot]
    exact Heap.isAttached_eq runs.staffed.plain runs.lined.line
      (Nat.lt_of_succ_lt (Heap.length_lt_walkFuel runs.lined.line runs.lined.nodup))
  case dead =>
    intro next q t operand
    obtain ⟨finished, dead⟩ | ⟨other, -, busy⟩ | ⟨other, -, leads⟩ := attach_cases runs operand next
    · exact ⟨fun _ => finished, fun _ => ⟨x, dead⟩⟩
    · exact ⟨fun ⟨y, dead⟩ => (nomatch dead.symm.trans busy), fun finished => absurd finished other⟩
    · exact ⟨fun ⟨y, dead⟩ => (leads.cause dead).elim, fun finished => absurd finished other⟩
  case busy =>
    intro next q t operand
    obtain ⟨finished, dead⟩ | ⟨other, inLine, busy⟩ | ⟨-, outside, leads⟩ := attach_cases runs operand next
    · exact ⟨fun ⟨y, busy⟩ => (nomatch busy.symm.trans dead), fun ⟨other, _⟩ => absurd finished other⟩
    · exact ⟨fun _ => ⟨other, inLine⟩, fun _ => ⟨x, busy⟩⟩
    · exact ⟨fun ⟨y, busy⟩ => (leads.cause busy).elim, fun ⟨_, inLine⟩ => absurd inLine outside⟩
  case attaches =>
    intro next q t operand
    obtain ⟨-, dead⟩ | ⟨-, -, busy⟩ | ⟨-, -, leads⟩ := attach_cases runs operand next
    · unfold Leads
      rw [dead]
      exact .inl rfl
    · unfold Leads
      rw [busy]
      exact .inr rfl
    · exact leads.mono (fun _ _ runs => runs) fun _ _ absurd => absurd.elim
  case yields => exact yield_eq runs
  case yielded =>
    exact fun next => (leads_yield runs next).mono (fun _ _ ⟨runs, _⟩ => runs)
      fun _ _ ⟨alone, isDone, quiet, _⟩ => ⟨alone, isDone, quiet⟩
  case alone =>
    rw [runs.slot]
    exact runs.root_iff
  case returns => exact leave_eq runs
  case abandons =>
    intro interrupt y error z stepped recovered
    obtain ⟨keeps, ⟨⟨answer, rfl⟩, -⟩ | ⟨goesOn, interrupted⟩⟩ := (leads_step runs).cause stepped
    · cases recovered
    obtain ⟨-, _, keeps', _, manned⟩ := (leads_recover_resume interrupted _ goesOn).cause recovered
    obtain ⟨w, abandoned, quiet, -, -, keeps''⟩ := abandon_ok manned
    exact ⟨w, abandoned, quiet, Trans.trans keeps (Trans.trans keeps' keeps'')⟩

end Exec

end ObjectMachine
