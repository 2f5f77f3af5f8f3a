/-
# ObjectMachine.Proofs.Tasks -- the tasks of every call

A call lays out a task, which is alone in line, and then takes turns. Each turn leaves tasks in
line: an instruction that is interrupted parks the first of them, collects, replaces its stack or
has a lambda compiled, and resumes it. When the call is done, or is given up, no task is in line.

* `Exec.Turn.completes` -- every turn leaves tasks in line.
* `Exec.abandon_ok` -- a call that is given up leaves none.
* `Machine.Visits.completes`, `Machine.leads_call` -- every state of a call, and its end.
-/
import Mathlib
import ObjectMachine.Proofs.Attaching
import ObjectMachine.Proofs.Framing

namespace ObjectMachine

open ObjectMachine.Action (Leads Leaves leads_bind)
open References (push scopedCount)

namespace Exec

open Execution (Ranked Manned Runs)

variable {α : Type} {x y : Execution} {raised : Interrupt → Execution → Prop} {tasks : List Ref}
  {status : StackStatus}

/-- Tasks are in line, and none that had finished is among them. -/
def Holds (status : StackStatus) (x y : Execution) : Prop :=
  x.KeepsFinished y ∧ ∃ tasks, y.Manned status tasks

theorem Holds.trans {z : Execution} {other : StackStatus} (first : Holds other x y)
    (second : Holds status y z) : Holds status x z :=
  ⟨Trans.trans first.1 second.1, second.2⟩

theorem leads_park_runs (runs : x.Runs tasks) (pc : Nat) :
    Leads (park pc) x (fun _ y => Holds .parked x y) raised := by
  obtain ⟨r, rest, rfl⟩ := exists_first runs
  obtain ⟨t, isTask, isCaller, isStack⟩ := runs.task
  refine (leads_park_task runs.crew_owned isTask isStack pc).imp ?_
  rintro - y ⟨crew, alters, owned, roster⟩
  rw [isCaller] at roster
  refine ⟨alters.keepsFinished ?_, _, runs.altered alters owned ?_ rfl, ?_⟩
  · rw [roster]
    exact .update _ runs.lined.line.posted (by simp)
  · rw [roster]
    exact runs.lined.setStatus .parked
  · rw [alters.references, alters.forms.currentTask]
    exact runs.current

theorem leads_surviving {work : Op Interrupt α} (manned : x.Manned status tasks)
    (surviving : Machine.Surviving (x.machine.references.slots.size) work) :
    Leads (onMachine work) x (fun _ y => Holds status x y) fun _ y => Holds status x y := by
  refine leads_onMachine.mpr (Leads.mono (surviving.within x.machine) ?_ ?_)
  · rintro answer m ⟨survives, -⟩
    exact (manned.survives survives).symm
  · intro cause m survives
    exact (manned.survives survives).symm

/-- A call that cannot go on: it is to be given up with an error, and tasks are in line. -/
def GivesUp (x : Execution) (cause : Interrupt) (y : Execution) : Prop :=
  (∃ error, cause = .failed error) ∧ ∃ status, Holds status x y

theorem GivesUp.after {cause : Interrupt} {z : Execution} (holds : Holds status x y)
    (givesUp : GivesUp y cause z) : GivesUp x cause z := by
  obtain ⟨failed, other, holds'⟩ := givesUp
  exact ⟨failed, other, holds.trans holds'⟩

theorem leads_orFail {work : Op RunError α} (manned : x.Manned status tasks)
    (surviving : Machine.Surviving (x.machine.references.slots.size) work) :
    Leads (orFail work) x (fun _ y => Holds status x y) (GivesUp x) := by
  refine leads_onMachine.mpr (Action.leads_mapError.mpr (Leads.mono (surviving.within x.machine) ?_ ?_))
  · rintro answer m ⟨survives, -⟩
    exact (manned.survives survives).symm
  · intro error m survives
    exact ⟨⟨error, rfl⟩, status, (manned.survives survives).symm⟩

/-- A stack for the first task in line, which no task has. -/
theorem leads_newStack (manned : x.Manned status tasks) (height : Nat) :
    Leads (orFail (Machine.retrying (Machine.onStore (Make.stack height)))) x (fun grown y =>
      Holds status x y ∧ ∀ v t, y.crew.tasks v = some t → t.stack ≠ grown) (GivesUp x) := by
  have surviving : Machine.Surviving (x.machine.references.slots.size)
      (Machine.onStore (Make.stack height)) :=
    (Machine.tended_onStore (Make.tended_stack height)).surviving
  refine leads_onMachine.mpr (Action.leads_mapError.mpr
    ((Machine.leads_retrying surviving).mono ?_ fun error m survives =>
      ⟨⟨error, rfl⟩, status, (manned.survives survives).symm⟩))
  rintro grown m' ⟨m, survives, done⟩
  obtain ⟨⟨tasks', manned'⟩, keeps⟩ := manned.survives survives
  obtain ⟨tends, -, rfl, size, isStore⟩ := (Machine.within_onStore (Make.within_stack height)).answer done
  have tends : Execution.Tends { x with machine := m } { x with machine := m' } := ⟨tends, rfl, rfl, rfl⟩
  refine ⟨⟨Trans.trans keeps (manned'.keepsFinished tends), tasks', manned'.tends tends⟩, ?_⟩
  intro v t isTask isNew
  have isTask : m'.store.heap.view? Task v = some t := isTask
  rw [isStore] at isTask
  have isTask := Heap.Tends.view_task_extended (by simp [Body.kind]) isTask
  obtain ⟨s, isStack⟩ := Heap.is_iff.mp (manned'.staffed.owned.stack v t isTask)
  rw [isNew] at isStack
  obtain ⟨_, o, ⟨⟩, found, -⟩ := Heap.view?_iff.mp isStack
  simp [Heap.object?] at found

/-- A task that gets another stack keeps its status. -/
theorem Replacing.crew {h : Heap} {task grown : Value} {t : Task} {moved kept fresh parked : Stack}
    {old ref : Ref} (replacing : Replacing h task grown t moved kept old ref fresh parked)
    (differs : t.stack ≠ grown) : (replaced h task grown t moved kept).crew =
      (h.crew.setStatus grown parked.status).setTask task { t with stack := grown } := by
  have first : (h.put grown moved).crew = h.crew.setStatus grown parked.status := by
    rw [← replacing.status]
    exact Heap.crew_adjust_stack replacing.isFresh rfl
  have isParked : (h.put grown moved).view? Stack t.stack = some parked := by
    rw [Heap.put, Heap.view?_adjust (Heap.view?_eq_some.mp replacing.isFresh), Function.update_of_ne differs]
    exact replacing.isParked
  have second : ((h.put grown moved).put t.stack kept).crew = h.crew.setStatus grown parked.status := by
    have crew : ((h.put grown moved).put t.stack kept).crew = (h.put grown moved).crew.setStatus t.stack
        kept.status := Heap.crew_adjust_stack isParked rfl
    rw [crew, replacing.status', Crew.setStatus_self (by simp [Heap.crew, isParked]), first]
  have isTask : ((h.put grown moved).put t.stack kept).view? Task task = some t :=
    (congrFun (congrArg Crew.tasks second) task).trans replacing.isTask
  rw [replaced, Heap.crew_put_task isTask, second]

theorem leads_growStack (manned : x.Manned .parked tasks) (height : Nat) :
    Leads (growStack height) x (fun _ y => Holds .parked x y) (GivesUp x) := by
  refine (asks_ask _).leads_bind fun _ _ => (asks_checkStore _).leads_bind fun _ _ =>
    (Action.asks_lift _).leads_bind fun _ _ => (Action.asks_lift _).leads_bind fun newHeight _ => ?_
  refine leads_report_bind fun x₁ still _ => ?_
  have ranked := manned.altered still manned.crew_owned manned.lined rfl
  have manned₁ : x₁.Manned .parked tasks := ⟨ranked, by
    rw [still.references, still.forms.currentTask]
    exact manned.current⟩
  have before := still.keepsFinished (.refl _)
  refine leads_bind.mpr ((leads_newStack manned₁ newHeight).mono ?_ fun cause y givesUp =>
    .after ⟨before, tasks, manned₁⟩ givesUp)
  rintro grown y ⟨⟨keeps, tasks', manned'⟩, new⟩
  obtain ⟨r, rest, rfl⟩ := List.exists_cons_of_ne_nil manned'.lined.line.ne_nil
  refine leads_currentTask_bind manned' ((asks_checkStore _).leads_bind fun ⟨t, s, old, ref⟩ first =>
    (asks_checkStore _).leads_bind fun ⟨moved, kept⟩ second => ?_)
  obtain ⟨parked, replacing⟩ := replacing_of_checks (checkStore_ok first) (checkStore_ok second)
  have isTask : y.crew.tasks (.object r) = some t := replacing.isTask
  have isStatus : y.crew.statuses t.stack = some parked.status :=
    congrArg (Option.map Stack.status) replacing.isParked
  let h := replaced y.heap (.object r) grown t moved kept
  have alters : y.Alters { y with machine := y.machine.withHeap h }
      ((y.crew.setStatus grown parked.status).setTask (.object r) { t with stack := grown }) :=
    ⟨forms_withHeap replacing.forms, rfl, replacing.crew (new _ t isTask)⟩
  obtain ⟨owned, roster⟩ := manned'.crew_owned.replace isTask isStatus new
  have ranked' := manned'.altered alters owned (by rw [roster]; exact manned'.lined) rfl
  refine ⟨Trans.trans before (Trans.trans keeps (alters.keepsFinished ?_)),
    r :: rest, ranked', manned'.current⟩
  rw [roster]
  exact .refl _

theorem leads_recover (runs : x.Runs tasks) (pc : Nat) {interrupt : Interrupt}
    (goesOn : ∀ answer, interrupt ≠ .done answer) :
    Leads (recover pc interrupt) x (fun _ y => Holds .parked x y) (GivesUp x) := by
  cases interrupt with
  | collect size =>
    refine leads_bind.mpr (((tended_shortOf pc size).leads (final_shortOf pc size)).imp ?_)
    intro pending x₁ tends
    have before : Holds .running x x₁ := ⟨runs.keepsFinished tends, tasks, runs.toManned.tends tends⟩
    refine (leads_park_runs (runs.tends tends) pc).bind ?_
    rintro - x₂ ⟨keeps₂, tasks₂, manned₂⟩
    have before₂ := before.trans ⟨keeps₂, tasks₂, manned₂⟩
    refine leads_bind.mpr ((final_collect pending).leads fun _ x₃ done => ?_)
    have holds₃ := (leads_surviving manned₂ (Machine.surviving_collect pending)).answer done
    have before₃ := before₂.trans holds₃
    refine (asks_askStore _).leads_bind fun free _ => leads_ite (fun _ => ⟨⟨_, rfl⟩, .parked, before₃⟩)
      fun _ => before₃
  | grow height =>
    refine (leads_park_runs runs pc).bind ?_
    rintro - y ⟨keeps, tasks', manned⟩
    exact (leads_growStack manned height).mono (fun _ _ => .trans ⟨keeps, tasks', manned⟩)
      fun _ _ => .after ⟨keeps, tasks', manned⟩
  | compile v =>
    refine (leads_park_runs runs pc).bind ?_
    rintro - y ⟨keeps, tasks', manned⟩
    exact (leads_orFail manned (Machine.surviving_compile v)).mono
      (fun _ _ => .trans ⟨keeps, tasks', manned⟩) fun _ _ => .after ⟨keeps, tasks', manned⟩
  | done answer => exact absurd rfl (goesOn answer)
  | failed error => exact ⟨⟨error, rfl⟩, .running, refl _, tasks, runs.toManned⟩

/-- A call that goes on after an interrupt has its tasks in line, and so has one that cannot. -/
theorem leads_recover_resume (runs : x.Runs tasks) (pc : Nat) {interrupt : Interrupt}
    (goesOn : ∀ answer, interrupt ≠ .done answer) :
    Leads (do recover pc interrupt; resume : Exec Unit) x (fun _ y => Completes x y)
      (GivesUp x) := by
  refine (leads_recover runs pc goesOn).bind ?_
  rintro - y ⟨keeps, tasks', manned⟩
  obtain ⟨r, rest, rfl⟩ := List.exists_cons_of_ne_nil manned.lined.line.ne_nil
  refine (leads_resume_manned manned).imp ?_
  rintro - z ⟨runs', keeps'⟩
  exact ⟨Trans.trans keeps keeps', _, runs'⟩

theorem Turn.completes (turn : Turn x y) (runs : x.Runs tasks) : Completes x y := by
  cases turn with
  | completed stepped =>
    obtain ⟨keeps, tasks', runs'⟩ := (leads_step runs).answer stepped
    exact ⟨keeps, tasks', runs'.tends ⟨refl _, rfl, rfl, rfl⟩⟩
  | recovered stepped recovered =>
    obtain ⟨keeps, ⟨⟨answer, isDone⟩, -⟩ | ⟨goesOn, runs'⟩⟩ := (leads_step runs).cause stepped
    · subst isDone
      cases recovered
    · obtain ⟨keeps', completes⟩ := (leads_recover_resume runs' _ goesOn).answer recovered
      exact ⟨Trans.trans keeps keeps', completes⟩

theorem Reaches.completes (reaches : Reaches x y) (runs : x.Runs tasks) : Completes x y := by
  induction reaches with
  | refl => exact ⟨refl _, tasks, runs⟩
  | tail _ turn ih =>
    obtain ⟨keeps, _, runs'⟩ := ih
    obtain ⟨keeps', completes⟩ := turn.completes runs'
    exact ⟨Trans.trans keeps keeps', completes⟩

/-- A call that is given up finishes every task in line, and no other. -/
theorem abandon_ok (manned : x.Manned status tasks) :
    ∃ y, abandon x = .ok () y ∧
      y.machine.Quiet ∧ (∀ q ∈ tasks, ∃ caller, y.roster q = some ⟨caller, .empty⟩) ∧
      (∀ q ∉ tasks, y.roster q = x.roster q) ∧ x.KeepsFinished y := by
  obtain ⟨r, rest, rfl⟩ := List.exists_cons_of_ne_nil manned.lined.line.ne_nil
  have staffed := manned.staffed
  obtain ⟨h, abandoned, owned, finished, others⟩ :=
    Heap.abandonFrom_ok staffed.owned staffed.plain manned.lined.line manned.lined.nodup
      (Nat.lt_of_succ_lt (Heap.length_lt_walkFuel manned.lined.line manned.lined.nodup))
  have forms : x.machine.Forms (x.machine.withHeap h) := ⟨forms_abandonFrom abandoned, rfl, rfl⟩
  refine ⟨{ x with machine := x.machine.withHeap h }, ?_, ⟨staffed.forms forms owned, ?_⟩, finished,
    others, rfl, Machine.keepsFinished_of_roster le_rfl (fun _ _ _ => rfl) fun q caller isFinished => ?_⟩
  · rw [abandon, currentTask, ask_bind, manned.slot, checkStore_bind abandoned]
    rfl
  · intro q post posted
    by_cases inLine : q ∈ r :: rest
    · obtain ⟨caller, isFinished⟩ := finished q inLine
      cases posted.symm.trans isFinished
      exact .inl rfl
    · exact manned.lined.others q post ((others q inLine).symm.trans posted) inLine
  · by_cases inLine : q ∈ r :: rest
    · exact finished q inLine
    · exact ⟨caller, (others q inLine).trans isFinished⟩

/-- However a call ends, no task is in line any more. -/
theorem run_quiet (runs : x.Runs tasks) {budget : Nat}
    (leaves : @Leaves Execution RunError Value (run budget) x y) :
    y.machine.Quiet ∧ x.KeepsFinished y := by
  have ends := run_ends budget x
  unfold Leaves at leaves
  generalize run budget x = result at ends leaves
  cases ends with
  | done reaches stepped =>
    obtain ⟨_, ⟨⟩⟩ | ⟨_, ⟨⟩⟩ := leaves
    obtain ⟨before, _, runs'⟩ := reaches.completes runs
    obtain ⟨keeps, ⟨-, quiet⟩ | ⟨goesOn, -⟩⟩ := (leads_step runs').cause stepped
    · exact ⟨quiet, Trans.trans before keeps⟩
    · exact absurd rfl (goesOn _)
  | failed reaches stepped recovered =>
    obtain ⟨before, _, runs'⟩ := reaches.completes runs
    obtain ⟨keeps, ⟨⟨answer, rfl⟩, -⟩ | ⟨goesOn, interrupted⟩⟩ := (leads_step runs').cause stepped
    · cases recovered
    have before := Trans.trans before keeps
    obtain ⟨-, _, keeps, _, manned⟩ := (leads_recover_resume interrupted _ goesOn).cause recovered
    have before := Trans.trans before keeps
    obtain ⟨z, abandoned, quiet, -, -, keeps⟩ := abandon_ok manned
    simp only [giveUp, abandoned] at leaves
    obtain ⟨_, ⟨⟩⟩ | ⟨_, ⟨⟩⟩ := leaves
    exact ⟨quiet, Trans.trans before keeps⟩
  | stopped neither =>
    obtain ⟨_, ⟨⟩⟩ | ⟨error, ⟨⟩⟩ := leaves
    exact absurd rfl (neither error)

end Exec

namespace Machine

open Exec (Posts posts_prepared)

variable {m m' : Machine} {lambda : Value} {arguments : Array Value}

/-- A task that has been given something to run while no other is in line is alone in line. -/
theorem Quiet.entering {q : Ref} {h : Heap} {bottom : Value} (quiet : m.Quiet) (tends : m.Tends m')
    (posts : Posts m.store m'.store q h) :
    let laidOut := { m'.withHeap h with references := (m'.references.push (.object q)).push (.object q) }
    (laidOut.entering m'.references.scopedCount (m'.references.push (.object q)).scopedCount
      bottom).Manned .parked [q] := by
  intro laidOut
  have forms : m.Forms laidOut := ⟨Trans.trans tends.forms.store posts.forms, tends.settings, tends.compiler⟩
  have settled := quiet.settled.moves (tends.store.heap.passes.moves quiet.owned)
  have others : h.roster.Settled m.store.roots.null := by
    intro r post posted
    rw [posts.roster] at posted
    by_cases here : r = q
    · subst here
      rw [Function.update_self] at posted
      cases posted
      exact .inr rfl
    · rw [Function.update_of_ne here] at posted
      exact settled r post posted
  refine ⟨⟨quiet.toStaffed.forms forms (Heap.crew_owned.mp posts.owned), ?_, ?_, ?_, ?_⟩, ?_⟩
  · change h.roster.Lined m'.store.roots.null _ _
    rw [tends.store.roots]
    exact others.lined (by rw [posts.roster, Function.update_self])
  · simp [laidOut, Machine.entering, push, References.slot, scopedCount, Array.getElem_push]
  · simp [Machine.entering, push, scopedCount]
  · simp [laidOut, Machine.entering, push, scopedCount]
  · simp [laidOut, Machine.entering, push, References.slot, scopedCount, Array.getElem_push]

/-- A call starts on a task that is alone in line, and whose slots are new. -/
theorem leads_layOut (quiet : m.Quiet) :
    Leads (layOut lambda arguments) m (fun (rootTask, currentTask, bottom) m' =>
      m.references.slots.size ≤ currentTask ∧ m.KeepsFinished currentTask m' ∧
      ∃ tasks, (m'.entering rootTask currentTask bottom).Manned .parked tasks) fun _ m' =>
      m'.Quiet ∧ ∀ except, m.KeepsFinished except m' := by
  have survives : ∀ m', Survives m.references.slots.size m m' → m'.Quiet ∧ ∀ except, m.KeepsFinished except m' :=
    fun m' survives => quiet.survives survives
  refine Action.Gentle.leads_bind (surviving_rootAll _) (fun _ m' => survives m') fun entry m₁ first => ?_
  refine (asks_ask _).leads_bind fun height _ => leads_bind.mpr
    ((leads_retrying (tended_onStore (Make.tended_task height)).surviving).mono ?_ fun _ m' more =>
      survives m' (IsTrans.trans _ _ _ first more))
  rintro _ m₃ ⟨m₂, second, made⟩
  obtain ⟨quiet₂, before⟩ := survives m₂ (Trans.trans first second)
  obtain ⟨tends, -, home, q, rfl, -, absent, -, isTask⟩ :=
    (within_onStore (Make.within_task height)).answer made
  refine (asks_slots _).leads_bind fun values _ => (asks_check _).leads_bind fun ⟨stack, s⟩ checked => ?_
  have posts := posts_prepared quiet₂.owned tends.store absent isTask (check_ok checked)
  have room := (before 0).room
  refine ⟨?_, IsTrans.trans _ _ _ (before _) (keepsFinished_of_roster ?_ (fun i low _ => ?_) posts.keeps),
    [q], quiet₂.entering tends posts⟩
  · simp only [scopedCount, push, Array.size_push, tends.references]
    omega
  · simp only [push, Array.size_push, tends.references]
    omega
  · simp [push, References.slot, tends.references, Array.getElem?_push, low, low.ne,
      (low.trans (Nat.lt_succ_self _)).ne]

/-- In every state of a call tasks are in line. -/
theorem Visits.completes {x : Execution} (visits : Visits m lambda arguments x) (quiet : m.Quiet) :
    m.references.slots.size ≤ x.currentTask ∧ m.KeepsFinished x.currentTask x.machine ∧
      ∃ tasks, x.Runs tasks := by
  induction visits with
  | entered laidOut resumed =>
    obtain ⟨later, before, tasks, manned⟩ := (leads_layOut quiet).answer laidOut
    obtain ⟨r, rest, rfl⟩ := List.exists_cons_of_ne_nil manned.lined.line.ne_nil
    obtain ⟨runs, same, keeps⟩ := (@Exec.leads_resume_manned _ (fun _ _ => False) r rest manned).answer resumed
    rw [same]
    exact ⟨later, IsTrans.trans _ _ _ before keeps, _, runs⟩
  | turned _ turn ih =>
    obtain ⟨later, before, tasks, runs⟩ := ih
    obtain ⟨⟨same, keeps⟩, completes⟩ := turn.completes runs
    rw [same]
    exact ⟨later, Trans.trans before keeps, completes⟩

theorem KeepsFinished.left {except start : Nat} (keeps : m.KeepsFinished except m')
    (low : m.references.slots.size ≤ start) : m.KeepsFinished except (m'.left start) := by
  refine ⟨?_, fun i inside other finished => ?_⟩
  · have size : (m'.left start).references.slots.size = min start m'.references.slots.size := by
      simp [Machine.left, References.leave]
    have room := keeps.room
    omega
  · obtain ⟨r, caller, isSlot, posted⟩ := keeps.finished i inside other finished
    exact ⟨r, caller, (slot_left (by omega)).trans isSlot, posted⟩

theorem Quiet.left (quiet : m.Quiet) (start : Nat) : (m.left start).Quiet :=
  ⟨quiet.toStaffed.forms ⟨refl _, rfl, rfl⟩ quiet.owned, quiet.settled⟩

theorem leads_inScope {ε α : Type} {work : Op ε α} {answered : α → Machine → Prop}
    {raised : ε → Machine → Prop}
    (leads : Leads work m (fun answer m' => answered answer (m'.left m.references.scopedCount))
      fun cause m' => raised cause (m'.left m.references.scopedCount)) :
    Leads (inScope work) m answered raised := by
  unfold Leads at leads ⊢
  unfold inScope
  cases result : work m with
  | ok answer m' =>
    rw [result] at leads
    exact leads
  | error stop m' =>
    rw [result] at leads
    cases stop with
    | raised cause => exact leads
    | _ => trivial

/-- No task is in line, and whoever holds a task that had finished holds one that has, unless what
is held has been changed by hand and nothing else. -/
def Calms (m m' : Machine) : Prop :=
  m'.Quiet ∧ (m'.store = m.store ∨ ∀ except, m.KeepsFinished except m')

theorem leads_runTask {budget rootTask currentTask : Nat} {bottom : Value} {tasks : List Ref}
    (manned : (m.entering rootTask currentTask bottom).Manned .parked tasks) :
    Leads (runTask budget rootTask currentTask bottom) m
      (fun _ m' => m'.Quiet ∧ m.KeepsFinished currentTask m')
      fun _ m' => m'.Quiet ∧ m.KeepsFinished currentTask m' := by
  obtain ⟨r, rest, rfl⟩ := List.exists_cons_of_ne_nil manned.lined.line.ne_nil
  unfold Leads
  unfold runTask
  cases resumed : Exec.resume (m.entering rootTask currentTask bottom) with
  | error stop x => cases stop <;> trivial
  | ok _ x =>
    obtain ⟨runs, before⟩ := (@Exec.leads_resume_manned _ (fun _ _ => False) r rest manned).answer resumed
    have calms : ∀ y, @Leaves Execution RunError Value (Exec.run budget) x y →
        y.machine.Quiet ∧ m.KeepsFinished currentTask y.machine := fun y leaves => by
      obtain ⟨quiet, keeps⟩ := Exec.run_quiet runs leaves
      exact ⟨quiet, (IsTrans.trans _ _ _ before keeps).2⟩
    cases result : Exec.run budget x with
    | ok answer y =>
      simp only [result]
      exact calms y (.inl ⟨answer, result⟩)
    | error stop y =>
      simp only [result]
      cases stop with
      | raised cause => exact calms y (.inr ⟨cause, result⟩)
      | _ => trivial

/-- However a call ends, no task is in line any more. -/
theorem leads_call (quiet : m.Quiet) (budget : Nat) (lambda : Value) (arguments : Array Value) :
    Leads (call budget lambda arguments) m (fun _ => m.Calms) fun _ => m.Calms := by
  have calms : ∀ {current m'}, m.references.slots.size ≤ current → m'.Quiet → m.KeepsFinished current m' →
      m.Calms (m'.left m.references.scopedCount) := fun later quiet' keeps =>
    ⟨quiet'.left _, .inr ((keeps.left le_rfl).all later)⟩
  unfold call
  refine leads_inScope (leads_bind.mpr ((leads_layOut quiet).mono ?_ fun _ m' => ?_))
  · rintro ⟨rootTask, currentTask, bottom⟩ m' ⟨later, before, tasks, manned⟩
    refine (leads_runTask manned).mono ?_ ?_ <;>
    · rintro _ m'' ⟨quiet, keeps⟩
      exact calms later quiet (Trans.trans before keeps)
  · rintro ⟨quiet, keeps⟩
    exact calms le_rfl quiet (keeps _)

end Machine

end ObjectMachine
