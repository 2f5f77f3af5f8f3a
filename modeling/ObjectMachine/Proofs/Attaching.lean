/-
# ObjectMachine.Proofs.Attaching -- tasks that hand over

While a call runs, the task that runs is the first of a line of tasks that ends with the task the
call started on (`Execution.Runs`); between calls no task is in line (`Machine.Quiet`). An
instruction changes the line in three ways: the task that runs attaches another, hands over to the
one that attached it, or returns. A collection moves it. No assumption is made about code.

* `Exec.attachTo_dead`, `Exec.attachTo_alive` -- when a task cannot be attached.
* `Exec.leads_attach`, `Exec.leads_yield`, `Exec.leads_finishTask` -- the three ways.
* `Exec.leads_step` -- every instruction leaves a line, or no task in line and the call done.
-/
import Mathlib
import ObjectMachine.Proofs.Answering
import ObjectMachine.Proofs.Crews

namespace ObjectMachine

open ObjectMachine.Action (Leads asks_lift bind_eq_of_ok leads_bind)
open Function (update update_of_ne update_self)

namespace Body

variable {b b' : Body}

theorem Steady.view_task (steady : b.Steady b') :
    (HeapKind.view? b' : Option Task) = HeapKind.view? b := by
  cases b with
  | task t => rw [steady.task t rfl]
  | _ =>
    cases b' with
    | task => cases steady.kind
    | _ => rfl

theorem Steady.view_stack (steady : b.Steady b') :
    (HeapKind.view? b' : Option Stack).map Stack.status =
      (HeapKind.view? b : Option Stack).map Stack.status := by
  cases b with
  | stack s =>
    obtain ⟨s', rfl, status⟩ := steady.stack s rfl
    exact congrArg some status
  | _ =>
    cases b' with
    | stack => cases steady.kind
    | _ => rfl

end Body

namespace Heap

variable {h : Heap} {v : Value} {f : Body → Body}

/-- Steady changes do not concern tasks. -/
theorem crew_adjust_steady (steady : ∀ b, h.bodyOf? v = some b → b.Steady (f b)) :
    (h.adjust v f).crew = h.crew := by
  cases isBody : h.bodyOf? v with
  | none =>
    have same : (h.adjust v f).bodyOf? = h.bodyOf? := by
      funext w
      rw [bodyOf?_adjust_map]
      by_cases here : v = w
      · rw [← here, isBody]
        rfl
      · simp only [here, if_false, Option.map_id']
    unfold crew view?
    rw [same]
  | some b =>
    have steady := steady b isBody
    have sameTasks : (h.adjust v f).view? Task = h.view? Task := by
      rw [view?_adjust isBody, Function.update_eq_self_iff, view?, isBody]
      exact steady.view_task
    have sameStatuses : (fun w => ((h.adjust v f).view? Stack w).map Stack.status) =
        fun w => (h.view? Stack w).map Stack.status := by
      funext w
      rw [view?_adjust isBody]
      by_cases here : w = v
      · rw [here, update_self, view?, isBody]
        exact steady.view_stack
      · rw [update_of_ne here]
    unfold crew
    rw [sameTasks, sameStatuses]

end Heap

namespace References

variable {r : References} {i j : Nat}

theorem slot_setSlot (inside : i < r.slots.size) (v : Value) : (r.setSlot i v).slot i = v := by
  simp [slot, setSlot, Array.getD_eq_getD_getElem?, inside]

theorem slot_setSlot_ne (differs : i ≠ j) (v : Value) : (r.setSlot i v).slot j = r.slot j := by
  simp [slot, setSlot, Array.getD_eq_getD_getElem?, differs]

end References

namespace Machine

/-- A machine that can be collected, whose tasks have stacks of their own. -/
structure Staffed (m : Machine) : Prop where
  formed : m.Formed
  owned : m.store.heap.Owned
  plain : m.store.heap.Plain m.store.roots.null

/-- No task is in line. -/
structure Quiet (m : Machine) : Prop extends m.Staffed where
  settled : m.store.heap.roster.Settled m.store.roots.null

variable {m m' : Machine}

theorem Staffed.forms (staffed : m.Staffed) (forms : m.Forms m') (owned : m'.store.heap.Owned) :
    m'.Staffed where
  formed := ⟨forms.store.formed staffed.formed.store, forms.compiler ▸ staffed.formed.compiler⟩
  owned := owned
  plain := by
    rw [forms.store.roots]
    exact staffed.plain.stay forms.store.stays

theorem Staffed.passes {count : Nat} {kept : Ref → Prop} {place : Ref → Ref} (staffed : m.Staffed)
    (formed : m'.Formed) (passes : m.Passes count kept place m') : m'.Staffed where
  formed := formed
  owned := passes.heap.owned staffed.owned
  plain := by
    obtain ⟨o, found, noTask⟩ := staffed.plain
    obtain ⟨o', found', kind⟩ := passes.heap.kind _ o passes.heap.nullKept found
    rw [passes.roots]
    exact ⟨o', found', by rwa [kind]⟩

/-- The task in a slot has finished. -/
def Finished (m : Machine) (i : Nat) : Prop :=
  ∃ r caller, m.references.slot i = .object r ∧ m.store.heap.roster r = some ⟨caller, .empty⟩

/-- Whoever holds a task that has finished holds one that has finished. Only the slot `except` may
have got another task. -/
structure KeepsFinished (except : Nat) (m m' : Machine) : Prop where
  room : m.references.slots.size ≤ m'.references.slots.size
  finished : ∀ i < m.references.slots.size, i ≠ except → m.Finished i → m'.Finished i

variable {except : Nat}

instance : IsPreorder Machine (KeepsFinished except) where
  refl _ := ⟨le_rfl, fun _ _ _ finished => finished⟩
  trans _ _ _ first second := ⟨first.room.trans second.room, fun i low other finished =>
    second.finished i (low.trans_le first.room) other (first.finished i low other finished)⟩

theorem KeepsFinished.all (keeps : m.KeepsFinished except m')
    (high : m.references.slots.size ≤ except) (other : Nat) : m.KeepsFinished other m' :=
  ⟨keeps.room, fun i low _ => keeps.finished i low (low.trans_le high).ne⟩

theorem keepsFinished_of_roster (room : m.references.slots.size ≤ m'.references.slots.size)
    (slots : ∀ i < m.references.slots.size, i ≠ except → m'.references.slot i = m.references.slot i)
    (keeps : m.store.heap.roster.KeepsFinished m'.store.heap.roster) :
    m.KeepsFinished except m' := by
  refine ⟨room, fun i low other ⟨r, caller, isSlot, finished⟩ => ?_⟩
  obtain ⟨caller', finished'⟩ := keeps r caller finished
  exact ⟨r, caller', (slots i low other).trans isSlot, finished'⟩

/-- Objects move, and what is in slots with them. -/
theorem Staffed.survives (staffed : m.Staffed) (survives : Survives m.references.slots.size m m')
    (except : Nat) : m'.Staffed ∧ m.KeepsFinished except m' ∧
      ∃ kept place, m.Passes m.references.slots.size kept place m' := by
  obtain ⟨formed, room, kept, place, passes⟩ := survives staffed.formed le_rfl
  refine ⟨staffed.passes formed passes, ⟨room, ?_⟩, kept, place, passes⟩
  rintro i low - ⟨r, caller, isSlot, finished⟩
  refine ⟨place r, _, by rw [passes.slots i low, isSlot]; rfl,
    (passes.heap.moves staffed.owned).posted r _ (passes.slotsKept i r low isSlot) finished⟩

theorem Quiet.survives (quiet : m.Quiet) (survives : Survives m.references.slots.size m m') :
    m'.Quiet ∧ ∀ except, m.KeepsFinished except m' := by
  obtain ⟨staffed, -, _, _, passes⟩ := quiet.toStaffed.survives survives 0
  refine ⟨⟨staffed, ?_⟩, fun except => (quiet.toStaffed.survives survives except).2.1⟩
  rw [passes.roots]
  exact quiet.settled.moves (passes.heap.moves quiet.owned)

end Machine

namespace Execution

variable {x y : Execution} {status : StackStatus} {tasks : List Ref}

/-- What a call knows about tasks. -/
abbrev crew (x : Execution) : Crew := x.machine.store.heap.crew

/-- The postings of the tasks of a call. -/
abbrev roster (x : Execution) : Roster := x.machine.store.heap.roster

/-- Tasks are in line down to the one that the call started on, and all others are idle. -/
structure Ranked (x : Execution) (status : StackStatus) (tasks : List Ref) : Prop where
  staffed : x.machine.Staffed
  lined : x.roster.Lined x.machine.store.roots.null status tasks
  root : tasks.getLast?.map Value.object = some (x.machine.references.slot x.rootTask)
  apart : x.rootTask ≠ x.currentTask
  inside : max x.rootTask x.currentTask < x.machine.references.slots.size

/-- The first task in line is the one in the slot of the task that runs. -/
structure Manned (x : Execution) (status : StackStatus) (tasks : List Ref) : Prop
    extends x.Ranked status tasks where
  current : tasks.head?.map Value.object = some (x.machine.references.slot x.currentTask)

/-- The first task in line runs on the stack of the registers. -/
structure Runs (x : Execution) (tasks : List Ref) : Prop extends x.Manned .running tasks where
  hosts : x.machine.Hosts x.currentTask x.stack

/-- Whoever holds a task that has finished holds it for good. Only the slot of the current task gets
other tasks. -/
def KeepsFinished (x y : Execution) : Prop :=
  y.currentTask = x.currentTask ∧ x.machine.KeepsFinished x.currentTask y.machine

instance : IsPreorder Execution KeepsFinished where
  refl x := ⟨rfl, refl x.machine⟩
  trans x y z first second :=
    ⟨second.1.trans first.1, IsTrans.trans _ _ _ first.2 (by rw [← first.1]; exact second.2)⟩

/-- Objects move, and the line with them. -/
theorem Manned.survives {m : Machine} (manned : x.Manned status tasks)
    (survives : Machine.Survives x.machine.references.slots.size x.machine m) :
    (∃ tasks', ({ x with machine := m } : Execution).Manned status tasks') ∧
      x.KeepsFinished { x with machine := m } := by
  obtain ⟨staffed, keeps, kept, place, passes⟩ := manned.staffed.survives survives x.currentTask
  have moves := passes.heap.moves manned.staffed.owned
  have slots : ∀ i, i ≤ max x.rootTask x.currentTask →
      m.references.slot i = (x.machine.references.slot i).move place :=
    fun i low => passes.slots i (low.trans_lt manned.inside)
  refine ⟨⟨tasks.map place, ⟨staffed, ?_, ?_, manned.apart, manned.inside.trans_le keeps.room⟩, ?_⟩,
    rfl, keeps⟩
  · change m.store.heap.roster.Lined m.store.roots.null _ _
    rw [passes.roots]
    refine manned.lined.moves moves fun r isFirst => ?_
    have isSlot := manned.current
    rw [isFirst] at isSlot
    exact passes.slotsKept _ r ((le_max_right _ _).trans_lt manned.inside) (Option.some.inj isSlot).symm
  · have isSlot := manned.root
    change _ = some (m.references.slot x.rootTask)
    rw [slots _ (le_max_left _ _), List.getLast?_map, ← Option.map_some, ← isSlot]
    cases tasks.getLast? <;> rfl
  · have isSlot := manned.current
    change _ = some (m.references.slot x.currentTask)
    rw [slots _ (le_max_right _ _), List.head?_map, ← Option.map_some, ← isSlot]
    cases tasks.head? <;> rfl

/-- The line stays as it is while objects stay where they are and tasks are left alone. -/
theorem Manned.tends (manned : x.Manned status tasks) (tends : x.Tends y) :
    y.Manned status tasks := by
  have store := tends.machine.store
  have owned := manned.staffed.owned
  have moves := store.heap.passes.moves owned
  refine ⟨⟨manned.staffed.forms tends.machine.forms (store.heap.owned owned), ?_, ?_, ?_, ?_⟩, ?_⟩
  · have lined := manned.lined.moves moves fun _ _ => trivial
    rw [List.map_id] at lined
    change y.roster.Lined y.machine.store.roots.null _ _
    rw [store.roots]
    exact lined
  · rw [tends.machine.references, tends.rootTask]
    exact manned.root
  · rw [tends.rootTask, tends.currentTask]
    exact manned.apart
  · rw [tends.machine.references, tends.rootTask, tends.currentTask]
    exact manned.inside
  · rw [tends.machine.references, tends.currentTask]
    exact manned.current

theorem Manned.keepsFinished (manned : x.Manned status tasks) (tends : x.Tends y) :
    x.KeepsFinished y :=
  ⟨tends.currentTask, (manned.staffed.survives tends.machine.survives _).2.1⟩

theorem Runs.tends (runs : x.Runs tasks) (tends : x.Tends y) : y.Runs tasks := by
  refine ⟨runs.toManned.tends tends, ?_⟩
  obtain ⟨task, t, isSlot, isTask, isStack⟩ := runs.hosts
  refine ⟨task, t, ?_, tends.machine.store.heap.steady.view_task isTask, ?_⟩
  · rw [tends.machine.references, tends.currentTask]
    exact isSlot
  · rw [tends.stack]
    exact isStack

/-- The call with a value held in one more slot. -/
def holding (x : Execution) (v : Value) : Execution :=
  { x with machine := { x.machine with references := x.machine.references.push v } }

theorem slot_holding {i : Nat} (x : Execution) (v : Value)
    (low : i < x.machine.references.slots.size) :
    (x.holding v).machine.references.slot i = x.machine.references.slot i := by
  simp [holding, References.push, References.slot, Array.getElem?_push, low, low.ne]

theorem Runs.holding (runs : x.Runs tasks) (v : Value) : (x.holding v).Runs tasks := by
  have inside := runs.inside
  obtain ⟨task, t, isSlot, isTask, isStack⟩ := runs.hosts
  refine ⟨⟨⟨runs.staffed.forms ⟨refl _, rfl, rfl⟩ runs.staffed.owned, runs.lined, ?_, runs.apart, ?_⟩, ?_⟩,
    task, t, ?_, isTask, isStack⟩
  · exact runs.root.trans (congrArg some (x.slot_holding v (by omega)).symm)
  · simp only [Execution.holding, References.push, Array.size_push]
    omega
  · exact runs.current.trans (congrArg some (x.slot_holding v (by omega)).symm)
  · exact (x.slot_holding v (show x.currentTask < _ by omega)).trans isSlot

/-- Objects stay where they are, and this is what becomes of tasks. -/
structure Alters (x y : Execution) (crew : Crew) : Prop where
  forms : x.Forms y
  references : y.machine.references = x.machine.references
  crew : y.machine.store.heap.crew = crew

theorem Alters.trans {z : Execution} {crew crew' : Crew} (first : x.Alters y crew)
    (second : y.Alters z crew') : x.Alters z crew' where
  forms := Trans.trans first.forms second.forms
  references := second.references.trans first.references
  crew := second.crew

theorem alters_adjust {v : Value} {f : Body → Body} {crew : Crew}
    (similar : ∀ b, x.heap.bodyOf? v = some b → b.Similar (f b)) (isCrew : (x.heap.adjust v f).crew = crew) :
    x.Alters { x with machine := x.machine.withHeap (x.heap.adjust v f) } crew where
  forms := Exec.forms_withHeap (Store.forms_adjust similar)
  references := rfl
  crew := isCrew

theorem alters_steady {v : Value} {f : Body → Body} (steady : ∀ b, x.heap.bodyOf? v = some b → b.Steady (f b)) :
    x.Alters { x with machine := x.machine.withHeap (x.heap.adjust v f) } x.crew :=
  alters_adjust (fun b isBody => (steady b isBody).toSimilar) (Heap.crew_adjust_steady steady)

end Execution

namespace Exec

variable {α : Type} {x : Execution} {answered : α → Execution → Prop}
  {raised : Interrupt → Execution → Prop} {tasks : List Ref}

theorem leads_ite {p : Prop} [Decidable p] {yes no : Exec α}
    (onYes : p → Leads yes x answered raised) (onNo : ¬ p → Leads no x answered raised) :
    Leads (if p then yes else no) x answered raised := by
  by_cases holds : p
  · rw [if_pos holds]
    exact onYes holds
  · rw [if_neg holds]
    exact onNo holds

/-- Work that is known to answer, before work that does something else. -/
theorem leads_of_answer {β : Type} {y : Execution} {work : Exec β} {next : β → Exec α} {answer : β}
    (done : work x = .ok answer y) (rest : Leads (next answer) y answered raised) :
    Leads (work >>= next) x answered raised := by
  unfold Leads at rest ⊢
  rw [bind_eq_of_ok done]
  exact rest

theorem leads_write_bind {offset : Nat} {slot : Slot} {next : Unit → Exec α}
    (rest : ∀ y, x.Alters y x.crew → Leads (next ()) y answered raised) :
    Leads (write offset slot >>= next) x answered raised := by
  refine leads_bind.mpr (rest _ ?_)
  refine Execution.alters_steady fun b _ => ?_
  cases b with
  | stack s => exact .words (by simp)
  | _ => exact .refl _

theorem leads_setStatus {v : Value} {g : Stack → Stack} {s : Stack}
    (isStack : x.heap.view? Stack v = some s) (height : ∀ s, (g s).height = s.height) :
    Leads (modifyHeap fun h => h.adjustStack v g) x
      (fun _ y => y.stack = x.stack ∧ x.Alters y (x.crew.setStatus v (g s).status)) raised := by
  refine ⟨rfl, Execution.alters_adjust (fun b _ => ?_) (Heap.crew_adjustStack isStack g)⟩
  cases b with
  | stack s => exact .stack (height s)
  | _ => exact .refl _

theorem leads_park (pc : Nat) : Leads (park pc) x
    (fun _ y => x.Alters y (x.crew.setStatus (.object x.stack) .parked)) raised := by
  refine (asks_ask _).leads_bind fun _ _ => (asks_ask _).leads_bind fun ⟨stack, lambda⟩ asked =>
    (asks_check _).leads_bind fun s checked => ?_
  cases asked
  have isStack := Heap.cast_eq_ok.mp (check_ok checked).1
  refine leads_ite (fun _ => trivial) fun _ => leads_ite (fun _ => trivial) fun _ => ?_
  refine leads_write_bind fun y₁ first => leads_write_bind fun y₂ second =>
    leads_write_bind fun y₃ third => ?_
  have alters := first.trans (second.trans third)
  have crew : y₃.crew = x.crew := third.crew.trans (second.crew.trans first.crew)
  have status : y₃.crew.statuses (.object x.stack) = some s.status := by
    rw [crew]
    exact Option.map_eq_some_iff.mpr ⟨s, isStack, rfl⟩
  obtain ⟨s', isStack', -⟩ := Option.map_eq_some_iff.mp status
  refine (@leads_setStatus y₃ raised _ _ s' isStack' ?_).imp fun _ y ⟨_, parked⟩ => ?_
  · intro s
    rfl
  · rw [← crew]
    exact alters.trans parked

theorem leads_resume : Leads resume x (fun _ y => ∃ t home,
    x.crew.tasks (x.machine.references.slot x.currentTask) = some t ∧ t.stack = .object home ∧
    y.stack = home ∧ x.Alters y (x.crew.setStatus t.stack .running)) raised := by
  refine (asks_ask _).leads_bind fun task asked => (asks_checkStore _).leads_bind ?_
  rintro ⟨home, s⟩ checked
  cases asked
  obtain ⟨t, isTask, isHome, isStack⟩ := Heap.parkedStack_ok (checkStore_ok checked)
  refine leads_ite (fun _ => trivial) fun parked => leads_ite (fun _ => trivial) fun _ => ?_
  refine (asks_lift _).leads_bind fun sp _ => (asks_lift _).leads_bind fun pc _ =>
    (asks_lift _).leads_bind fun _ _ => (asks_lift _).leads_bind fun fp _ =>
    (asks_checkStore _).leads_bind fun lambda _ => ?_
  -- the registers are read back first, which concerns no task
  let y : Execution := { x with stack := home, limit := s.height - Frame.reserved * Frame.size,
                                fp, sp, pc, lambda }
  have read : x.Alters y x.crew := ⟨⟨refl x.machine, rfl, rfl⟩, rfl, rfl⟩
  refine leads_of_answer (y := y) rfl (Leads.imp (leads_setStatus (Heap.view?_eq_some.mpr isStack) ?_) ?_)
  · exact fun _ => rfl
  rintro _ z ⟨isHome', alters⟩
  refine ⟨t, home, isTask, isHome, isHome', ?_⟩
  rw [isHome]
  exact read.trans alters

end Exec

namespace Execution

variable {x y : Execution} {status status' : StackStatus} {tasks tasks' : List Ref} {r : Ref}
  {rest : List Ref}
variable {crew : Crew}

/-- Tasks have changed places, without anything else having happened. -/
theorem Ranked.altered (ranked : x.Ranked status tasks) (alters : x.Alters y crew)
    (owned : crew.Owned) (lined : crew.roster.Lined x.machine.store.roots.null status' tasks')
    (last : tasks'.getLast? = tasks.getLast?) : y.Ranked status' tasks' where
  staffed := ranked.staffed.forms alters.forms.machine (Heap.crew_owned.mp (by rw [alters.crew]; exact owned))
  lined := by
    rw [alters.forms.machine.store.roots, roster, Heap.roster, alters.crew]
    exact lined
  root := by
    rw [last, alters.references, alters.forms.rootTask]
    exact ranked.root
  apart := by
    rw [alters.forms.rootTask, alters.forms.currentTask]
    exact ranked.apart
  inside := by
    rw [alters.references, alters.forms.rootTask, alters.forms.currentTask]
    exact ranked.inside

theorem Alters.keepsFinished (alters : x.Alters y crew)
    (keeps : x.roster.KeepsFinished crew.roster) : x.KeepsFinished y := by
  refine ⟨alters.forms.currentTask, Machine.keepsFinished_of_roster (by rw [alters.references])
    (fun _ _ _ => by rw [alters.references]) ?_⟩
  rw [show y.heap.roster = crew.roster from congrArg Crew.roster alters.crew]
  exact keeps

theorem Manned.slot (manned : x.Manned status (r :: rest)) :
    x.machine.references.slot x.currentTask = .object r := (Option.some.inj manned.current).symm

theorem Ranked.task (ranked : x.Ranked status (r :: rest)) : ∃ t, x.crew.tasks (.object r) = some t ∧
    t.caller = .object (rest.headD x.machine.store.roots.null) ∧
    x.crew.statuses t.stack = some status := Crew.roster_eq_some.mp ranked.lined.line.posted

theorem Runs.task (runs : x.Runs (r :: rest)) : ∃ t, x.crew.tasks (.object r) = some t ∧
    t.caller = .object (rest.headD x.machine.store.roots.null) ∧ t.stack = .object x.stack := by
  obtain ⟨t, isTask, isCaller, -⟩ := runs.toRanked.task
  obtain ⟨_, t', isSlot, isTask', isStack⟩ := runs.hosts
  rw [runs.slot] at isSlot
  cases isSlot
  cases isTask.symm.trans isTask'
  exact ⟨t, isTask, isCaller, isStack⟩

/-- The task that the call started on is first in line only if it is alone. -/
theorem Ranked.root_iff (ranked : x.Ranked status (r :: rest)) :
    Value.object r = x.machine.references.slot x.rootTask ↔ rest = [] := by
  have isRoot := ranked.root
  constructor
  · intro same
    cases rest with
    | nil => rfl
    | cons c below =>
      rw [← same, List.getLast?_cons_cons, List.getLast?_eq_some_getLast (by simp)] at isRoot
      have isLast : (c :: below).getLast (by simp) = r := by simpa using isRoot
      have member : (c :: below).getLast (by simp) ∈ c :: below := List.getLast_mem _
      rw [isLast] at member
      exact absurd member (List.nodup_cons.mp ranked.lined.nodup).1
  · rintro rfl
    exact Option.some.inj isRoot

theorem Ranked.crew_owned (ranked : x.Ranked status tasks) : x.crew.Owned :=
  Heap.crew_owned.mpr ranked.staffed.owned

/-- The only task in line goes idle, and the call is over. -/
theorem Ranked.quiet {post : Posting} (ranked : x.Ranked status [r]) (alters : x.Alters y crew)
    (owned : crew.Owned) (roster : crew.roster = update x.roster r (some post))
    (idle : post.Idle x.machine.store.roots.null) : y.machine.Quiet where
  toStaffed := ranked.staffed.forms alters.forms.machine
    (Heap.crew_owned.mp (by rw [alters.crew]; exact owned))
  settled := by
    rw [alters.forms.machine.store.roots, Heap.roster, alters.crew, roster]
    exact ranked.lined.dissolve idle

end Execution

namespace Exec

open Execution (Ranked Manned Runs)

variable {x y : Execution} {raised : Interrupt → Execution → Prop} {r : Ref} {rest : List Ref}
  {status : StackStatus}
variable {tasks : List Ref} {α : Type} {answered : α → Execution → Prop} {next : Unit → Exec α}
variable {post : Posting}

theorem leads_resume_manned (manned : x.Manned .parked (r :: rest)) : Leads resume x
    (fun _ y => y.Runs (r :: rest) ∧ x.KeepsFinished y) raised := by
  refine leads_resume.imp ?_
  rintro - y ⟨t, home, isTask, isHome, isStack, alters⟩
  obtain ⟨t', isTask', isCaller, -⟩ := manned.task
  rw [manned.slot] at isTask
  cases isTask.symm.trans isTask'
  have owned := manned.crew_owned
  have roster := owned.roster_setStatus isTask .running
  rw [isCaller] at roster
  have ranked := manned.altered alters (owned.setStatus _ _) (by
    rw [roster]
    exact manned.lined.setStatus .running) rfl
  refine ⟨⟨⟨ranked, ?_⟩, ⟨r, t, ?_, ?_, by rw [isHome, isStack]⟩⟩, alters.keepsFinished ?_⟩
  · rw [alters.references, alters.forms.currentTask]
    exact manned.current
  · rw [alters.references, alters.forms.currentTask]
    exact manned.slot
  · exact congrArg (fun crew : Crew => crew.tasks (.object r)) alters.crew |>.trans isTask
  · rw [roster]
    exact .update _ manned.lined.line.posted (by simp)

theorem leads_park_task {t : Task} (owned : x.crew.Owned)
    (isTask : x.crew.tasks (.object r) = some t) (isStack : t.stack = .object x.stack) (pc : Nat) :
    Leads (park pc) x (fun _ y => ∃ crew, x.Alters y crew ∧ crew.Owned ∧
      crew.roster = update x.roster r (some ⟨t.caller, .parked⟩)) raised := by
  refine (leads_park pc).imp fun _ y alters => ⟨_, alters, owned.setStatus _ _, ?_⟩
  rw [← isStack]
  exact owned.roster_setStatus isTask .parked

theorem leads_report_bind {level : LogLevel} {message : Unit → String}
    (rest : ∀ y, x.Alters y x.crew → y.stack = x.stack → Leads (next ()) y answered raised) :
    Leads (report level message >>= next) x answered raised :=
  leads_bind.mpr (rest _ ⟨⟨⟨refl _, rfl, rfl⟩, rfl, rfl⟩, rfl, rfl⟩ rfl)

theorem leads_setCurrentTask_bind (ranked : x.Ranked status (r :: rest)) (after : ∀ y,
      y.Manned status (r :: rest) → x.KeepsFinished y → Leads (next ()) y answered raised) :
    Leads (setCurrentTask (.object r) >>= next) x answered raised := by
  have size : (x.machine.references.setSlot x.currentTask (.object r)).slots.size =
      x.machine.references.slots.size := Array.size_setIfInBounds
  refine leads_bind.mpr (leads_bind.mpr (after _ ⟨⟨?_, ranked.lined, ?_, ranked.apart, ?_⟩, ?_⟩ ⟨rfl, ?_⟩))
  · exact ranked.staffed.forms ⟨refl _, rfl, rfl⟩ ranked.staffed.owned
  · have same : (x.machine.references.setSlot x.currentTask (.object r)).slot x.rootTask =
        x.machine.references.slot x.rootTask := References.slot_setSlot_ne ranked.apart.symm _
    exact ranked.root.trans (congrArg some same.symm)
  · exact lt_of_lt_of_eq ranked.inside size.symm
  · exact congrArg some (References.slot_setSlot (lt_of_le_of_lt (le_max_right _ _) ranked.inside) _).symm
  · exact Machine.keepsFinished_of_roster size.ge
      (fun _ _ other => References.slot_setSlot_ne other.symm _) (.refl _)

theorem leads_currentTask_bind {next : Value → Exec α}
    (manned : x.Manned status (r :: rest)) (after : Leads (next (.object r)) x answered raised) :
    Leads (currentTask >>= next) x answered raised := by
  rw [← manned.slot] at after
  exact leads_bind.mpr after

theorem leads_switchTo {t : Task} {q : Ref} {below : List Ref} (owned : x.crew.Owned)
    (isTask : x.crew.tasks (.object r) = some t) (isStack : t.stack = .object x.stack)
    (unfinished : ∃ post, x.roster r = some post ∧ post.status ≠ .empty)
    (ranks : ∀ y crew, x.Alters y crew → crew.Owned →
      crew.roster = update x.roster r (some ⟨t.caller, .parked⟩) →
      y.Ranked .parked (q :: below)) (pc : Nat) :
    Leads (switchTo (.object q) pc) x (fun _ y => y.Runs (q :: below) ∧
      x.KeepsFinished y) raised := by
  refine (leads_park_task owned isTask isStack pc).bind ?_
  rintro - y ⟨crew, alters, owned', roster⟩
  have ranked := ranks y crew alters owned' roster
  refine leads_report_bind fun z still _ => ?_
  have ranked := ranked.altered still ranked.crew_owned ranked.lined rfl
  refine leads_setCurrentTask_bind ranked fun w manned switched => ?_
  refine (leads_resume_manned manned).imp fun _ last ⟨runs, keeps⟩ => ⟨runs, ?_⟩
  have parked : x.KeepsFinished z := by
    obtain ⟨post, posted, unfinished⟩ := unfinished
    refine (alters.trans still).keepsFinished ?_
    rw [show y.crew.roster = _ from (congrArg Crew.roster alters.crew).trans roster]
    exact .update _ posted unfinished
  exact Trans.trans parked (Trans.trans switched keeps)

theorem leads_setCaller_bind {q : Ref} {t : Task} (owned : x.crew.Owned)
    (isTask : x.crew.tasks (.object q) = some t) (posted : x.roster q = some post) (caller : Value)
    (after : ∀ y, x.Alters y y.crew → y.stack = x.stack → y.crew.Owned →
      y.crew.tasks = update x.crew.tasks (.object q) (some { t with caller }) →
      y.roster = update x.roster q (some ⟨caller, post.status⟩) →
      Leads (next ()) y answered raised) :
    Leads (modifyHeap (fun h => h.put (.object q) { t with caller }) >>= next) x answered
      raised := by
  have crew := Heap.crew_put_task isTask { t with caller }
  have put := Execution.alters_adjust (fun b isBody => by
    cases (Heap.view?_eq_some.mp isTask).symm.trans isBody
    exact .task _ { t with caller }) crew
  have owned' := owned.setCaller isTask caller
  rw [Execution.crew, ← crew] at owned'
  refine leads_bind.mpr (after _ ⟨put.forms, put.references, rfl⟩ rfl owned' ?_ ?_)
  · exact congrArg Crew.tasks crew
  · exact (congrArg Crew.roster crew).trans (Crew.roster_setCaller isTask posted caller)

section Attaching

variable {q : Ref} {t : Task} {next : Nat}

theorem checkStore_bind {α β : Type} {f : Store → Except Violation β}
    {next : β → Exec α} {answer : β} (done : f x.machine.store = .ok answer) :
    (checkStore f >>= next) x = next answer x :=
  bind_eq_of_ok (by simp only [checkStore, check, done])

theorem ask_bind {α β : Type} {f : Execution → β} {next : β → Exec α} :
    (ask f >>= next) x = next (f x) x := rfl

theorem attachTo_dead (isTask : x.heap.view? Task (.object q) = some t) {caller : Value}
    (posted : x.roster q = some ⟨caller, .empty⟩) :
    attachTo next (.object q, t) x = .error (.raised (.failed .deadTask)) x := by
  obtain ⟨_, s, isTask', -, isStack, isStatus⟩ := Heap.roster_eq_some.mp posted
  cases isTask.symm.trans isTask'
  rw [attachTo, checkStore_bind (Heap.cast_eq_ok.mpr isStack), if_pos isStatus]
  rfl

theorem attachTo_alive (runs : x.Runs (r :: rest))
    (isTask : x.heap.view? Task (.object q) = some t)
    (posted : x.roster q = some post) (alive : post.status ≠ .empty) :
    attachTo next (.object q, t) x = (if q ∈ r :: rest then fail .taskBusy else do
      modifyHeap fun h => h.put (.object q) { t with caller := .object r }
      switchTo (.object q) next) x := by
  obtain ⟨_, s, isTask', -, isStack, isStatus⟩ := Heap.roster_eq_some.mp posted
  cases isTask.symm.trans isTask'
  have walked := @Heap.isAttached_eq x.heap _ r q .running rest runs.staffed.plain
    runs.lined.line x.heap.walkFuel
    (Nat.lt_of_succ_lt (Heap.length_lt_walkFuel runs.lined.line runs.lined.nodup))
  rw [attachTo, checkStore_bind (Heap.cast_eq_ok.mpr isStack), if_neg (isStatus ▸ alive),
    currentTask, ask_bind, runs.slot, checkStore_bind walked]
  by_cases inLine : q ∈ r :: rest <;> simp only [inLine, decide_true, decide_false, if_true, if_false,
    Bool.false_eq_true]

theorem leads_attaching (runs : x.Runs (r :: rest))
    (isTask : x.heap.view? Task (.object q) = some t)
    (posted : x.roster q = some post) (alive : post.status ≠ .empty) (outside : q ∉ r :: rest) : Leads (do
      modifyHeap fun h => h.put (.object q) { t with caller := .object r }
      switchTo (.object q) next) x (fun _ y => y.Runs (q :: r :: rest) ∧
        x.KeepsFinished y) raised := by
  have differs : r ≠ q := fun same => outside (same ▸ List.mem_cons_self)
  obtain rfl : post = ⟨.object x.machine.store.roots.null, .parked⟩ :=
    (runs.lined.others q post posted outside).resolve_left alive
  obtain ⟨u, isFirst, isCaller, isStack⟩ := runs.task
  refine leads_setCaller_bind runs.crew_owned isTask posted (.object r) ?_
  intro y put sameStack owned crewTasks roster
  have isFirst' : y.crew.tasks (.object r) = some u := by
    rw [crewTasks, update_of_ne (by simpa using differs)]
    exact isFirst
  have posted' : y.roster r = x.roster r := by rw [roster, update_of_ne differs]
  refine (leads_switchTo owned isFirst' (isStack.trans (by rw [sameStack]))
    ⟨_, posted'.trans runs.lined.line.posted, by simp⟩ ?_ next).mono
    (fun _ z ⟨runs, keeps⟩ => ⟨runs, Trans.trans (put.keepsFinished ?_) keeps⟩) fun _ _ h => h
  · intro z crew alters owned' roster'
    refine runs.altered (put.trans alters) owned' ?_ (by simp)
    rw [roster', roster, isCaller]
    exact runs.lined.attach outside
  · rw [show y.crew.roster = _ from roster]
    exact .update _ posted alive

end Attaching

theorem exists_first (runs : x.Runs tasks) : ∃ r rest, tasks = r :: rest :=
  List.exists_cons_of_ne_nil runs.lined.line.ne_nil

theorem leads_attach (runs : x.Runs tasks) (next : Nat) :
    Leads (attach next) x (fun _ y => (∃ q, y.Runs (q :: tasks)) ∧ x.KeepsFinished y)
      fun cause y => (∀ v, cause ≠ .done v) ∧ y = x := by
  obtain ⟨r, rest, rfl⟩ := exists_first runs
  refine (asks_peek _).leads_bind fun v _ => leads_narrow_bind ⟨by simp, rfl⟩ fun task t isTask => ?_
  obtain ⟨q, -, rfl, -⟩ := Heap.view?_iff.mp isTask
  obtain ⟨⟨caller, status⟩, posted⟩ := runs.staffed.owned.posted isTask
  by_cases dead : status = .empty
  · subst dead
    unfold Leads
    rw [attachTo_dead isTask posted]
    exact ⟨by simp, rfl⟩
  · unfold Leads
    rw [attachTo_alive runs isTask posted dead]
    by_cases inLine : q ∈ r :: rest
    · rw [if_pos inLine]
      exact ⟨by simp, rfl⟩
    · rw [if_neg inLine]
      exact (leads_attaching runs isTask posted dead inLine).mono
        (fun _ y ⟨runs, keeps⟩ => ⟨⟨q, runs⟩, keeps⟩) fun _ _ h => h

theorem leads_setPeek (index : Nat) (v : Value) :
    Leads (setPeek index v) x (fun _ y => x.Tends y) raised :=
  (tended_steps.setPeek index v).leads (final_setPeek index v)

/-- The task that runs hands over to the one that attached it. If there is none the call is done. -/
theorem leads_yield (runs : x.Runs (r :: rest)) (next : Nat) :
    Leads (yield next) x (fun _ y => y.Runs rest ∧ x.KeepsFinished y) fun cause y => rest = [] ∧
      (∃ v, cause = .done v) ∧ y.machine.Quiet ∧ x.KeepsFinished y := by
  refine (asks_peek _).leads_bind fun v _ => (asks_askStore _).leads_bind fun null asked =>
    (leads_setPeek 0 _).bind ?_
  rintro - y tends
  obtain rfl : y.machine.store.roots.null = null := by
    rw [tends.machine.store.roots]
    injection asked
  have before := runs.keepsFinished tends
  have runs := runs.tends tends
  obtain ⟨t, isTask, isCaller, isStack⟩ := runs.task
  refine leads_currentTask_bind runs.toManned ((asks_checkStore _).leads_bind fun t' checked =>
    (asks_askStore _).leads_bind fun caller asked => ?_)
  cases isTask.symm.trans (Heap.cast_eq_ok.mp (checkStore_ok checked))
  obtain rfl : rest.head?.map Value.object = caller := by
    cases asked
    exact (Heap.callerOf?_line runs.staffed.plain runs.lined.line isTask).symm
  have running := runs.lined.line.posted
  cases rest with
  | nil =>
    refine (leads_park_task runs.crew_owned isTask isStack next).bind ?_
    rintro - z ⟨crew, alters, owned, roster⟩
    rw [isCaller] at roster
    refine ⟨rfl, ⟨v, rfl⟩, runs.quiet alters owned roster (.inr rfl), IsTrans.trans _ _ _ before ?_⟩
    refine alters.keepsFinished ?_
    rw [roster]
    exact .update _ running (by simp)
  | cons c below =>
    refine leads_setCaller_bind runs.crew_owned isTask running _ ?_
    intro z put sameStack owned crewTasks roster
    have isTask' := (congrFun crewTasks (.object r)).trans (update_self _ _ _)
    have posted := (congrFun roster r).trans (update_self _ _ _)
    refine (@leads_switchTo z _ r _ c below owned isTask'
      (isStack.trans (by rw [sameStack])) ⟨_, posted, by simp⟩ ?_ next).bind ?_
    · intro w crew alters owned' roster'
      refine runs.altered (put.trans alters) owned' ?_ (by simp)
      rw [roster', roster, Function.update_idem]
      exact runs.lined.withdraw (.inr rfl)
    · rintro - w ⟨runs', keeps⟩
      refine (leads_setPeek 0 v).imp fun _ w' tends => ⟨runs'.tends tends, ?_⟩
      have handed := put.keepsFinished (show y.roster.KeepsFinished z.roster by
        rw [roster]
        exact .update _ running (by simp))
      exact Trans.trans before (Trans.trans handed (Trans.trans keeps (runs'.keepsFinished tends)))

theorem leads_emptied (runs : x.Runs (r :: rest)) :
    Leads (modifyHeap fun h => h.adjustStack (.object x.stack)
        fun { words, top, marker, mode, .. } => { words, top, marker, status := .empty, mode }) x
      (fun _ y => y.Manned .empty (r :: rest) ∧ (rest = [] → y.machine.Quiet) ∧
        x.KeepsFinished y) raised := by
  obtain ⟨t, isTask, isCaller, isStack⟩ := runs.task
  obtain ⟨status, isStatus, -⟩ := runs.crew_owned.roster isTask
  obtain ⟨s, isStack', -⟩ := Option.map_eq_some_iff.mp isStatus
  rw [isStack] at isStack'
  refine (leads_setStatus isStack' ?_).imp ?_
  · intro s
    rfl
  rintro - y ⟨-, emptied⟩
  have owned := runs.crew_owned.setStatus (.object x.stack) .empty
  have roster := runs.crew_owned.roster_setStatus isTask .empty
  rw [isStack, isCaller] at roster
  have ranked := runs.altered emptied owned (by
    rw [roster]
    exact runs.lined.setStatus .empty) rfl
  refine ⟨⟨ranked, ?_⟩, ?_, emptied.keepsFinished ?_⟩
  · rw [emptied.references, emptied.forms.currentTask]
    exact runs.current
  · rintro rfl
    exact runs.quiet emptied owned roster (.inl rfl)
  · rw [roster]
    exact .update _ runs.lined.line.posted (by simp)

/-- The task that runs has finished, and the one that attached it goes on. If there is none the call
is done. -/
theorem leads_finishTask (runs : x.Runs (r :: rest)) (answer : Value) :
    Leads (finishTask answer) x (fun _ y => y.Runs rest ∧ x.KeepsFinished y)
      fun cause y => rest = [] ∧ cause = .done answer ∧ y.machine.Quiet ∧ x.KeepsFinished y := by
  refine (asks_ask _).leads_bind fun stack asked => ?_
  cases asked
  refine (leads_emptied runs).bind ?_
  rintro - y ⟨manned, quiet, before⟩
  have ranked := manned.toRanked
  obtain ⟨t, isTask', -⟩ := manned.task
  refine leads_currentTask_bind manned ((asks_checkStore _).leads_bind fun t' checked =>
    (asks_ask _).leads_bind fun root asked => ?_)
  cases isTask'.symm.trans (Heap.cast_eq_ok.mp (checkStore_ok checked))
  cases asked
  refine leads_ite (fun isRoot => ?_) fun notRoot => (asks_askStore _).leads_bind fun caller asked => ?_
  · obtain rfl := ranked.root_iff.mp isRoot
    exact ⟨rfl, rfl, quiet rfl, before⟩
  obtain rfl : rest.head?.map Value.object = caller := by
    cases asked
    exact (Heap.callerOf?_line ranked.staffed.plain ranked.lined.line isTask').symm
  cases rest with
  | nil => exact absurd (ranked.root_iff.mpr rfl) notRoot
  | cons c below =>
    refine (asks_askStore _).leads_bind fun null asked => ?_
    cases asked
    refine leads_setCaller_bind ranked.crew_owned isTask' ranked.lined.line.posted _ ?_
    intro z put _ owned crewTasks roster'
    refine leads_report_bind fun w still _ => ?_
    have withdrawn : w.Ranked .parked (c :: below) := by
      refine ranked.altered (put.trans still) owned ?_ (by simp)
      rw [show z.crew.roster = _ from roster']
      exact ranked.lined.withdraw (.inl rfl)
    refine leads_setCurrentTask_bind withdrawn fun w' manned' switched => ?_
    refine (leads_resume_manned manned').bind ?_
    rintro - u ⟨runs', keeps⟩
    refine (leads_setPeek 0 answer).imp fun _ u' tends => ⟨runs'.tends tends, ?_⟩
    have handed := (put.trans still).keepsFinished (show y.roster.KeepsFinished z.crew.roster by
      rw [show z.crew.roster = _ from roster']
      exact .finish _ _)
    have resumed := Trans.trans switched (Trans.trans keeps (runs'.keepsFinished tends))
    exact Trans.trans before (Trans.trans handed resumed)

/-- A task that is new in a store has been given something to run, and waits, attached by nobody. -/
structure Posts (s s' : Store) (q : Ref) (h : Heap) : Prop where
  new : s.heap.roster q = none
  forms : s'.Forms { s' with heap := h }
  tasks : h.crew.tasks = s'.heap.crew.tasks
  owned : h.crew.Owned
  roster : h.roster = update s'.heap.roster q (some ⟨.object s.roots.null, .parked⟩)
  keeps : s.heap.roster.KeepsFinished h.roster

theorem posts_prepared {s s' : Store}
    {home q : Ref} {stack bottom : Value} {entry : Array Value} {prepared : Stack}
    (owned : s.heap.Owned) (tends : s.Tends s') (absent : s.heap.object? q = none) (isTask :
      s'.heap.view? Task (.object q) = some { stack := .object home, caller := s.roots.null })
    (checked : s'.heap.preparedStack (.object q) bottom entry = .ok (stack, prepared)) :
    Posts s s' q (s'.heap.put stack prepared) := by
  obtain ⟨t, _, s₀, isTask', rfl, -, isStack, isPrepared⟩ := preparedStack_ok checked
  cases isTask.symm.trans isTask'
  obtain ⟨height, parked⟩ := Stack.prepare_ok isPrepared
  have new : s.heap.roster q = none := by
    rw [Option.eq_none_iff_forall_ne_some]
    intro post posted
    obtain ⟨_, -, found, -⟩ := Heap.roster_eq_some.mp posted
    obtain ⟨_, _, ⟨⟩, isObject, -⟩ := Heap.view?_iff.mp found
    cases absent.symm.trans isObject
  have owned' : s'.heap.crew.Owned := Heap.crew_owned.mpr (tends.heap.owned owned)
  have crew := @Heap.crew_adjust_stack s'.heap (.object home) (fun _ => HeapKind.wrap prepared) s₀
    prepared isStack rfl
  rw [parked] at crew
  have roster := owned'.roster_setStatus isTask .parked
  rw [← crew] at roster
  have forms := Store.forms_put isStack (.stack height)
  refine ⟨new, forms, ?_, ?_, roster, ?_⟩
  · rw [Heap.put, crew]
    rfl
  · rw [Heap.put, crew]
    exact owned'.setStatus _ _
  · -- the new task was not there before
    intro r caller finished
    have differs : r ≠ q := by
      rintro rfl
      cases new.symm.trans finished
    have finished' := (tends.heap.passes.moves owned).posted r _ trivial finished
    exact ⟨_, (congrFun roster r).trans ((update_of_ne differs _ _).trans finished')⟩

theorem leads_makeTask (runs : x.Runs tasks) :
    Leads makeTask x (fun _ y => y.Runs tasks ∧ x.KeepsFinished y) fun _ y => x.Tends y := by
  refine (asks_peek _).leads_bind fun v _ => leads_narrow_bind (refl x) fun lambda _ _ =>
    (asks_ask _).leads_bind fun height _ => leads_bind.mpr
    (Leads.mono (within_alloc (Make.within_task height)) ?_ fun _ _ tends => tends)
  rintro _ y ⟨tends, -, home, q, rfl, -, absent, isFresh, isTask⟩
  refine (asks_checkStore _).leads_bind fun ⟨stack, prepared⟩ checked => ?_
  have posts := posts_prepared runs.staffed.owned tends.machine.store absent isTask (checkStore_ok checked)
  have outside : q ∉ tasks := fun member => by
    obtain ⟨_, posted⟩ := runs.lined.line.member member
    cases posts.new.symm.trans posted
  have runs' := runs.tends tends
  let z : Execution := { y with machine := y.machine.withHeap (y.heap.put stack prepared) }
  have put : y.Alters z z.crew := ⟨forms_withHeap posts.forms, rfl, rfl⟩
  have ranked : z.Ranked .running tasks := by
    refine runs'.altered put posts.owned ?_ rfl
    rw [show z.crew.roster = _ from posts.roster, ← tends.machine.store.roots]
    exact runs'.lined.post outside (.inr rfl)
  have running : z.Runs tasks := by
    refine ⟨⟨ranked, runs'.current⟩, ?_⟩
    obtain ⟨task, u, isSlot, isCurrent, isHome⟩ := runs'.hosts
    exact ⟨task, u, isSlot, (congrFun posts.tasks _).trans isCurrent, isHome⟩
  refine leads_of_answer (y := z) rfl ((leads_setPeek 0 _).imp fun _ w more => ?_)
  have keeps : x.KeepsFinished z := ⟨tends.currentTask, Machine.keepsFinished_of_roster
    (by rw [put.references, tends.machine.references])
    (fun _ _ _ => by rw [put.references, tends.machine.references]) posts.keeps⟩
  exact ⟨running.tends more, Trans.trans keeps (running.keepsFinished more)⟩

/-- What an instruction leaves that is not carried out to its end: tasks in line, or none and the
call done. -/
def Stops (cause : Interrupt) (x : Execution) (tasks : List Ref) (y : Execution) : Prop :=
  x.KeepsFinished y ∧
    ((∃ answer, cause = .done answer) ∧ y.machine.Quiet ∨ (∀ answer, cause ≠ .done answer) ∧ y.Runs tasks)

/-- What an instruction leaves that is carried out to its end. -/
def Completes (x y : Execution) : Prop :=
  x.KeepsFinished y ∧ ∃ tasks, y.Runs tasks

section Stepping

variable {tasks : List Ref}

variable (runs : x.Runs tasks)
include runs

theorem leads_undone {work : Exec Unit}
    (leads : Leads work x (fun _ y => Completes x y) fun _ y => x.Tends y) (undone : Undone work) :
    Leads work x (fun _ y => Completes x y) fun cause y => Stops cause x tasks y := by
  refine Action.leads_of (fun answer y done => leads.answer done) fun cause y stopped => ?_
  have tends := leads.cause stopped
  refine ⟨runs.keepsFinished tends, .inr ⟨fun answer isDone => ?_, runs.tends tends⟩⟩
  exact undone x cause y stopped ⟨answer, isDone⟩

theorem leads_tended {work : Exec Unit} (tended : Tended work) (undone : Undone work) :
    Leads work x (fun _ y => Completes x y) fun cause y => Stops cause x tasks y := by
  refine leads_undone runs ?_ undone
  exact Leads.mono (tended.within x)
    (fun _ y ⟨tends, _⟩ => ⟨runs.keepsFinished tends, tasks, runs.tends tends⟩) fun _ _ tends => tends

theorem leads_execute (pc next : Nat) (instruction : Instruction) :
    Leads (execute pc next instruction) x (fun _ y => Completes x y)
      fun cause y => Stops cause x tasks y := by
  cases switches : instruction.switches with
  | false =>
    exact leads_tended runs (tended_execute pc next switches) (final_execute once_done pc next switches)
  | true =>
    cases instruction with
    | ret =>
      obtain ⟨r, rest, rfl⟩ := exists_first runs
      refine leads_leave (fun y tends => ⟨runs.keepsFinished tends, _, runs.tends tends⟩)
        fun answer y tends => (leads_finishTask (runs.tends tends) answer).mono ?_ ?_
      · rintro - z ⟨runs', keeps⟩
        exact ⟨Trans.trans (runs.keepsFinished tends) keeps, rest, runs'⟩
      · rintro cause z ⟨-, rfl, quiet, keeps⟩
        exact ⟨Trans.trans (runs.keepsFinished tends) keeps, .inl ⟨⟨answer, rfl⟩, quiet⟩⟩
    | task =>
      refine leads_undone runs ?_ (final_makeTask once_done)
      exact (leads_makeTask runs).imp fun _ y ⟨runs', keeps⟩ => ⟨keeps, tasks, runs'⟩
    | yield =>
      obtain ⟨r, rest, rfl⟩ := exists_first runs
      refine (leads_yield runs next).mono (fun _ y ⟨runs', keeps⟩ => ⟨keeps, rest, runs'⟩) ?_
      rintro cause y ⟨-, isDone, quiet, keeps⟩
      exact ⟨keeps, .inl ⟨isDone, quiet⟩⟩
    | attach =>
      refine (leads_attach runs next).mono (fun _ y ⟨⟨q, runs'⟩, keeps⟩ => ⟨keeps, _, runs'⟩) ?_
      rintro cause y ⟨undone, rfl⟩
      exact ⟨refl _, .inr ⟨undone, runs⟩⟩
    | _ => cases switches

/-- Every instruction leaves tasks in line, or none and the call done. -/
theorem leads_step :
    Leads step x (fun _ y => Completes x y) fun cause y => Stops cause x tasks y := by
  refine (asks_ask _).leads_bind fun fp _ => leads_ite
    (fun _ => leads_tended runs tended_passes.start (final_uniform once_done).passes.start) fun _ => ?_
  refine (asks_ask _).leads_bind fun pc _ => (asks_check _).leads_bind fun instruction _ => ?_
  refine ((tended_report _ _).leads (final_report _ _)).bind ?_
  intro _ y tends
  refine ((tended_steps.jump _).leads (Action.final_of_answers fun _ =>
    ⟨_, _, rfl⟩)).bind ?_
  intro _ z more
  have tends := Trans.trans tends more
  have before := runs.keepsFinished tends
  refine (leads_execute (runs.tends tends) _ _ instruction).mono ?_ ?_
  · rintro - w ⟨keeps, completes⟩
    exact ⟨Trans.trans before keeps, completes⟩
  · rintro cause w ⟨keeps, stops⟩
    exact ⟨Trans.trans before keeps, stops⟩

end Stepping

end Exec

end ObjectMachine
