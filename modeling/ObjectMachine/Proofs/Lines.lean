/-
# ObjectMachine.Proofs.Lines -- tasks in line, call after call

Tasks outlive the call that made them, and a later call may attach them again. So what holds of the
tasks of one call has to hold between calls: no task is in line, whatever was done to the machine
before. A deed is `Discreet` if it leaves tasks to programs: it copies none, and does not say by
hand who attached a task or which stack it has. Programs may do whatever they like.

* `Machine.quiet_of_create` -- a new machine has no task in line.
* `Deed.calming` -- a discreet deed leaves no task in line, however it ends.
* `Machine.Reached.tasks_in_line` -- so every call has its tasks in line at every moment, and a task
  that has finished has finished for good.
-/
import Mathlib
import ObjectMachine.Proofs.Handovers
import ObjectMachine.Proofs.Histories

namespace ObjectMachine

open ObjectMachine.Action (Gentle Leads asks_lift asks_pure)
open Store (asks_check check check_ok tends_adjust)

/-- A machine that has just been created has no task in line. -/
theorem Machine.quiet_of_create {settings : Settings} {log : Log} {m : Machine}
    (created : create settings log = .ok m) : m.Quiet := by
  have idle := idle_of_create created
  unfold create at created
  split at created
  · cases created
  split at created
  · cases created
  rename_i isStore
  cases created
  have noTask {v t} (isTask : Heap.view? Task _ v = some t) : False :=
    nomatch Heap.plain_of_create isStore (Heap.view?_eq_some.mp isTask)
  obtain ⟨_, o, ⟨⟩, found, isBody⟩ :=
    Heap.view?_iff.mp (idle.named (_, _) (List.mem_cons_of_mem _ List.mem_cons_self))
  refine ⟨⟨⟨idle.store.formed, by rintro _ ⟨⟩⟩, ⟨fun _ _ isTask => (noTask isTask).elim,
    fun _ _ _ _ isTask => (noTask isTask).elim⟩, o, found, by simp [isBody, HeapKind.wrap, Body.kind]⟩, fun r post posted => ?_⟩
  obtain ⟨_, _, isTask, -⟩ := Heap.roster_eq_some.mp posted
  exact (noTask isTask).elim

namespace Table

variable {s s' : Store}

/-- A map may be given another size and other entries at any time. -/
theorem tends_put {map : Value} {t t' : Table} (found : s.heap.view? Table map = some t)
    (tends : s.Tends s') : s'.Tends { s' with heap := s'.heap.put map t' } := by
  refine tends_adjust fun b isBody => ?_
  obtain ⟨b', isBody', steady⟩ := tends.heap.steady.body (Heap.view?_eq_some.mp found)
  cases isBody.symm.trans isBody'
  exact .ofPlain steady.kind.symm steady.size.symm
    (by rw [steady.kind]; simp [HeapKind.wrap, Body.kind, Body.notedKinds])

theorem tended_extend (map : Value) : Store.Tended (extend map) := by
  refine Action.gentle_of_within fun s => (asks_check _).within_bind fun t isTable =>
    (asks_check _).within_bind fun e _ => (asks_lift _).within_bind fun capacity _ =>
    (asks_lift _).within_bind fun length _ => .bind ((Make.tended_plain (.sequence length) rfl).within s)
    fun entries s' tends _ => (asks_check _).within_bind fun fresh isFresh =>
    (asks_check _).within_bind fun filled isFilled => ?_
  have isTable := Heap.cast_eq_ok.mp (check_ok isTable)
  have isFresh := Heap.cast_eq_ok.mp (check_ok isFresh)
  have size := Entries.size_insertAll (check_ok isFilled)
  have first : s'.Tends { s' with heap := s'.heap.put entries (⟨filled.words⟩ : Sequence) } := by
    refine tends_adjust fun b isBody => ?_
    cases (Heap.view?_eq_some.mp isFresh).symm.trans isBody
    exact .ofPlain rfl (by simp [HeapKind.wrap, Body.size, size])
      (by simp [HeapKind.wrap, Body.kind, Body.notedKinds])
  exact ⟨Trans.trans first (tends_put isTable (Trans.trans tends first)), trivial⟩

theorem tended_enter (map key value : Value) : Store.Tended (enter map key value) := by
  refine Action.gentle_of_within fun s => (asks_check _).within_bind fun t isTable =>
    (asks_check _).within_bind fun hash _ => (asks_check _).within_bind ?_
  rintro ⟨index, taken⟩ -
  have isTable := Heap.cast_eq_ok.mp (check_ok isTable)
  have first : s.Tends { s with heap := s.heap.adjust t.entries (written index ⟨key, value, hash⟩) } := by
    refine tends_adjust fun b _ => ?_
    cases b with
    | array a =>
      exact .ofPlain rfl (by simp [written, Body.size, Entries.size_set])
        (by simp [Body.kind, Body.notedKinds])
    | _ => exact .refl _
  cases taken with
  | true => exact ⟨first, trivial⟩
  | false => exact ⟨Trans.trans first (tends_put isTable first), trivial⟩

theorem tended_set (map key value : Value) : Store.Tended (set map key value) := by
  refine (Store.asks_ask _).gentle.bind fun _ => .ite (fun _ => (Action.asks_violate _).gentle) fun _ =>
    .ite (fun _ => (Action.asks_violate _).gentle) fun _ => (asks_check _).gentle.bind fun _ =>
    (asks_check _).gentle.bind fun _ => (asks_lift _).gentle.bind fun full => ?_
  cases full with
  | true => exact (tended_extend map).bind fun _ => tended_enter map key value
  | false => exact tended_enter map key value

end Table

namespace Deed

/-- Whether tasks are left to programs: none is copied, and none is told by hand who attached it or
which stack it has. A compiler may make objects. -/
def Discreet (m : Machine) : Deed → Prop
  | make (.clone v) => m.store.heap.is Task v = false
  | change v (.stack _) | change v (.caller _) => m.store.heap.is Task v = false
  | register compiler => ∀ v, Store.Tended (compiler v)
  | _ => True

end Deed

namespace Change

theorem steady_apply {m : Machine} {v : Value} {written : Change} {b : Body}
    (discreet : Deed.Discreet m (.change v written)) (isBody : m.store.heap.bodyOf? v = some b) :
    b.Steady (written.apply b) := by
  have similar := written.similar_apply b
  cases b with
  | stack s =>
    rw [apply_stack]
  | task t =>
    have noTask : m.store.heap.is Task v = true := Heap.is_iff.mpr ⟨t, Heap.view?_eq_some.mpr isBody⟩
    cases written with
    | stack w => cases noTask.symm.trans discreet
    | caller w => cases noTask.symm.trans discreet
    | _ => exact .refl _
  | _ => exact similar.steady (by simp [Body.kind]) (by simp [Body.kind])

end Change

namespace Machine

variable {m m' : Machine}
variable {count : Nat} {work : Op ε α} {ε α : Type}

/-- Work that leaves no task in line, however it ends. -/
abbrev Calming {ε α : Type} (work : Op ε α) (m : Machine) : Prop :=
  Leads work m (fun _ => m.Calms) fun _ => m.Calms

theorem Calming.leaves (calming : Calming work m) (leaves : work.Leaves m m') : m.Calms m' := by
  obtain ⟨answer, done⟩ | ⟨cause, stopped⟩ := leaves
  · exact calming.answer done
  · exact calming.cause stopped

theorem Calming.discard (calming : Calming work m) : Calming (discard work) m := by
  have sequence : Functor.discard work = work >>= fun _ => pure () := rfl
  rw [sequence]
  exact Action.leads_bind.mpr (calming.imp fun _ _ calms => calms)

theorem Quiet.calms (quiet : m.Quiet) (survives : Survives m.references.slots.size m m') :
    m.Calms m' :=
  (quiet.survives survives).imp id .inr

theorem Surviving.calming (surviving : Surviving m.references.slots.size work)
    (quiet : m.Quiet) : Calming work m :=
  Leads.mono (surviving.within m) (fun _ _ ⟨survives, _⟩ => quiet.calms survives)
    fun _ _ survives => quiet.calms survives

theorem Tends.calms (tends : m.Tends m') (quiet : m.Quiet) : m.Calms m' := quiet.calms tends.survives

theorem Quiet.calming {α : Type} {work : Alloc α} {post : α → Store → Prop} (quiet : m.Quiet)
    (within : Action.Within Store.Tends work m.store post) :
    Calming (Action.mapError RunError.ofSignal (onStore work)) m :=
  Action.leads_mapError.mpr (Leads.mono (within_onStore within)
    (fun _ _ ⟨tends, _⟩ => tends.calms quiet) fun _ _ tends => tends.calms quiet)

theorem surviving_assemble (assembly : Assembly) (argc : Nat) :
    Surviving count (assemble assembly argc) :=
  surviving_inScope ((surviving_rootAll _).bind fun _ => surviving_retrying
    ((asks_slots _).gentle.bind fun _ => (asks_ask _).gentle.bind fun _ =>
      (tended_onStore (Make.tended_plain (.code _) rfl)).surviving.bind fun _ =>
      (tended_onStore (Make.tended_plain (.tuple _) rfl)).surviving.bind fun _ =>
      (tended_onStore (Make.tended_lambda _)).surviving))

theorem surviving_uncompiledLambda (argc : Nat) (source : Value) :
    Surviving count (uncompiledLambda argc source) :=
  surviving_inScope ((surviving_root _).bind fun _ => surviving_retrying ((asks_ask _).gentle.bind
    fun _ => (asks_ask _).gentle.bind fun _ => (tended_onStore (Make.tended_lambda _)).surviving))

theorem surviving_defineGlobal (name : String) (v : Value) :
    Surviving count (defineGlobal name v) :=
  surviving_inScope ((surviving_root _).bind fun _ => surviving_retrying ((asks_ask _).gentle.bind
    fun _ => (tended_onStore (Make.tended_plain (.string _) rfl)).surviving.bind fun _ => (asks_ask _).gentle.bind
    fun _ => (tended_onStore (Table.tended_set _ _ _)).surviving))

theorem tended_methodTable (holder : Value) : Store.Tended (methodTable holder) := by
  refine (Store.asks_ask _).gentle.bind fun found => ?_
  split
  · exact (Store.asks_check _).gentle.bind fun _ => (asks_pure _).gentle
  · exact (Store.asks_check _).gentle.bind fun _ => (asks_pure _).gentle
  · exact Action.gentle_fail _

theorem surviving_addMethod (holder method : Value) :
    Surviving count (addMethod holder method) := by
  refine surviving_inScope ((surviving_root _).bind fun _ => (surviving_root _).bind fun _ =>
    Gentle.bind (surviving_retrying ((asks_ask _).gentle.bind fun _ =>
      (tended_onStore (tended_methodTable _)).surviving.bind fun _ => (asks_ask _).gentle.bind fun _ =>
      (tended_onStore (Make.tended_plain (.tuple _) rfl)).surviving)) fun methods => (asks_ask _).gentle.bind fun v => ?_)
  refine Action.gentle_of_within fun m => ⟨Tends.survives ⟨tends_adjust fun b _ => ?_, rfl, rfl, rfl⟩,
    trivial⟩
  cases b with
  | layout l =>
    refine Body.Similar.steady ⟨rfl, rfl, ?_, by simp [Body.kind]⟩ (by simp [Body.kind]) (by simp [Body.kind])
    rintro _ ⟨⟩
    exact ⟨_, rfl, rfl, rfl⟩
  | protocol p => exact .ofPlain rfl rfl (by simp [Body.kind, Body.notedKinds])
  | _ => exact .refl _

end Machine

namespace Deed

open ObjectMachine.Machine

variable {m m' : Machine} {deed : Deed}

theorem calming_make (quiet : m.Quiet) {making : Making} (discreet : Discreet m (make making)) :
    Calming (Action.mapError RunError.ofSignal (onStore making.work)) m := by
  cases making with
  | lambda data => exact quiet.calming ((Make.tended_lambda data).within _)
  | inst v => exact quiet.calming (Make.within_inst v)
  | stack height => exact quiet.calming ((Make.tended_stack height).within _)
  | task height => exact quiet.calming ((Make.tended_task height).within _)
  | clone v => exact quiet.calming (Make.within_clone v discreet)
  | _ => exact quiet.calming ((Make.tended_plain _ rfl).within _)

/-- A discreet deed leaves no task in line, however it ends. -/
theorem calming (quiet : m.Quiet) (discreet : deed.Discreet m) : Calming deed.work m := by
  cases deed with
  | make making => exact (calming_make quiet discreet).discard
  | change v written =>
    have tends : m.Tends (m.withHeap (m.store.heap.adjust v written.apply)) :=
      ⟨tends_adjust fun b isBody => Change.steady_apply discreet isBody, rfl, rfl, rfl⟩
    exact tends.calms quiet
  | enter map key value => exact quiet.calming ((Table.tended_set map key value).within _)
  | addMethod holder method => exact (surviving_addMethod holder method).calming quiet
  | defineGlobal name v => exact (surviving_defineGlobal name v).calming quiet
  | assemble assembly argc => exact ((surviving_assemble assembly argc).calming quiet).discard
  | uncompiled argc source => exact ((surviving_uncompiledLambda argc source).calming quiet).discard
  | register compiler =>
    refine ⟨⟨⟨⟨quiet.formed.store, ?_⟩, quiet.owned, quiet.plain⟩, quiet.settled⟩, .inl rfl⟩
    rintro _ ⟨⟩
    exact discreet
  | refer references =>
    exact ⟨⟨⟨⟨quiet.formed.store, quiet.formed.compiler⟩, quiet.owned, quiet.plain⟩, quiet.settled⟩, .inl rfl⟩
  | collect pending => exact (surviving_collect pending).calming quiet
  | call budget lambda arguments => exact Calming.discard (leads_call quiet budget lambda arguments)

end Deed

/-- Whatever has been done to a machine, no task is in line. -/
theorem Machine.Reached.quiet {m : Machine} (reached : m.Reached fun m deed => deed.Discreet m) :
    m.Quiet := by
  induction reached with
  | created created => exact quiet_of_create created
  | done deed _ discreet leaves ih => exact ((Deed.calming ih discreet).leaves leaves).1

namespace Machine

/-- In every state of a call tasks are in line, and task instructions do what the line says. Whoever
holds a task that has finished, in a slot from before the call or in one that is taken at any moment
of it, finds it finished at every later moment, in this call and in later ones. After the call no
task is in line, however it ends. -/
theorem Reached.tasks_in_line {m : Machine}
    (reached : m.Reached fun m deed => deed.Discreet m) (lambda : Value) (arguments : Array Value) :
    (∀ x, Visits m lambda arguments x → (∃ tasks, x.Runs tasks ∧ Exec.Abides x tasks) ∧
      ∀ i < m.references.slots.size, m.Finished i → x.machine.Finished i) ∧ (∀ x v y,
      Visits m lambda arguments x → Exec.Reaches (x.holding v) y → (x.holding v).KeepsFinished y) ∧
      ∀ (deed : Deed) m', deed.Discreet m → deed.work.Leaves m m' → m.Calms m' := by
  have quiet := reached.quiet
  refine ⟨fun x visits => ?_, fun x v y visits reaches => ?_, fun deed m' discreet leaves => ?_⟩
  · obtain ⟨later, keeps, tasks, runs⟩ := visits.completes quiet
    exact ⟨⟨tasks, runs, Exec.abides runs⟩, fun i low => keeps.finished i low (low.trans_le later).ne⟩
  · obtain ⟨-, -, tasks, runs⟩ := visits.completes quiet
    exact (reaches.completes (runs.holding v)).1
  · exact (Deed.calming quiet discreet).leaves leaves

/-- Code that makes a task of its constant and attaches it. -/
def attachingCode (entry : Value) : Assembly :=
  { units := ([.push 0, .task, .attach, .ret].flatMap Instruction.units).toArray, constants := #[entry],
    maxHeight := 1 }

/-- Whether a call that attaches a task to run `entry` has another task run than it started on. -/
def attachesOther (entry : Value) (m : Machine) : Bool :=
  match assemble (attachingCode entry) 0 m with
  | .error _ _ => false
  | .ok lambda m =>
    ((Machine.entry lambda m).bind (after 4)).any fun x =>
      x.machine.references.slot x.currentTask != x.machine.references.slot x.rootTask

theorem visits_of_attachesOther {entry : Value}
    {m : Machine} (attaches : attachesOther entry m = true) :
    ∃ lambda m₁ x, assemble (attachingCode entry) 0 m = .ok lambda m₁ ∧ Visits m₁ lambda #[] x ∧
      x.machine.references.slot x.currentTask ≠ x.machine.references.slot x.rootTask := by
  unfold attachesOther at attaches
  split at attaches
  · cases attaches
  rename_i lambda m₁ isLambda
  obtain ⟨y, visits, differ⟩ := exists_visits attaches
  exact ⟨lambda, m₁, y, isLambda, visits, by simpa using differ⟩

theorem tasks_in_line_attached : ∃ m m₁ m₂ entry lambda x, create { stackHeight := 32 } {} = .ok m ∧
    assemble (trialCode [.push 0, .yield, .ret]) 0 m = .ok entry m₁ ∧
    assemble (attachingCode entry) 0 m₁ = .ok lambda m₂ ∧ Visits m₂ lambda #[] x ∧
    ∃ tasks, x.Runs tasks ∧ Exec.Abides x tasks ∧ tasks.tail ≠ [] := by
  obtain ⟨m, m₁, entry, isMachine, isEntry, attaches⟩ :=
    @exists_of_trial [.push 0, .yield, .ret] attachesOther (by decide +kernel)
  obtain ⟨lambda, m₂, x, isLambda, visits, differ⟩ := visits_of_attachesOther attaches
  have reached : m₂.Reached fun m deed => deed.Discreet m :=
    .done (.assemble (attachingCode entry) 0)
      (.done (.assemble (trialCode [.push 0, .yield, .ret]) 0) (.created isMachine) trivial
        (Action.leaves_discard isEntry)) trivial (Action.leaves_discard isLambda)
  obtain ⟨⟨tasks, runs, abides⟩, -⟩ := (reached.tasks_in_line lambda #[]).1 x visits
  exact ⟨m, m₁, m₂, entry, lambda, x, isMachine, isEntry, isLambda, visits, tasks, runs, abides,
    mt abides.alone.mpr differ⟩

end Machine

end ObjectMachine
