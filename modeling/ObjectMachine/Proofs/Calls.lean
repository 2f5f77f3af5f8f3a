/-
# ObjectMachine.Proofs.Calls -- whole calls

What interrupts an instruction is dealt with while the call is parked, and the call is resumed where
the instruction was: after a collection, on a higher stack, or with the code of a lambda. A call
that is given up leaves no task that could run.

* `Exec.ends_recover` -- an interrupted call goes on, or can be given up.
* `Exec.settles_run` -- a run of any length ends with an idle machine.
* `Machine.settles_call` -- so does a call.
-/
import Mathlib
import ObjectMachine.Proofs.Instructions

namespace ObjectMachine

open ObjectMachine.Action (ends_bind)

namespace Heap

variable {h h' : Heap} {busy : Ref → Prop}

section Emptying

variable (v : Value)

theorem emptied_similar (b : Body) : b.Similar (match b with
    | .stack s => .stack { s with status := .empty }
    | body => body) := by
  cases b with
  | stack s => exact ⟨rfl, rfl, by simp, by simp [Body.kind]⟩
  | _ => exact .refl _

theorem emptied_evolves : h.Evolves (fun r => v = .object r)
    (h.adjustStack v fun s => { s with status := .empty }) :=
  adjust_evolves (fun b _ => emptied_similar b) (fun _ _ isRef _ tight => absurd isRef tight)
    fun l _ _ => ⟨l, rfl, rfl, rfl, rfl⟩

theorem Sound.emptied (sound : h.Sound busy) :
    (h.adjustStack v fun s => { s with status := .empty }).Sound fun r => busy r ∧ v ≠ .object r := by
  have sound : (h.adjustStack v fun s => { s with status := .empty }).Sound fun r =>
      busy r ∨ v = .object r :=
    (sound.mono fun _ => Or.inl).adjust (emptied_evolves v) (fun _ _ _ => Or.inr)
      (fun b _ => emptied_similar b) (by rintro l _ _ ⟨⟩; exact .inl ⟨rfl, rfl, rfl⟩)
  refine sound.settle fun r s isBusy idle found => ?_
  obtain rfl : v = .object r := by
    by_contra differs
    exact idle ⟨isBusy.resolve_right differs, differs⟩
  obtain ⟨_, o, ⟨⟩, isObject, isStack⟩ := bodyOf?_eq_some.mp found
  rw [adjustStack, object?_adjust] at isObject
  obtain ⟨old, -, rfl⟩ := Option.map_eq_some_iff.mp isObject
  rw [if_pos rfl] at isStack
  cases isBody : old.body with
  | stack s₀ =>
    simp only [isBody] at isStack
    cases isStack
    exact .inl rfl
  | _ =>
    simp only [isBody] at isStack
    cases isStack

end Emptying

end Heap

namespace Exec

theorem sound_abandonFrom {fuel : Nat} {task : Value} {h h' : Heap}
    {busy : Ref → Prop} (sound : h.Sound busy) (abandoned : abandonFrom fuel task h = .ok h') :
    h.Evolves (fun _ => True) h' ∧ ∃ t, h.view? Task task = some t ∧ h'.Sound fun r => busy r ∧
      t.stack ≠ .object r := by
  induction fuel generalizing task h busy with
  | zero => cases abandoned
  | succ fuel ih =>
    obtain ⟨t, isTask, abandoned⟩ := ok_of_bind abandoned
    have evolves : h.Evolves (fun _ => True) _ := (Heap.emptied_evolves t.stack).mono fun _ _ => trivial
    have emptied := sound.emptied t.stack
    dsimp only at abandoned
    split at abandoned
    · obtain ⟨more, t', -, settled⟩ := ih emptied abandoned
      exact ⟨evolves.trans more, t, Heap.cast_eq_ok.mp isTask, settled.mono fun _ isBusy => isBusy.1⟩
    · cases abandoned
      exact ⟨evolves, t, Heap.cast_eq_ok.mp isTask, emptied⟩

variable {x : Execution} {raised : Interrupt → Execution → Prop}

theorem ends_abandon (abandonable : x.machine.Abandonable x.currentTask) :
    Action.Ends abandon x (fun _ x' => x'.machine.Idle) raised := by
  obtain ⟨home, sound, task, t, inSlot, isTask, isStack⟩ := abandonable
  unfold abandon
  refine ends_bind.mpr (ends_ask.mpr (ends_bind.mpr ?_))
  refine ends_check (by simp) fun h' abandoned => ends_modifyHeap.mpr ?_
  obtain ⟨evolves, t', isTask', settled⟩ := sound_abandonFrom sound.store.heap abandoned
  rw [inSlot, isTask] at isTask'
  cases isTask'
  refine sound.withHeap evolves (settled.mono ?_)
  rintro r ⟨rfl, differs⟩
  exact differs isStack

end Exec

namespace Stack

variable {s : Stack} {home target : Ref} {top : Nat}

theorem tighten_loosen (l : Link) : l.loosen.tighten target = l.tighten target := by
  cases l <;> rfl

/-- Turning links into offsets and back leaves them leading into the new buffer. -/
theorem getElem?_tightened_loosened {i : Nat} (low : i < top + 3) :
    ((s.loosened top).tightened target top).words[i]? =
      (s.words[i]?).map (Slot.mapLink (Link.tighten target)) := by
  simp only [tightened, loosened, mapBelow_mapBelow, getElem?_mapBelow, low, if_true]
  congr 1
  funext slot
  cases slot with
  | value v => rfl
  | link l => exact congrArg Slot.link (tighten_loosen l)

end Stack

namespace Heap

variable {h : Heap} {home target : Ref} {s s' : Stack} {least top frame : Nat} {v : Value} {counter : Int}
variable {task : Value}

section

variable (parked : h.ParkedAs home s least top frame v counter)
include parked

/-- A parked stack that has been copied into a buffer that is not lower. -/
theorem ParkedAs.copied (status : s'.status = .parked) (mode : s'.mode = .linked)
    (top_eq : s'.top = .address target top) (higher : s.height ≤ s'.height) (words : ∀ i,
      i < top + 3 → s'.words[i]? = (s.words[i]?).map (Slot.mapLink (Link.tighten target))) :
    h.ParkedAs target s' least top frame v counter := by
  have mapped : ∀ i, i < top + 3 → s'.words[i]? = (s.words[i]?).map fun slot =>
      (slot.mapLink (Link.tighten target)).mapValue id := by
    intro i low
    rw [words i low]
    congr 1
    funext slot
    cases slot <;> rfl
  refine ⟨status, mode, top_eq, ?_, parked.isLambda, parked.operands, ?_⟩
  · exact parked.parking.map (f := Link.tighten target) (g := id) (fun _ => rfl) fun i _ low => mapped i low
  · refine parked.chain.carry (f := Link.tighten target) (g := id) (fun _ => rfl) rfl (fun _ => rfl)
      (fun i low => mapped i (by omega)) (fun _ _ _ _ isLambda => isLambda)
      (fun _ _ l _ _ _ _ _ runs => ⟨l, runs, rfl⟩) (by omega)

/-- The loose frames of a parked stack, copied into a buffer that is not lower. -/
theorem ParkedAs.copyContents {copied fresh : Stack}
    (isCopied : fresh.copyContents (s.loosened top) = .ok copied) :
    ∃ words, copied = { s.loosened top with words } ∧ words.size = fresh.words.size ∧
      s.height ≤ fresh.height ∧ ∀ i, i < top + 3 → words[i]? = (s.loosened top).words[i]? := by
  have height : (s.loosened top).height = s.height := by simp [Stack.height, Stack.loosened]
  have inside : top + 3 ≤ s.height := parked.parking.above_le_size
  obtain ⟨-, _, failed⟩ | ⟨higher, words, done, size, same⟩ := fresh.copyContents_cases (s.loosened top)
  · cases isCopied.symm.trans failed
  · cases isCopied.symm.trans done
    exact ⟨words, rfl, size, height ▸ higher, fun i low => same i (by omega)⟩

theorem ParkedAs.looseAt_copied {copied fresh : Stack}
    (isCopied : fresh.copyContents (s.loosened top) = .ok copied) : copied.LooseAt top := by
  obtain ⟨words, rfl, -, -, low⟩ := parked.copyContents isCopied
  have looseAt := Stack.loosened_loose parked.parkedAt
  exact { looseAt with frames := looseAt.frames.congr low }

/-- What happens to the frames of a stack that is replaced by a higher one. -/
theorem ParkedAs.replaced {loose copied moved kept fresh : Stack}
    (isLoose : s.uncook home = .ok loose) (isCopied : fresh.copyContents loose = .ok copied)
    (isMoved : copied.recook target = .ok moved) (isKept : loose.recook home = .ok kept) :
    h.ParkedAs target moved least top frame v counter ∧
      h.ParkedAs home kept least top frame v counter ∧ moved.height = fresh.height ∧
      kept.height = s.height := by
  cases (Stack.uncook_parked parked.parkedAt).symm.trans isLoose
  cases (Stack.recook_loose (Stack.loosened_loose parked.parkedAt)).symm.trans isKept
  cases (Stack.recook_loose (parked.looseAt_copied isCopied)).symm.trans isMoved
  obtain ⟨words, rfl, wordsSize, higher, low⟩ := parked.copyContents isCopied
  refine ⟨parked.copied parked.status rfl rfl ?_ fun i low' => ?_,
    parked.copied parked.status rfl rfl ?_ fun i low' => Stack.getElem?_tightened_loosened low',
    ?_, ?_⟩
  · simpa [Stack.height, Stack.tightened, wordsSize] using higher
  · rw [← Stack.getElem?_tightened_loosened low']
    simp only [Stack.tightened, Stack.getElem?_mapBelow, low i low']
  · simp [Stack.height, Stack.tightened, Stack.loosened]
  · simp [Stack.height, Stack.tightened, wordsSize]
  · simp [Stack.height, Stack.tightened, Stack.loosened]

/-- Nothing is converted at the wrong moment when a parked stack is replaced. -/
theorem ParkedAs.calm_replacing (fresh : Stack) (target : Ref) : Calm (do
      let loose ← s.uncook home
      let copied ← fresh.copyContents loose
      pure (← copied.recook target, ← loose.recook home)) := by
  rw [Stack.uncook_parked parked.parkedAt]
  refine Calm.bind (by simp) ?_
  rintro _ ⟨⟩
  refine Calm.bind (by simp) fun copied isCopied => ?_
  rw [Stack.recook_loose (Stack.loosened_loose parked.parkedAt),
    Stack.recook_loose (parked.looseAt_copied isCopied)]
  exact Calm.ok _

end

theorem put_task_similar {t t' : Task} (isTask : h.view? Task task = some t) (b : Body)
    (isBody : h.bodyOf? task = some b) : b.Similar (.task t') := by
  cases (view?_eq_some.mp isTask).symm.trans isBody
  exact ⟨rfl, rfl, by simp [HeapKind.wrap], by simp [HeapKind.wrap, Body.kind]⟩

theorem put_task_evolves {t t' : Task} (isTask : h.view? Task task = some t) :
    h.Evolves (fun r => task = .object r) (h.put task t') := by
  refine adjust_evolves (put_task_similar isTask) (fun _ _ isRef _ tight => absurd isRef tight) ?_
  intro l isLambda
  cases (view?_eq_some.mp isTask).symm.trans isLambda

theorem Sound.put_task {busy : Ref → Prop} {t t' : Task} (sound : h.Sound busy)
    (isTask : h.view? Task task = some t) : (h.put task t').Sound busy := by
  refine sound.adjust (put_task_evolves isTask) ?_ (put_task_similar isTask) ?_
  · rintro r s isStack rfl
    cases (view?_eq_some.mp isTask).symm.trans isStack
  · intro l _ isLambda
    cases (view?_eq_some.mp isTask).symm.trans isLambda

/-- A task gets a stack in the place of another, and both are at rest. -/
theorem Sound.replaceStack {fresh moved kept : Stack} {t : Task}
    (sound : h.Sound fun _ => False) (isOld : h.bodyOf? (.object home) = some (.stack s))
    (isNew : h.bodyOf? (.object target) = some (.stack fresh)) (differs : target ≠ home)
    (isTask : h.view? Task task = some t) (movedHeight : moved.height = fresh.height)
    (keptHeight : kept.height = s.height) (restNew : h.AtRest target moved)
    (restOld : h.AtRest home kept) :
    (((h.put (.object target) moved).put (.object home) kept).put task
      { t with stack := .object target }).Sound (fun _ => False) ∧
    h.Evolves (fun _ => True) (((h.put (.object target) moved).put (.object home) kept).put task
      { t with stack := .object target }) ∧
    (((h.put (.object target) moved).put (.object home) kept).put task
      { t with stack := .object target }).view? Task task = some { t with stack := .object target } := by
  have isTask := view?_eq_some.mp isTask
  have noStack : ∀ r st, h.bodyOf? (.object r) = some (.stack st) → ¬ (Value.object r = task) := by
    rintro r st isStack rfl
    cases isStack.symm.trans isTask
  have first := put_stack_evolves isNew movedHeight
  have isOld₁ : (h.put (.object target) moved).bodyOf? (.object home) = some (.stack s) := by
    rw [put, bodyOf?_adjust isOld, if_neg (by simpa using differs)]
  have isNew₁ := bodyOf?_put isNew moved
  have isTask₁ : (h.put (.object target) moved).bodyOf? task = some (.task t) := by
    rw [put, bodyOf?_adjust isTask, if_neg (noStack _ _ isNew)]
    rfl
  have sound₁ : (h.put (.object target) moved).Sound fun r => r = target ∨ r = home :=
    (sound.mono fun _ => False.elim).put_stack isNew movedHeight (.inl rfl)
  generalize h.put (.object target) moved = h₁ at *
  have second := put_stack_evolves isOld₁ keptHeight
  have isOld₂ := bodyOf?_put isOld₁ kept
  have isNew₂ : (h₁.put (.object home) kept).bodyOf? (.object target) = some (.stack moved) := by
    rw [put, bodyOf?_adjust isNew₁, if_neg (by simpa using differs.symm)]
    rfl
  have isTask₂ : (h₁.put (.object home) kept).view? Task task = some t := by
    rw [view?_eq_some, put, bodyOf?_adjust isTask₁, if_neg (noStack _ _ isOld)]
    rfl
  have sound₂ := sound₁.put_stack isOld₁ keptHeight (.inr rfl)
  generalize h₁.put (.object home) kept = h₂ at *
  have third : h₂.Evolves _ (h₂.put task { t with stack := .object target }) := put_task_evolves isTask₂
  have evolves : h.Evolves (fun _ => True) (h₂.put task { t with stack := .object target }) :=
    ((first.mono fun _ _ => trivial).trans (second.mono fun _ _ => trivial)).trans
      (third.mono fun _ _ => trivial)
  refine ⟨(sound₂.put_task isTask₂).settle ?_, evolves,
    view?_eq_some.mpr (bodyOf?_put (view?_eq_some.mp isTask₂) _)⟩
  rintro r st (rfl | rfl) - isStack
  · rw [put, bodyOf?_adjust isNew₂, if_neg (fun same => noStack _ _ isNew same.symm)] at isStack
    cases isStack
    exact evolves.atRest restNew
  · rw [put, bodyOf?_adjust isOld₂, if_neg (fun same => noStack _ _ isOld same.symm)] at isStack
    cases isStack
    exact evolves.atRest restOld

end Heap

namespace Machine

variable {m : Machine} {index least : Nat}

theorem Waits.abandonable (waits : m.Waits index least) (idle : m.Idle) : m.Abandonable index := by
  obtain ⟨home, _, hosts, -⟩ := waits
  exact ⟨home, Sound.mono idle fun _ => False.elim, hosts⟩

end Machine

namespace Exec

open Execution (Suspended)

variable {α : Type} {x : Execution} {s : Stack} {raised : Interrupt → Execution → Prop}

/-- A call that is given up: nothing of it runs any more once it is abandoned. -/
def Fails (interrupt : Interrupt) (x : Execution) : Prop :=
  (∃ error, interrupt = .failed error) ∧ x.machine.Abandonable x.currentTask

theorem ends_orFail {work : Op RunError α} {post : α → Machine → Prop}
    (ends : Action.Ends work x.machine post fun _ m => m.Idle ∧ m.Waits x.currentTask 1) :
    Action.Ends (orFail work) x
      (fun answer x' => ∃ m, x' = x.withMachine m ∧ post answer m) Fails := by
  unfold orFail
  rw [ends_onMachine, Action.ends_mapError]
  refine ends.mono (fun answer m holds => ⟨m, rfl, holds⟩) ?_
  rintro error m ⟨idle, waits⟩
  exact ⟨⟨error, rfl⟩, waits.abandonable idle⟩

theorem ends_replaceStack {target : Ref} {newHeight : Nat} (idle : x.machine.Idle)
    (waits : x.machine.Waits x.currentTask 1)
    (isNew : x.heap.bodyOf? (.object target) = some (.stack (Stack.fresh newHeight))) :
    Action.Ends (replaceStack (.object target)) x (fun _ x' => x'.machine.Idle) Fails := by
  obtain ⟨home, s, ⟨task, t, inSlot, isTask, isHome⟩, isOld, top, frame, v, counter, parked⟩ := waits
  refine ends_bind.mpr (ends_ask.mpr (ends_bind.mpr ?_))
  rw [inSlot]
  refine ends_check ?_ fun answer isAnswer => ?_
  · refine Calm.bind (by simp) fun t _ => ?_
    cases t.stack <;> simp
  obtain ⟨t', isTask', isAnswer⟩ := ok_of_bind isAnswer
  cases isTask.symm.trans (Heap.cast_eq_ok.mp isTask')
  rw [isHome] at isAnswer
  obtain ⟨fresh, isFresh, isAnswer⟩ := ok_of_bind isAnswer
  cases isAnswer
  cases isNew.symm.trans (Heap.view?_eq_some.mp (Heap.cast_eq_ok.mp isFresh))
  refine ends_bind.mpr (ends_check ?_ fun answer isAnswer => ends_modifyHeap.mpr ?_)
  · refine Calm.bind (by simp) fun s' isStack => ?_
    rw [isHome] at isStack
    cases isOld.symm.trans (Heap.view?_eq_some.mp (Heap.cast_eq_ok.mp isStack))
    exact parked.calm_replacing _ _
  obtain ⟨s', isStack, isAnswer⟩ := ok_of_bind isAnswer
  rw [isHome] at isStack
  cases isOld.symm.trans (Heap.view?_eq_some.mp (Heap.cast_eq_ok.mp isStack))
  obtain ⟨loose, isLoose, isAnswer⟩ := ok_of_bind isAnswer
  obtain ⟨copied, isCopied, isAnswer⟩ := ok_of_bind isAnswer
  obtain ⟨moved, isMoved, isAnswer⟩ := ok_of_bind isAnswer
  obtain ⟨kept, isKept, isAnswer⟩ := ok_of_bind isAnswer
  cases isAnswer
  obtain ⟨parkedNew, parkedOld, newHeight, oldHeight⟩ := parked.replaced isLoose isCopied isMoved isKept
  -- a stack that has just been made is not parked
  have differs : target ≠ home := by
    rintro rfl
    cases isOld.symm.trans isNew
    cases parked.status
  obtain ⟨sound, evolves, -⟩ := idle.store.heap.replaceStack isOld isNew differs isTask newHeight
    oldHeight (.inr ⟨_, _, _, _, parkedNew⟩) (.inr ⟨_, _, _, _, parkedOld⟩)
  rw [isHome]
  exact idle.withHeap evolves sound

theorem ends_growStack {height : Nat}
    (idle : x.machine.Idle) (waits : x.machine.Waits x.currentTask 1) :
    Action.Ends (growStack height) x (fun _ x' => x'.machine.Idle) Fails := by
  unfold growStack
  refine ends_bind.mpr (ends_ask.mpr (ends_bind.mpr ?_))
  refine ends_check (by simp) fun oldHeight _ => ends_bind.mpr ?_
  refine Action.ends_lift (by simp) fun grown _ => ends_bind.mpr ?_
  refine Action.ends_lift (by simp) fun newHeight _ => ends_bind.mpr (ends_report.mpr ?_)
  generalize x.machine.log.add _ _ = log
  have makes : ∀ s, Store.Keeps (fun _ => False) (Make.stack newHeight) s fun v s' =>
      ∃ r, v = .object r ∧ s'.heap.bodyOf? v = some (.stack (Stack.fresh newHeight)) := by
    intro s
    refine (Make.keeps_stack newHeight).mono ?_
    rintro _ _ _ ⟨r, rfl, -, found⟩
    exact ⟨r, rfl, found⟩
  have made := Machine.ends_retrying_onStore (m := { x.machine with log })
    (fun m => m.Waits x.currentTask 1) (idle.withLog log) (waits.withReferences rfl rfl)
    (fun _ _ _ waits => waits.grown) (fun _ _ _ waits => waits.carried) makes
  refine (ends_orFail made).bind ?_
  rintro _ _ ⟨m, rfl, idle, waits, target, rfl, isNew⟩
  exact ends_replaceStack idle waits isNew

end Exec

namespace Execution

variable {x x' : Execution} {s : Stack} {pc least : Nat} {m : Machine} {place : Ref → Ref}

theorem Stalled.at (stalled : x.Stalled x') (atPc : x.At s pc) : x'.At s pc := by
  obtain ⟨machine, pc', rfl, grown⟩ := stalled
  have on := atPc.toOn.grown grown
  exact ⟨{ on with }, atPc.registered, grown.store.evolves.chain atPc.chain⟩

theorem At.withShortage (atPc : x.At s pc) (shortage : Option Shortage) :
    ({ x with shortage } : Execution).At s pc := { atPc with }

/-- A parked stack is in order for a collection, whether it has an operand or not. -/
theorem Suspended.collectable (suspended : x.Suspended least) (start : Ref → Prop) :
    x.heap.Collectable start := by
  obtain ⟨s, found, top, frame, v, counter, parked⟩ := suspended.parked
  refine suspended.sound.store.heap.collectable start fun r s' isHome found' => ?_
  subst isHome
  cases found.symm.trans found'
  rintro _ ⟨⟩
  exact .inr ⟨top, parked.parkedAt⟩

/-- After a collection the call can go on, and can be given up. -/
theorem Suspended.carried (suspended : x.Suspended least) (carried : x.machine.Carried place m) :
    m.Resumable x.currentTask least ∧ m.Abandonable x.currentTask := by
  obtain ⟨s, found, parked⟩ := suspended.parked
  have sound : m.Sound (· = place x.stack) := by
    refine (suspended.sound.carried carried).mono ?_
    rintro _ ⟨_, rfl, -, rfl⟩
    rfl
  have hosts := suspended.hosts.carried carried
  have live : x.heap.Live x.machine.outside (.object x.stack) := by
    rintro _ ⟨⟩
    exact suspended.hosts.live
  obtain ⟨_, ⟨⟩, found'⟩ := carried.heap.body live found
  exact ⟨Machine.resumable_of_hosts sound hosts found'
    (carried.heap.parked suspended.hosts.live found parked), _, sound, hosts⟩

/-- A lambda without code is not affected by parking. -/
theorem At.uncompiled_parked {v : Value} {l : Lambda} (atPc : x.At s pc)
    (isLambda : x.heap.view? Lambda v = some l) (noCode : ¬ x.heap.is Code l.code = true) :
    ∃ l', (x.withStack (x.parkedStack s pc)).heap.view? Lambda v = some l' ∧
      ¬ (x.withStack (x.parkedStack s pc)).heap.is Code l'.code = true := by
  have evolves := atPc.evolves (@height_parkedStack x s pc)
  have current := (atPc.lambdaSound isLambda).current
  obtain ⟨r, o, rfl, -⟩ := Heap.view?_iff.mp isLambda
  have differs : ¬ r = x.stack := by
    rintro rfl
    cases atPc.found.symm.trans (Heap.view?_eq_some.mp isLambda)
  obtain ⟨l', isLambda', same⟩ := evolves.view_lambda isLambda differs
  refine ⟨l', isLambda', ?_⟩
  rw [same.code, evolves.is_code_iff current]
  exact noCode

end Execution

namespace Exec

open Execution (At)

variable {x y : Execution} {s : Stack} {pc : Nat}

/-- A collection makes the room that an instruction lacks, or the call has to be given up. -/
theorem ends_recover_collect {size : Nat} (atPc : y.At s pc) :
    Action.Ends (recover pc (.collect size)) y
      (fun _ x' => x'.machine.Resumable x'.currentTask 0) Fails := by
  unfold recover
  refine ends_bind.mpr (ends_bind.mpr (ends_ask.mpr (ends_bind.mpr ?_)))
  refine ends_check (by simp) fun pending _ => ?_
  have atPc := atPc.withShortage (some { pc, pending })
  refine ends_bind.mpr (ends_park atPc ?_)
  have suspended := @At.suspended _ _ _ 0 atPc atPc.chain.room
  refine ends_bind.mpr (ends_onMachine.mpr ?_)
  refine (Machine.ends_collect pending suspended.sound.registered (suspended.collectable _)).mono ?_
    fun _ _ absurd => absurd.elim
  rintro - m ⟨place, carried⟩
  obtain ⟨resumable, abandonable⟩ := suspended.carried carried
  refine ends_bind.mpr (ends_ask.mpr ?_)
  split
  · exact ⟨⟨_, rfl⟩, abandonable⟩
  · exact resumable

theorem ends_recover_grow {height : Nat} (atPc : y.At s pc) (operand : y.fp + 3 < y.sp) :
    Action.Ends (recover pc (.grow height)) y (fun _ x' => x'.machine.Idle) Fails := by
  unfold recover
  refine ends_bind.mpr (ends_park atPc ?_)
  have suspended := @At.suspended _ _ _ 1 atPc operand
  exact ends_growStack suspended.idle suspended.waits

theorem ends_recover_compile {v : Value} {l : Lambda} (atPc : y.At s pc) (operand : y.fp + 3 < y.sp)
    (isLambda : y.heap.view? Lambda v = some l) (noCode : ¬ y.heap.is Code l.code = true) :
    Action.Ends (recover pc (.compile v)) y (fun _ x' => x'.machine.Idle) Fails := by
  unfold recover
  refine ends_bind.mpr (ends_park atPc ?_)
  have suspended := @At.suspended _ _ _ 1 atPc operand
  obtain ⟨l', isLambda', noCode'⟩ := atPc.uncompiled_parked isLambda noCode
  refine (ends_orFail (Machine.ends_compile suspended.idle isLambda' noCode' suspended.waits)).imp ?_
  rintro _ _ ⟨m, rfl, idle, -⟩
  exact idle

theorem ends_recover {interrupt : Interrupt} (running : x.Running)
    (interrupted : x.Interrupted interrupt y) (goesOn : ∀ answer, interrupt ≠ .done answer) :
    Action.Ends (do recover x.pc interrupt; resume) y (fun _ x' => x'.Running) Fails := by
  obtain ⟨s, atPc⟩ := running
  refine ends_bind.mpr ?_
  have resumes : ∀ {x' : Execution} {least}, x'.machine.Resumable x'.currentTask least →
      Action.Ends resume x' (fun _ x' => x'.Running) Fails := fun resumable =>
    (ends_resume resumable).imp fun _ _ ⟨running, _⟩ => running
  cases interrupt with
  | collect size =>
    exact (ends_recover_collect (interrupted.at atPc)).imp fun _ _ => resumes
  | grow height =>
    obtain ⟨stalled, operand⟩ := interrupted
    have atPc := stalled.at atPc
    obtain ⟨machine, pc, rfl, -⟩ := stalled
    exact (ends_recover_grow atPc operand).imp fun _ _ idle => resumes (idle.resumable _)
  | compile v =>
    obtain ⟨stalled, operand, l, isLambda, noCode⟩ := interrupted
    have atPc := stalled.at atPc
    obtain ⟨machine, pc, rfl, -⟩ := stalled
    exact (ends_recover_compile atPc operand isLambda noCode).mono
      (fun _ _ idle => resumes (idle.resumable _)) fun _ _ fails => fails
  | done answer => exact absurd rfl (goesOn answer)
  | failed error => exact ⟨⟨error, rfl⟩, interrupted⟩

end Exec

namespace Action

variable {σ ε α β : Type}

/-- Work that leaves a state of which `settled` holds, if it ends. -/
def Settles (work : Action σ ε α) (s : σ) (settled : σ → Prop) : Prop :=
  match work s with
  | .ok _ s => settled s
  | .error (.raised _) s => settled s
  | .error (.broken violation) _ => violation.isMistimed = false
  | .error .unfinished _ => True

variable {s : σ} {settled settled' : σ → Prop}

theorem Ends.settles {work : Action σ ε α}
    (ends : Ends work s (fun _ s => settled s) fun _ s => settled s) : Settles work s settled := by
  unfold Settles
  unfold Ends at ends
  cases result : work s with
  | ok answer s' =>
    rw [result] at ends
    exact ends
  | error stop s' =>
    rw [result] at ends
    cases stop with
    | unfinished => trivial
    | _ => exact ends

theorem Ends.settles_bind {first : Action σ ε α} {next : α → Action σ ε β}
    (ends : Ends first s (fun answer s => Settles (next answer) s settled) fun _ s => settled s) :
    Settles (first >>= next) s settled := by
  have sequence : (first >>= next) s = EStateM.bind first next s := rfl
  unfold Settles
  unfold Ends at ends
  rw [sequence, EStateM.bind]
  cases result : first s with
  | ok answer s' =>
    rw [result] at ends
    exact ends
  | error stop s' =>
    rw [result] at ends
    cases stop with
    | raised cause => exact ends
    | broken violation => exact ends
    | unfinished => exact ends.elim

end Action

open ObjectMachine.Action (Ends Settles)

namespace Exec

variable {x x' : Execution}

/-- One turn of a call: an instruction is completed, or is to be executed again. -/
inductive Turn (x : Execution) : Execution → Prop
  | completed {x' : Execution} (completed : step x = .ok () x') : Turn x { x' with shortage := none }
  | recovered {interrupt : Interrupt} {y x' : Execution} (interrupted : step x = .error (.raised interrupt) y)
      (recovered : (do recover x.pc interrupt; resume : Exec Unit) y = .ok () x') : Turn x x'

theorem run_interrupted {interrupt : Interrupt} {y : Execution}
    (interrupted : step x = .error (.raised interrupt) y)
    (goesOn : ∀ answer, interrupt ≠ .done answer) (budget : Nat) :
    run (budget + 1) x = match (do recover x.pc interrupt; resume : Exec Unit) y with
      | .ok _ x => run budget x
      | .error (.raised (.done answer)) x => .ok answer x
      | .error (.raised (.failed error)) x => giveUp error x
      | .error (.raised _) x => .error .unfinished x
      | .error (.broken violation) x => .error (.broken violation) x
      | .error .unfinished x => .error .unfinished x := by
  cases interrupt with
  | done answer => exact absurd rfl (goesOn answer)
  | _ =>
    have equation := run.eq_def (budget + 1) x
    simp only [interrupted] at equation
    exact equation

theorem Turn.run (turn : Turn x x') (budget : Nat) : run (budget + 1) x = run budget x' := by
  cases turn with
  | completed completed => simp only [Exec.run, completed]
  | @recovered interrupt y _ interrupted recovered =>
    have goesOn : ∀ answer, interrupt ≠ .done answer := by
      rintro answer rfl
      cases recovered
    rw [run_interrupted interrupted goesOn, recovered]

theorem Turn.running (turn : Turn x x') (running : x.Running) : x'.Running := by
  have ends := ends_step running
  unfold Ends at ends
  cases turn with
  | completed completed =>
    rw [completed] at ends
    obtain ⟨s, atPc⟩ := ends
    exact ⟨s, atPc.withShortage none⟩
  | @recovered interrupt y _ interrupted recovered =>
    rw [interrupted] at ends
    have goesOn : ∀ answer, interrupt ≠ .done answer := by
      rintro answer rfl
      cases recovered
    have ends := ends_recover running ends goesOn
    unfold Ends at ends
    rw [recovered] at ends
    exact ends

theorem settles_giveUp {error : RunError} (abandonable : x.machine.Abandonable x.currentTask) :
    Settles (giveUp error) x fun x' => x'.machine.Idle := by
  have ends := @ends_abandon x (fun _ _ => False) abandonable
  unfold Settles giveUp
  unfold Ends at ends
  cases result : abandon x with
  | ok _ x' =>
    rw [result] at ends
    exact ends
  | error stop x' =>
    rw [result] at ends
    cases stop with
    | broken violation => exact ends
    | _ => exact ends.elim

theorem settles_run (budget : Nat) (running : x.Running) :
    Settles (run budget) x fun x' => x'.machine.Idle := by
  induction budget generalizing x with
  | zero => trivial
  | succ budget ih =>
    have ends := ends_step running
    unfold Ends at ends
    unfold Settles
    cases stepped : step x with
    | ok _ x' =>
      have turn := Turn.completed stepped
      rw [turn.run]
      exact ih (turn.running running)
    | error stop y =>
      rw [stepped] at ends
      cases stop with
      | broken violation =>
        simp only [run, stepped]
        exact ends
      | unfinished => exact ends.elim
      | raised interrupt =>
        by_cases isDone : ∃ answer, interrupt = .done answer
        · obtain ⟨answer, rfl⟩ := isDone
          simp only [run, stepped]
          exact ends
        have goesOn : ∀ answer, interrupt ≠ .done answer := fun answer same => isDone ⟨answer, same⟩
        have recovers := ends_recover running ends goesOn
        unfold Ends at recovers
        rw [run_interrupted stepped goesOn]
        cases recovered : (do recover x.pc interrupt; resume : Exec Unit) y with
        | ok _ x' => exact ih ((Turn.recovered stepped recovered).running running)
        | error stop x' =>
          rw [recovered] at recovers
          cases stop with
          | raised interrupt' =>
            obtain ⟨⟨error, rfl⟩, abandonable⟩ := recovers
            exact settles_giveUp abandonable
          | broken violation => exact recovers
          | unfinished => exact recovers.elim

end Exec

namespace Machine

variable {m : Machine} {lambda : Value}

theorem Idle.prepared {task stack : Value} {s : Stack} {entry : Array Value} (idle : m.Idle)
    (some : 1 ≤ entry.size)
    (prepared : m.store.heap.preparedStack task m.store.roots.emptyLambda entry = .ok (stack, s)) :
    (m.withHeap (m.store.heap.put stack s)).Idle := by
  obtain ⟨t, -, prepared⟩ := ok_of_bind prepared
  cases isRef : t.stack with
  | object r =>
    rw [isRef] at prepared
    obtain ⟨old, isStack, prepared⟩ := ok_of_bind prepared
    obtain ⟨_, laidOut, ⟨⟩⟩ := ok_of_bind prepared
    obtain ⟨evolves, sound, -⟩ := idle.store.heap.prepared
      (Heap.view?_eq_some.mp (Heap.cast_eq_ok.mp isStack)) idle.bottom some laidOut
    exact idle.withHeap evolves sound
  | int n =>
    rw [isRef] at prepared
    cases prepared
  | signal n =>
    rw [isRef] at prepared
    cases prepared

theorem ends_layOut {arguments : Array Value} (idle : m.Idle) :
    Ends (layOut lambda arguments) m (fun _ m' => m'.Idle) fun _ m' => m'.Idle := by
  unfold layOut
  rw [ends_bind, ends_rootAll, ends_bind, ends_ask, ends_bind]
  have makes : ∀ height s, Store.Keeps (fun _ => False) (Make.task height) s fun _ _ => True :=
    fun height s => (Make.keeps_task height).mono fun _ _ _ _ => trivial
  refine (ends_retrying_onStore (fun m => True) (idle.rooted _) trivial (fun _ _ _ _ _ => trivial)
    (fun _ _ _ _ _ => trivial) (makes _)).mono ?_ fun _ _ ⟨idle, _⟩ => idle
  rintro task m' ⟨idle, -⟩
  rw [ends_bind, ends_slots, ends_bind]
  refine ends_check (by simp) fun answer prepared => ?_
  obtain ⟨stack, s⟩ := answer
  have idle' := idle.prepared (by simp [freeSlots]) prepared
  rw [ends_bind, ends_modifyHeap, ends_bind, ends_root, ends_bind, ends_root, ends_bind, ends_ask]
  exact (idle'.push task).push task

theorem settles_runTask {budget rootTask currentTask : Nat} (idle : m.Idle) :
    Settles (runTask budget rootTask currentTask lambda) m Idle := by
  have ends := @Exec.ends_resume (m.entering rootTask currentTask lambda) _ (fun _ _ => False)
    (idle.resumable currentTask)
  unfold Settles
  unfold Ends at ends
  unfold runTask
  cases resumed : Exec.resume (m.entering rootTask currentTask lambda) with
  | error stop x =>
    rw [resumed] at ends
    cases stop with
    | broken violation => exact ends
    | raised cause => exact ends.elim
    | unfinished => exact ends.elim
  | ok _ x =>
    rw [resumed] at ends
    have settles := Exec.settles_run budget ends.1
    unfold Settles at settles
    simp only
    cases result : Exec.run budget x with
    | ok answer x' =>
      rw [result] at settles
      exact settles
    | error stop x' =>
      rw [result] at settles
      cases stop with
      | raised cause => exact settles
      | broken violation => exact settles
      | unfinished => trivial

theorem settles_inScope {work : Op RunError Value} (settles : Settles work m Idle) :
    Settles (inScope work) m Idle := by
  unfold Settles inScope
  unfold Settles at settles
  cases result : work m with
  | ok answer m' =>
    rw [result] at settles
    exact Idle.left settles _
  | error stop m' =>
    rw [result] at settles
    cases stop with
    | raised cause => exact Idle.left settles _
    | broken violation => exact settles
    | unfinished => trivial

/-- However a call ends, nothing runs any more. -/
theorem settles_call {budget : Nat} {arguments : Array Value} (idle : m.Idle) :
    Settles (call budget lambda arguments) m Idle := by
  unfold call
  refine settles_inScope (Ends.settles_bind ((ends_layOut idle).imp ?_))
  rintro ⟨rootTask, currentTask, bottom⟩ m' idle
  exact settles_runTask idle

end Machine

end ObjectMachine
