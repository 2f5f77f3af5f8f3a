/-
# ObjectMachine.Proofs.Switching -- frames that come and go

Parking leaves a stack that is at rest, from which resuming goes on where it was left. Entering a
lambda and leaving it keep the chain of frames, and so does every change of the task that runs.

* `Exec.ends_park`, `Exec.ends_resume` -- a parked call can be resumed.
* `Exec.ends_enter`, `Exec.ends_leave` -- one frame more, one frame less.
* `Exec.ends_switchTo`, `Exec.ends_finishTask` -- another task goes on.
-/
import Mathlib
import ObjectMachine.Proofs.Execution

namespace ObjectMachine

open ObjectMachine.Action (Ends bind_eq_of_ok ends_bind ends_lift_bind)
open ObjectMachine.Frame (lambdaWord linkWord pcWord reserved)

theorem HeightAt.pc_lt {units : Array UInt16} {fields : UInt16 → Option Nat} {maxHeight pc n : Nat}
    (path : HeightAt units fields pc n) (disciplined : Disciplined units fields maxHeight) :
    pc < Size.limit := by
  have short := disciplined.short
  cases path with
  | entry => decide
  | next _ found _ =>
    have := Instruction.add_size_le found
    omega
  | @jump _ _ _ target _ _ _ =>
    have := target.toNat_lt
    simp only [Size.limit]
    omega

theorem Size.ofInt_natCast {n : Nat} (small : n < limit) : ofInt n = n := by
  simp only [ofInt, limit] at *
  omega

namespace Heap

variable {h : Heap} {words : Array Slot} {link : Nat → Link} {limit frame above pc : Nat}

/-- The next instruction survives being written into a frame. -/
theorem Chain.ofInt_eq (chain : h.Chain words link limit frame above pc) (inCode : frame ≠ 0) :
    Size.ofInt pc = pc := by
  cases chain with
  | bottom => exact absurd rfl inCode
  | frame _ _ _ _ runs _ _ _ => exact Size.ofInt_natCast (runs.path.pc_lt runs.disciplined)

theorem Chain.counter (chain : h.Chain words link limit frame above pc) :
    h.Chain words link limit frame above (Size.ofInt pc) := by
  by_cases inCode : frame = 0
  · subst inCode
    cases chain with
    | bottom frameAt isLambda entry fits => exact .bottom frameAt isLambda entry fits
    | frame _ _ _ _ _ _ answer _ => omega
  · rwa [chain.ofInt_eq inCode]

theorem Chain.write (chain : h.Chain words link limit frame above pc) {offset : Nat}
    (operand : frame + 3 ≤ offset) (v : Value) :
    h.Chain (words.setIfInBounds offset (.value v)) link limit frame above pc := by
  cases chain with
  | bottom frameAt isLambda entry fits => exact .bottom (frameAt.write operand v) isLambda entry fits
  | frame frameAt base_ge base_le above_eq runs fits answer rest =>
    exact .frame (frameAt.write operand v) base_ge base_le above_eq runs fits answer
      (rest.congr fun i below => Array.getElem?_setIfInBounds_ne (by omega))

theorem put_put {α β : Type} [HeapKind α] [HeapKind β] (v : Value) (first : α) (second : β) :
    (h.put v first).put v second = h.put v second := by
  cases v with
  | object r =>
    simp only [put, adjust, Heap.mk.injEq, and_true]
    apply Array.ext_getElem?
    intro i
    simp only [Array.getElem?_modify]
    by_cases here : r.position = i <;> simp [here, Function.comp_def]
  | _ => rfl

end Heap

namespace Stack

variable {s : Stack} {frame pc : Nat} {link : Link} {lambda : Value}

theorem height_writeFrame : (s.writeFrame frame pc link lambda).height = s.height := by
  simp [writeFrame, setWord, height]

theorem getElem?_writeFrame_of_lt {i : Nat} (below : i < frame) :
    (s.writeFrame frame pc link lambda).words[i]? = s.words[i]? := by
  simp only [writeFrame, setWord, pcWord, linkWord, lambdaWord]
  rw [Array.getElem?_setIfInBounds_ne (by omega), Array.getElem?_setIfInBounds_ne (by omega),
    Array.getElem?_setIfInBounds_ne (by omega)]

theorem frameAt_writeFrame (room : frame + 3 ≤ s.words.size) :
    FrameAt (s.writeFrame frame pc link lambda).words link frame (frame + 3) lambda pc := by
  simp only [writeFrame, setWord, pcWord, linkWord, lambdaWord]
  refine ⟨?_, ?_, ?_, fun i low high => by omega, le_rfl⟩
  · rw [Array.getElem?_setIfInBounds_ne (by omega), Array.getElem?_setIfInBounds_ne (by omega)]
    exact Array.getElem?_setIfInBounds_self_of_lt (by omega)
  · rw [Array.getElem?_setIfInBounds_ne (by omega)]
    exact Array.getElem?_setIfInBounds_self_of_lt (by simp; omega)
  · exact Array.getElem?_setIfInBounds_self_of_lt (by simp; omega)

end Stack

namespace Execution

variable {x : Execution} {s s' : Stack} {pc least : Nat}

@[simp] theorem withStack_withStack : (x.withStack s).withStack s' = x.withStack s' := by
  simp only [withStack, withMachine, Machine.withHeap, Heap.put_put]

/-- The running stack once the call has been parked to go on at `pc`. -/
def parkedStack (x : Execution) (s : Stack) (pc : Nat) : Stack :=
  { s.writeFrame x.sp pc (.address x.stack x.fp) x.lambda with
    top := .address x.stack x.sp, status := .parked }

theorem height_parkedStack : (x.parkedStack s pc).height = s.height := Stack.height_writeFrame

/-- The lambda of the registers is that of the top frame. -/
theorem At.isLambda (atPc : x.At s pc) : x.heap.is Lambda x.lambda = true := by
  obtain ⟨_, v, _, frameAt, isLambda⟩ := atPc.chain.frameAt
  cases frameAt.lambda.symm.trans atPc.registered
  exact isLambda

/-- The bottom frame can be anywhere, and always holds the entry lambda. -/
theorem At.ofBottom (atPc : x.At s pc) (isBottom : x.fp = 0) (pc' : Nat) :
    x.At s pc' ∧ x.fp + 3 < x.sp := by
  obtain ⟨on, registered, chain⟩ := atPc
  rw [isBottom] at chain
  cases chain with
  | bottom frameAt isLambda entry fits =>
    refine ⟨⟨on, registered, ?_⟩, by omega⟩
    rw [isBottom]
    exact .bottom frameAt isLambda entry fits
  | frame _ _ _ _ _ _ answer _ => omega

/-- There is always room for one more frame header. -/
theorem At.room (atPc : x.At s pc) : x.sp + 3 ≤ s.words.size := by
  have := atPc.chain.above_le
  have := atPc.chain.room
  have := atPc.limit
  simp only [Stack.height, reserved, Frame.size] at this
  omega

theorem At.parkedAs (atPc : x.At s pc) (operands : x.fp + 3 + least ≤ x.sp) :
    (x.withStack (x.parkedStack s pc)).heap.ParkedAs x.stack (x.parkedStack s pc) least
      x.sp x.fp x.lambda pc := by
  have evolves := atPc.evolves (@height_parkedStack x s pc)
  refine ⟨rfl, atPc.mode, rfl, Stack.frameAt_writeFrame atPc.room,
    evolves.is_lambda atPc.isLambda, operands, ?_⟩
  rw [height_parkedStack, ← atPc.limit]
  exact (evolves.chain atPc.chain.counter).congr fun i low => Stack.getElem?_writeFrame_of_lt low

/-- The call has been parked: the stack that ran is at rest but for operands it may lack. -/
structure Suspended (x : Execution) (least : Nat) : Prop where
  sound : x.machine.Sound (· = x.stack)
  hosts : x.machine.Hosts x.currentTask x.stack
  parked : ∃ s, x.Stacked s ∧ x.machine.store.heap.Parked x.stack least s

theorem At.suspended (atPc : x.At s pc) (operands : x.fp + 3 + least ≤ x.sp) :
    (x.withStack (x.parkedStack s pc)).Suspended least where
  sound := atPc.sound.withHeap (atPc.evolves height_parkedStack)
    (atPc.sound.store.heap.put_stack atPc.found height_parkedStack rfl)
  hosts := atPc.hosts.evolve (atPc.evolves height_parkedStack) atPc.task_ne rfl
  parked := ⟨_, Heap.bodyOf?_put atPc.found _, _, _, _, _, atPc.parkedAs operands⟩

/-- With an operand to be answered into, nothing is left to do. -/
theorem Suspended.idle (suspended : x.Suspended 1) : x.machine.Idle := by
  obtain ⟨s, found, parked⟩ := suspended.parked
  refine suspended.sound.settle fun r s' isHome _ found' => ?_
  subst isHome
  cases found.symm.trans found'
  exact .inr parked

theorem Suspended.waits (suspended : x.Suspended least) : x.machine.Waits x.currentTask least := by
  obtain ⟨s, found, parked⟩ := suspended.parked
  exact ⟨x.stack, s, suspended.hosts, found, parked⟩

theorem found_withStack (found : x.Stacked s)
    (s' : Stack) : (x.withStack s').heap.bodyOf? (.object (x.withStack s').stack) =
      some (.stack s') := Heap.bodyOf?_put found s'

end Execution

namespace Exec

open Execution (At Suspended)

variable {x : Execution} {s : Stack} {pc least : Nat} {done : Unit → Execution → Prop}
  {raised : Interrupt → Execution → Prop}

/-- A frame header is written word by word. -/
theorem writeFrame_bind {α : Type} (found : x.Stacked s) {frame : Nat} {link : Link} {lambda : Value}
    {next : Exec α} : (do
      write (frame + pcWord) (.value (.ofNat pc))
      write (frame + linkWord) (.link link)
      write (frame + lambdaWord) (.value lambda)
      next) x = next (x.withStack (s.writeFrame frame pc link lambda)) := by
  rw [bind_eq_of_ok (write_eq found _ _), bind_eq_of_ok (write_eq (Execution.found_withStack found _) _ _),
    Execution.withStack_withStack, bind_eq_of_ok (write_eq (Execution.found_withStack found _) _ _),
    Execution.withStack_withStack]
  rfl

theorem park_eq (found : x.Stacked s) (fits : x.sp ≤ x.limit) (mode : s.mode = .linked) :
    park pc x = .ok () (x.withStack (x.parkedStack s pc)) := by
  have isStack : check runningStack x = .ok s x := by
    rw [check, runningStack, Heap.cast_eq_ok.mpr (Heap.view?_eq_some.mpr found)]
  refine (bind_eq_of_ok rfl).trans ((bind_eq_of_ok rfl).trans ((bind_eq_of_ok isStack).trans ?_))
  rw [if_neg (by omega), if_neg (by simp [mode]), writeFrame_bind found]
  refine (adjustStack_eq (Execution.found_withStack found _) _).trans ?_
  rw [Execution.withStack_withStack]
  rfl

theorem ends_park (atPc : x.At s pc) (holds : done () (x.withStack (x.parkedStack s pc))) :
    Ends (park pc) x done raised := by
  rw [Ends, park_eq atPc.found (by have := atPc.chain.above_le; omega) atPc.mode]
  exact holds

end Exec

/-- Whatever is parked in the task of a slot can be resumed, with at least `least` operands. -/
def Machine.Resumable (m : Machine) (index least : Nat) : Prop :=
  ∀ home s, m.Hosts index home → m.store.heap.bodyOf? (.object home) = some (.stack s) →
    s.status = .parked → m.Sound (· = home) ∧ m.store.heap.Parked home least s

theorem Machine.Idle.resumable {m : Machine} (idle : m.Idle) (index : Nat) :
    m.Resumable index 1 := by
  intro home s _ found isParked
  obtain ⟨_, o, ⟨⟩, isObject, isStack⟩ := Heap.bodyOf?_eq_some.mp found
  refine ⟨Sound.mono idle fun _ absurd => absurd.elim, ?_⟩
  obtain empty | parked := (idle.store.heap.objects home o isObject).stack s isStack id
  · rw [isParked] at empty
    cases empty
  · exact parked

theorem Machine.Hosts.unique {m : Machine} {index : Nat} {home home' : Ref}
    (hosts : m.Hosts index home) (hosts' : m.Hosts index home') : home = home' := by
  obtain ⟨task, t, inSlot, isTask, isStack⟩ := hosts
  obtain ⟨task', t', inSlot', isTask', isStack'⟩ := hosts'
  cases inSlot.symm.trans inSlot'
  cases isTask.symm.trans isTask'
  cases isStack.symm.trans isStack'
  rfl

theorem Heap.parkedStack_ok {h : Heap} {task : Value} {home : Ref} {s : Stack} (done : (do
      let t ← h.cast Task task
      let parked ← h.cast Stack t.stack
      match t.stack with
      | .object ref => pure (ref, parked)
      | v => throw (.castFailed (some .stack) v)) = Except.ok (home, s)) :
    ∃ t, h.view? Task task = some t ∧ t.stack = .object home ∧ h.bodyOf? (.object home) = some (.stack s) := by
  obtain ⟨t, isTask, done⟩ := ok_of_bind done
  obtain ⟨s', isStack, done⟩ := ok_of_bind done
  split at done
  · rename_i isHome
    cases done
    exact ⟨t, cast_eq_ok.mp isTask, isHome, isHome ▸ view?_eq_some.mp (cast_eq_ok.mp isStack)⟩
  · cases done

theorem Machine.hosts_of_task {m : Machine} {index : Nat}
    {home : Ref} {t : Task} (isTask : m.store.heap.view? Task (m.references.slot index) = some t)
    (isHome : t.stack = .object home) : m.Hosts index home := by
  obtain ⟨task, o, inSlot, -⟩ := Heap.view?_iff.mp isTask
  exact ⟨task, t, inSlot, inSlot ▸ isTask, isHome⟩

theorem Machine.resumable_of_hosts {m : Machine} {index least : Nat} {home : Ref} {s : Stack}
    (sound : m.Sound (· = home)) (hosts : m.Hosts index home)
    (found : m.store.heap.bodyOf? (.object home) = some (.stack s))
    (parked : m.store.heap.Parked home least s) : m.Resumable index least := by
  intro home' s' hosts' found' _
  cases hosts.unique hosts'
  cases found.symm.trans found'
  exact ⟨sound, parked⟩

namespace Exec

variable {x : Execution} {least : Nat} {raised : Interrupt → Execution → Prop}

section Reading

variable {s : Stack} {offset : Nat}

theorem valueAt_of_value {v : Value} (found : s.words[offset]? = some (.value v)) :
    s.valueAt offset = .ok v := by
  simp [Stack.valueAt, found, Slot.asValue?]

theorem countAt_of_int {n : Int} (found : s.words[offset]? = some (.value (.int n))) :
    countAt s offset = .ok (Size.ofInt n) := by
  simp [countAt, valueAt_of_value found, bind, Except.bind, pure, Except.pure]

theorem placeAt_of_address {home : Ref} {target : Nat}
    (found : s.words[offset]? = some (.link (.address home target))) :
    Stack.placeAt s.words home offset = .ok (.inside target) := by
  simp [Stack.placeAt, found, Slot.place]

end Reading

/-- The stack that a parked call is read back from. -/
theorem Running.ofParked {least top fp : Nat} {home : Ref} {s : Stack} {v : Value} {counter : Int}
    (sound : x.machine.Sound (· = home)) (hosts : x.machine.Hosts x.currentTask home)
    (found : x.heap.bodyOf? (.object home) = some (.stack s))
    (parked : x.heap.ParkedAs home s least top fp v counter) {lambda : Value}
    (isLambda : s.words[fp + 2]? = some (.value lambda)) : Execution.Running (Execution.withStack { x with
      stack := home, limit := s.height - reserved * Frame.size, fp, sp := top,
      pc := Size.ofInt counter, lambda } { s with status := .running }) := by
  have height : ({ s with status := .running } : Stack).height = s.height := rfl
  have evolves := Heap.put_stack_evolves found height
  refine ⟨{ s with status := .running }, ⟨?_, ?_, Heap.bodyOf?_put found _, rfl, parked.mode, rfl⟩,
    isLambda, evolves.chain parked.chain⟩
  · exact sound.withHeap evolves (sound.store.heap.put_stack found height rfl)
  · refine hosts.evolve evolves (fun r t isTask => ?_) rfl
    rintro rfl
    cases found.symm.trans (Heap.view?_eq_some.mp isTask)

/-- The task of the slot is resumed where it was parked. -/
theorem ends_resume (resumable : x.machine.Resumable x.currentTask least) :
    Ends resume x (fun _ x' => x'.Running ∧ x'.fp + 3 + least ≤ x'.sp) raised := by
  unfold resume currentTask
  rw [ends_bind, ends_ask]
  refine ends_check_bind ?_ fun ⟨home, s⟩ isAnswer => ?_
  · simp only [Calm.bind_iff]
    refine ⟨by simp, fun t _ => ⟨by simp, fun parked _ => ?_⟩⟩
    cases t.stack <;> simp
  obtain ⟨t, isTask, isHome, found⟩ := Heap.parkedStack_ok isAnswer
  have hosts := Machine.hosts_of_task isTask isHome
  dsimp only
  split
  · rfl
  rename_i isParked
  obtain ⟨sound, top, fp, v, counter, parked⟩ := resumable home s hosts found (not_not.mp isParked)
  rw [if_neg (by simp [parked.mode])]
  refine ends_lift_bind (by simp) fun sp isSp => ?_
  obtain rfl : top = sp := by
    rw [parked.top_eq] at isSp
    simpa [Slot.place, offsetOf] using isSp
  refine ends_lift_bind (by simp) fun pc isPc => ?_
  cases (@countAt_of_int _ (top + pcWord) _ parked.parking.counter).symm.trans isPc
  refine ends_lift_bind (by simp) fun place isPlace => ?_
  cases (@placeAt_of_address _ (top + linkWord) _ _ parked.parking.linked).symm.trans isPlace
  refine ends_lift_bind (by simp) fun fp' isFp => ?_
  cases isFp
  refine ends_check_bind (by simp) fun lambda isLambda => ?_
  have registered : s.words[fp + 2]? = some (.value lambda) := by
    obtain ⟨_, _, _, frameAt, -⟩ := parked.chain.frameAt
    obtain ⟨v', isValue, isLambda⟩ := ok_of_bind isLambda
    obtain ⟨_, -, isLambda⟩ := ok_of_bind isLambda
    cases isLambda
    cases (@valueAt_of_value _ (fp + lambdaWord) _ frameAt.lambda).symm.trans isValue
    exact frameAt.lambda
  refine Action.ends_bind_modify.mpr ?_
  refine (ends_adjustStack (x := { x with
    stack := home, limit := s.height - reserved * Frame.size, fp, sp := top,
    pc := Size.ofInt counter, lambda }) found).mpr ?_
  exact ⟨Running.ofParked sound hosts found parked registered, parked.operands⟩

end Exec

namespace Execution

variable {x : Execution} {s s' : Stack} {pc base : Nat} {v : Value} {l : Lambda} {c : Code}

theorem On.lambdaSound (on : x.On s) (isLambda : x.heap.view? Lambda v = some l) :
    x.heap.LambdaSound l := by
  obtain ⟨r, o, rfl, isObject, isBody⟩ := Heap.view?_iff.mp isLambda
  exact (on.sound.store.heap.objects r o isObject).lambda l isBody

/-- One frame more: its header, and a keymap if there is one, have been written above the
operands. -/
theorem At.enter (atPc : x.At s pc) (operand : x.fp + 3 < x.sp) (isLambda : x.heap.view? Lambda v = some l)
    (isCode : x.heap.view? Code l.code = some c)
    (height : s'.height = s.height) (status : s'.status = .running) (mode : s'.mode = .linked)
    (same : ∀ i, i < x.sp → s'.words[i]? = s.words[i]?)
    (frameAt : Stack.FrameAt s'.words (.address x.stack x.fp) x.sp base v pc)
    (base_le : base ≤ x.sp + 4) (fits : base + l.maxHeight ≤ x.limit) :
    Running { x.withStack s' with fp := x.sp, sp := base, pc := 0, lambda := v } := by
  have evolves := atPc.evolves height
  have runs : x.heap.Runs v l c 0 0 :=
    ⟨isLambda, isCode, (atPc.lambdaSound isLambda).disciplined c isCode, .entry⟩
  obtain ⟨l', runs', declared⟩ := evolves.runs runs
  refine ⟨s', { atPc.toOn.withStack height status mode with }, frameAt.lambda, ?_⟩
  exact .frame frameAt frameAt.room base_le (Nat.add_zero _).symm runs' (declared ▸ fits) operand
    ((evolves.chain atPc.chain.counter).congr same)

end Execution

namespace Exec

variable {x : Execution} {s : Stack} {pc argc : Nat} {v : Value} {l : Lambda} {keymap : Option Value}

/-- Entering a lambda, or asking for what it takes to enter it. -/
theorem ends_enter (atPc : x.At s pc) (operand : x.fp + 3 < x.sp)
    (isLambda : x.heap.view? Lambda v = some l) :
    Ends (enter v l argc keymap pc) x (fun _ x' => x'.Running) x.Interrupted := by
  unfold enter
  rw [ends_bind, askStore, ends_ask]
  split
  · rename_i noCode
    exact ⟨.refl atPc.toOn, operand, l, isLambda, by simpa [Machine.isCompiled] using noCode⟩
  rename_i isCode
  obtain ⟨c, isCode⟩ : ∃ c, x.heap.view? Code l.code = some c := by
    rw [← Heap.is_iff]
    simpa [Machine.isCompiled] using isCode
  split
  · exact atPc.abandonable
  rw [ends_bind, ends_ask]
  dsimp only
  refine ends_check_bind (by simp) fun reach isReach => ?_
  obtain ⟨inner, isInner, isReach⟩ := ok_of_bind isReach
  have isReach := Size.add_ok isReach
  have isInner := Size.add_ok isInner
  split
  · exact ends_check_bind (by simp) fun height _ => ⟨.refl atPc.toOn, operand⟩
  rename_i fits
  rw [ends_bind, ends_ask, Ends, writeFrame_bind atPc.found]
  refine Action.ends_bind_modify.mpr ?_
  -- the header is above everything that was there
  have frameAt : Stack.FrameAt (s.writeFrame x.sp pc (.address x.stack x.fp) v).words
    (.address x.stack x.fp) x.sp (x.sp + 3) v pc := Stack.frameAt_writeFrame atPc.room
  have low : ∀ i, i < x.sp → (s.writeFrame x.sp pc (.address x.stack x.fp) v).words[i]? = s.words[i]? :=
    fun _ => Stack.getElem?_writeFrame_of_lt
  have height : (s.writeFrame x.sp pc (.address x.stack x.fp) v).height = s.height := Stack.height_writeFrame
  have status : (s.writeFrame x.sp pc (.address x.stack x.fp) v).status = .running := atPc.status
  have mode : (s.writeFrame x.sp pc (.address x.stack x.fp) v).mode = .linked := atPc.mode
  generalize s.writeFrame x.sp pc (.address x.stack x.fp) v = written at *
  cases keymap with
  | none =>
    simp only [Option.isSome_none, Bool.false_eq_true, if_false, Frame.size] at isInner
    have running := atPc.enter operand isLambda isCode height status mode low frameAt (by omega) (by omega)
    exact running
  | some keys =>
    simp only [Option.isSome_some, if_true, Frame.size] at isInner
    have inside : x.sp + 3 < written.words.size := by
      have := atPc.limit_le
      simp only [Stack.height] at height
      omega
    have height' : (written.setWord (x.sp + 3) (.value keys)).height = s.height := by
      simpa [Stack.height, Stack.setWord] using height
    refine ends_push (s := written) ?_ ?_
    · exact Execution.found_withStack atPc.found written
    have running := atPc.enter operand isLambda isCode height' status mode
      (fun i below => (Array.getElem?_setIfInBounds_ne (by omega)).trans (low i below))
      (frameAt.push keys inside) le_rfl (by omega)
    rw [← Execution.withStack_withStack (s := written)] at running
    exact running

end Exec

namespace Execution

variable {x : Execution} {s s' : Stack} {a : Activation} {pc n : Nat} {v : Value}

theorem At.write (atPc : x.At s pc) {offset : Nat} (above : x.fp + 3 ≤ offset) (v : Value) :
    (x.withStack (s.setWord offset (.value v))).At (s.setWord offset (.value v)) pc := by
  have height : (s.setWord offset (.value v)).height = s.height := by
    simp [Stack.height, Stack.setWord]
  refine ⟨atPc.toOn.withStack height atPc.status atPc.mode, ?_,
    (atPc.evolves height).chain (atPc.chain.write above v)⟩
  refine Eq.trans (Array.getElem?_setIfInBounds_ne ?_) atPc.registered
  change offset ≠ x.fp + 2
  omega

/-- Once the stack that ran has nothing to run any more, nothing runs. -/
theorem On.idle_emptied (on : x.On s) : (x.withStack { s with status := .empty }).machine.Idle := by
  have height : ({ s with status := .empty } : Stack).height = s.height := rfl
  have sound := on.sound.withHeap (on.evolves height) (on.sound.store.heap.put_stack on.found height rfl)
  refine sound.settle fun r s' isHome _ found => ?_
  subst isHome
  cases (found_withStack on.found _).symm.trans found
  exact .inl rfl

theorem Frame.withStack (frame : x.Frame s a n) (words : s'.words = s.words)
    (status : s'.status = .running) (mode : s'.mode = .linked) : (x.withStack s').Frame s' a n := by
  have height : s'.height = s.height := by simp [Stack.height, words]
  have evolves := frame.toOn.evolves height
  exact { frame with
    toOn := frame.toOn.withStack height status mode
    frameAt := by rw [words]; exact frame.frameAt
    records := frame.records.evolve evolves
    rest := by rw [words]; exact evolves.chain frame.rest }

end Execution

namespace Exec

open Execution (On At)

variable {x : Execution} {s : Stack} {a : Activation} {pc n : Nat} {raised : Interrupt → Execution → Prop}

/-- Any task may be the next to run on an idle machine. -/
theorem ends_setCurrentTask {task : Value} (idle : x.machine.Idle) :
    Ends (setCurrentTask task) x (fun _ x' => x'.machine.Idle) raised := by
  unfold setCurrentTask
  rw [ends_bind, ends_ask, ends_onMachine, Machine.setSlot, Machine.ends_modifyReferences]
  exact idle.withReferences rfl rfl idle.registered

theorem ends_switchTo {task : Value} (atPc : x.At s pc) (operand : x.fp + 3 < x.sp) :
    Ends (switchTo task pc) x (fun _ x' => x'.Running ∧ x'.fp + 3 < x'.sp) raised := by
  unfold switchTo
  rw [ends_bind]
  refine ends_park atPc ?_
  have suspended : (x.withStack (x.parkedStack s pc)).Suspended 1 := atPc.suspended operand
  have idle := suspended.idle
  rw [ends_bind, ends_report, ends_bind]
  refine (ends_setCurrentTask ?_).imp fun _ x' idle => ?_
  · exact idle.withLog _
  · exact ends_resume (idle.resumable _)

/-- The task that has finished leaves nothing that runs, and its caller goes on with the answer. -/
theorem ends_finishTask {answer : Value} (on : x.On s) :
    Ends (finishTask answer) x (fun _ x' => x'.Running) fun interrupt x' =>
      (∃ v, interrupt = .done v) ∧ x'.machine.Idle := by
  unfold finishTask
  rw [ends_bind, ends_ask, ends_bind]
  refine (ends_adjustStack on.found).mpr ?_
  have idle : (x.withStack { s with status := .empty }).machine.Idle := on.idle_emptied
  generalize x.withStack { s with status := .empty } = y at *
  rw [ends_bind, currentTask, ends_ask]
  refine ends_check_bind (by simp) fun t isTask => ?_
  rw [ends_bind, ends_ask]
  split
  · exact ⟨⟨answer, rfl⟩, idle⟩
  rw [ends_bind, askStore, ends_ask]
  split
  · rfl
  rename_i caller _
  rw [ends_bind, askStore, ends_ask, ends_bind, ends_modifyHeap]
  have grown := Machine.Grown.putCaller idle.store (.object y.machine.store.roots.null)
    (Heap.cast_eq_ok.mp isTask)
  rw [ends_bind, ends_report, ends_bind]
  refine (ends_setCurrentTask ?_).imp fun _ y' idle => ?_
  · exact (idle.grown grown).withLog _
  refine (ends_resume (idle.resumable _)).bind ?_
  rintro - z ⟨⟨s', atPc⟩, operand⟩
  exact ends_setPeek atPc.toOn ⟨_, atPc.write (show z.fp + 3 ≤ z.sp - 1 by omega) answer⟩

theorem ends_setMarker {marker : Option Nat} {done : Unit → Execution → Prop} (on : x.On s)
    (holds : done () (x.withStack { s with marker })) : Ends (setMarker marker) x done raised := by
  unfold setMarker
  rw [ends_bind, ends_ask]
  exact (ends_adjustStack on.found).mpr holds

/-- The frame below goes on with an answer on top of its operands, or its task has finished. -/
theorem ends_return {answer : Value} {read : Stack}
    (frame : x.Frame s a n) (words : read.words = s.words) :
    Ends (returnTo finishTask answer read a.below x.fp (Size.ofInt a.counter)) x (fun _ x' =>
      x'.Running) fun interrupt x' => (∃ v, interrupt = .done v) ∧ x'.machine.Idle := by
  unfold returnTo
  split
  · exact ends_finishTask frame.toOn
  refine ends_check_bind (by simp) fun lambda isLambda => ?_
  obtain ⟨_, _, _, frameAt, -⟩ := frame.rest.frameAt
  have registered : s.words[a.below + 2]? = some (.value lambda) := by
    obtain ⟨v, isValue, isLambda⟩ := ok_of_bind isLambda
    obtain ⟨_, -, isLambda⟩ := ok_of_bind isLambda
    cases isLambda
    have found := frameAt.lambda
    rw [← words] at found
    cases (@valueAt_of_value _ (a.below + lambdaWord) _ found).symm.trans isValue
    exact frameAt.lambda
  have atPc : Execution.At { x with fp := a.below, sp := x.fp, pc := Size.ofInt a.counter, lambda } s
      (Size.ofInt a.counter) := ⟨{ frame.toOn with }, registered, frame.rest⟩
  refine Action.ends_bind_modify.mpr ?_
  refine ends_setPeek atPc.toOn ⟨_, atPc.write ?_ answer⟩
  have := frame.answer
  change a.below + 3 ≤ x.fp - 1
  omega

/-- What is left of a frame when it is left: its caller, which finds the answer on top. -/
theorem ends_leave (frame : x.Frame s a n) (operand : 1 ≤ n) :
    Ends leave x (fun _ x' => x'.Running) x.Interrupted := by
  unfold leave leaveWith
  rw [ends_bind]
  refine ends_pop fun answer => ?_
  have frame := frame.drop operand
  generalize x.dropped 1 = y at *
  rw [ends_bind, ends_ask]
  dsimp only
  refine ends_check_bind (by simp) fun s' isStack => ?_
  cases frame.found.symm.trans (Heap.view?_eq_some.mp (Heap.cast_eq_ok.mp isStack))
  refine ends_lift_bind (by simp) fun pc isPc => ?_
  cases (@countAt_of_int _ (y.fp + pcWord) _ frame.frameAt.counter).symm.trans isPc
  refine ends_lift_bind (by simp) fun place isPlace => ?_
  cases (@placeAt_of_address _ (y.fp + linkWord) _ _ frame.frameAt.linked).symm.trans isPlace
  refine ends_lift_bind (by simp) fun below isBelow => ?_
  cases isBelow
  refine ends_lift_bind (by simp) fun marker _ => ?_
  have done : ∀ interrupt x', (∃ v, interrupt = .done v) ∧ Machine.Idle (Execution.machine x') →
      x.Interrupted interrupt x' := by
    rintro _ x' ⟨⟨v, rfl⟩, idle⟩
    exact idle
  split
  · rw [ends_bind]
    refine ends_setMarker frame.toOn ?_
    have marked := @Execution.Frame.withStack _ _ { s with marker } _ _ frame rfl frame.status frame.mode
    exact (@ends_return _ _ _ _ _ s marked rfl).mono (fun _ _ running => running) done
  · exact (ends_return frame rfl).mono (fun _ _ running => running) done

end Exec

namespace Stack

variable {s s' : Stack} {home : Ref} {bottom : Value} {entry : Array Value}

theorem getElem?_writeEntry (values : List Value)
    (s : Stack) (start i : Nat) (room : start + values.length ≤ s.words.size) :
    (values.foldl (fun (acc : Stack × Nat) v => (acc.1.setWord acc.2 (.value v), acc.2 + 1))
      (s, start)).1.words[i]? = if start ≤ i ∧
      i < start + values.length then values[i - start]?.map Slot.value else s.words[i]? := by
  induction values generalizing s start with
  | nil =>
    rw [if_neg (by simp)]
    rfl
  | cons v values ih =>
    rw [List.foldl_cons, ih _ _ (by simp [setWord] at room ⊢; omega)]
    simp only [List.length_cons] at room ⊢
    by_cases here : i = start
    · subst here
      rw [if_neg (by omega), if_pos (by omega)]
      simpa [setWord] using Array.getElem?_setIfInBounds_self_of_lt (by omega)
    · by_cases inside : start + 1 ≤ i ∧ i < start + 1 + values.length
      · rw [if_pos inside, if_pos (by omega)]
        obtain ⟨k, rfl⟩ : ∃ k, i = start + 1 + k := ⟨i - (start + 1), by omega⟩
        rw [show start + 1 + k - start = k + 1 by omega, Nat.add_sub_cancel_left]
        rfl
      · rw [if_neg inside, if_neg (by omega)]
        exact Array.getElem?_setIfInBounds_ne (by omega)

theorem writeEntry_eq (values : List Value) (s : Stack) (start : Nat) :
    ∃ words : Array Slot, words.size = s.words.size ∧
      (values.foldl (fun (acc : Stack × Nat) v => (acc.1.setWord acc.2 (.value v), acc.2 + 1))
        (s, start)).1 = { s with words } := by
  induction values generalizing s start with
  | nil => exact ⟨s.words, rfl, rfl⟩
  | cons v values ih =>
    obtain ⟨words, size, same⟩ := ih (s.setWord start (.value v)) (start + 1)
    exact ⟨words, by simpa [setWord] using size, same⟩

/-- The entry values are the operands of the bottom frame. -/
theorem frameAt_writeEntry (values : List Value) {lambda : Value} {counter : Int} {link : Link}
    (frameAt : FrameAt s.words link 0 3 lambda counter) (room : 3 + values.length ≤ s.words.size) :
    ∃ words : Array Slot, words.size = s.words.size ∧
      (values.foldl (fun (acc : Stack × Nat) v => (acc.1.setWord acc.2 (.value v), acc.2 + 1))
        (s, Frame.size)).1 = { s with words } ∧
      FrameAt words link 0 (3 + values.length) lambda counter := by
  obtain ⟨words, size, isWords⟩ := writeEntry_eq values s 3
  have entries := fun i => getElem?_writeEntry values s 3 i room
  rw [isWords] at entries
  have header : ∀ i, i < 3 → words[i]? = s.words[i]? := fun i low => by
    rw [entries, if_neg (by omega)]
  refine ⟨words, size, isWords, (header _ (by omega)).trans frameAt.counter,
    (header _ (by omega)).trans frameAt.linked, (header _ (by omega)).trans frameAt.lambda, ?_,
    by omega⟩
  intro i low high
  refine ⟨values[i - 3], ?_⟩
  rw [entries, if_pos (by omega), List.getElem?_eq_getElem]
  rfl

/-- A stack that has not started is parked in its bottom frame, with its entry values as
operands. -/
theorem parked_of_prepare {h : Heap} (isLambda : h.is Lambda bottom = true)
    (some : 1 ≤ entry.size) (prepared : s.prepare home bottom entry = .ok s') :
    h.Parked home 1 s' ∧ s'.height = s.height := by
  unfold prepare at prepared
  split at prepared
  · cases prepared
  rename_i room
  simp only [height, entryRoom, reserved, Frame.size, not_lt] at room
  split at prepared
  · cases prepared
  rename_i linked
  have bottomAt : FrameAt (s.writeFrame 0 0 .bottom bottom).words .bottom 0 3 bottom 0 :=
    frameAt_writeFrame (by omega)
  have size₁ : (s.writeFrame 0 0 .bottom bottom).words.size = s.words.size := height_writeFrame
  obtain ⟨words, size, isWords, entryAt⟩ := frameAt_writeEntry entry.toList bottomAt
    (by rw [size₁]; simp; omega)
  simp only [← Array.foldl_toList, isWords] at prepared
  cases prepared
  simp only [Array.length_toList] at entryAt
  -- above the entry values comes the frame that is parked
  generalize isEntered : ({ s.writeFrame 0 0 .bottom bottom with words } : Stack) = entered
  have isWords : entered.words = words := by rw [← isEntered]
  have mode : entered.mode = .linked := by rw [← isEntered]; exact not_not.mp linked
  have parking : FrameAt (entered.writeFrame (3 + entry.size) 0 (.address home 0) bottom).words
      (.address home 0) (3 + entry.size) (3 + entry.size + 3) bottom 0 :=
    frameAt_writeFrame (by rw [isWords]; omega)
  have height : (entered.writeFrame (3 + entry.size) 0 (.address home 0) bottom).height = s.height :=
    height_writeFrame.trans (by rw [Stack.height, isWords, size, size₁]; rfl)
  refine ⟨⟨3 + entry.size, 0, bottom, 0, rfl, mode, rfl, parking, isLambda, by omega, ?_⟩, height⟩
  have frameAt := entryAt.congr fun i _ low =>
    (getElem?_writeFrame_of_lt low : (entered.writeFrame (3 + entry.size) 0 (.address home 0)
      bottom).words[i]? = entered.words[i]?).trans (by rw [isWords])
  refine .bottom frameAt isLambda (by omega) ?_
  refine le_of_le_of_eq ?_ (congrArg (· - reserved * Frame.size) height.symm)
  simp only [Stack.height, reserved, Frame.size]
  omega

end Stack

section Prepared

variable {m m' : Machine} {busy : Ref → Prop} {r : Ref} {s s' : Stack} {bottom : Value} {entry : Array Value}

/-- Any stack may be laid out to start. -/
theorem Heap.Sound.prepared {h : Heap} (sound : h.Sound busy)
    (found : h.bodyOf? (.object r) = some (.stack s)) (isLambda : h.is Lambda bottom = true)
    (some : 1 ≤ entry.size) (prepared : s.prepare r bottom entry = .ok s') :
    h.Evolves (· = r) (h.put (.object r) s') ∧ (h.put (.object r) s').Sound busy ∧
      (h.put (.object r) s').Parked r 1 s' := by
  obtain ⟨-, height⟩ := Stack.parked_of_prepare isLambda some prepared
  have evolves := Heap.put_stack_evolves found height
  obtain ⟨parked, -⟩ := Stack.parked_of_prepare (evolves.is_lambda isLambda) some prepared
  have loose : (h.put (.object r) s').Sound fun q => busy q ∨ q = r :=
    Heap.Sound.put_stack (sound.mono fun _ => Or.inl) found height (.inr rfl)
  refine ⟨evolves, loose.settle fun q st isBusy idle isStack => ?_, parked⟩
  obtain rfl := isBusy.resolve_left idle
  cases (Heap.bodyOf?_put found s').symm.trans isStack
  exact .inr parked

/-- A stack that has just been made may be laid out to start. -/
theorem Machine.Grown.prepared (grown : m.Grown busy m') (absent : m.store.heap.object? r = none)
    (found : m'.store.heap.bodyOf? (.object r) = some (.stack s))
    (isLambda : m'.store.heap.is Lambda bottom = true) (some : 1 ≤ entry.size)
    (prepared : s.prepare r bottom entry = .ok s') :
    m.Grown busy (m'.withHeap (m'.store.heap.put (.object r) s')) := by
  obtain ⟨evolves, sound, -⟩ := grown.store.sound.heap.prepared found isLambda some prepared
  refine ⟨⟨grown.store.evolves.trans_fresh evolves ?_, grown.store.roots, sound, ?_⟩,
    grown.references, grown.settings, grown.compiler⟩
  · rintro _ rfl
    exact absent
  · intro kind
    obtain ⟨l, isLayout, isKind⟩ := grown.store.sound.layouts kind
    obtain ⟨l', isLayout', kind', -⟩ := evolves.view_layout isLayout
    exact ⟨l', isLayout', kind'.trans isKind⟩

end Prepared

end ObjectMachine
