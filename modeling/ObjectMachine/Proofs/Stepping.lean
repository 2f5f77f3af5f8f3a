/-
# ObjectMachine.Proofs.Stepping -- what instructions do, exactly

Where the invariant of calls says that a call can go on, this says where it goes: the words that are
written when an operand is pushed, a lambda entered or a frame left, and the registers afterwards.

* `Exec.step_eq` -- a step is the instruction at the program counter.
* `Exec.enter_ok` -- a frame more.
* `Exec.leaveWith_eq` -- a frame less.
-/
import Mathlib
import ObjectMachine.Proofs.Handovers
import ObjectMachine.Proofs.Pictures

namespace ObjectMachine

open ObjectMachine.Action (bind_eq_of_ok bind_ok)
open Execution (found_withStack withStack_withStack)
open Instruction (decodeAt)

namespace Execution

variable {x : Execution} {s : Stack}

theorem withStack_self (found : x.Stacked s) : x.withStack s = x := by
  have same : x.heap.put (.object x.stack) s = x.heap := Heap.put_self found
  rw [withStack, Machine.withHeap, same]
  rfl

/-- A frame more: its header lies on the operands of the one below. -/
structure Entered (x : Execution) (s s' : Stack) (v : Value) (pc base : Nat) : Prop where
  height : s'.height = s.height
  status : s'.status = s.status
  marker : s'.marker = s.marker
  below : ∀ i < x.sp, s'.words[i]? = s.words[i]?
  frameAt : Stack.FrameAt s'.words (.address x.stack x.fp) x.sp base v pc

/-- The call in a frame that it has entered. -/
def inFrame (x : Execution) (s' : Stack) (v : Value) (base : Nat) : Execution :=
  { x.withStack s' with fp := x.sp, sp := base, pc := 0, lambda := v }

/-- The call while it carries out the instruction at the program counter. -/
def fetched (x : Execution) (i : Instruction) : Execution :=
  { x.withMachine { x.machine with
      log := x.machine.log.add .trace fun _ => Exec.padded x.pc ++ ": " ++ i.text } with
    pc := x.pc + i.size }

theorem Frame.fetch {a : Activation} {n : Nat} {i : Instruction} (frame : x.Frame s a n)
    (path : HeightAt a.units a.fields x.pc n) (decoded : decodeAt a.units x.pc = .ok i) :
    (x.fetched i).Executing s a n x.pc i := by
  have grown : x.machine.Grown (· = x.stack) (x.fetched i).machine := ⟨.refl frame.sound.store, rfl, rfl, rfl⟩
  exact ⟨(frame.grown grown).withPc _, path, decoded, rfl⟩

/-- The call in the frame below, with the answer of the one that it has left on top. -/
def inCaller (x : Execution) (s : Stack) (a : Activation) (marker : Option Nat)
    (answer lambda : Value) : Execution :=
  { x.withStack (({ s with marker } : Stack).setWord (x.fp - 1) (.value answer)) with
    fp := a.below, sp := x.fp, pc := Size.ofInt a.counter, lambda }

end Execution

namespace Exec

open Execution (Entered)

variable {x x' : Execution} {pc argc : Nat} {s : Stack} {v : Value} {l : Lambda} {keymap : Option Value}

theorem push_ok (found : x.Stacked s) (done : push v x = .ok () x') : x' = x.pushed s v := by
  unfold push at done
  split at done
  · cases done
  · obtain ⟨sp, _, ⟨⟩, done₁⟩ := bind_ok done
    rw [bind_eq_of_ok (write_eq found _ _)] at done₁
    cases done₁
    rfl

/-- Entering a lambda puts a header on the operands, and a keymap behind it. -/
theorem enter_ok (on : x.On s) (done : enter v l argc keymap pc x = .ok () x') :
    ∃ s', x.Entered s s' v pc (x.sp + 3 + if keymap.isSome then 1 else 0) ∧
      x' = x.inFrame s' v (x.sp + 3 + if keymap.isSome then 1 else 0) ∧ l.argc = argc := by
  obtain ⟨compiled, _, ⟨⟩, done₁⟩ := bind_ok done
  split at done₁
  · cases done₁
  split at done₁
  · cases done₁
  rename_i isArgc
  obtain ⟨registers, _, ⟨⟩, done₂⟩ := bind_ok done₁
  obtain ⟨reach, isReach, done₃⟩ := check_bind_ok done₂
  obtain ⟨inner, isInner, isReach⟩ := ok_of_bind isReach
  have isReach := Size.add_ok isReach
  have isInner := Size.add_ok isInner
  have limit_le := on.limit_le
  split at done₃
  · obtain ⟨_, _, -, done₄⟩ := bind_ok done₃
    cases done₄
  rename_i fits
  obtain ⟨_, _, ⟨⟩, done₄⟩ := bind_ok done₃
  rw [writeFrame_bind on.found] at done₄
  obtain ⟨_, _, ⟨⟩, done₅⟩ := bind_ok done₄
  have room : x.sp + 3 ≤ s.words.size := by
    simp only [Frame.size] at isInner
    omega
  have frameAt : Stack.FrameAt (s.writeFrame x.sp pc (.address x.stack x.fp) v).words
    (.address x.stack x.fp) x.sp (x.sp + 3) v pc := Stack.frameAt_writeFrame room
  have below : ∀ i < x.sp, (s.writeFrame x.sp pc (.address x.stack x.fp) v).words[i]? = s.words[i]? :=
    fun _ => Stack.getElem?_writeFrame_of_lt
  cases keymap with
  | none =>
    cases done₅
    exact ⟨_, ⟨Stack.height_writeFrame, rfl, rfl, below, frameAt⟩, rfl, not_not.mp isArgc⟩
  | some keys =>
    simp only [Option.isSome_some, if_true, Frame.size] at isInner
    have entered := push_ok (x := { x.withStack (s.writeFrame x.sp pc (.address x.stack x.fp) v) with
      fp := x.sp, sp := x.sp + Frame.size, pc := 0, lambda := v })
      (found_withStack on.found _) done₅
    have inside : x.sp + 3 < (s.writeFrame x.sp pc (.address x.stack x.fp) v).words.size := by
      have height : (s.writeFrame x.sp pc (.address x.stack x.fp) v).words.size = s.words.size :=
        Stack.height_writeFrame
      omega
    refine ⟨(s.writeFrame x.sp pc (.address x.stack x.fp) v).setWord (x.sp + 3) (.value keys),
      ⟨?_, rfl, rfl, fun i low => ?_, frameAt.push keys inside⟩, ?_, not_not.mp isArgc⟩
    · rw [Stack.height_setWord, Stack.height_writeFrame]
    · exact (Array.getElem?_setIfInBounds_ne (by omega)).trans (below i low)
    · have twice := @withStack_withStack x (s.writeFrame x.sp pc (.address x.stack x.fp) v)
        ((s.writeFrame x.sp pc (.address x.stack x.fp) v).setWord (x.sp + 3) (.value keys))
      rw [entered, Execution.inFrame, ← twice]
      rfl

theorem check_eq {α : Type} {ask : Execution → Except Violation α} {answer : α}
    (isAnswer : ask x = .ok answer) : check ask x = .ok answer x := by
  simp only [check, isAnswer]

theorem lift_eq {α : Type} {result : Except Violation α} {answer : α}
    (isAnswer : result = .ok answer) : (liftM result : Exec α) x = .ok answer x := by
  rw [isAnswer]
  rfl

theorem runningStack_eq (found : x.Stacked s) :
    runningStack x = .ok s := Heap.cast_eq_ok.mpr (Heap.view?_eq_some.mpr found)

theorem valueAt_eq {offset : Nat} (found : x.Stacked s)
    (isValue : s.words[offset]? = some (.value v)) : valueAt offset x = .ok v x := by
  refine check_eq ?_
  simp only [runningStack_eq found, valueAt_of_value isValue, bind, Except.bind]

theorem below_eq {count : Nat} (low : count ≤ x.sp) : below count x = .ok (x.sp - count) x :=
  check_eq (if_pos low)

theorem peek_eq {depth : Nat} (found : x.Stacked s) (low : depth + 1 ≤ x.sp)
    (isValue : s.words[x.sp - (depth + 1)]? = some (.value v)) : peek depth x = .ok v x :=
  (bind_eq_of_ok (below_eq low)).trans (valueAt_eq found isValue)

theorem drop_eq {count : Nat} (low : count ≤ x.sp) : drop count x = .ok () (x.dropped count) :=
  bind_eq_of_ok (below_eq low)

theorem pop_eq (found : x.Stacked s) (low : 1 ≤ x.sp)
    (isValue : s.words[x.sp - 1]? = some (.value v)) : pop x = .ok v (x.dropped 1) :=
  (bind_eq_of_ok (peek_eq found low isValue)).trans (bind_eq_of_ok (drop_eq low))

theorem setPeek_eq {depth : Nat} (found : x.Stacked s) (low : depth + 1 ≤ x.sp) :
    setPeek depth v x = .ok () (x.withStack (s.setWord (x.sp - (depth + 1)) (.value v))) :=
  (bind_eq_of_ok (below_eq low)).trans (write_eq found _ _)

theorem setMarker_eq (found : x.Stacked s)
    (marker : Option Nat) : setMarker marker x = .ok () (x.withStack { s with marker }) :=
  adjustStack_eq found _

section Leaving

variable {a : Activation} {n : Nat} {finish : Value → Exec Unit}

/-- The frame below goes on with the answer, or the task has left its last frame. -/
theorem returning_eq {marker : Option Nat} {answer lambda : Value} (frame : x.Frame s a n)
    (isLambda : s.words[a.below + 2]? = some (.value lambda)) (compiled : x.heap.is Lambda lambda = true) :
    returnTo finish answer s a.below x.fp (Size.ofInt a.counter) ((x.dropped 1).withStack { s with marker }) =
    if a.below = 0 then finish answer ((x.dropped 1).withStack { s with marker })
    else .ok () (x.inCaller s a marker answer lambda) := by
  unfold returnTo
  by_cases isEntry : a.below = 0
  · rw [if_pos isEntry, if_pos isEntry]
  rw [if_neg isEntry, if_neg isEntry]
  have height : ({ s with marker } : Stack).height = s.height := rfl
  have compiled : ((x.dropped 1).withStack { s with marker }).heap.is Lambda lambda = true :=
    (frame.toOn.evolves height).is_lambda compiled
  obtain ⟨l, compiled⟩ := Heap.is_iff.mp compiled
  have read : lambdaAt ((x.dropped 1).withStack { s with marker }).heap s a.below = .ok lambda := by
    simp only [lambdaAt, @valueAt_of_value _ (a.below + Frame.lambdaWord) _ isLambda,
      Heap.cast_eq_ok.mpr compiled, bind, Except.bind, pure, Except.pure]
  refine (checkStore_bind read).trans ?_
  have := frame.answer
  have answered := @setPeek_eq { (x.dropped 1).withStack { s with marker } with
    fp := a.below, sp := x.fp, pc := Size.ofInt a.counter, lambda } _ answer 0
    (found_withStack (x := x.dropped 1) frame.found { s with marker })
    (show 1 ≤ x.fp by omega)
  refine Eq.trans answered (congrArg (EStateM.Result.ok ()) ?_)
  have twice := @withStack_withStack (x.dropped 1) { s with marker }
    (({ s with marker } : Stack).setWord (x.fp - 1) (.value answer))
  change { ((x.dropped 1).withStack { s with marker }).withStack
      (({ s with marker } : Stack).setWord (x.fp - 1) (.value answer)) with
    fp := a.below, sp := x.fp, pc := Size.ofInt a.counter, lambda } = _
  rw [twice]
  rfl

/-- Leaving a frame. What becomes of a task that has left its last frame is for `finish` to say. -/
theorem leaveWith_eq {answer lambda : Value} (frame : x.Frame s a n) (operand : 1 ≤ n)
    (isAnswer : s.words[x.sp - 1]? = some (.value answer))
    (isLambda : s.words[a.below + 2]? = some (.value lambda)) :
    leaveWith finish x = match markerBelow s x.fp (s.height + 2) s.marker with
      | .ok marker => if a.below = 0 then finish answer ((x.dropped 1).withStack { s with marker })
        else .ok () (x.inCaller s a marker answer lambda)
      | .error violation => .error (.broken violation) (x.dropped 1) := by
  have := frame.sp_eq
  have compiled : x.heap.is Lambda lambda = true := by
    obtain ⟨_, _, _, frameAt, compiled⟩ := frame.rest.frameAt
    cases frameAt.lambda.symm.trans isLambda
    exact compiled
  have isCount : countAt s (x.fp + Frame.pcWord) = .ok (Size.ofInt a.counter) :=
    countAt_of_int frame.frameAt.counter
  have isPlace : Stack.placeAt s.words x.stack (x.fp + Frame.linkWord) = .ok (.inside a.below) :=
    placeAt_of_address frame.frameAt.linked
  have found : (x.dropped 1).heap.bodyOf? (.object (x.dropped 1).stack) = some (.stack s) := frame.found
  unfold leaveWith
  rw [bind_eq_of_ok (pop_eq frame.found (by omega) isAnswer)]
  refine (bind_eq_of_ok (check_eq (runningStack_eq found))).trans ?_
  refine (bind_eq_of_ok (lift_eq isCount)).trans ?_
  refine (bind_eq_of_ok (lift_eq isPlace)).trans ?_
  refine (bind_eq_of_ok (lift_eq rfl)).trans ?_
  change ((liftM (markerBelow s x.fp (s.height + 2) s.marker) : Exec (Option Nat)) >>= _) _ = _
  cases markerBelow s x.fp (s.height + 2) s.marker with
  | error violation => rfl
  | ok marker =>
    dsimp only
    refine (bind_eq_of_ok (lift_eq rfl)).trans ?_
    by_cases changed : marker ≠ s.marker
    · rw [if_pos changed, bind_eq_of_ok (setMarker_eq found marker)]
      exact returning_eq frame isLambda compiled
    · rw [if_neg changed]
      cases not_not.mp changed
      rw [← returning_eq frame isLambda compiled, Execution.withStack_self found]
      rfl

end Leaving

section Fetching

variable {a : Activation} {n : Nat} {i : Instruction}

/-- Above the bottom frame a step carries out the instruction at the program counter. -/
theorem step_eq (frame : x.Frame s a n) : step x = match decodeAt a.units x.pc with
      | .ok i => execute x.pc (x.pc + i.size) i (x.fetched i)
      | .error violation => .error (.broken violation) x := by
  have := frame.answer
  obtain ⟨l, c, isLambda, isCode, units, -⟩ := frame.records
  have isRunning : runningLambda x = .ok l := Heap.cast_eq_ok.mpr isLambda
  unfold step
  refine (ask_bind).trans ?_
  rw [if_neg (by omega)]
  refine (ask_bind).trans ?_
  have fetches : (do
      let code ← x.heap.cast Code (← runningLambda x).code
      decodeAt code.units x.pc : Except Violation Instruction) =
      decodeAt a.units x.pc := by
    simp only [isRunning, Heap.cast_eq_ok.mpr isCode, units, bind, Except.bind]
  cases decoded : decodeAt a.units x.pc with
  | error violation =>
    refine Action.bind_eq_of_error ?_
    simp only [check, fetches, decoded]
  | ok i => exact (bind_eq_of_ok (check_eq (fetches.trans decoded))).trans rfl

end Fetching

end Exec

end ObjectMachine
