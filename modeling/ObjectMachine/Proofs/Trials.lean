/-
# ObjectMachine.Proofs.Trials -- calls that can be carried out here

A script makes lambdas and tuples on a new machine, and the last of them is called. What `played`
finds after some steps is a state that the call visits, and what `followed` finds on the way from
one state to another is a task that is followed.
-/
import Mathlib
import ObjectMachine.Proofs.Framing
import ObjectMachine.Proofs.Marks

namespace ObjectMachine

namespace Machine

/-- A lambda or a tuple. -/
inductive Item
  | code (instructions : List Instruction) (constants : List Value) (argc height : Nat)
  | tuple (elements : List Value)

/-- The code of an item obeys the discipline of code. -/
def Item.Balanced : Item → Prop
  | code instructions _ _ height =>
    Disciplined (instructions.flatMap Instruction.units).toArray (fun _ => none) height
  | tuple _ => True

def Item.make : Item → Machine → Option (Value × Machine)
  | code instructions constants argc maxHeight, m =>
    match assemble { units := (instructions.flatMap Instruction.units).toArray,
                     constants := constants.toArray, maxHeight } argc m with
    | .ok v m => some (v, m)
    | .error _ _ => none
  | tuple elements, m =>
    match onStore (Make.tuple elements.toArray) m with
    | .ok v m => some (v, m)
    | .error _ _ => none

/-- Items are made one after the other, of the values that have been made before. -/
def staged : List (List Value → Item) → List Value → Machine → Option (List Value × Machine)
  | [], made, m => some (made, m)
  | item :: script, made, m => do
    let (v, m) ← (item made).make m
    staged script (v :: made) m

/-- The call of the last item of a script, after some steps. -/
def played (script : List (List Value → Item)) (count : Nat) : Option Execution :=
  match create { stackHeight := 48 } {} with
  | .error _ => none
  | .ok m =>
    match staged script [] m with
    | some (lambda :: _, m) =>
      match entry lambda m with
      | some x => after count x
      | none => none
    | _ => none

variable {m m' : Machine} {made : List Value} {lambda v : Value} {x y : Execution}
  {script : List (List Value → Item)} {count : Nat}

theorem Item.reached {item : Item} (balanced : item.Balanced) (isMade : item.make m = some (v, m'))
    (reached : m.Reached fun m deed => deed.Orderly m) :
    m'.Reached fun m deed => deed.Orderly m := by
  cases item with
  | code instructions constants argc height =>
    rw [make] at isMade
    split at isMade
    · rename_i isLambda
      cases isMade
      have disciplined : Disciplined (instructions.flatMap Instruction.units).toArray (fun _ => none) height :=
        balanced
      exact .done (.assemble _ argc) reached (fun _ => disciplined.mono (by simp))
        (Action.leaves_discard isLambda)
    · cases isMade
  | tuple elements =>
    rw [make] at isMade
    split at isMade
    · rename_i isTuple
      cases isMade
      have done : Action.mapError RunError.ofSignal (onStore (Making.tuple elements.toArray).work) m =
          .ok v m' := by
        simp only [Action.mapError, Making.work, isTuple]
      exact .done (.make (.tuple elements.toArray)) reached trivial (Action.leaves_discard done)
    · cases isMade

theorem staged_reached (balanced : ∀ item ∈ script, ∀ made, (item made).Balanced)
    {before : List Value} (isStaged : staged script before m = some (made, m'))
    (reached : m.Reached fun m deed => deed.Orderly m) :
    m'.Reached fun m deed => deed.Orderly m := by
  induction script generalizing before m with
  | nil =>
    cases isStaged
    exact reached
  | cons item script ih =>
    obtain ⟨⟨v, m₁⟩, isMade, isStaged⟩ := Option.bind_eq_some_iff.mp isStaged
    exact ih (fun item member => balanced item (List.mem_cons_of_mem _ member)) isStaged
      (Item.reached (balanced item List.mem_cons_self before) isMade reached)

theorem visits_of_played (balanced : ∀ item ∈ script, ∀ made, (item made).Balanced)
    (isPlayed : played script count = some x) :
    ∃ m lambda, m.Reached (fun m deed => deed.Orderly m) ∧ Visits m lambda #[] x := by
  unfold played at isPlayed
  split at isPlayed
  · cases isPlayed
  rename_i m₀ created
  split at isPlayed
  rotate_left
  · cases isPlayed
  rename_i lambda _ m isStaged
  split at isPlayed
  rotate_left
  · cases isPlayed
  rename_i y isEntry
  exact ⟨m, lambda, staged_reached balanced isStaged (.created created), visits_after isEntry isPlayed⟩

theorem running_of_played (balanced : ∀ item ∈ script, ∀ made, (item made).Balanced)
    (isPlayed : played script count = some x) : x.Running := by
  obtain ⟨m, lambda, reached, visits⟩ := visits_of_played balanced isPlayed
  exact visits.running reached.idle

end Machine

namespace Execution

open Exec (Follows step)

/-- What the running stack would show. -/
def picture? (x : Execution) : Option Picture :=
  match x.machine.store.heap.bodyOf? (.object x.stack) with
  | some (.stack s) => some (x.picture s)
  | _ => none

instance (marks : List Mark) (p q : Picture) : Decidable (Picture.Keeps marks p q) :=
  inferInstanceAs (Decidable (∀ k ∈ marks, _))

/-- The task `r` runs for some steps without leaving the frame at `f`, and if it is to be `careful`
without touching its marks. -/
def followed (careful : Bool) (r : Ref) (f : Nat) :
    Nat → Execution → List Mark → Option (Execution × List Mark)
  | 0, x, marks => some (x, marks)
  | count + 1, x, marks =>
    match x.picture?, step x with
    | some p, .ok _ z =>
      match z.picture? with
      | some q =>
        if x.machine.store.heap.Houses r x.stack ∧ z.machine.store.heap.Houses r z.stack ∧ f ≤ q.fp ∧
            (careful = true → Picture.Keeps (x.unmarked r marks) p q) then
          followed careful r f count { z with shortage := none } (x.marked r marks)
        else none
      | none => none
    | _, _ => none

/-- A call by the task that runs, followed until it is about to return. -/
def called (careful : Bool) (x : Execution) (count : Nat) :
    Option (Ref × Instruction × Picture × Execution × Execution × List Mark) :=
  match x.machine.references.slot x.currentTask, x.instruction?, x.picture?, step x with
  | .object r, some i, some p, .ok _ x₁ =>
    match followed careful r p.words.length count x₁ [] with
    | some (y, marks) =>
      if x.machine.store.heap.Houses r x.stack ∧ y.machine.store.heap.Houses r y.stack ∧
          y.fp = p.words.length ∧ y.instruction? = some .ret then some (r, i, p, x₁, y, marks) else none
    | none => none
  | _, _, _, _ => none

variable {x y z : Execution} {r : Ref} {f count : Nat} {marks marks' : List Mark} {p : Picture}

theorem depicts_of_picture? (running : x.Running) (isPicture : x.picture? = some p)
    (here : x.heap.Houses r x.stack) : x.suspended.Depicts r p := by
  obtain ⟨s, atPc⟩ := running
  rw [picture?, atPc.found] at isPicture
  cases isPicture
  exact atPc.depicts.mpr (.inl ⟨here, rfl⟩)

theorem follows_of_followed {careful : Bool} {marks₀ : List Mark} (running : y.Running)
    (follows : Follows (careful = true) x r marks₀ f id y marks)
    (isFollowed : followed careful r f count y marks = some (z, marks')) :
    Follows (careful = true) x r marks₀ f id z marks' ∧ z.Running := by
  induction count generalizing y marks with
  | zero =>
    cases isFollowed
    exact ⟨follows, running⟩
  | succ count ih =>
    unfold followed at isFollowed
    split at isFollowed
    · rename_i p z isPicture done
      split at isFollowed
      · rename_i q isPicture'
        split at isFollowed
        · rename_i _ _ checked
          have running' := Exec.step_running running done
          obtain ⟨s, atPc⟩ := id running'
          exact ih ⟨s, atPc.withShortage none⟩ (follows.stepped running done
            (depicts_of_picture? running isPicture checked.1)
            (depicts_of_picture? running' isPicture' checked.2.1) checked.2.2.1 checked.2.2.2)
            isFollowed
        · cases isFollowed
      · cases isFollowed
    · cases isFollowed

theorem called_ok {careful : Bool} {i : Instruction} {x₁ : Execution} (running : x.Running)
    (isCalled : called careful x count = some (r, i, p, x₁, y, marks)) :
    x.suspended.Depicts r p ∧ x.doing r = some i ∧ step x = .ok () x₁ ∧
      Follows (careful = true) x₁ r [] p.words.length id y marks ∧ y.Running ∧
      y.heap.Houses r y.stack ∧ y.fp = p.words.length ∧ y.instruction? = some .ret := by
  unfold called at isCalled
  split at isCalled
  rotate_left
  · cases isCalled
  rename_i r i p x₁ isTask isNext isPicture done
  split at isCalled
  rotate_left
  · cases isCalled
  rename_i y marks isFollowed
  split at isCalled
  · rename_i checked
    cases isCalled
    obtain ⟨follows, running'⟩ := follows_of_followed (Exec.step_running running done) .start isFollowed
    exact ⟨depicts_of_picture? running isPicture checked.1, (if_pos checked.1).trans isNext, done, follows,
      running', checked.2⟩
  · cases isCalled

end Execution

end ObjectMachine
