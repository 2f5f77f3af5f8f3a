/-
# ObjectMachine.WorkQueue -- one worker, many submitters

Work on a machine is done by one worker, in the order it was accepted. A submitter may hold a
ticket for its job, and finds there what the job has come to. A queue that has been shut down
accepts nothing more, but what it has accepted is still done. A worker that breaks off drops the
job it was doing, shuts the queue down and drops what still waits, so that no ticket stays open.

Each operation is a move that nobody can watch halfway. `settle` makes the moves of the worker for
as long as it has any.

* `waiting_of_start` -- a worker starts the oldest job.
-/
import ObjectMachine.Fault

namespace ObjectMachine

/-- What a ticket shows. -/
inductive Completion (value : Type) where
  | pending
  | ready (answer : value)
  /-- Nothing will come any more: the job was dropped, or its answer has been taken. -/
  | dropped
  deriving DecidableEq, Inhabited

namespace Completion

variable {value : Type}

/-- Show an outcome. Only the first one counts. -/
def finish (c outcome : Completion value) : Completion value :=
  match c with
  | pending => outcome
  | settled => settled

/-- Take the answer away, once there is an outcome. -/
def take? : Completion value → Option (Option value × Completion value)
  | pending => none
  | ready answer => some (some answer, dropped)
  | dropped => some (none, dropped)

end Completion

/-- An accepted job, and the ticket of whoever waits for it. -/
structure Order (job : Type) where
  work : job
  ticket : Option Nat
  deriving DecidableEq, Inhabited

/-- What the worker is about. -/
inductive WorkerPhase (job : Type) where
  /-- Between two jobs. -/
  | idle
  | running (order : Order job)
  /-- On its way out, with the queue still as it was. -/
  | leaving
  /-- On its way out, with the queue closed and these orders to drop. -/
  | clearing (left : List (Order job))
  | gone
  deriving DecidableEq, Inhabited

/-- A queue of jobs and the state of its worker. -/
structure WorkQueue (job value : Type) where
  /-- Accepted jobs that have not started, the oldest first. -/
  waiting : List (Order job) := []
  /-- Whether no more jobs are accepted. -/
  closed : Bool := false
  worker : WorkerPhase job := .idle
  /-- What the tickets show; a ticket is a position here. -/
  completions : Array (Completion value) := #[]
  deriving Inhabited

namespace WorkQueue

variable {job value σ : Type}

/-- How many jobs wait. -/
def pending (q : WorkQueue job value) : Nat := q.waiting.length

/-- Show an outcome on a ticket, if there is one. -/
def deliver (q : WorkQueue job value) (ticket : Option Nat) (outcome : Completion value) :
    WorkQueue job value :=
  match ticket with
  | none => q
  | some ticket =>
    let { waiting, closed, worker, completions } := q
    { waiting, closed, worker, completions := completions.modify ticket (·.finish outcome) }

/-- Accept a job that nobody waits for, unless the queue is closed. -/
def submit (q : WorkQueue job value) (work : job) : Bool × WorkQueue job value :=
  if q.closed then (false, q)
  else (true, { q with waiting := q.waiting ++ [{ work, ticket := none }] })

/-- Accept a job and hand out a ticket for it, unless the queue is closed. -/
def submitAwaited (q : WorkQueue job value) (work : job) : Option Nat × WorkQueue job value :=
  if q.closed then (none, q)
  else
    let { waiting, closed, worker, completions } := q
    let ticket := completions.size
    (some ticket,
      { waiting := waiting ++ [{ work, ticket := some ticket }]
        closed, worker, completions := completions.push .pending })

/-- Take the outcome off a ticket, once there is one. -/
def take? (q : WorkQueue job value) (ticket : Nat) :
    Option (Option value × WorkQueue job value) := do
  let (answer, taken) ← (← q.completions[ticket]?).take?
  pure (answer, { q with completions := q.completions.set! ticket taken })

/-- Accept no more jobs. -/
def shutdown (q : WorkQueue job value) : WorkQueue job value := { q with closed := true }

/-- An idle worker starts the oldest job. -/
def start? (q : WorkQueue job value) : Option (Order job × WorkQueue job value) :=
  match q.worker, q.waiting with
  | .idle, order :: rest => some (order, { q with waiting := rest, worker := .running order })
  | _, _ => none

/-- The worker has done its job. -/
def finish (q : WorkQueue job value) (answer : value) : WorkQueue job value :=
  match q.worker with
  | .running order => { q.deliver order.ticket (.ready answer) with worker := .idle }
  | _ => q

/-- The worker breaks off in the middle of its job. -/
def breakOff (q : WorkQueue job value) : WorkQueue job value :=
  match q.worker with
  | .running order => { q.deliver order.ticket .dropped with worker := .leaving }
  | _ => q

/-- An idle worker leaves a closed queue in which nothing waits. -/
def retire (q : WorkQueue job value) : WorkQueue job value :=
  match q.worker, q.waiting, q.closed with
  | .idle, [], true => { q with worker := .leaving }
  | _, _, _ => q

/-- A leaving worker closes the queue and takes what waits. -/
def close (q : WorkQueue job value) : WorkQueue job value :=
  match q.worker with
  | .leaving => { q with waiting := [], closed := true, worker := .clearing q.waiting }
  | _ => q

/-- A worker that has closed the queue drops one of the orders it took, or is gone. -/
def clear (q : WorkQueue job value) : WorkQueue job value :=
  match q.worker with
  | .clearing [] => { q with worker := .gone }
  | .clearing (order :: rest) =>
    { q.deliver order.ticket .dropped with worker := .clearing rest }
  | _ => q

/-- A leaving worker goes all the way. -/
def leave (q : WorkQueue job value) : WorkQueue job value :=
  let left := q.pending
  Nat.repeat clear (left + 1) q.close

/-- Build the state of a worker and prepare it. Whoever asked for the queue learns the first error,
or that the worker died on the way. -/
def launch (build : Except (Stop RunError) σ) (setup : σ → Except (Stop RunError) σ) :
    Except RunError σ :=
  match build >>= setup with
  | .ok state => .ok state
  | .error (.raised error) => .error error
  | .error _ => .error .workerDied

@[simp] theorem deliver_waiting (q : WorkQueue job value) (ticket : Option Nat)
    (outcome : Completion value) : (q.deliver ticket outcome).waiting = q.waiting := by
  cases ticket <;> rfl

@[simp] theorem finish_waiting (q : WorkQueue job value) (answer : value) :
    (q.finish answer).waiting = q.waiting := by
  unfold finish
  split <;> simp

theorem waiting_of_start {q r : WorkQueue job value} {order : Order job}
    (started : q.start? = some (order, r)) : q.waiting = order :: r.waiting := by
  unfold start? at started
  split at started
  · rename_i waits
    cases started
    exact waits
  · cases started

/-- Let the worker do what waits, one job after the other. `run` does one job on the state that the
worker keeps, or answers nothing if the worker breaks off in it. A worker that finds the queue
closed and empty leaves. -/
def settle (run : job → σ → Option (value × σ)) (q : WorkQueue job value) (state : σ) :
    WorkQueue job value × σ :=
  match started : q.start? with
  | none => (q.retire.leave, state)
  | some (order, q) =>
    have := waiting_of_start started
    match run order.work state with
    | some (answer, state) => settle run (q.finish answer) state
    | none => (q.breakOff.leave, state)
termination_by q.waiting.length
decreasing_by simp_all

end WorkQueue

end ObjectMachine
