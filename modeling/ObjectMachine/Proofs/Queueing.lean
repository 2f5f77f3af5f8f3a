/-
# ObjectMachine.Proofs.Queueing -- a queue between its submitters, its worker and its end

A queue is used by many at a time: anybody may hand in jobs, the worker starts, finishes and breaks
off, and any number of calls may ask for the end and wait for it. Whoever asks closes the queue,
then goes to the door behind which the worker is waited for. One call at a time waits there, and the
others wait for it; once it has seen the worker gone, the door stays open.

A running job that asks for the end goes to the door of its own worker. If a call waits there, the
two wait for each other. If not, the job is turned away, since it cannot wait for itself. It may go
on or break off, but the door stays open from then on, whether the worker is gone or not.

`Floor.Step` is one move of anybody, made of the moves of the queue itself, and `Floor.Run` is any
interleaving of moves together with what could be seen of them.

* `Run.emptied` -- a worker on its way out leaves a closed queue behind in which nothing waits.
-/
import ObjectMachine.WorkQueue

namespace ObjectMachine

namespace WorkerPhase

variable {job : Type}

/-- The job that has started and has not ended. -/
def current : WorkerPhase job → Option (Order job)
  | running order => some order
  | _ => none

/-- Whether the worker has closed the queue on its way out. -/
def exited : WorkerPhase job → Bool
  | clearing _ | gone => true
  | _ => false

end WorkerPhase

namespace WorkQueue

variable {job value : Type}

@[simp] theorem deliver_closed (q : WorkQueue job value) (ticket : Option Nat)
    (outcome : Completion value) : (q.deliver ticket outcome).closed = q.closed := by
  cases ticket <;> rfl

section Moves

variable {q : WorkQueue job value} {order : Order job}

theorem finish_eq (runs : q.worker = .running order) (answer : value) :
    q.finish answer = { q.deliver order.ticket (.ready answer) with worker := .idle } := by
  simp [finish, runs]

theorem breakOff_eq (runs : q.worker = .running order) :
    q.breakOff = { q.deliver order.ticket .dropped with worker := .leaving } := by
  simp [breakOff, runs]

theorem retire_eq (idle : q.worker = .idle) (empty : q.waiting = []) (closed : q.closed = true) :
    q.retire = { q with worker := .leaving } := by
  simp [retire, idle, empty, closed]

theorem close_eq (leaving : q.worker = .leaving) :
    q.close = { q with waiting := [], closed := true, worker := .clearing q.waiting } := by
  simp [close, leaving]

theorem start?_eq_some {r : WorkQueue job value} (started : q.start? = some (order, r)) :
    q.worker = .idle ∧ q.waiting = order :: r.waiting ∧
      r = { q with waiting := r.waiting, worker := .running order } := by
  unfold start? at started
  split at started
  · next idle waits =>
    cases started
    exact ⟨idle, waits, rfl⟩
  · cases started

end Moves

/-- What can be seen of a queue in use. -/
inductive Event (job value : Type) where
  | submitted (work : job) (accepted : Bool)
  | awaited (work : job) (ticket : Option Nat)
  /-- An outcome has been taken off a ticket. -/
  | taken (ticket : Nat) (answer : Option value)
  | started (order : Order job)
  | finished (order : Order job) (answer : value)
  | brokeOff (order : Order job)
  /-- The worker found the queue closed and empty. -/
  | retired
  /-- The worker closed the queue on its way out. -/
  | closed
  /-- The worker dropped an order on its way out, or was gone. -/
  | cleared
  /-- A call asked for the end. -/
  | asked (call : Nat)
  /-- The running job asked for the end. -/
  | askedInside
  /-- The running job did not wait for its own worker. -/
  | turnedAway
  /-- A call began to wait for the worker. -/
  | waited (call : Nat)
  /-- A call that asked for the end came back. -/
  | returned (call : Nat)

/-- The door behind which the worker is waited for. -/
inductive Door where
  /-- Nobody has waited yet. -/
  | untried
  /-- This call waits for the worker, and the others for it. -/
  | held (call : Nat)
  /-- Somebody has seen the worker gone, or the worker has been here itself. -/
  | passed
  deriving DecidableEq

/-- A queue in use. -/
structure Floor (job value : Type) where
  queue : WorkQueue job value := {}
  door : Door := .untried
  /-- Calls that have asked for the end and have not come back. -/
  asking : List Nat := []
  /-- Whether the running job is at the door of its own worker. -/
  stuck : Bool := false

namespace Floor

variable {event : Event job value}

/-- One move of a submitter, of the worker, or of a call that asks for the end. -/
inductive Step (s : Floor job value) : Event job value → Floor job value → Prop where
  | submit (work : job) : Step s (.submitted work (s.queue.submit work).1)
        { s with queue := (s.queue.submit work).2 }
  | await (work : job) : Step s (.awaited work (s.queue.submitAwaited work).1)
        { s with queue := (s.queue.submitAwaited work).2 }
  | take (ticket : Nat) {answer : Option value} {queue : WorkQueue job value}
      (shown : s.queue.take? ticket = some (answer, queue)) :
      Step s (.taken ticket answer) { s with queue }
  | start {order : Order job} {queue : WorkQueue job value}
      (waits : s.queue.start? = some (order, queue)) : Step s (.started order) { s with queue }
  | finish {order : Order job} (answer : value) (runs : s.queue.worker = .running order)
      (free : s.stuck = false) :
      Step s (.finished order answer) { s with queue := s.queue.finish answer }
  | breakOff {order : Order job} (runs : s.queue.worker = .running order) (free : s.stuck = false) :
      Step s (.brokeOff order) { s with queue := s.queue.breakOff }
  | retire (idle : s.queue.worker = .idle) (empty : s.queue.waiting = []) (closed : s.queue.closed = true) :
      Step s .retired { s with queue := s.queue.retire }
  | close (leaving : s.queue.worker = .leaving) : Step s .closed { s with queue := s.queue.close }
  | clear {left : List (Order job)} (clearing : s.queue.worker = .clearing left) :
      Step s .cleared { s with queue := s.queue.clear }
  | ask (call : Nat) (new : call ∉ s.asking) : Step s (.asked call)
        { s with queue := s.queue.shutdown, asking := call :: s.asking }
  | askInside {order : Order job} (runs : s.queue.worker = .running order) (free : s.stuck = false) :
      Step s .askedInside { s with queue := s.queue.shutdown, stuck := true }
  | turnAway (stuck : s.stuck = true) (unheld : ∀ call, s.door ≠ .held call) :
      Step s .turnedAway { s with door := .passed, stuck := false }
  | wait (call : Nat) (asks : call ∈ s.asking) (untried : s.door = .untried) :
      Step s (.waited call) { s with door := .held call }
  | joined {call : Nat} (holds : s.door = .held call) (gone : s.queue.worker = .gone) :
      Step s (.returned call) { s with door := .passed, asking := s.asking.erase call }
  | followed {call : Nat} (asks : call ∈ s.asking) (passed : s.door = .passed) :
      Step s (.returned call) { s with asking := s.asking.erase call }

/-- Any interleaving of moves, and what could be seen of them. -/
inductive Run (s : Floor job value) : List (Event job value) → Floor job value → Prop where
  | refl : Run s [] s
  | step {events : List (Event job value)} {t u : Floor job value} {event : Event job value}
      (run : Run s events t) (step : Step t event u) : Run s (events ++ [event]) u

variable {events : List (Event job value)} {s t : Floor job value}

/-- A worker on its way out has closed the queue and taken with it what was waiting. -/
def Emptied (s : Floor job value) : Prop :=
  s.queue.worker.exited = true → s.queue.closed = true ∧ s.queue.waiting = []

theorem Emptied.step (emptied : s.Emptied) (step : Step s event t) : t.Emptied := by
  cases step with
  | submit work =>
    unfold WorkQueue.submit
    split
    · exact emptied
    · next opened => exact fun exited => absurd (emptied exited).1 opened
  | await work =>
    unfold WorkQueue.submitAwaited
    split
    · exact emptied
    · next opened => exact fun exited => absurd (emptied exited).1 opened
  | take ticket shown =>
    obtain ⟨_, -, _, _, -, -, rfl⟩ := by simpa [WorkQueue.take?, Option.bind_eq_some_iff] using shown
    exact emptied
  | start waits =>
    rw [(start?_eq_some waits).2.2]
    exact nofun
  | finish answer runs _ =>
    rw [finish_eq runs]
    exact nofun
  | breakOff runs _ =>
    rw [breakOff_eq runs]
    exact nofun
  | retire idle empty closed =>
    rw [retire_eq idle empty closed]
    exact nofun
  | close leaving =>
    rw [close_eq leaving]
    exact fun _ => ⟨rfl, rfl⟩
  | @clear left clearing =>
    have before := emptied (by rw [clearing]; rfl)
    cases left <;> simpa [Emptied, WorkQueue.clear, clearing] using fun _ => before
  | ask call _ => exact fun exited => ⟨rfl, (emptied exited).2⟩
  | askInside _ _ => exact fun exited => ⟨rfl, (emptied exited).2⟩
  | turnAway _ _ | wait _ _ _ | joined _ _ | followed _ _ => exact emptied

theorem Run.emptied (run : Run {} events s) : s.Emptied := by
  induction run with
  | refl => exact nofun
  | step _ step ih => exact ih.step step

end Floor

end WorkQueue

end ObjectMachine
