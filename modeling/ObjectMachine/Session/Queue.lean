/-
# ObjectMachine.Session.Queue -- scripts as jobs of a worker

A queue has one machine, and each job is a session of its own on it. The worker does whatever it
has been given before anything else happens, so the answers do not depend on timing. A job that
breaks an invariant ends the worker.
-/
import ObjectMachine.Session.Run
import ObjectMachine.WorkQueue

namespace ObjectMachine

namespace Session

/-- What is asked of a queue. -/
inductive QueueStep where
  /-- Hand a script in. -/
  | submit (lines : List Line)
  /-- Hand a script in and wait for it. -/
  | sync (lines : List Line)
  | request (request : Request)
  | shutdown
  | isShutDown

/-- What a queue answers. -/
inductive QueueAnswer where
  | accepted (accepted : Bool)
  /-- The transcript of a script that has been carried out. -/
  | finished (transcript : Option (List Entry))
  | plain (answer : Plain)
  | shutDown (closed : Bool) (pending : Nat)
  | isShutDown (closed : Bool)

/-- A job for the worker. -/
inductive Job where
  /-- A script, and whether its transcript is kept for the end. -/
  | script (lines : List Line) (kept : Bool)
  | request (request : Request)

/-- What a job has come to. -/
inductive Product where
  | transcript (entries : List Entry)
  | plain (answer : Plain)

/-- The worker: its machine, and the transcripts that are kept. -/
structure Worker where
  machine : Machine
  budget : Nat
  /-- Transcripts of the scripts that nobody waited for, the latest first. -/
  submitted : List (List Entry) := []

namespace Worker

/-- Do one job. A broken invariant ends the worker. -/
def run (job : Job) (w : Worker) : Option (Product × Worker) :=
  let { machine, budget, submitted } := w
  match job with
  | .script lines kept =>
    let { entries, complete, state } := runLines lines (begin budget machine)
    if complete then
      let submitted := if kept then entries :: submitted else submitted
      some (.transcript entries, { machine := close state, budget, submitted })
    else
      none
  | .request request =>
    match Machine.handle budget request machine with
    | .ok answer machine => some (.plain answer, { machine, budget, submitted })
    | .error _ _ => none

end Worker

/-- A queue together with its worker. -/
structure Office where
  queue : WorkQueue Job Product := {}
  worker : Worker

namespace Office

/-- Let the worker do what waits. -/
def settle (o : Office) : Office :=
  let { queue, worker } := o
  let (queue, worker) := queue.settle Worker.run worker
  { queue, worker }

/-- Hand a job in, and let the worker do it. The answer says whether it was accepted. -/
def submit (o : Office) (job : Job) : Bool × Office :=
  let { queue, worker } := o
  let (accepted, queue) := queue.submit job
  (accepted, settle { queue, worker })

/-- Hand a job in, let the worker do it, and answer what it came to. A job that was not accepted, or
that broke off, comes to nothing. -/
def submitAwaited (o : Office) (job : Job) : Option Product × Office :=
  let { queue, worker } := o
  match queue.submitAwaited job with
  | (none, queue) => (none, { queue, worker })
  | (some ticket, queue) =>
    let o := settle { queue, worker }
    match o.queue.take? ticket with
    | some (product, queue) => (product, { o with queue })
    | none => (none, o)

/-- Carry out one step. -/
def step (o : Office) : QueueStep → QueueAnswer × Office
  | .submit lines =>
    let (accepted, o) := o.submit (.script lines true)
    (.accepted accepted, o)
  | .sync lines =>
    match o.submitAwaited (.script lines false) with
    | (some (.transcript entries), o) => (.finished (some entries), o)
    | (_, o) => (.finished none, o)
  | .request request =>
    match o.submitAwaited (.request request) with
    | (some (.plain answer), o) => (.plain answer, o)
    | (_, o) => (.plain .void, o)
  | .shutdown =>
    let o := settle { o with queue := o.queue.shutdown }
    (.shutDown o.queue.closed o.queue.pending, o)
  | .isShutDown => (.isShutDown o.queue.closed, o)

/-- Carry out steps. -/
def steps : List QueueStep → Office → List QueueAnswer × Office
  | [], o => ([], o)
  | first :: rest, o =>
    let (answer, o) := o.step first
    let (answers, o) := steps rest o
    (answer :: answers, o)

end Office

/-- Prepare the machine of a worker. The first step that fails ends the preparation, but one that
could not be read is passed over. -/
def prepare : List Line → State → Except (Stop RunError) State
  | [], s => .ok s
  | line :: rest, s =>
    let (entry, s, _) := runEntry line s
    match entry.ending with
    | .trouble (.run error) => .error (.raised error)
    | .trouble (.signal signal) => .error (.raised (.ofSignal signal))
    | .broken violation => .error (.broken violation)
    | .unfinished => .error .unfinished
    | .trouble .malformed | .answered _ => prepare rest s

/-- Make a queue with a prepared machine, carry out steps, and answer what they and the scripts
that nobody waited for have come to. -/
def runQueue (budget : Nat) (settings : Settings) (setup : List Line) (script : List QueueStep) :
    Except RunError (List QueueAnswer × List (List Entry)) := do
  let machine ← WorkQueue.launch (Machine.create settings {}) fun machine => do
    pure (close (← prepare setup (begin budget machine)))
  let (answers, office) := Office.steps script { worker := { machine, budget } }
  pure (answers, office.worker.submitted.reverse)

end Session

end ObjectMachine
