/-
# ObjectMachine.Proofs.Tickets -- what whoever waits for a job is told

A ticket shows an outcome when its job is done, is broken off, or is dropped by a worker on its way
out, and whatever else is delivered to it later is lost. `Kept` are the books of all tickets: which
are outstanding, which jobs are done, and what holders have been told. `Start` is the hand-off with
which a queue begins: whoever asks for the queue waits for a worker that builds its state, prepares
it, and may die in either.

* `Floor.kept_step` -- what a move makes of the tickets.
* `Floor.Run.kept` -- so the books of the tickets are right after every run.
* `Start.fair_of_steps` -- whoever waits for a worker to begin is told how that went.
* `submitters_told` -- nobody waits in vain, and nobody is told what is not so.
-/
import Mathlib.Data.List.Induction
import Mathlib.Data.List.Nodup
import Mathlib.Logic.Relation
import ObjectMachine.Proofs.Queueing

namespace ObjectMachine

/-- The orders that a worker on its way out has still to drop. -/
def WorkerPhase.left {job : Type} : WorkerPhase job → List (Order job)
  | clearing left => left
  | _ => []

open WorkerPhase (current left)

/-- The ticket of an order, and the job it is for. -/
def Order.due? {job : Type} (order : Order job) : Option (Nat × job) :=
  order.ticket.map fun ticket => (ticket, order.work)

/-- The answer that a ticket shows. -/
def Completion.answer? {value : Type} : Completion value → Option value
  | ready answer => some answer
  | _ => none

namespace WorkQueue

variable {job value : Type}

/-- Orders that have come to nothing yet, those first that are dealt with first. -/
def unsettled (q : WorkQueue job value) : List (Order job) :=
  q.worker.current.toList ++ q.worker.left ++ q.waiting

/-- The tickets of unsettled orders, and the jobs they are for. -/
def outstanding (q : WorkQueue job value) : List (Nat × job) := q.unsettled.filterMap Order.due?

namespace Event

/-- A ticket that is handed out, and the job it is for. -/
def handed? : Event job value → Option (Nat × job)
  | awaited work (some ticket) => some (ticket, work)
  | _ => none

/-- A job that is done, its ticket and its answer. -/
def done? : Event job value → Option (Nat × job × value)
  | finished order answer => order.due?.map fun (ticket, work) => (ticket, work, answer)
  | _ => none

/-- What is taken off a ticket. -/
def takenOff? (ticket : Nat) : Event job value → Option (Option value)
  | taken other answer => if other = ticket then some answer else none
  | _ => none

/-- An event that no holder of a ticket learns of. -/
structure Silent (event : Event job value) : Prop where
  handed : event.handed? = none
  done : event.done? = none
  taken : ∀ ticket, event.takenOff? ticket = none

end Event

/-- The tickets that have been handed out, and the jobs they are for. -/
def handed (events : List (Event job value)) : List (Nat × job) := events.filterMap Event.handed?

/-- The jobs with a ticket that have been done, and their answers. -/
def done (events : List (Event job value)) : List (Nat × job × value) := events.filterMap Event.done?

/-- What the holder of a ticket has been told: the first that was taken off the ticket. -/
def told? (events : List (Event job value)) (ticket : Nat) : Option (Option value) :=
  events.findSome? (Event.takenOff? ticket)

section Histories

variable (events : List (Event job value)) (event : Event job value)

theorem handed_snoc : handed (events ++ [event]) = handed events ++ event.handed?.toList := by
  cases isEvent : event.handed? <;> simp [handed, isEvent]

theorem done_snoc : done (events ++ [event]) = done events ++ event.done?.toList := by
  cases isEvent : event.done? <;> simp [done, isEvent]

theorem told?_snoc (ticket : Nat) :
    told? (events ++ [event]) ticket = (told? events ticket).or (event.takenOff? ticket) := by
  cases isEvent : event.takenOff? ticket <;> simp [told?, List.findSome?_append, isEvent]

end Histories

/-- Books that are right about one ticket: it is pending exactly as long as it is outstanding; an
answer is that of its own job, whether it is shown or has been taken; and a job that is done has its
answer shown until it is taken. -/
structure KeptAt (events : List (Event job value)) (due : List (Nat × job))
    (completions : Array (Completion value)) (ticket : Nat) : Prop where
  outstanding : ∀ work, (ticket, work) ∈ due →
    (ticket, work) ∈ handed events ∧ completions[ticket]? = some .pending
  pending : completions[ticket]? = some .pending → ∃ work, (ticket, work) ∈ due
  ready : ∀ answer, completions[ticket]? = some (.ready answer) →
    told? events ticket = none ∧ ∃ work, (ticket, work, answer) ∈ done events
  told : ∀ outcome, told? events ticket = some outcome → completions[ticket]? = some .dropped ∧
      ∀ answer, outcome = some answer → ∃ work, (ticket, work, answer) ∈ done events
  done : ∀ work answer, (ticket, work, answer) ∈ done events → (ticket, work) ∈ handed events ∧
      (completions[ticket]? = some (.ready answer) ∨ told? events ticket = some (some answer))

/-- Books that are right about all tickets, each of which is handed out once. -/
structure Kept (events : List (Event job value)) (due : List (Nat × job))
    (completions : Array (Completion value)) : Prop where
  handed : (handed events).map Prod.fst = List.range completions.size
  distinct : (due.map Prod.fst).Nodup
  each : ∀ ticket, KeptAt events due completions ticket

namespace Kept

variable {events : List (Event job value)} {event : Event job value}
variable {due : List (Nat × job)} {completions : Array (Completion value)}
variable {ticket : Nat} {work : job}

theorem start : Kept [] ([] : List (Nat × job)) (#[] : Array (Completion value)) where
  handed := rfl
  distinct := by simp
  each ticket := by constructor <;> simp [told?, WorkQueue.done]

/-- An event that is about other tickets leaves the books of this one right. -/
theorem frame {due' : List (Nat × job)} {completions' : Array (Completion value)}
    (kept : KeptAt events due completions ticket)
    (isDue : ∀ work, (ticket, work) ∈ due' ↔ (ticket, work) ∈ due)
    (shown : completions'[ticket]? = completions[ticket]?) (untaken : event.takenOff? ticket = none)
    (undone : ∀ work answer, event.done? ≠ some (ticket, work, answer)) :
    KeptAt (events ++ [event]) due' completions' ticket := by
  have told : told? (events ++ [event]) ticket = told? events ticket := by simp [told?_snoc, untaken]
  have done : ∀ work answer, (ticket, work, answer) ∈ WorkQueue.done (events ++ [event]) ↔
      (ticket, work, answer) ∈ WorkQueue.done events := by simp [done_snoc, undone]
  have handed : ∀ {work}, (ticket, work) ∈ WorkQueue.handed events →
      (ticket, work) ∈ WorkQueue.handed (events ++ [event]) := by
    simp +contextual [handed_snoc]
  constructor <;> simp only [told, done, shown, isDue]
  · exact fun work member => (kept.outstanding work member).imp_left handed
  · exact kept.pending
  · exact kept.ready
  · exact kept.told
  · exact fun work answer isDone => (kept.done work answer isDone).imp_left handed

section

variable (books : Kept events due completions)
include books

/-- The books do not mention what no holder learns of. -/
theorem silent (silent : event.Silent) : Kept (events ++ [event]) due completions where
  handed := by simp [handed_snoc, silent.handed, books.handed]
  distinct := books.distinct
  each ticket := frame (books.each ticket) (fun _ => Iff.rfl) rfl (silent.taken ticket)
    (by simp [silent.done])

theorem lt (isHanded : (ticket, work) ∈ WorkQueue.handed events) : ticket < completions.size := by
  rw [← List.mem_range, ← books.handed]
  exact List.mem_map_of_mem isHanded

theorem unique {other : job} (isHanded : (ticket, work) ∈ WorkQueue.handed events)
    (again : (ticket, other) ∈ WorkQueue.handed events) : other = work := by
  have distinct : ((WorkQueue.handed events).map Prod.fst).Nodup := by
    rw [books.handed]
    exact List.nodup_range
  cases List.inj_on_of_nodup_map distinct again isHanded rfl
  rfl

end

/-- Nothing is known of a ticket that is pending or is not there. -/
theorem unknown (kept : KeptAt events due completions ticket)
    (unsettled : ∀ c, completions[ticket]? = some c → c = .pending) :
    told? events ticket = none ∧ ∀ work answer, (ticket, work, answer) ∉ WorkQueue.done events := by
  have untold : told? events ticket = none := by
    by_contra isTold
    obtain ⟨outcome, isTold⟩ := Option.ne_none_iff_exists'.mp isTold
    cases unsettled _ (kept.told outcome isTold).1
  refine ⟨untold, fun work answer isDone => ?_⟩
  obtain ⟨-, isReady | isTold⟩ := kept.done work answer isDone
  · cases unsettled _ isReady
  · cases untold.symm.trans isTold

theorem hand (books : Kept events due completions) (work : job) :
    Kept (events ++ [.awaited work (some completions.size)]) (due ++ [(completions.size, work)])
      (completions.push .pending) := by
  obtain ⟨untold, undone⟩ := unknown (books.each completions.size) (by simp)
  have notDue : ∀ other, (completions.size, other) ∉ due := fun other member => by
    simpa using ((books.each _).outstanding other member).2
  refine ⟨by simp [handed_snoc, Event.handed?, books.handed, List.range_succ], ?_, fun ticket => ?_⟩
  · rw [List.map_append, List.map_singleton, List.nodup_append]
    refine ⟨books.distinct, List.nodup_singleton _, fun ticket isOlder other isNew same => ?_⟩
    obtain ⟨⟨_, other'⟩, member, rfl⟩ := List.mem_map.mp isOlder
    cases List.mem_singleton.mp isNew
    cases same
    exact notDue _ member
  · by_cases isNew : ticket = completions.size
    · subst isNew
      constructor <;>
        simp [told?_snoc, done_snoc, handed_snoc, Event.handed?, Event.done?, Event.takenOff?, untold, undone,
          notDue]
    · exact frame (books.each ticket) (by simp [isNew]) (by rw [Array.getElem?_push, if_neg isNew]) rfl
        (by simp [Event.done?])

theorem settle {outcome : Completion value}
    (books : Kept events ((ticket, work) :: due) completions)
    (settled : outcome ≠ .pending) (handed : event.handed? = none)
    (isDone : event.done? = outcome.answer?.map fun answer => (ticket, work, answer))
    (taken : ∀ ticket, event.takenOff? ticket = none) :
    Kept (events ++ [event]) due (completions.modify ticket (·.finish outcome)) := by
  obtain ⟨isHanded, isPending⟩ := (books.each ticket).outstanding work (by simp)
  obtain ⟨untold, undone⟩ := unknown (books.each ticket) (by simp [isPending])
  obtain ⟨unclaimed, distinct⟩ := List.nodup_cons.mp books.distinct
  refine ⟨by simp [handed_snoc, handed, books.handed], distinct, fun other => ?_⟩
  by_cases same : other = ticket
  · subst same
    have shown : (completions.modify other (·.finish outcome))[other]? = some outcome := by
      simp [Array.getElem?_modify, isPending, Completion.finish]
    constructor <;> simp only [told?_snoc, done_snoc, handed_snoc, isDone, taken, shown, untold]
    · exact fun work' member => absurd (List.mem_map_of_mem member) unclaimed
    · exact fun isPending' => absurd (Option.some.inj isPending') settled
    · rintro answer ⟨⟩
      exact ⟨rfl, work, by simp [Completion.answer?]⟩
    · simp
    · intro work' answer isDone'
      obtain ⟨isAnswer, rfl⟩ := by simpa [undone] using isDone'
      cases outcome <;> cases isAnswer
      exact ⟨List.mem_append_left _ isHanded, .inl rfl⟩
  · have differs : ticket ≠ other := Ne.symm same
    exact frame (books.each other) (by simp [same]) (by rw [Array.getElem?_modify, if_neg differs]) (taken other)
      (by rw [isDone]; cases outcome.answer? <;> simp [differs])

theorem take (books : Kept events due completions) {c : Completion value}
    {outcome : Option value} {rest : Completion value} (shown : completions[ticket]? = some c)
    (taken : c.take? = some (outcome, rest)) :
    Kept (events ++ [.taken ticket outcome]) due (completions.set! ticket rest) := by
  have inside : ticket < completions.size := (Array.getElem?_eq_some_iff.mp shown).1
  refine ⟨by simp [handed_snoc, Event.handed?, books.handed], books.distinct, fun other => ?_⟩
  have kept := books.each other
  by_cases same : other = ticket
  · subst same
    have isDropped : (completions.set! other rest)[other]? = some .dropped := by
      cases c <;> cases taken <;> simp [inside]
    constructor <;>
      simp only [told?_snoc, done_snoc, handed_snoc, isDropped, Event.handed?, Event.done?, Event.takenOff?,
        Option.toList_none, List.append_nil, if_true]
    · intro work member
      cases shown.symm.trans (kept.outstanding work member).2
      cases taken
    · nofun
    · nofun
    · intro outcome' isTold
      refine ⟨trivial, fun answer isAnswer => ?_⟩
      obtain isTold | ⟨-, ⟨⟩⟩ := Option.or_eq_some_iff.mp isTold
      · exact (kept.told outcome' isTold).2 answer isAnswer
      · subst isAnswer
        cases c <;> cases taken
        exact (kept.ready answer shown).2
    · intro work answer isDone
      obtain ⟨isHanded, isReady | isTold⟩ := kept.done work answer isDone
      · cases shown.symm.trans isReady
        cases taken
        exact ⟨isHanded, .inr (by rw [(kept.ready answer isReady).1]; rfl)⟩
      · exact ⟨isHanded, .inr (by rw [isTold]; rfl)⟩
  · have differs : ticket ≠ other := Ne.symm same
    refine frame kept (fun _ => Iff.rfl) ?_ (if_neg differs) (by simp [Event.done?])
    rw [Array.set!_eq_setIfInBounds, Array.getElem?_setIfInBounds, if_neg differs]

section Moving

variable {q r : WorkQueue job value}

theorem unmoved (books : Kept events q.outstanding q.completions) (silent : event.Silent)
    (same : r.outstanding = q.outstanding) (shown : r.completions = q.completions) :
    Kept (events ++ [event]) r.outstanding r.completions := by
  rw [same, shown]
  exact books.silent silent

/-- The oldest order comes to something, and whoever has its ticket can see that. -/
theorem deliver (books : Kept events q.outstanding q.completions) (order : Order job)
    (outcome : Completion value) (oldest : q.unsettled = order :: r.unsettled)
    (shown : r.completions = (q.deliver order.ticket outcome).completions)
    (settled : outcome ≠ .pending) (handed : event.handed? = none)
    (isDone : event.done? = order.due?.bind fun (ticket, work) => outcome.answer?.map fun answer =>
      (ticket, work, answer)) (taken : ∀ ticket, event.takenOff? ticket = none) :
    Kept (events ++ [event]) r.outstanding r.completions := by
  rw [shown]
  obtain ⟨work, ticket⟩ := order
  rw [WorkQueue.outstanding, oldest] at books
  cases ticket with
  | none => exact books.silent ⟨handed, isDone, taken⟩
  | some ticket => exact books.settle settled handed isDone taken

end Moving

end Kept

namespace Floor

variable {events : List (Event job value)} {event : Event job value} {s t : Floor job value}
variable {q : WorkQueue job value} {ticket : Nat} {answer : value}

theorem kept_step (books : Kept events s.queue.outstanding s.queue.completions)
    (step : Step s event t) : Kept (events ++ [event]) t.queue.outstanding t.queue.completions := by
  cases step with
  | submit work =>
    unfold submit
    split
    · exact books.silent ⟨rfl, rfl, fun _ => rfl⟩
    · exact books.unmoved ⟨rfl, rfl, fun _ => rfl⟩ (by simp [outstanding, unsettled, Order.due?]) rfl
  | await work =>
    unfold submitAwaited
    split
    · exact books.silent ⟨rfl, rfl, fun _ => rfl⟩
    · simpa [outstanding, unsettled, Order.due?] using books.hand work
  | take ticket shown =>
    obtain ⟨c, isShown, rest, taken, rfl⟩ := by
      simpa [take?, Option.bind_eq_some_iff] using shown
    exact books.take isShown taken
  | start waits =>
    obtain ⟨idle, oldest, same⟩ := start?_eq_some waits
    rw [same]
    refine books.unmoved ⟨rfl, rfl, fun _ => rfl⟩ ?_ rfl
    simp [outstanding, unsettled, idle, oldest, current, left]
  | @finish order answer runs _ =>
    rw [finish_eq runs]
    refine books.deliver order (.ready answer) ?_ rfl (by rintro ⟨⟩) rfl ?_ fun _ => rfl
    · simp [unsettled, runs, current, left]
    · cases isDue : order.due? <;> simp [Event.done?, isDue, Completion.answer?]
  | @breakOff order runs _ =>
    rw [breakOff_eq runs]
    refine books.deliver order .dropped ?_ rfl (by rintro ⟨⟩) rfl (by cases order.due? <;> rfl) fun _ => rfl
    simp [unsettled, runs, current, left]
  | retire idle empty closed =>
    rw [retire_eq idle empty closed]
    refine books.unmoved ⟨rfl, rfl, fun _ => rfl⟩ ?_ rfl
    simp [idle, outstanding, unsettled, current, left]
  | close leaving =>
    rw [close_eq leaving]
    refine books.unmoved ⟨rfl, rfl, fun _ => rfl⟩ ?_ rfl
    simp [leaving, outstanding, unsettled, current, left]
  | @clear left clearing =>
    cases left with
    | nil =>
      refine books.unmoved ⟨rfl, rfl, fun _ => rfl⟩ ?_ (by simp [clear, clearing])
      simp [clear, clearing, outstanding, unsettled, current, left]
    | cons order rest =>
      refine books.deliver order .dropped ?_ (by simp [clear, clearing]) (by rintro ⟨⟩) rfl (by cases order.due? <;> rfl)
        fun _ => rfl
      simp [unsettled, clearing, clear, current, left]
  | ask | askInside | turnAway | wait | joined | followed => exact books.silent ⟨rfl, rfl, fun _ => rfl⟩

/-- The books of the tickets are right after every run. -/
theorem Run.kept (run : Run {} events s) : Kept events s.queue.outstanding s.queue.completions := by
  induction run with
  | refl => exact .start
  | step _ step ih => exact kept_step ih step

/-- What the tickets of a queue come to. -/
structure Fair (events : List (Event job value)) (s : Floor job value) : Prop where
  /-- A ticket is handed out once. -/
  apart : ((handed events).map Prod.fst).Nodup
  /-- An answer that is shown is that of the ticket's own job. -/
  shown : ∀ ticket work answer, (ticket, work) ∈ handed events →
    s.queue.completions[ticket]? = some (.ready answer) → (ticket, work, answer) ∈ done events
  /-- Whoever is told of an outcome is told the answer of its job, or nothing if the job was not
  done. -/
  told : ∀ ticket work outcome, (ticket, work) ∈ handed events → told? events ticket = some outcome →
    ∀ answer, outcome = some answer ↔ (ticket, work, answer) ∈ done events
  /-- A worker that is gone leaves no ticket behind that shows nothing. -/
  settled : s.queue.worker = .gone → ∀ ticket : Nat, s.queue.completions[ticket]? ≠ some .pending
  /-- Whoever holds a ticket can take an outcome off it as soon as it shows one. -/
  woken : ∀ ticket work, (ticket, work) ∈ handed events →
    ((∃ outcome t, Step s (.taken ticket outcome) t) ↔ s.queue.completions[ticket]? ≠ some .pending)
  /-- Only tickets that have been handed out are waited for, and a refused job gets none. -/
  holders : ∀ ticket outcome, .taken ticket outcome ∈ events → ∃ work, (ticket, work) ∈ handed events
  refused : ∀ work t, Step s (.awaited work none) t → t = s
  /-- An answer is shown until it is taken, whatever else is delivered. -/
  kept : ∀ (ticket : Nat) answer, s.queue.completions[ticket]? = some (.ready answer) →
    (∀ outcome, s.queue.deliver (some ticket) outcome = s.queue) ∧
    ∀ event t, Step s event t → t.queue.completions[ticket]? = some (.ready answer) ∨
      event = .taken ticket (some answer)

/-- A ticket that shows something can be taken. -/
theorem woken_iff (inside : ticket < s.queue.completions.size) :
    (∃ outcome t, Step s (.taken ticket outcome) t) ↔
      s.queue.completions[ticket]? ≠ some .pending := by
  have found := Array.getElem?_eq_getElem inside
  constructor
  · rintro ⟨outcome, t, step⟩ isPending
    cases step with
    | take _ shown => simp [take?, isPending, Completion.take?] at shown
  · intro settled
    cases isCompletion : s.queue.completions[ticket] with
    | pending => exact absurd (found.trans (congrArg some isCompletion)) settled
    | ready | dropped => exact ⟨_, _, .take ticket (by simp only [take?, found, isCompletion]; rfl)⟩

/-- An answer that is shown stays when something is delivered, to this ticket or another. -/
theorem shown_deliver (shown : q.completions[ticket]? = some (.ready answer)) (other : Option Nat)
    (outcome : Completion value) :
    (q.deliver other outcome).completions[ticket]? = some (.ready answer) := by
  cases other with
  | none => exact shown
  | some other =>
    simp only [WorkQueue.deliver, Array.getElem?_modify, shown]
    split <;> rfl

/-- Nothing happens when something is delivered to a ticket that shows an answer. -/
theorem deliver_shown (shown : q.completions[ticket]? = some (.ready answer))
    (outcome : Completion value) : q.deliver (some ticket) outcome = q := by
  have same : q.completions.modify ticket (·.finish outcome) = q.completions := by
    refine Array.ext_getElem? fun other => ?_
    rw [Array.getElem?_modify]
    split
    · subst other
      rw [shown]
      rfl
    · rfl
  simp [deliver, same]

theorem Step.shown {ticket : Nat} (step : Step s event t)
    (shown : s.queue.completions[ticket]? = some (.ready answer)) :
    t.queue.completions[ticket]? = some (.ready answer) ∨ event = .taken ticket (some answer) := by
  cases step with
  | submit work =>
    refine .inl ?_
    unfold WorkQueue.submit
    split <;> exact shown
  | await work =>
    refine .inl ?_
    unfold WorkQueue.submitAwaited
    split
    · exact shown
    · rw [Array.getElem?_push, if_neg, shown]
      rintro rfl
      simp at shown
  | take other isTaken =>
    obtain ⟨c, isShown, rest, taken, rfl⟩ := by
      simpa [take?, Option.bind_eq_some_iff] using isTaken
    by_cases same : other = ticket
    · subst same
      cases shown.symm.trans isShown
      cases taken
      exact .inr rfl
    · refine .inl ?_
      rw [Array.getElem?_setIfInBounds, if_neg same]
      exact shown
  | start waits => exact .inl ((start?_eq_some waits).2.2 ▸ shown)
  | finish answer runs _ => exact .inl (finish_eq runs answer ▸ shown_deliver shown _ _)
  | breakOff runs _ => exact .inl (breakOff_eq runs ▸ shown_deliver shown _ _)
  | retire idle empty closed => exact .inl (retire_eq idle empty closed ▸ shown)
  | close leaving => exact .inl (close_eq leaving ▸ shown)
  | @clear left clearing =>
    refine .inl ?_
    simp only [WorkQueue.clear, clearing]
    cases left with
    | nil => exact shown
    | cons order rest => exact shown_deliver shown _ _
  | _ => exact .inl shown

/-- A job that is refused leaves nothing behind to wait for. -/
theorem Step.refused {work : job} {ticket : Option Nat} (step : Step s (.awaited work ticket) t)
    (refused : ticket = none) : t = s := by
  cases step with
  | await _ =>
    unfold WorkQueue.submitAwaited at refused ⊢
    split at refused
    · rw [if_pos (by assumption)]
    · cases refused

/-- Tickets come to what they should in every run. -/
theorem Run.fair (run : Run {} events s) : Fair events s := by
  have books := run.kept
  have own : ∀ {ticket work work' answer}, (ticket, work) ∈ handed events →
      (ticket, work', answer) ∈ done events → (ticket, work, answer) ∈ done events := by
    intro ticket work work' answer isHanded isDone
    rwa [← books.unique isHanded ((books.each _).done _ _ isDone).1]
  constructor
  case apart =>
    rw [books.handed]
    exact List.nodup_range
  case shown =>
    intro ticket work answer isHanded isReady
    obtain ⟨-, work', isDone⟩ := (books.each ticket).ready answer isReady
    exact own isHanded isDone
  case told =>
    intro ticket work outcome isHanded isTold answer
    obtain ⟨isDropped, answered⟩ := (books.each ticket).told outcome isTold
    constructor
    · intro isAnswer
      obtain ⟨work', isDone⟩ := answered answer isAnswer
      exact own isHanded isDone
    · intro isDone
      obtain ⟨-, isReady | isTold'⟩ := (books.each ticket).done work answer isDone
      · cases isDropped.symm.trans isReady
      · exact Option.some.inj (isTold.symm.trans isTold')
  case settled =>
    intro gone ticket isPending
    obtain ⟨work, member⟩ := (books.each ticket).pending isPending
    have empty : s.queue.waiting = [] := (run.emptied (by rw [gone]; rfl)).2
    simp [outstanding, unsettled, gone, empty, current, left] at member
  case woken => exact fun ticket work isHanded => woken_iff (books.lt isHanded)
  case holders =>
    intro ticket outcome isTaken
    obtain ⟨first, isTold⟩ : ∃ first, told? events ticket = some first := by
      rw [← Option.isSome_iff_exists]
      exact List.findSome?_isSome_iff.mpr ⟨_, isTaken, by simp [Event.takenOff?]⟩
    have inside := (Array.getElem?_eq_some_iff.mp ((books.each ticket).told first isTold).1).1
    rw [← List.mem_range, ← books.handed] at inside
    obtain ⟨⟨_, work⟩, member, rfl⟩ := List.mem_map.mp inside
    exact ⟨work, member⟩
  case refused => exact fun work t step => step.refused rfl
  case kept => exact fun ticket answer shown => ⟨deliver_shown shown, fun event t step => step.shown shown⟩

end Floor

/-- How far a worker has come that begins. -/
inductive Stage (σ : Type) where
  | building
  | preparing (state : σ)
  /-- It has answered, or has died before that. -/
  | begun

/-- A worker that begins, and whoever waits for it. -/
structure Start (σ : Type) where
  stage : Stage σ := .building
  reply : Completion (Except RunError Unit) := .pending
  /-- What whoever asked for the queue has been told. -/
  returned : Option (Except RunError Unit) := none

namespace Start

variable {σ : Type} {build : Except (Stop RunError) σ} {setup : σ → Except (Stop RunError) σ}
variable {s t : Start σ}

/-- What a worker is about to get. -/
def attempt? (build : Except (Stop RunError) σ) (setup : σ → Except (Stop RunError) σ) :
    Stage σ → Option (Except (Stop RunError) σ)
  | .building => some build
  | .preparing state => some (setup state)
  | .begun => none

/-- One move of the worker or of whoever waits for it. -/
inductive Step (build : Except (Stop RunError) σ) (setup : σ → Except (Stop RunError) σ) (s : Start σ) :
    Start σ → Prop where
  | built {state : σ} (building : s.stage = .building) (isBuilt : build = .ok state) :
      Step build setup s { s with stage := .preparing state }
  | prepared {state state' : σ} (preparing : s.stage = .preparing state) (isSet : setup state = .ok state') :
      Step build setup s { s with stage := .begun, reply := s.reply.finish (.ready (.ok ())) }
  | failed {error : RunError} (raised : attempt? build setup s.stage = some (.error (.raised error))) :
      Step build setup s { s with stage := .begun, reply := s.reply.finish (.ready (.error error)) }
  /-- The worker dies, and lets go of the reply that it has not sent. -/
  | died {violation : Violation} (broken : attempt? build setup s.stage = some (.error (.broken violation))) :
      Step build setup s { s with stage := .begun, reply := s.reply.finish .dropped }
  /-- The worker lets go of the reply that it has sent. -/
  | released (begun : s.stage = .begun) : Step build setup s { s with reply := s.reply.finish .dropped }
  | returned {outcome : Option (Except RunError Unit)} {rest : Completion (Except RunError Unit)}
      (waits : s.returned = none) (shown : s.reply.take? = some (outcome, rest)) :
      Step build setup s { s with reply := rest, returned := some (outcome.getD (.error .workerDied)) }

/-- How building and preparing end, if they end. -/
inductive Verdict (build : Except (Stop RunError) σ) (setup : σ → Except (Stop RunError) σ) :
    Option (Except RunError Unit) → Prop where
  | ready {state : σ} (isReady : (build >>= setup) = .ok state) : Verdict build setup (some (.ok ()))
  | failed {error : RunError} (raised : (build >>= setup) = .error (.raised error)) :
      Verdict build setup (some (.error error))
  | died {violation : Violation} (broken : (build >>= setup) = .error (.broken violation)) :
      Verdict build setup none

/-- What a reply shows of an outcome. -/
def showing : Option (Except RunError Unit) → Completion (Except RunError Unit)
  | some answer => .ready answer
  | none => .dropped

/-- The reply is right, as long as it has not been taken, and so is what has been told. -/
inductive Right (build : Except (Stop RunError) σ) (setup : σ → Except (Stop RunError) σ) :
    Start σ → Prop where
  | building : Right build setup { stage := .building }
  | preparing {state : σ} (isBuilt : build = .ok state) : Right build setup { stage := .preparing state }
  | waits {outcome : Option (Except RunError Unit)} (verdict : Verdict build setup outcome) :
      Right build setup { stage := .begun, reply := showing outcome }
  | told {outcome : Option (Except RunError Unit)} (verdict : Verdict build setup outcome) : Right build setup
        { stage := .begun, reply := .dropped, returned := some (outcome.getD (.error .workerDied)) }

theorem take?_showing {outcome answer : Option (Except RunError Unit)}
    {rest : Completion (Except RunError Unit)}
    (shown : (showing outcome).take? = some (answer, rest)) :
    answer = outcome ∧ rest = .dropped := by
  cases outcome <;> cases shown <;> exact ⟨rfl, rfl⟩

theorem finish_showing (outcome : Option (Except RunError Unit))
    (other : Completion (Except RunError Unit)) :
    (showing outcome).finish other = showing outcome := by
  cases outcome <;> rfl

theorem Right.step (right : Right build setup s) (step : Step build setup s t) :
    Right build setup t := by
  cases right with
  | building =>
    cases step with
    | built _ isBuilt => exact .preparing isBuilt
    | prepared preparing => cases preparing
    | failed raised => exact .waits (.failed (by rw [Option.some.inj raised]; rfl))
    | died broken => exact .waits (.died (by rw [Option.some.inj broken]; rfl))
    | released begun => cases begun
    | returned _ shown => cases shown
  | preparing isBuilt =>
    subst isBuilt
    cases step with
    | built building => cases building
    | prepared preparing isSet =>
      cases preparing
      exact .waits (.ready isSet)
    | failed raised =>
      have raised : setup _ = _ := Option.some.inj raised
      exact .waits (.failed raised)
    | died broken =>
      have broken : setup _ = _ := Option.some.inj broken
      exact .waits (.died broken)
    | released begun => cases begun
    | returned _ shown => cases shown
  | waits verdict =>
    cases step with
    | built building => cases building
    | prepared preparing => cases preparing
    | failed raised => cases raised
    | died broken => cases broken
    | released _ =>
      simp only [finish_showing]
      exact .waits verdict
    | returned _ shown =>
      obtain ⟨rfl, rfl⟩ := take?_showing shown
      exact .told verdict
  | told verdict =>
    cases step with
    | built building => cases building
    | prepared preparing => cases preparing
    | failed raised => cases raised
    | died broken => cases broken
    | released _ => exact .told verdict
    | returned waits => cases waits

/-- What whoever waits for a worker to begin is told. -/
structure Fair (build : Except (Stop RunError) σ) (setup : σ → Except (Stop RunError) σ) (s : Start σ) :
    Prop where
  launched : ∀ result, s.returned = some result → result = (launch build setup).map fun _ => ()
  ready : ∀ result, s.returned = some result → (result = .ok () ↔ ∃ state, (build >>= setup) = .ok state)
  failed : ∀ result, s.returned = some result → ∀ error, result = .error error ↔
    (build >>= setup) = .error (.raised error) ∨
      error = .workerDied ∧ ∃ violation, (build >>= setup) = .error (.broken violation)
  /-- Once the worker has answered or died, nobody has to wait any longer. -/
  woken : s.stage = .begun → s.returned = none → ∃ t, Step build setup s t ∧ t.returned.isSome

theorem Right.fair (right : Right build setup s) : Fair build setup s := by
  have returned : ∀ result, s.returned = some result →
      ∃ outcome, Verdict build setup outcome ∧ result = outcome.getD (.error .workerDied) := by
    intro result isResult
    cases right with
    | told verdict => exact ⟨_, verdict, (Option.some.inj isResult).symm⟩
    | _ => cases isResult
  constructor
  case launched =>
    intro result isResult
    obtain ⟨outcome, verdict, rfl⟩ := returned result isResult
    cases verdict <;> simp_all [launch, Except.map]
  case ready =>
    intro result isResult
    obtain ⟨outcome, verdict, rfl⟩ := returned result isResult
    cases verdict <;> simp_all
  case failed =>
    intro result isResult error
    obtain ⟨outcome, verdict, rfl⟩ := returned result isResult
    cases verdict <;> simp_all [eq_comm]
  case woken =>
    intro begun waits
    cases right with
    | @waits outcome verdict =>
      cases outcome <;> exact ⟨_, .returned rfl rfl, rfl⟩
    | told verdict => cases waits
    | _ => cases begun

/-- Whoever waits for a worker to begin is told how that went, in every interleaving. -/
theorem fair_of_steps (begins : Relation.ReflTransGen (Step build setup) {} s) :
    Fair build setup s := by
  suffices right : Right build setup s from right.fair
  induction begins with
  | refl => exact .building
  | tail _ step ih => exact ih.step step

end Start

/-- Nobody waits in vain, and nobody is told what is not so: neither the holder of a ticket, in any
interleaving of submissions, jobs, and ends, nor whoever waits for the worker to begin. -/
theorem submitters_told {σ : Type} {events : List (Event job value)} {s : Floor job value}
    (run : Floor.Run {} events s) {build : Except (Stop RunError) σ}
    {setup : σ → Except (Stop RunError) σ} {start : Start σ}
    (begins : Relation.ReflTransGen (Start.Step build setup) {} start) :
    Floor.Fair events s ∧ Start.Fair build setup start :=
  ⟨run.fair, Start.fair_of_steps begins⟩

/-- Of three jobs that are waited for one is done, one is broken off, and one is dropped by the
worker on its way out. -/
def brokenOffHistory : List (Event Nat Nat) :=
  [.awaited 7 (some 0), .awaited 8 (some 1), .awaited 9 (some 2), .started ⟨7, some 0⟩,
    .finished ⟨7, some 0⟩ 70, .started ⟨8, some 1⟩, .taken 0 (some 70), .brokeOff ⟨8, some 1⟩, .closed,
    .awaited 6 none, .cleared, .cleared, .taken 1 none]

def brokenOffEnd : Floor Nat Nat where
  queue := { closed := true, worker := .gone, completions := #[.dropped, .dropped, .dropped] }

theorem run_brokenOff : Floor.Run {} brokenOffHistory brokenOffEnd := by
  have begun := (((@Floor.Run.refl Nat Nat {}).step (.await 7)).step (.await 8)).step (.await 9)
  have done := (((begun.step (.start rfl)).step (.finish 70 rfl rfl)).step (.start rfl)).step (.take 0 rfl)
  have broken := ((done.step (.breakOff rfl rfl)).step (.close rfl)).step (.await 6)
  exact ((broken.step (.clear rfl)).step (.clear rfl)).step (.take 1 rfl)

/-- A worker that dies while it is prepared. -/
theorem begins_dying :
    Relation.ReflTransGen (Start.Step (.ok 3) fun _ : Nat => .error (.broken .capacityOverflow)) {}
      { stage := .begun, reply := .dropped, returned := some (.error .workerDied) } :=
  ((Relation.ReflTransGen.refl.tail (.built rfl rfl)).tail (.died rfl)).tail
    (@Start.Step.returned _ _ _ _ none .dropped rfl rfl)

theorem submitters_told_brokenOff :
    (∀ answer, some 70 = some answer ↔ (0, 7, answer) ∈ done brokenOffHistory) ∧
    (∀ answer, none = some answer ↔ (1, 8, answer) ∈ done brokenOffHistory) ∧
    (∀ ticket : Nat, brokenOffEnd.queue.completions[ticket]? ≠ some .pending) ∧
    .error .workerDied =
      (launch (.ok 3) fun _ : Nat => .error (.broken .capacityOverflow)).map fun _ => () := by
  obtain ⟨fair, begun⟩ := submitters_told run_brokenOff begins_dying
  exact ⟨fair.told 0 7 (some 70) (by decide) (by decide), fair.told 1 8 none (by decide) (by decide),
    fair.settled rfl, begun.launched _ rfl⟩

end WorkQueue

end ObjectMachine
