/-
# ObjectMachine.Proofs.Crews -- tasks that attach each other

What matters about a task is who attached it and what its stack is up to: its `Posting`. A running
call has a line of tasks, each attached by the next, of which the first runs and the others are
parked; the last has been attached by nobody. Every other task has finished, or is parked and
attached by nobody. `Roster.Lined` says so, and has one rule for each thing that happens: a task is
attached, gives up its place in the line, or moves with all objects.

A `Crew` is what a heap says about tasks and the status of stacks. Postings are read off it, and
where every task has a stack of its own a change of one status is a change of one posting.

* `Roster.Lined.attach`, `Roster.Lined.withdraw`, `Roster.Lined.moves` -- what happens to a line.
* `Heap.Passes.moves` -- postings move with their tasks.
* `Heap.isAttached_eq`, `Heap.abandonFrom_ok` -- walks down the line end at its last task.
-/
import Mathlib
import ObjectMachine.Proofs.Forming

namespace ObjectMachine

open Function (update update_of_ne update_self)

/-- Who attached a task, and what its stack is up to. -/
structure Posting where
  caller : Value
  status : StackStatus
  deriving DecidableEq

/-- The task has finished, or is parked and attached by nobody. -/
def Posting.Idle (null : Ref) (post : Posting) : Prop := post.status = .empty ∨ post = ⟨.object null, .parked⟩

/-- The tasks of a heap. -/
abbrev Roster := Ref → Option Posting

namespace Roster

variable {p p' : Roster} {null r q : Ref} {status : StackStatus} {tasks : List Ref}

/-- Tasks that are attached each by the next. The first has the given status, those below it are
parked, and the last has been attached by nobody. -/
inductive Line (p : Roster) (null : Ref) : StackStatus → List Ref → Prop
  | last {status : StackStatus} {r : Ref} (posted : p r = some ⟨.object null, status⟩) :
    Line p null status [r]
  | attached {status : StackStatus} {r caller : Ref} {rest : List Ref}
    (posted : p r = some ⟨.object caller, status⟩) (below : Line p null .parked (caller :: rest)) :
    Line p null status (r :: caller :: rest)

/-- Tasks are in line, and those that are not are idle. -/
structure Lined (p : Roster) (null : Ref) (status : StackStatus) (tasks : List Ref) : Prop where
  line : p.Line null status tasks
  nodup : tasks.Nodup
  others : ∀ r post, p r = some post → r ∉ tasks → post.Idle null

/-- No task is in line. -/
def Settled (p : Roster) (null : Ref) : Prop := ∀ r post, p r = some post → post.Idle null

/-- Tasks that have finished have finished for good. -/
def KeepsFinished (p p' : Roster) : Prop :=
  ∀ r caller, p r = some ⟨caller, .empty⟩ → ∃ caller', p' r = some ⟨caller', .empty⟩

namespace Line

theorem ne_nil (line : p.Line null status tasks) : tasks ≠ [] := by
  cases line <;> simp

theorem posted {rest : List Ref} (line : p.Line null status (r :: rest)) :
    p r = some ⟨.object (rest.headD null), status⟩ := by
  cases line with
  | last posted => exact posted
  | attached posted _ => exact posted

theorem tail {rest : List Ref} (line : p.Line null status (r :: rest)) (more : rest ≠ []) :
    p.Line null .parked rest := by
  cases line with
  | last => exact absurd rfl more
  | attached _ below => exact below

theorem member (line : p.Line null status tasks) (member : r ∈ tasks) :
    ∃ post, p r = some post := by
  induction line with
  | last posted =>
    obtain rfl := List.mem_singleton.mp member
    exact ⟨_, posted⟩
  | attached posted _ ih =>
    obtain rfl | member := List.mem_cons.mp member
    · exact ⟨_, posted⟩
    · exact ih member

theorem congr (line : p.Line null status tasks) (same : ∀ r ∈ tasks, p' r = p r) :
    p'.Line null status tasks := by
  induction line with
  | last posted => exact .last ((same _ List.mem_cons_self).trans posted)
  | attached posted _ ih =>
    exact .attached ((same _ List.mem_cons_self).trans posted)
      (ih fun r member => same r (List.mem_cons_of_mem _ member))

theorem update {rest : List Ref} (line : p.Line null status (r :: rest)) (absent : r ∉ rest)
    (status' : StackStatus) :
    Line (update p r (some ⟨.object (rest.headD null), status'⟩)) null status' (r :: rest) := by
  cases line with
  | last => exact .last (by simp)
  | attached _ below =>
    refine .attached (by simp) (below.congr fun q member => update_of_ne ?_ _ _)
    rintro rfl
    exact absent member

end Line

namespace Lined

variable {rest : List Ref}

theorem setStatus (lined : p.Lined null status (r :: rest)) (status' : StackStatus) :
    Lined (update p r (some ⟨.object (rest.headD null), status'⟩)) null status' (r :: rest) where
  line := lined.line.update (List.nodup_cons.mp lined.nodup).1 status'
  nodup := lined.nodup
  others := by
    intro q post posted absent
    have differs : q ≠ r := fun same => absent (same ▸ List.mem_cons_self)
    rw [update_of_ne differs] at posted
    exact lined.others q post posted absent

theorem attach (lined : p.Lined null status (r :: rest)) (absent : q ∉ r :: rest) :
    Lined (update (update p q (some ⟨.object r, .parked⟩)) r
      (some ⟨.object (rest.headD null), .parked⟩)) null .parked (q :: r :: rest) where
  line := by
    have differs : q ≠ r := fun same => absent (same ▸ List.mem_cons_self)
    have parked := lined.line.update (List.nodup_cons.mp lined.nodup).1 .parked
    refine .attached ?_ (parked.congr fun o member => ?_)
    · rw [update_of_ne differs, update_self]
    · have other : o ≠ q := fun same => absent (same ▸ member)
      rw [Function.update_comm differs, update_of_ne other]
  nodup := List.nodup_cons.mpr ⟨absent, lined.nodup⟩
  others := by
    intro o post posted outside
    obtain ⟨first, second⟩ : o ≠ q ∧ o ∉ r :: rest := by simpa [not_or] using outside
    have differs : o ≠ r := fun same => second (same ▸ List.mem_cons_self)
    rw [update_of_ne differs, update_of_ne first] at posted
    exact lined.others o post posted second

theorem withdraw {post : Posting} (lined : p.Lined null status (r :: q :: rest))
    (idle : post.Idle null) : Lined (update p r (some post)) null .parked (q :: rest) where
  line := by
    refine (lined.line.tail (by simp)).congr fun o member => update_of_ne ?_ _ _
    rintro rfl
    exact (List.nodup_cons.mp lined.nodup).1 member
  nodup := (List.nodup_cons.mp lined.nodup).2
  others := by
    intro o found posted absent
    by_cases here : o = r
    · subst here
      rw [update_self] at posted
      cases posted
      exact idle
    · rw [update_of_ne here] at posted
      exact lined.others o found posted (by simpa [here] using absent)

theorem post {post : Posting} (lined : p.Lined null status tasks) (outside : q ∉ tasks)
    (idle : post.Idle null) : Lined (update p q (some post)) null status tasks where
  line := by
    refine lined.line.congr fun o member => update_of_ne ?_ _ _
    rintro rfl
    exact outside member
  nodup := lined.nodup
  others := by
    intro o found posted absent
    by_cases here : o = q
    · subst here
      rw [update_self] at posted
      cases posted
      exact idle
    · rw [update_of_ne here] at posted
      exact lined.others o found posted absent

theorem dissolve {post : Posting} (lined : p.Lined null status [r]) (idle : post.Idle null) :
    Settled (update p r (some post)) null := by
  intro o found posted
  by_cases here : o = r
  · subst here
    rw [update_self] at posted
    cases posted
    exact idle
  · rw [update_of_ne here] at posted
    exact lined.others o found posted (by simpa using here)

end Lined

/-- A call starts a line with a task that waits. -/
theorem Settled.lined (settled : p.Settled null) (posted : p r = some ⟨.object null, .parked⟩) :
    p.Lined null .parked [r] :=
  ⟨.last posted, List.nodup_singleton r, fun q post found _ => settled q post found⟩

namespace KeepsFinished

theorem refl (p : Roster) : p.KeepsFinished p := fun _ caller finished => ⟨caller, finished⟩

theorem update {post : Posting} (other : Option Posting) (posted : p r = some post)
    (unfinished : post.status ≠ .empty) : p.KeepsFinished (update p r other) := by
  intro q caller finished
  have differs : q ≠ r := by
    rintro rfl
    cases posted.symm.trans finished
    exact unfinished rfl
  exact ⟨caller, (update_of_ne differs _ _).trans finished⟩

theorem finish (r : Ref) (caller : Value) :
    p.KeepsFinished (Function.update p r (some ⟨caller, .empty⟩)) := by
  intro q other finished
  by_cases here : q = r
  · exact ⟨caller, by rw [here, update_self]⟩
  · exact ⟨other, (update_of_ne here _ _).trans finished⟩

end KeepsFinished

/-- What becomes of postings when tasks move: `kept` are those that were not given up, and `place`
says where they have gone. New tasks have finished. -/
structure Moves (null : Ref) (kept : Ref → Prop) (place : Ref → Ref) (p p' : Roster) : Prop where
  injective : ∀ r s, kept r → kept s → place r = place s → r = s
  posted : ∀ r post, kept r → p r = some post → p' (place r) = some ⟨post.caller.move place, post.status⟩
  mentions : ∀ r post q, kept r → p r = some post → post.caller = .object q → kept q
  back : ∀ r' post', p' r' = some post' →
    (∃ r post, kept r ∧ place r = r' ∧ p r = some post) ∨ post'.status = .empty

namespace Moves

variable {kept : Ref → Prop} {place : Ref → Ref}

variable (moves : Moves null kept place p p')
include moves

/-- Whoever keeps the first task of a line keeps them all. -/
theorem kept_line (line : p.Line null status tasks) (first : ∀ r, tasks.head? = some r → kept r) :
    ∀ r ∈ tasks, kept r := by
  induction line with
  | last =>
    intro q member
    obtain rfl := List.mem_singleton.mp member
    exact first _ rfl
  | attached posted _ ih =>
    have rest := ih fun q isFirst => moves.mentions _ _ q (first _ rfl) posted (by
      cases isFirst
      rfl)
    intro q member
    obtain rfl | member := List.mem_cons.mp member
    · exact first _ rfl
    · exact rest q member

theorem line (line : p.Line null status tasks) (all : ∀ r ∈ tasks, kept r) :
    p'.Line (place null) status (tasks.map place) := by
  induction line with
  | last posted => exact .last (moves.posted _ _ (all _ List.mem_cons_self) posted)
  | attached posted _ ih =>
    exact .attached (moves.posted _ _ (all _ List.mem_cons_self) posted)
      (ih fun r member => all r (List.mem_cons_of_mem _ member))

/-- A task that is idle stays so where it goes. -/
theorem idle {post' : Posting} (posted' : p' q = some post')
    (before : ∀ r post, kept r → place r = q → p r = some post → post.Idle null) :
    post'.Idle (place null) := by
  obtain ⟨r, post, isKept, rfl, posted⟩ | finished := moves.back q post' posted'
  · cases (moves.posted r post isKept posted).symm.trans posted'
    obtain finished | rfl := before r post isKept rfl posted
    · exact .inl finished
    · exact .inr rfl
  · exact .inl finished

end Moves

theorem Lined.moves {kept : Ref → Prop} {place : Ref → Ref} (lined : p.Lined null status tasks)
    (moves : Moves null kept place p p') (first : ∀ r, tasks.head? = some r → kept r) :
    p'.Lined (place null) status (tasks.map place) := by
  have all := moves.kept_line lined.line first
  refine ⟨moves.line lined.line all, ?_, fun q post' posted' absent => ?_⟩
  · exact lined.nodup.map_on fun r member s member' same =>
      moves.injective r s (all r member) (all s member') same
  · refine moves.idle posted' ?_
    rintro r post - rfl posted
    exact lined.others r post posted fun member => absent (List.mem_map_of_mem member)

theorem Settled.moves {kept : Ref → Prop} {place : Ref → Ref} (settled : p.Settled null)
    (moves : Moves null kept place p p') : p'.Settled (place null) :=
  fun _ _ posted' => moves.idle posted' fun r post _ _ posted => settled r post posted

end Roster

/-- What a heap says about tasks: their data, and the status of stacks. -/
structure Crew where
  tasks : Value → Option Task
  statuses : Value → Option StackStatus

namespace Crew

variable {c : Crew} {t : Task} {v : Value} {r : Ref} {status : StackStatus}

/-- Another status for a stack. -/
def setStatus (c : Crew) (stack : Value) (status : StackStatus) : Crew :=
  { c with statuses := update c.statuses stack (some status) }

/-- Other data for a task. -/
def setTask (c : Crew) (task : Value) (t : Task) : Crew :=
  { c with tasks := update c.tasks task (some t) }

/-- Every task has a stack of its own. -/
structure Owned (c : Crew) : Prop where
  stack : ∀ v t, c.tasks v = some t → (c.statuses t.stack).isSome = true
  apart : ∀ v w t u, c.tasks v = some t → c.tasks w = some u → t.stack = u.stack → v = w

/-- The posting of each task. -/
def roster (c : Crew) : Roster := fun r =>
  (c.tasks (.object r)).bind fun t => (c.statuses t.stack).map fun status => ⟨t.caller, status⟩

theorem roster_eq_some {post : Posting} :
    c.roster r = some post ↔ ∃ t, c.tasks (.object r) = some t ∧ t.caller = post.caller ∧
      c.statuses t.stack = some post.status := by
  obtain ⟨caller, status⟩ := post
  simp [roster, Option.bind_eq_some_iff, and_comm]

theorem Owned.roster (owned : c.Owned) (isTask : c.tasks (.object r) = some t) :
    ∃ status, c.statuses t.stack = some status ∧ c.roster r = some ⟨t.caller, status⟩ := by
  obtain ⟨status, isStatus⟩ := Option.isSome_iff_exists.mp (owned.stack _ t isTask)
  exact ⟨status, isStatus, roster_eq_some.mpr ⟨t, isTask, rfl, isStatus⟩⟩

theorem Owned.setStatus (owned : c.Owned) (stack : Value) (status : StackStatus) :
    (c.setStatus stack status).Owned where
  stack := by
    intro v t isTask
    change (update c.statuses stack (some status) t.stack).isSome = true
    by_cases here : t.stack = stack
    · rw [here, update_self]
      rfl
    · rw [update_of_ne here]
      exact owned.stack v t isTask
  apart := owned.apart

/-- A change of the status of one stack is a change of the posting of its task. -/
theorem Owned.roster_setStatus (owned : c.Owned) (isTask : c.tasks (.object r) = some t)
    (status : StackStatus) :
    (c.setStatus t.stack status).roster = update c.roster r (some ⟨t.caller, status⟩) := by
  funext q
  by_cases here : q = r
  · subst here
    simp [Crew.roster, Crew.setStatus, isTask]
  · rw [update_of_ne here]
    cases isOther : c.tasks (.object q) with
    | none => simp [Crew.roster, Crew.setStatus, isOther]
    | some u =>
      have differs : u.stack ≠ t.stack := fun same =>
        here (Value.object.inj (owned.apart _ _ u t isOther isTask same))
      simp [Crew.roster, Crew.setStatus, isOther, update_of_ne differs]

theorem Owned.setCaller (owned : c.Owned) (isTask : c.tasks v = some t) (caller : Value) :
    (c.setTask v { t with caller }).Owned := by
  -- stacks are those that tasks had before
  have before : ∀ w u, (c.setTask v { t with caller }).tasks w = some u →
      ∃ u₀, c.tasks w = some u₀ ∧ u₀.stack = u.stack := by
    intro w u found
    change update c.tasks v (some { t with caller }) w = some u at found
    by_cases here : w = v
    · subst here
      rw [update_self] at found
      cases found
      exact ⟨t, isTask, rfl⟩
    · rw [update_of_ne here] at found
      exact ⟨u, found, rfl⟩
  constructor
  · intro w u found
    obtain ⟨u₀, found₀, same⟩ := before w u found
    exact same ▸ owned.stack w u₀ found₀
  · intro w w' u u' found found' same
    obtain ⟨u₀, found₀, same₀⟩ := before w u found
    obtain ⟨u₁, found₁, same₁⟩ := before w' u' found'
    exact owned.apart w w' u₀ u₁ found₀ found₁ (same₀.trans (same.trans same₁.symm))

theorem roster_setCaller {post : Posting} (isTask : c.tasks (.object r) = some t)
    (posted : c.roster r = some post) (caller : Value) : (c.setTask (.object r) { t with caller }).roster =
      update c.roster r (some ⟨caller, post.status⟩) := by
  funext q
  by_cases here : q = r
  · subst here
    obtain ⟨_, isTask', -, isStatus⟩ := roster_eq_some.mp posted
    cases isTask.symm.trans isTask'
    simp [Crew.roster, setTask, isStatus]
  · have differs : Value.object q ≠ .object r := fun same => here (Value.object.inj same)
    rw [update_of_ne here]
    simp [Crew.roster, setTask, update_of_ne differs]

theorem setStatus_self (isStatus : c.statuses v = some status) : c.setStatus v status = c := by
  rw [setStatus, ← isStatus, Function.update_eq_self]

/-- A task gets another stack, which no task has had, with the status of the old one. -/
theorem Owned.replace {grown : Value} (owned : c.Owned) (isTask : c.tasks v = some t)
    (isStatus : c.statuses t.stack = some status) (new : ∀ w u, c.tasks w = some u → u.stack ≠ grown) :
    ((c.setStatus grown status).setTask v { t with stack := grown }).Owned ∧
      ((c.setStatus grown status).setTask v { t with stack := grown }).roster = c.roster := by
  have cases_ : ∀ w u, ((c.setStatus grown status).setTask v { t with stack := grown }).tasks w = some u →
      w = v ∧ u = { t with stack := grown } ∨ w ≠ v ∧ c.tasks w = some u := by
    intro w u found
    change update c.tasks v (some { t with stack := grown }) w = some u at found
    by_cases here : w = v
    · subst here
      rw [update_self] at found
      cases found
      exact .inl ⟨rfl, rfl⟩
    · rw [update_of_ne here] at found
      exact .inr ⟨here, found⟩
  refine ⟨⟨fun w u found => ?_, fun w w' u u' found found' same => ?_⟩, ?_⟩
  · change (update c.statuses grown (some status) u.stack).isSome = true
    obtain ⟨rfl, rfl⟩ | ⟨-, found⟩ := cases_ w u found
    · rw [update_self]
      rfl
    · rw [update_of_ne (new w u found)]
      exact owned.stack w u found
  · obtain ⟨isV, rfl⟩ | ⟨-, before⟩ := cases_ w u found <;>
      obtain ⟨isV', rfl⟩ | ⟨-, before'⟩ := cases_ w' u' found'
    · exact isV.trans isV'.symm
    · exact absurd same.symm (new w' u' before')
    · exact absurd same (new w u before)
    · exact owned.apart w w' u u' before before' same
  · funext q
    by_cases here : Value.object q = v
    · subst here
      simp [Crew.roster, setTask, Crew.setStatus, isTask, isStatus]
    · cases isOther : c.tasks (.object q) with
      | none => simp [Crew.roster, setTask, Crew.setStatus, update_of_ne here, isOther]
      | some u =>
        simp [Crew.roster, setTask, Crew.setStatus, update_of_ne here, isOther,
          update_of_ne (new _ u isOther)]

end Crew

namespace Heap

variable {h h' : Heap} {v : Value} {f : Body → Body}
variable {null : Ref}

/-- The tasks of a heap and the status of its stacks. -/
def crew (h : Heap) : Crew where
  tasks v := h.view? Task v
  statuses v := (h.view? Stack v).map Stack.status

/-- The posting of each task of a heap. -/
def roster (h : Heap) : Roster := h.crew.roster

theorem crew_owned : h.crew.Owned ↔ h.Owned := by
  have isSome : ∀ v, ((h.view? Stack v).map Stack.status).isSome = h.is Stack v := fun v => by
    rw [is, Option.isSome_map]
  exact ⟨fun owned => ⟨fun v t found => (isSome _).symm.trans (owned.stack v t found), owned.apart⟩,
    fun owned => ⟨fun v t found => (isSome _).trans (owned.stack v t found), owned.apart⟩⟩

theorem bodyOf?_adjust_map (w : Value) : (h.adjust v f).bodyOf? w =
    (h.bodyOf? w).map fun b => if v = w then f b else b := by
  cases v with
  | object r =>
    cases w with
    | object q =>
      simp only [bodyOf?, object?_adjust, Option.map_map]
      congr 1
      funext o
      by_cases here : r = q <;> simp [here]
    | _ => rfl
  | _ =>
    cases w with
    | object q => simp [adjust, Option.map_id']
    | _ => rfl

theorem view?_adjust {κ : Type} [HeapKind κ] {b : Body} (isBody : h.bodyOf? v = some b) :
    (h.adjust v f).view? κ = update (h.view? κ) v (HeapKind.view? (f b)) := by
  funext w
  rw [view?, bodyOf?_adjust_map]
  by_cases here : w = v
  · subst here
    simp [isBody]
  · rw [update_of_ne here]
    simp only [Ne.symm here, if_false, view?, Option.map_id']

theorem crew_adjust_stack {s s' : Stack} (isStack : h.view? Stack v = some s)
    (becomes : f (.stack s) = .stack s') : (h.adjust v f).crew = h.crew.setStatus v s'.status := by
  have isBody : h.bodyOf? v = some (.stack s) := view?_eq_some.mp isStack
  have noTask : h.view? Task v = none := by
    rw [view?, isBody]
    rfl
  have sameTasks : (h.adjust v f).view? Task = h.view? Task := by
    rw [view?_adjust isBody, becomes]
    exact Function.update_eq_self_iff.mpr noTask.symm
  have oneStack : (h.adjust v f).view? Stack = update (h.view? Stack) v (some s') := by
    rw [view?_adjust isBody, becomes]
    rfl
  unfold crew Crew.setStatus
  simp only [sameTasks, oneStack]
  congr 1
  funext w
  by_cases here : w = v
  · subst here
    simp
  · simp [update_of_ne here]

theorem crew_adjustStack {s : Stack} (isStack : h.view? Stack v = some s) (g : Stack → Stack) :
    (h.adjustStack v g).crew = h.crew.setStatus v (g s).status :=
  @crew_adjust_stack h v _ s (g s) isStack rfl

theorem crew_put_task {t : Task} (isTask : h.view? Task v = some t) (t' : Task) :
    (h.put v t').crew = h.crew.setTask v t' := by
  have isBody := view?_eq_some.mp isTask
  have noStack : h.view? Stack v = none := by
    rw [view?, isBody]
    rfl
  have sameStacks : (h.put v t').view? Stack = h.view? Stack := by
    rw [put, view?_adjust isBody]
    exact Function.update_eq_self_iff.mpr noStack.symm
  have oneTask : (h.put v t').view? Task = update (h.view? Task) v (some t') := by
    rw [put, view?_adjust isBody]
    rfl
  unfold crew Crew.setTask
  simp only [oneTask, sameStacks]

theorem roster_eq_some {r : Ref} {post : Posting} : h.roster r = some post ↔
    ∃ t s, h.view? Task (.object r) = some t ∧ t.caller = post.caller ∧
      h.view? Stack t.stack = some s ∧ s.status = post.status := by
  rw [roster, Crew.roster_eq_some]
  simp [crew, Option.map_eq_some_iff]

theorem Owned.posted (owned : h.Owned) {r : Ref} {t : Task}
    (isTask : h.view? Task (.object r) = some t) : ∃ post, h.roster r = some post := by
  obtain ⟨_, -, posted⟩ := (crew_owned.mpr owned).roster isTask
  exact ⟨_, posted⟩

/-- Postings move with their tasks. -/
theorem Passes.moves {kept : Ref → Prop} {place : Ref → Ref} (passes : h.Passes null kept place h')
    (owned : h.Owned) : Roster.Moves null kept place h.roster h'.roster where
  injective := passes.injective
  posted := by
    intro r post isKept posted
    obtain ⟨t, s, isTask, isCaller, isStack, isStatus⟩ := roster_eq_some.mp posted
    obtain ⟨home, -, isHome, -⟩ := view?_iff.mp isStack
    rw [isHome] at isStack
    obtain ⟨s', isStack', status⟩ :=
      passes.stack home s (passes.mentions r t home isKept isTask (.inl isHome)) isStack
    refine roster_eq_some.mpr ⟨_, s', passes.task r t isKept isTask, by rw [isCaller], ?_,
      status.trans isStatus⟩
    simp only [isHome]
    exact isStack'
  mentions := by
    intro r post q isKept posted isCaller
    obtain ⟨t, -, isTask, same, -⟩ := roster_eq_some.mp posted
    exact passes.mentions r t q isKept isTask (.inr (same.trans isCaller))
  back := by
    intro r' post' posted'
    obtain ⟨t', s', isTask', -, isStack', isStatus'⟩ := roster_eq_some.mp posted'
    obtain ⟨r, t, isKept, rfl, isTask⟩ | ⟨-, s, isStack, finished⟩ := passes.back r' t' isTask'
    · obtain ⟨post, posted⟩ := owned.posted isTask
      exact .inl ⟨r, post, isKept, rfl, posted⟩
    · cases isStack'.symm.trans isStack
      exact .inr (isStatus'.symm.trans finished)

/-- An object that is no task. -/
def Plain (h : Heap) (r : Ref) : Prop := ∃ o, h.object? r = some o ∧ o.body.kind ≠ .task

theorem Plain.is_task (plain : h.Plain null) : h.is Task (.object null) = false := by
  obtain ⟨o, found, noTask⟩ := plain
  by_contra isTask
  obtain ⟨t, isTask⟩ := is_iff.mp (by simpa using isTask)
  obtain ⟨_, o', ⟨⟩, found', isBody⟩ := view?_iff.mp isTask
  cases found.symm.trans found'
  exact noTask (by rw [isBody]; rfl)

theorem Plain.stay (plain : h.Plain null) (stays : h.Stays h') : h'.Plain null := by
  obtain ⟨o, found, noTask⟩ := plain
  obtain ⟨o', found', -, similar⟩ := stays null o found
  exact ⟨o', found', by rwa [similar.kind]⟩

section Walks

open Exec (callerOf? isAttached abandonFrom)

variable {null r target : Ref} {status : StackStatus} {rest : List Ref}

theorem callerOf?_congr (same : h'.crew.tasks = h.crew.tasks) (t : Task) :
    callerOf? h' t = callerOf? h t := by
  have same : h'.is Task t.caller = h.is Task t.caller := congrArg (fun tasks => (tasks t.caller).isSome) same
  rw [callerOf?, callerOf?, same]

/-- The caller of a task in line is the next one. -/
theorem callerOf?_line {t : Task} (plain : h.Plain null)
    (line : h.roster.Line null status (r :: rest)) (isTask : h.view? Task (.object r) = some t) :
    callerOf? h t = rest.head?.map Value.object := by
  obtain ⟨t', -, isTask', isCaller, -⟩ := roster_eq_some.mp line.posted
  cases isTask.symm.trans isTask'
  rw [callerOf?, isCaller]
  cases rest with
  | nil =>
    change (if h.is Task (.object null) = true then _ else _) = none
    rw [plain.is_task]
    rfl
  | cons caller rest =>
    obtain ⟨_, posted⟩ := (line.tail (by simp)).member List.mem_cons_self
    obtain ⟨u, -, isCaller', -⟩ := roster_eq_some.mp posted
    exact if_pos (is_iff.mpr ⟨u, isCaller'⟩)

theorem isAttached_step (plain : h.Plain null) (line : h.roster.Line null status (r :: rest))
    (fuel : Nat) (differs : r ≠ target) :
    isAttached h (.object target) (fuel + 1) (.object r) = match rest.head?.map Value.object with
      | some caller => isAttached h (.object target) fuel caller
      | none => .ok false := by
  obtain ⟨t, -, isTask, -⟩ := roster_eq_some.mp line.posted
  rw [isAttached, if_neg (by simpa using differs), Heap.cast_eq_ok.mpr isTask,
    ← callerOf?_line plain line isTask]
  rfl

/-- Walking down the line from its first task finds exactly the tasks in it. -/
theorem isAttached_eq (plain : h.Plain null)
    (line : h.roster.Line null status (r :: rest)) {fuel : Nat} (enough : rest.length < fuel) :
    isAttached h (.object target) fuel (.object r) = .ok (decide (target ∈ r :: rest)) := by
  induction rest generalizing r status fuel with
  | nil =>
    obtain ⟨fuel, rfl⟩ := Nat.exists_eq_succ_of_ne_zero (Nat.ne_of_gt enough)
    by_cases here : r = target
    · simp [here, isAttached]
    · rw [isAttached_step plain line fuel here]
      simp [Ne.symm here]
  | cons caller rest ih =>
    obtain ⟨fuel, rfl⟩ := Nat.exists_eq_succ_of_ne_zero (Nat.ne_of_gt (Nat.zero_lt_of_lt enough))
    by_cases here : r = target
    · simp [here, isAttached]
    · rw [isAttached_step plain line fuel here]
      have below := ih (line.tail (by simp)) (Nat.lt_of_succ_lt_succ enough)
      simpa [Ne.symm here] using below

/-- Tasks in line are objects, so there are no more of them than a walk is given steps for. -/
theorem length_lt_walkFuel {tasks : List Ref} (line : h.roster.Line null status tasks)
    (nodup : tasks.Nodup) : tasks.length < h.walkFuel := by
  have inside : ∀ r ∈ tasks, r.position < h.objects.size := by
    intro r member
    obtain ⟨_, posted⟩ := line.member member
    obtain ⟨_, -, isTask, -⟩ := roster_eq_some.mp posted
    obtain ⟨_, o, ⟨⟩, found, -⟩ := view?_iff.mp isTask
    exact (Array.getElem?_eq_some_iff.mp found).1
  have distinct : (tasks.map Ref.position).Nodup := nodup.map fun a b same => by cases a; cases b; simp_all
  have covered : (tasks.map Ref.position).toFinset ⊆ Finset.range h.objects.size := by
    intro position member
    obtain ⟨r, inLine, rfl⟩ := List.mem_map.mp (List.mem_toFinset.mp member)
    exact Finset.mem_range.mpr (inside r inLine)
  have bound := Finset.card_le_card covered
  rw [List.toFinset_card_of_nodup distinct, List.length_map, Finset.card_range] at bound
  exact Nat.lt_succ_of_le bound

theorem abandonFrom_step (owned : h.Owned) (plain : h.Plain null)
    (line : h.roster.Line null status (r :: rest)) (fuel : Nat) : ∃ h₁ : Heap, h₁.Owned ∧ h₁.Plain null ∧
      h₁.roster = update h.roster r (some ⟨.object (rest.headD null), .empty⟩) ∧
      abandonFrom (fuel + 1) (.object r) h = match rest.head?.map Value.object with
        | some caller => abandonFrom fuel caller h₁
        | none => .ok h₁ := by
  obtain ⟨t, s, isTask, isCaller, isStack, -⟩ := roster_eq_some.mp line.posted
  have crew := crew_adjustStack isStack fun s => { s with status := .empty }
  have caller := callerOf?_line plain line isTask
  have sameTasks := congrArg Crew.tasks crew
  rw [← @callerOf?_congr h _ sameTasks t] at caller
  refine ⟨h.adjustStack t.stack fun s => { s with status := .empty }, ?_,
    plain.stay (adjust_stays fun b _ => emptied_similar b), ?_, ?_⟩
  · rw [← crew_owned, crew]
    exact (crew_owned.mpr owned).setStatus _ _
  · rw [roster, crew, (crew_owned.mpr owned).roster_setStatus isTask, isCaller]
    rfl
  · rw [abandonFrom, Heap.cast_eq_ok.mpr isTask, ← caller]
    rfl

/-- Giving up the tasks in line marks each of them as finished, and no other. -/
theorem abandonFrom_ok (owned : h.Owned)
    (plain : h.Plain null) (line : h.roster.Line null status (r :: rest))
    (nodup : (r :: rest).Nodup) {fuel : Nat} (enough : rest.length < fuel) :
    ∃ h', abandonFrom fuel (.object r) h = .ok h' ∧
      h'.Owned ∧ (∀ q ∈ r :: rest, ∃ caller, h'.roster q = some ⟨caller, .empty⟩) ∧
      ∀ q ∉ r :: rest, h'.roster q = h.roster q := by
  induction rest generalizing r status fuel h with
  | nil =>
    obtain ⟨fuel, rfl⟩ := Nat.exists_eq_succ_of_ne_zero (Nat.ne_of_gt enough)
    obtain ⟨h₁, owned₁, -, roster₁, step⟩ := abandonFrom_step owned plain line fuel
    refine ⟨h₁, step, owned₁, fun q member => ⟨.object null, ?_⟩, fun q absent => ?_⟩
    · rw [roster₁, List.mem_singleton.mp member, update_self]
      rfl
    · rw [roster₁, update_of_ne (by simpa using absent)]
  | cons caller rest ih =>
    obtain ⟨fuel, rfl⟩ := Nat.exists_eq_succ_of_ne_zero (Nat.ne_of_gt (Nat.zero_lt_of_lt enough))
    obtain ⟨h₁, owned₁, plain₁, roster₁, step⟩ := abandonFrom_step owned plain line fuel
    obtain ⟨absent, nodup⟩ := List.nodup_cons.mp nodup
    have line₁ : h₁.roster.Line null .parked (caller :: rest) := by
      refine (line.tail (by simp)).congr fun q member => ?_
      have differs : q ≠ r := fun same => absent (same ▸ member)
      rw [roster₁, update_of_ne differs]
    obtain ⟨h', abandoned, owned', finished, others⟩ :=
      ih owned₁ plain₁ line₁ nodup (Nat.lt_of_succ_lt_succ enough)
    refine ⟨h', step.trans abandoned, owned', fun q member => ?_, fun q outside => ?_⟩
    · obtain rfl | member := List.mem_cons.mp member
      · exact ⟨_, by rw [others q absent, roster₁, update_self]⟩
      · exact finished q member
    · obtain ⟨first, second⟩ : q ≠ r ∧ q ∉ caller :: rest := by simpa [not_or] using outside
      rw [others q second, roster₁, update_of_ne first]

end Walks

end Heap

end ObjectMachine
