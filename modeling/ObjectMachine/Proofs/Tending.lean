/-
# ObjectMachine.Proofs.Tending -- what programs leave alone

Most of what a program does concerns neither its tasks nor the form of the heap, whatever its code
is like: objects stay where they are, tasks keep their stacks and callers, and stacks their status.
`Store.Tends` says so of two states of a store. A new task has nothing to run, and a heap that was
well formed (`Heap.Formed`) still is.

Nothing is assumed about code here. Where an invariant is found broken, nothing is said:
`Action.Leads` says how work ends otherwise, and `Action.Within` that it stays within a relation.

* `Make.tended_*`, `Builtin.tended_run` -- constructors and builtins.
* `Exec.tended_execute` -- every instruction that does not switch tasks.
-/
import Mathlib
import ObjectMachine.Proofs.Interruption

namespace ObjectMachine

open ObjectMachine.Action (asks_lift asks_pure)
open Body (kind)
open Size (roundUp)
open HeapKind (kind_wrap wrap)

namespace Action

variable {σ ε δ α β : Type} {s' : σ}

/-- How work ends from a state, unless it finds a broken invariant. -/
def Leads (work : Action σ ε α) (s : σ) (answered : α → σ → Prop) (raised : ε → σ → Prop) : Prop :=
  match work s with
  | .ok answer s => answered answer s
  | .error (.raised cause) s => raised cause s
  | .error _ _ => True

section Leading

variable {s : σ} {answered answered' : α → σ → Prop} {raised raised' : ε → σ → Prop}
variable {work : Action σ ε α} {next : α → Action σ ε β} {first : Action σ ε α} {done : β → σ → Prop}

theorem Leads.answer {work : Action σ ε α} (leads : Leads work s answered raised) {answer : α}
    (done : work s = .ok answer s') : answered answer s' := by
  unfold Leads at leads
  rw [done] at leads
  exact leads

theorem Leads.cause {work : Action σ ε α} (leads : Leads work s answered raised) {cause : ε}
    (stopped : work s = .error (.raised cause) s') : raised cause s' := by
  unfold Leads at leads
  rw [stopped] at leads
  exact leads

theorem leads_of (onAnswer : ∀ answer s', work s = .ok answer s' → answered answer s')
    (onRaise : ∀ cause s', work s = .error (.raised cause) s' → raised cause s') :
    Leads work s answered raised := by
  unfold Leads
  cases result : work s with
  | ok answer s' => exact onAnswer answer s' result
  | error stop s' =>
    cases stop with
    | raised cause => exact onRaise cause s' result
    | _ => trivial

theorem Leads.mono (leads : Leads work s answered raised)
    (onAnswer : ∀ answer s', answered answer s' → answered' answer s')
    (onRaise : ∀ cause s', raised cause s' → raised' cause s') : Leads work s answered' raised' :=
  leads_of (fun answer s' done => onAnswer answer s' (leads.answer done)) fun cause s' stopped =>
    onRaise cause s' (leads.cause stopped)

theorem Leads.imp (leads : Leads work s answered raised)
    (onAnswer : ∀ answer s', answered answer s' → answered' answer s') :
    Leads work s answered' raised :=
  leads.mono onAnswer fun _ _ holds => holds

/-- Work that cannot fail. -/
theorem Final.leads (final : Final (fun _ => True) work)
    (onAnswer : ∀ answer s', work s = .ok answer s' → answered answer s') :
    Leads work s answered raised :=
  leads_of onAnswer fun cause s' stopped => (final s cause s' stopped trivial).elim

theorem leads_bind : Leads (first >>= next) s done raised ↔
      Leads first s (fun answer s => Leads (next answer) s done raised) raised := by
  unfold Leads
  cases result : first s with
  | ok answer s => rw [bind_eq_of_ok result]
  | error stop s =>
    rw [bind_eq_of_error result]
    cases stop <;> rfl

theorem Leads.bind (leads : Leads first s answered raised)
    (rest : ∀ answer s', answered answer s' → Leads (next answer) s' done raised) :
    Leads (first >>= next) s done raised := leads_bind.mpr (leads.imp rest)

theorem leads_mapError {f : ε → δ} {refused : δ → σ → Prop} :
    Leads (mapError f work) s answered refused ↔
      Leads work s answered fun cause s => refused (f cause) s := by
  unfold Leads mapError
  cases work s with
  | ok answer s => rfl
  | error stop s => cases stop <;> rfl

theorem Asks.leads_bind (asks : Asks first)
    (rest : ∀ answer, first s = .ok answer s → Leads (next answer) s done raised) :
    Leads (first >>= next) s done raised := by
  refine Action.leads_bind.mpr (asks.final.leads fun answer s' answered => ?_)
  cases asks.same answered
  exact rest answer answered

theorem Ends.leads (ends : Ends work s answered raised) : Leads work s answered raised := by
  unfold Ends at ends
  unfold Leads
  cases result : work s with
  | ok answer s' =>
    rw [result] at ends
    exact ends
  | error stop s' =>
    rw [result] at ends
    cases stop with
    | raised cause => exact ends
    | _ => trivial

end Leading

/-- Work that stays within a relation unless it finds a broken invariant, and answers as `post`
says. -/
def Within (R : σ → σ → Prop) (work : Action σ ε α) (s : σ) (post : α → σ → Prop) : Prop :=
  Leads work s (fun answer s' => R s s' ∧ post answer s') fun _ s' => R s s'

section Staying

variable {R : σ → σ → Prop} {s : σ} {post : α → σ → Prop} {after : β → σ → Prop}
variable {work first : Action σ ε α} {next : α → Action σ ε β}
variable {result : Except Violation α}

/-- Work that stays within a relation wherever it starts. -/
theorem gentle_of_within (within : ∀ s, Within R work s fun _ _ => True) :
    Gentle R (fun _ => True) work where
  answered s _ _ done := ((within s).answer done).1
  raised s _ _ stopped _ := (within s).cause stopped

theorem Gentle.within (gentle : Gentle R (fun _ => True) work) (s : σ) :
    Within R work s fun answer s' => work s = .ok answer s' :=
  leads_of (fun answer s' done => ⟨gentle.answered s answer s' done, done⟩) fun cause s' stopped =>
    gentle.raised s cause s' stopped trivial

/-- Work that stays within a relation, before work that does something else. -/
theorem Gentle.leads_bind {done : β → σ → Prop} {raised : ε → σ → Prop}
    (gentle : Gentle R (fun _ => True) first) (raises : ∀ cause s', R s s' → raised cause s')
    (rest : ∀ answer s', R s s' → Leads (next answer) s' done raised) :
    Leads (first >>= next) s done raised :=
  Action.leads_bind.mpr (Leads.mono (gentle.within s) (fun answer s' ⟨related, _⟩ =>
    rest answer s' related) raises)

theorem Within.mono {post' : α → σ → Prop} (within : Within R work s post)
    (weaker : ∀ answer s', post answer s' → post' answer s') : Within R work s post' :=
  Leads.mono within (fun answer s' ⟨related, holds⟩ => ⟨related, weaker answer s' holds⟩)
    fun _ _ related => related

theorem Within.forget (within : Within R work s post) : Within R work s fun _ _ => True :=
  within.mono fun _ _ _ => trivial

theorem Within.bind [IsTrans σ R] (within : Within R first s post)
    (rest : ∀ answer s', R s s' → post answer s' → Within R (next answer) s' after) :
    Within R (first >>= next) s after := by
  refine leads_bind.mpr (Leads.mono within (fun answer s' ⟨related, holds⟩ => ?_) fun _ _ r => r)
  exact Leads.mono (rest answer s' related holds)
    (fun _ s'' ⟨related', holds'⟩ => ⟨Trans.trans related related', holds'⟩)
    fun _ s'' related' => Trans.trans related related'

theorem Asks.within_bind (asks : Asks first)
    (rest : ∀ answer, first s = .ok answer s → Within R (next answer) s after) :
    Within R (first >>= next) s after := asks.leads_bind rest

theorem lift_ok {answer : α}
    (done : (liftM result : EStateM (Stop ε) σ α) s = .ok answer s') : result = .ok answer := by
  cases result with
  | ok found => cases done; rfl
  | error violation => cases done

theorem lift_bind_ok {answer : β}
    (done : ((liftM result : EStateM (Stop ε) σ α) >>= next) s = .ok answer s') :
    ∃ middle, result = .ok middle ∧ next middle s = .ok answer s' := by
  obtain ⟨middle, lifted, done⟩ := (asks_lift _).bind_ok done
  exact ⟨middle, lift_ok lifted, done⟩

theorem within_pure [Std.Refl R] {answer : α} (holds : post answer s) :
    Within R (pure answer : Action σ ε α) s post := ⟨refl s, holds⟩

theorem Within.mapError {f : ε → δ} (within : Within R work s post) :
    Within R (Action.mapError f work) s post := leads_mapError.mpr within

theorem within_fail [Std.Refl R] (cause : ε) : Within R (fail cause : Action σ ε α) s post := refl s

theorem within_violate (violation : Violation) : Within R (violate violation : Action σ ε α) s post := trivial

theorem Within.ite {p : Prop} [Decidable p] {no : Action σ ε α} (yes : p → Within R work s post)
    (other : ¬ p → Within R no s post) : Within R (if p then work else no) s post := by
  by_cases holds : p
  · rw [if_pos holds]
    exact yes holds
  · rw [if_neg holds]
    exact other holds

end Staying

end Action

open ObjectMachine.Action (Asks Ends Gentle Leads gentle_of_within leads_bind leads_of within_violate)

namespace Body

/-- A change that leaves alone what tasks depend on: all of a task, and the status of a stack. -/
structure Steady (b b' : Body) : Prop extends b.Similar b' where
  task : ∀ t, b = .task t → b' = .task t
  stack : ∀ s, b = .stack s → ∃ s', b' = .stack s' ∧ s'.status = s.status

@[refl] theorem Steady.refl (b : Body) : b.Steady b :=
  ⟨.refl b, fun _ isTask => isTask, fun s isStack => ⟨s, isStack, rfl⟩⟩

theorem Steady.trans {a b c : Body} (first : a.Steady b) (second : b.Steady c) : a.Steady c where
  toSimilar := first.toSimilar.trans second.toSimilar
  task t isTask := second.task t (first.task t isTask)
  stack := by
    intro s isStack
    obtain ⟨s', isStack', status⟩ := first.stack s isStack
    obtain ⟨s'', isStack'', status'⟩ := second.stack s' isStack'
    exact ⟨s'', isStack'', status'.trans status⟩

/-- Whatever happens to an object that tasks do not depend on. -/
theorem Similar.steady {b b' : Body} (similar : b.Similar b') (noTask : b.kind ≠ .task)
    (noStack : b.kind ≠ .stack) : b.Steady b' :=
  ⟨similar, by rintro t rfl; exact absurd rfl noTask, by rintro s rfl; exact absurd rfl noStack⟩

/-- Kinds of objects of which more than kind and size matters. -/
def notedKinds : List Kind := [.layout, .stack, .task] ++ fixedKinds

theorem Steady.ofPlain {b b' : Body} (kind : b'.kind = b.kind) (size : b'.size = b.size)
    (plain : b.kind ∉ notedKinds) : b.Steady b' := by
  simp only [notedKinds, List.mem_append, List.mem_cons, List.not_mem_nil, or_false, not_or] at plain
  obtain ⟨⟨noLayout, noStack, noTask⟩, written⟩ := plain
  refine Similar.steady ⟨kind, size, ?_, ?_⟩ noTask noStack
  · rintro l rfl
    exact absurd rfl noLayout
  · exact fun isFixed => absurd isFixed written

theorem Steady.words {s : Stack} {words : Array Slot} {top : Link} {marker : Option Nat}
    {mode : StackMode} (size : words.size = s.words.size) :
    (Body.stack s).Steady (.stack { words, top, marker, status := s.status, mode }) where
  kind := rfl
  size := by simp [Body.size, Stack.height, size]
  layout := by simp
  fixed := by simp [kind]
  task := by simp
  stack := by
    rintro _ ⟨⟩
    exact ⟨_, rfl, rfl⟩

end Body

namespace Heap

/-- A heap that can be walked: the bytes of its objects are counted, and every header leads to a
layout that describes the object. -/
structure Formed (h : Heap) : Prop where
  accounted : h.Accounted
  addressable : h.capacity < Space.addressLimit
  described : ∀ r o, h.object? r = some o → ∃ layout, o.header = .layout layout ∧ h.Describes layout o.body

theorem Sound.formed {busy : Ref → Prop} {h : Heap} (sound : h.Sound busy) : h.Formed :=
  ⟨sound.accounted, sound.addressable, fun r o found => (sound.objects r o found).described⟩

/-- Every task has a stack of its own. -/
structure Owned (h : Heap) : Prop where
  stack : ∀ v t, h.view? Task v = some t → h.is Stack t.stack = true
  apart : ∀ v w t u, h.view? Task v = some t → h.view? Task w = some u → t.stack = u.stack → v = w

/-- Every object that exists stays, and tasks do not notice. -/
def Steady (h h' : Heap) : Prop := ∀ r o, h.object? r = some o →
    ∃ o', h'.object? r = some o' ∧ o'.header = o.header ∧ o.body.Steady o'.body

namespace Steady

variable {v : Value} {f : Body → Body} {h h' h'' : Heap}

theorem refl (h : Heap) : h.Steady h := fun _ o found => ⟨o, found, rfl, .refl _⟩

theorem trans (first : h.Steady h') (second : h'.Steady h'') : h.Steady h'' := by
  intro r o found
  obtain ⟨o', found', header, steady⟩ := first r o found
  obtain ⟨o'', found'', header', steady'⟩ := second r o' found'
  exact ⟨o'', found'', header'.trans header, steady.trans steady'⟩

section

variable (steady : h.Steady h')
include steady

theorem stays : h.Stays h' := by
  intro r o found
  obtain ⟨o', found', header, steady⟩ := steady r o found
  exact ⟨o', found', header, steady.toSimilar⟩

theorem body {b : Body} (found : h.bodyOf? v = some b) :
    ∃ b', h'.bodyOf? v = some b' ∧ b.Steady b' := by
  obtain ⟨r, o, rfl, isObject, rfl⟩ := bodyOf?_eq_some.mp found
  obtain ⟨o', isObject', -, steady⟩ := steady r o isObject
  exact ⟨o'.body, bodyOf?_eq_some.mpr ⟨r, o', rfl, isObject', rfl⟩, steady⟩

theorem view_task {t : Task} (found : h.view? Task v = some t) : h'.view? Task v = some t := by
  obtain ⟨b', found', steady⟩ := steady.body (view?_eq_some.mp found)
  rw [steady.task t rfl] at found'
  exact view?_eq_some.mpr found'

theorem view_stack {s : Stack} (found : h.view? Stack v = some s) :
    ∃ s', h'.view? Stack v = some s' ∧ s'.status = s.status := by
  obtain ⟨b', found', steady⟩ := steady.body (view?_eq_some.mp found)
  obtain ⟨s', rfl, status⟩ := steady.stack s rfl
  exact ⟨s', view?_eq_some.mpr found', status⟩

/-- An object that is a task afterwards was the same task before, unless it is new. -/
theorem task_cases {r : Ref} {t : Task} (found' : h'.view? Task (.object r) = some t) :
    h.view? Task (.object r) = some t ∨ h.object? r = none := by
  cases found : h.object? r with
  | none => exact .inr rfl
  | some o =>
    left
    obtain ⟨o', isObject', -, steady⟩ := steady r o found
    obtain ⟨_, o'', ⟨⟩, isObject'', isTask⟩ := view?_iff.mp found'
    cases isObject'.symm.trans isObject''
    have kind := steady.kind
    cases isBody : o.body with
    | task t₀ =>
      cases (steady.task t₀ isBody).symm.trans isTask
      exact view?_iff.mpr ⟨r, o, rfl, found, isBody⟩
    | _ =>
      rw [isTask, isBody] at kind
      cases kind

theorem is_task_eq_false {κ : Type} [HeapKind κ] {data : κ} (found : h.view? κ v = some data)
    (differs : HeapKind.kind κ ≠ .task) : h'.is Task v = false := by
  obtain ⟨b', isBody', steady⟩ := steady.body (view?_eq_some.mp found)
  by_contra isTask
  obtain ⟨t, isTask⟩ := is_iff.mp (by simpa using isTask)
  cases (view?_eq_some.mp isTask).symm.trans isBody'
  have kind := steady.kind
  rw [kind_wrap, kind_wrap] at kind
  exact differs kind.symm

end

theorem adjust (steady : ∀ b, h.bodyOf? v = some b → b.Steady (f b)) : h.Steady (h.adjust v f) := by
  intro q o found
  cases v with
  | object r =>
    rw [object?_adjust, found]
    by_cases here : r = q
    · subst here
      exact ⟨{ o with body := f o.body }, by simp, rfl,
        steady _ (bodyOf?_eq_some.mpr ⟨r, o, rfl, found, rfl⟩)⟩
    · exact ⟨o, by simp [here], rfl, .refl _⟩
  | _ => exact ⟨o, found, rfl, .refl _⟩

theorem extended (h : Heap) (o : Object) (size : Nat) : h.Steady (h.extended o size) :=
  fun _ old found => ⟨old, object?_extended_of_some found, rfl, .refl _⟩

end Steady

/-- What may happen to a heap without touching its tasks. New tasks have nothing to run. -/
structure Tends (null : Value) (h h' : Heap) : Prop where
  steady : h.Steady h'
  fresh : ∀ r t, h'.view? Task (.object r) = some t → h.object? r = none →
    t.caller = null ∧ ∃ s, h'.view? Stack t.stack = some s ∧ s.status = .empty
  owned : h.Owned → h'.Owned

namespace Tends

variable {null v : Value} {h h' h'' : Heap}

/-- Nothing but steady changes, and no new tasks. -/
theorem of_steady (steady : h.Steady h')
    (old : ∀ v t, h'.view? Task v = some t → h.view? Task v = some t) : h.Tends null h' where
  steady := steady
  fresh := by
    intro r t found' absent
    obtain ⟨_, o, ⟨⟩, isObject, -⟩ := view?_iff.mp (old _ t found')
    cases absent.symm.trans isObject
  owned := by
    intro owned
    constructor
    · intro v t found'
      obtain ⟨s, isStack⟩ := is_iff.mp (owned.stack v t (old v t found'))
      obtain ⟨s', isStack', -⟩ := steady.view_stack isStack
      exact is_iff.mpr ⟨s', isStack'⟩
    · intro v w t u found' other'
      exact owned.apart v w t u (old v t found') (old w u other')

theorem refl (null : Value) (h : Heap) : h.Tends null h := of_steady (.refl h) fun _ _ found => found

theorem trans (first : h.Tends null h') (second : h'.Tends null h'') : h.Tends null h'' where
  steady := first.steady.trans second.steady
  fresh := by
    intro r t found'' absent
    rcases second.steady.task_cases found'' with found' | absent'
    · obtain ⟨caller, s, isStack, status⟩ := first.fresh r t found' absent
      obtain ⟨s', isStack', status'⟩ := second.steady.view_stack isStack
      exact ⟨caller, s', isStack', status'.trans status⟩
    · exact second.fresh r t found'' absent'
  owned := fun owned => second.owned (first.owned owned)

theorem adjust {f : Body → Body} (steady : ∀ b, h.bodyOf? v = some b → b.Steady (f b)) :
    h.Tends null (h.adjust v f) := by
  refine of_steady (.adjust steady) fun w t found' => ?_
  obtain ⟨q, o', rfl, isObject', -⟩ := view?_iff.mp found'
  refine ((Steady.adjust steady).task_cases found').resolve_right fun absent => ?_
  cases v with
  | object r =>
    rw [object?_adjust, absent] at isObject'
    cases isObject'
  | _ => cases absent.symm.trans isObject'

theorem view_task_extended {o : Object} {size : Nat} {t : Task} (noTask : o.body.kind ≠ .task)
    (found' : (h.extended o size).view? Task v = some t) : h.view? Task v = some t := by
  obtain ⟨r, o', rfl, isObject', isTask⟩ := view?_iff.mp found'
  rw [object?_extended] at isObject'
  split at isObject'
  · cases isObject'
    rw [isTask] at noTask
    exact absurd rfl noTask
  · exact view?_iff.mpr ⟨r, o', rfl, isObject', isTask⟩

theorem extended {o : Object} (size : Nat) (noTask : o.body.kind ≠ .task) :
    h.Tends null (h.extended o size) :=
  of_steady (.extended h o size) fun _ _ => view_task_extended noTask

/-- A new task with nothing to run, on a stack that is new as well. -/
theorem extended_task (tends : h.Tends null h') {r : Ref} {s : Stack} {header : Header}
    {size : Nat} (absent : h.object? r = none) (isStack : h'.view? Stack (.object r) = some s)
    (status : s.status = .empty) (old : ∀ v t, h'.view? Task v = some t → h.view? Task v = some t) :
    h.Tends null
      (h'.extended { header, body := .task { stack := .object r, caller := null } } size) := by
  have steady := Steady.extended h' { header, body := .task { stack := .object r, caller := null } } size
  have cases_ : ∀ v t, (h'.extended { header, body := .task { stack := .object r, caller := null } }
      size).view? Task v = some t → h.view? Task v = some t ∨
        v = .object ⟨h'.objects.size⟩ ∧ t = { stack := .object r, caller := null } := by
    intro v t found''
    obtain ⟨q, o, rfl, isObject, isTask⟩ := view?_iff.mp found''
    rw [object?_extended] at isObject
    split at isObject
    · rename_i isLast
      cases isObject
      cases isTask
      exact .inr ⟨by rw [← isLast], rfl⟩
    · exact .inl (old _ t (view?_iff.mpr ⟨q, o, rfl, isObject, isTask⟩))
  refine ⟨tends.steady.trans steady, ?_, ?_⟩
  · intro q t found'' absent'
    rcases cases_ _ _ found'' with found | ⟨-, rfl⟩
    · obtain ⟨_, o, ⟨⟩, isObject, -⟩ := view?_iff.mp found
      cases absent'.symm.trans isObject
    · obtain ⟨s', isStack', status'⟩ := steady.view_stack isStack
      exact ⟨rfl, s', isStack', status'.trans status⟩
  · intro owned
    -- nothing that was there can have had the new stack
    have other : ∀ v t, h.view? Task v = some t → t.stack ≠ .object r := by
      intro v t found same
      obtain ⟨s₀, isStack₀⟩ := is_iff.mp (owned.stack v t found)
      obtain ⟨_, o, isRef, isObject, -⟩ := view?_iff.mp isStack₀
      cases same.symm.trans isRef
      cases absent.symm.trans isObject
    constructor
    · intro v t found''
      rcases cases_ _ _ found'' with found | ⟨-, rfl⟩
      · obtain ⟨s₀, isStack₀⟩ := is_iff.mp (owned.stack v t found)
        obtain ⟨s', isStack', -⟩ := (tends.steady.trans steady).view_stack isStack₀
        exact is_iff.mpr ⟨s', isStack'⟩
      · obtain ⟨s', isStack', -⟩ := steady.view_stack isStack
        exact is_iff.mpr ⟨s', isStack'⟩
    · intro v w t u found'' other'' same
      rcases cases_ _ _ found'' with found | ⟨rfl, rfl⟩ <;>
        rcases cases_ _ _ other'' with found' | ⟨rfl, rfl⟩
      · exact owned.apart v w t u found found' same
      · exact absurd same (other v t found)
      · exact absurd same.symm (other w u found')
      · rfl

end Tends

section Forming

variable {h : Heap} {v : Value} {f : Body → Body}

theorem Formed.adjust (formed : h.Formed) (similar : ∀ b, h.bodyOf? v = some b → b.Similar (f b)) :
    (h.adjust v f).Formed where
  accounted := adjust_accounted similar formed.accounted
  addressable := by
    have capacity : (h.adjust v f).capacity = h.capacity := by cases v <;> rfl
    exact capacity ▸ formed.addressable
  described := by
    intro q o' found'
    have stays := adjust_stays similar
    obtain ⟨o, found⟩ : ∃ o, h.object? q = some o := by
      cases v with
      | object r =>
        rw [object?_adjust] at found'
        obtain ⟨o, found, -⟩ := Option.map_eq_some_iff.mp found'
        exact ⟨o, found⟩
      | _ => exact ⟨o', found'⟩
    obtain ⟨o'', found'', header, similar⟩ := stays q o found
    cases found''.symm.trans found'
    obtain ⟨layout, isLayout, described⟩ := formed.described q o found
    exact ⟨layout, header.trans isLayout, described.stay stays similar⟩

theorem Formed.extended (formed : h.Formed) {o : Object}
    {size : Nat} (fits : roundUp size = roundUp o.body.size) (room : roundUp size ≤ h.free)
    (new : ∃ layout, o.header = .layout layout ∧ h.Describes layout o.body) :
    (h.extended o size).Formed where
  accounted := formed.accounted.extended fits room
  addressable := formed.addressable
  described := by
    have stays := (extended_evolves h o size).object
    intro r o' found'
    rw [object?_extended] at found'
    split at found'
    · cases found'
      obtain ⟨layout, header, described⟩ := new
      exact ⟨layout, header, described.stay stays (.refl _)⟩
    · obtain ⟨layout, header, described⟩ := formed.described r o' found'
      exact ⟨layout, header, described.stay stays (.refl _)⟩

end Forming

end Heap

namespace Store

/-- A store whose heap is well formed and has a layout for every kind. -/
structure Formed (s : Store) : Prop where
  heap : s.heap.Formed
  layouts : ∀ kind, ∃ l, s.heap.view? Layout (.object (s.roots.layout kind)) = some l ∧ l.kind = kind

theorem Sound.formed {busy : Ref → Prop} {s : Store} (sound : s.Sound busy) : s.Formed :=
  ⟨sound.heap.formed, sound.layouts⟩

theorem Formed.stay {s : Store} {heap : Heap} (formed : s.Formed) (stays : s.heap.Stays heap)
    (heapFormed : heap.Formed) : ({ s with heap } : Store).Formed := by
  refine ⟨heapFormed, fun kind => ?_⟩
  obtain ⟨l, found, isKind⟩ := formed.layouts kind
  obtain ⟨l', found', same, -⟩ := stays.view_layout found
  exact ⟨l', found', same.trans isKind⟩

/-- A store with one object more, for which `size` bytes are taken. -/
def extended (s : Store) (o : Object) (size : Nat) : Store := { s with heap := s.heap.extended o size }

/-- What may happen to a store without touching its tasks. -/
structure Tends (s s' : Store) : Prop where
  heap : s.heap.Tends s.roots.null s'.heap
  roots : s'.roots = s.roots
  formed : s.Formed → s'.Formed

instance : IsPreorder Store Tends where
  refl s := ⟨.refl _ s.heap, rfl, id⟩
  trans _ _ _ first second := ⟨first.heap.trans (first.roots ▸ second.heap), second.roots.trans first.roots,
      fun formed => second.formed (first.formed formed)⟩

variable {α β : Type} {s : Store}

theorem tends_adjust {v : Value} {f : Body → Body}
    (steady : ∀ b, s.heap.bodyOf? v = some b → b.Steady (f b)) :
    s.Tends { s with heap := s.heap.adjust v f } where
  heap := .adjust steady
  roots := rfl
  formed := by
    intro formed
    have similar := fun b found => (steady b found).toSimilar
    exact formed.stay (Heap.adjust_stays similar) (formed.heap.adjust similar)

theorem check_ok {ε : Type} {f : Store → Except Violation α} {answer : α} {s' : Store}
    (done : (check f : Action Store ε α) s = .ok answer s') : f s = .ok answer := by
  unfold check at done
  cases result : f s with
  | ok found => rw [result] at done; cases done; rfl
  | error violation => rw [result] at done; cases done

/-- Work that does not touch tasks. -/
abbrev Tended (work : Alloc α) : Prop := Gentle Tends (fun _ => True) work

/-- Looking through forwarders changes nothing, and finds an object of the kind. -/
theorem leads_narrow (κ : Type) [HeapKind κ] (v : Value) :
    Leads (narrow κ v) s (fun found s' => s' = s ∧ s.heap.view? κ found.1 = some found.2)
      fun cause s' => s' = s ∧ cause = .typeMismatch := by
  refine (asks_check _).leads_bind fun target _ => (asks_ask _).leads_bind fun found asked => ?_
  have isFound : s.heap.view? κ target = found := by
    cases asked
    rfl
  cases found with
  | some data => exact ⟨rfl, isFound⟩
  | none => exact ⟨rfl, rfl⟩

end Store

namespace Make

open Store (Tends Tended Made)

variable {s : Store}
variable {size : Nat} {kind : Kind}

theorem within_allocate {object : Unit → Object}
    (fits : roundUp size = roundUp (object ()).body.size) (noTask : (object ()).body.kind ≠ .task)
    (new : s.Formed → ∃ layout, (object ()).header = .layout layout ∧
      s.heap.Describes layout (object ()).body) :
    Action.Within Tends (Store.onHeap (Heap.allocate size object)) s fun r s' =>
      r = ⟨s.heap.objects.size⟩ ∧ s' = s.extended (object ()) size := by
  refine leads_of (fun r s' done => ?_) fun cause s' stopped => ?_
  · obtain ⟨room, rfl, rfl⟩ := onHeap_allocate_ok done
    refine ⟨⟨.extended size noTask, rfl, fun formed => ?_⟩, rfl, rfl⟩
    exact formed.stay (Heap.extended_evolves _ _ _).object (formed.heap.extended fits room (new formed))
  · cases onHeap_allocate_error stopped
    exact refl s

theorem within_placeAs {layout : Ref}
    (body : Unit → Body) (fits : roundUp size = roundUp (body ()).size)
    (noTask : (body ()).kind ≠ .task) (described : s.Formed → s.heap.Describes layout (body ())) :
    Action.Within Tends (placeAs layout size body) s fun v s' => v = .object ⟨s.heap.objects.size⟩ ∧
      s' = s.extended { header := .layout layout, body := body () } size := by
  refine .bind (within_allocate fits noTask fun formed => ⟨layout, rfl, described formed⟩) ?_
  rintro _ _ - ⟨rfl, rfl⟩
  exact Action.within_pure ⟨rfl, rfl⟩

theorem made_extended {o : Object} :
    s.Made (.object ⟨s.heap.objects.size⟩) o.body (s.extended o size) := by
  refine ⟨_, rfl, by simp [Heap.object?], Heap.bodyOf?_eq_some.mpr ⟨_, o, rfl, ?_, rfl⟩⟩
  simp [Store.extended, Heap.object?_extended]

theorem describes_of_kind {body : Body} (isKind : body.kind = kind) (noInstance : kind ≠ .inst)
    (formed : s.Formed) : s.heap.Describes (s.roots.layout kind) body := by
  obtain ⟨l, found, kind_eq⟩ := formed.layouts kind
  refine ⟨l, found, kind_eq.trans isKind.symm, ?_⟩
  rintro i rfl
  exact absurd isKind.symm noInstance

theorem within_placeLazy (body : Unit → Body) (isKind : (body ()).kind = kind)
    (plain : kind ≠ .inst ∧ kind ≠ .task) (fits : roundUp size = roundUp (body ()).size) :
    Action.Within Tends (placeLazy kind size body) s fun v s' => v = .object ⟨s.heap.objects.size⟩ ∧
      s' = s.extended { header := .layout (s.roots.layout kind), body := body () } size := by
  refine (Store.asks_ask _).within_bind fun layout asked => ?_
  cases asked
  exact within_placeAs body fits (isKind ▸ plain.2) (describes_of_kind isKind plain.1)

/-- A body that is neither an instance nor a task can be placed anywhere. -/
theorem tended_placeLazy (body : Unit → Body) (isKind : (body ()).kind = kind)
    (plain : kind ≠ .inst ∧ kind ≠ .task) (fits : roundUp size = roundUp (body ()).size) :
    Tended (placeLazy kind size body) :=
  gentle_of_within fun _ => (within_placeLazy body isKind plain fits).forget

theorem tended_place (body : Body) (plain : body.kind ≠ .inst ∧ body.kind ≠ .task)
    (fits : roundUp size = roundUp body.size) : Tended (place size body) :=
  tended_placeLazy (fun _ => body) rfl plain fits

theorem tended_plain (making : Making) (plain : making.isPlain = true) : Tended making.work := by
  refine Store.gentle_composes.places (making.places plain) fun isKind plain fits => tended_placeLazy _ isKind ⟨?_, ?_⟩ fits
  · rintro rfl
    cases plain
  · rintro rfl
    cases plain

theorem tended_closed : Builtin.Closed fun _ work => Tended work :=
  Store.gentle_composes.closed fun _ => tended_plain (.string _) rfl

theorem tended_lambda (l : Lambda) : Tended (lambda l) :=
  (tended_place _ (by simp [kind]) rfl).bind fun _ => .lift_bind fun _ _ => .lift_bind fun _ _ =>
    (asks_pure _).gentle

/-- An instance of a layout has as many fields as the layout says. -/
theorem within_inst (layout : Value) : Action.Within Tends (inst layout) s fun v s' =>
    ∃ l, s.heap.view? Layout layout = some l ∧
      s.Made v (.inst ⟨Array.replicate l.fieldCount s.roots.null⟩) s' := by
  refine (Store.asks_check _).within_bind fun l checked => .ite (fun _ => within_violate _)
    fun isInstance => (asks_lift _).within_bind fun size lifted =>
    (Store.asks_ask _).within_bind fun null asked => ?_
  have found := Heap.cast_eq_ok.mp (Store.check_ok checked)
  have isSize := Action.lift_ok lifted
  cases asked
  cases layout with
  | object ref =>
    have isInstance := not_not.mp isInstance
    refine (within_placeAs (fun _ => .inst ⟨Array.replicate l.fieldCount s.roots.null⟩) ?_
      (by simp [kind]) fun _ => ⟨l, found, isInstance, ?_⟩).mono ?_
    · simp [Body.size, roundUp_elements isSize]
    · rintro i ⟨⟩
      simp
    · rintro v s' ⟨rfl, rfl⟩
      exact ⟨l, found, made_extended⟩
  | _ => exact within_violate _

theorem within_stack (height : Nat) : Action.Within Tends (stack height) s fun v s' =>
    v = .object ⟨s.heap.objects.size⟩ ∧ ∃ size, s' = s.extended
      { header := .layout (s.roots.layout .stack), body := .stack (Stack.fresh height) } size := by
  refine (asks_lift _).within_bind fun size lifted => ?_
  have isSize := Action.lift_ok lifted
  refine (within_placeLazy (fun _ => .stack (Stack.fresh height)) rfl (by simp [kind]) ?_).mono
    fun v s' placed => ⟨placed.1, size, placed.2⟩
  simp [Body.size, Stack.height, Stack.fresh, roundUp_elements isSize]

theorem tended_stack (height : Nat) : Tended (stack height) :=
  gentle_of_within fun _ => (within_stack height).forget

/-- A new task has nothing to run, and a stack of its own. -/
theorem within_task (height : Nat) : Action.Within Tends (task height) s fun v s' =>
    ∃ home r, v = .object r ∧ s.heap.object? home = none ∧ s.heap.object? r = none ∧
      s'.heap.view? Stack (.object home) = some (Stack.fresh height) ∧
      s'.heap.view? Task v = some { stack := .object home, caller := s.roots.null } := by
  refine leads_bind.mpr (Leads.mono (within_stack height) ?_ fun _ _ tends => tends)
  rintro _ s₁ ⟨tends, rfl, size, isStore⟩
  have made : s.Made (.object ⟨s.heap.objects.size⟩) (.stack (Stack.fresh height)) s₁ := by
    rw [isStore]
    exact made_extended
  have roots : s₁.roots = s.roots := tends.roots
  refine (Store.asks_ask _).leads_bind fun caller asked => (Store.asks_ask _).leads_bind fun layout
    asked' => ?_
  cases asked
  cases asked'
  refine leads_bind.mpr (leads_of (fun r s' done => ?_) fun cause s' stopped => ?_)
  · obtain ⟨room, rfl, rfl⟩ := onHeap_allocate_ok done
    obtain ⟨_, ⟨⟩, absent, isStack⟩ := made
    have isStack : s₁.heap.view? Stack (.object ⟨s.heap.objects.size⟩) =
        some (Stack.fresh height) := Heap.view?_eq_some.mpr isStack
    have steady := tends.heap.steady
    have old : ∀ v t, s₁.heap.view? Task v = some t → s.heap.view? Task v = some t := by
      intro v t found
      rw [isStore] at found
      exact Heap.Tends.view_task_extended (by simp [kind]) found
    have absent' : s.heap.object? ⟨s₁.heap.objects.size⟩ = none := by
      cases found : s.heap.object? ⟨s₁.heap.objects.size⟩ with
      | none => rfl
      | some o =>
        obtain ⟨o', found', -⟩ := steady _ o found
        simp [Heap.object?] at found'
    refine ⟨⟨?_, roots, fun formed => ?_⟩, _, _, rfl, absent, absent', ?_, ?_⟩
    · simp only [roots]
      exact tends.heap.extended_task absent isStack rfl old
    · have formed₁ := tends.formed formed
      exact formed₁.stay (Heap.extended_evolves _ _ _).object (formed₁.heap.extended rfl room
        ⟨_, rfl, describes_of_kind rfl (by simp [kind]) formed₁⟩)
    · exact Heap.view?_eq_some.mpr (Heap.bodyOf?_extended_of_some (Heap.view?_eq_some.mp isStack))
    · simp only [roots]
      exact Heap.view?_iff.mpr ⟨_, _, rfl, (Heap.object?_extended _ _).trans (if_pos rfl), rfl⟩
  · cases onHeap_allocate_error stopped
    exact tends

theorem tended_task (height : Nat) : Tended (task height) :=
  gentle_of_within fun _ => (within_task height).forget

theorem within_clone (v : Value) (noTask : s.heap.is Task v = false) :
    Action.Within Tends (clone v) s fun v' s' =>
      ∃ body, s.heap.bodyOf? v = some body ∧ s.Made v' body s' := by
  refine (Store.asks_ask _).within_bind fun found asked => ?_
  obtain rfl : s.heap.objectOf? v = found := by
    cases asked
    rfl
  split
  · exact within_violate _
  · exact within_violate _
  · rename_i o isObject noStack
    obtain ⟨r, rfl, found⟩ : ∃ r, v = .object r ∧ s.heap.object? r = some o := by
      cases v <;> simp_all [Heap.objectOf?, Value.asRef?]
    have isBody : s.heap.bodyOf? (.object r) = some o.body := Heap.bodyOf?_eq_some.mpr ⟨r, o, rfl, found, rfl⟩
    refine .bind (within_allocate rfl ?_ fun formed => formed.heap.described r o found) ?_
    · intro isTask
      cases body : o.body with
      | task t =>
        rw [body] at isBody
        exact absurd (Heap.is_iff.mpr ⟨t, Heap.view?_eq_some.mpr isBody⟩) (by simp [noTask])
      | _ => rw [body] at isTask; cases isTask
    · rintro _ _ - ⟨rfl, rfl⟩
      exact Action.within_pure ⟨o.body, isBody, made_extended⟩

end Make

/-- What may happen to a machine without touching its tasks. -/
structure Machine.Tends (m m' : Machine) : Prop where
  store : m.store.Tends m'.store
  references : m'.references = m.references
  settings : m'.settings = m.settings
  compiler : m'.compiler = m.compiler

instance : IsPreorder Machine Machine.Tends where
  refl m := ⟨refl m.store, rfl, rfl, rfl⟩
  trans _ _ _ first second := ⟨Trans.trans first.store second.store, second.references.trans first.references,
      second.settings.trans first.settings, second.compiler.trans first.compiler⟩

/-- What may happen to a call without touching its tasks. -/
structure Execution.Tends (x y : Execution) : Prop where
  machine : x.machine.Tends y.machine
  rootTask : y.rootTask = x.rootTask
  currentTask : y.currentTask = x.currentTask
  stack : y.stack = x.stack

instance : IsPreorder Execution Execution.Tends where
  refl x := ⟨refl x.machine, rfl, rfl, rfl⟩
  trans _ _ _ first second := ⟨Trans.trans first.machine second.machine, second.rootTask.trans first.rootTask,
      second.currentTask.trans first.currentTask, second.stack.trans first.stack⟩

namespace Machine

variable {ε α : Type} {m : Machine}
variable {work : Action Store ε α}

theorem leads_onStore {answered : α → Machine → Prop}
    {raised : ε → Machine → Prop} : Leads (onStore work) m answered raised ↔
      Leads work m.store (fun answer store => answered answer { m with store })
        (fun cause store => raised cause { m with store }) := by
  obtain ⟨store, references, settings, compiler, output, log⟩ := m
  simp only [Leads, onStore]
  cases work store with
  | ok answer store => rfl
  | error stop store => cases stop <;> rfl

theorem within_onStore {post : α → Store → Prop} (within : Action.Within Store.Tends work m.store post) :
    Action.Within Tends (onStore work) m fun answer m' => m' = { m with store := m'.store } ∧
      post answer m'.store :=
  leads_onStore.mpr (Leads.mono within (fun _ _ ⟨tends, holds⟩ => ⟨⟨tends, rfl, rfl, rfl⟩, rfl, holds⟩)
    fun _ _ tends => ⟨tends, rfl, rfl, rfl⟩)

/-- Work on a machine that does not touch tasks. -/
abbrev Tended (work : Op ε α) : Prop := Gentle Tends (fun _ => True) work

theorem tended_onStore {work : Alloc α} (tended : Store.Tended work) : Tended (onStore work) :=
  gentle_of_within fun m => (within_onStore (tended.within m.store)).forget

end Machine

theorem Builtin.tended_run {builtin : Builtin} (member : builtin ∈ all) (call : Call) :
    Machine.Tended (builtin.run call) := by
  rcases Make.tended_closed.run member call with ⟨work, isRun, tended⟩ | isPrint
  · rw [isRun]
    exact Machine.tended_onStore tended
  · rw [isPrint]
    refine (asks_lift _).gentle.bind fun _ => (Machine.asks_check _).gentle.bind fun _ =>
      Gentle.bind ⟨?_, ?_⟩ fun _ => (Machine.asks_ask _).gentle
    · rintro m _ _ ⟨⟩
      exact ⟨refl m.store, rfl, rfl, rfl⟩
    · rintro _ _ _ ⟨⟩

namespace Exec

variable {α β : Type} {x : Execution} {raised : Interrupt → Execution → Prop} {v : Value}

section Layers

variable {raised : Interrupt → Execution → Prop} {answered : α → Execution → Prop} {work : Op Interrupt α}

theorem leads_onMachine : Leads (onMachine work) x answered raised ↔
      Leads work x.machine (fun answer machine => answered answer { x with machine })
        (fun cause machine => raised cause { x with machine }) := by
  obtain ⟨machine, rootTask, currentTask, stack, limit, fp, sp, pc, lambda, shortage⟩ := x
  simp only [Leads, onMachine]
  cases work machine with
  | ok answer machine => rfl
  | error stop machine => cases stop <;> rfl

theorem within_onMachine {post : α → Machine → Prop}
    (within : Action.Within Machine.Tends work x.machine post) :
    Action.Within Execution.Tends (onMachine work) x fun answer y =>
      y = { x with machine := y.machine } ∧ post answer y.machine :=
  leads_onMachine.mpr (Leads.mono within (fun _ _ ⟨tends, holds⟩ => ⟨⟨tends, rfl, rfl, rfl⟩, rfl, holds⟩)
    fun _ _ tends => ⟨tends, rfl, rfl, rfl⟩)

/-- Work on a call that does not touch tasks. -/
abbrev Tended (work : Exec α) : Prop := Action.Gentle Execution.Tends (fun _ => True) work

theorem tended_onMachine {ε : Type} {f : ε → Interrupt} {work : Op ε α}
    (tended : Machine.Tended work) : Tended (onMachine (Action.mapError f work)) :=
  gentle_of_within fun x => (within_onMachine (tended.within x.machine).mapError).forget

theorem within_alloc {work : Alloc α} {post : α → Store → Prop}
    (within : Action.Within Store.Tends work x.machine.store post) :
    Action.Within Execution.Tends (alloc work) x fun answer y =>
      y = { x with machine := { x.machine with store := y.machine.store } } ∧
        post answer y.machine.store := by
  refine (within_onMachine (Machine.within_onStore within).mapError).mono ?_
  rintro answer y ⟨isExecution, isMachine, holds⟩
  exact ⟨by rw [← isMachine]; exact isExecution, holds⟩

theorem tended_alloc {work : Alloc α} (tended : Store.Tended work) : Tended (alloc work) :=
  tended_onMachine (Machine.tended_onStore tended)

theorem leads_narrow_bind {κ : Type} [HeapKind κ] {next : Value × κ → Exec α}
    (mismatch : raised (.failed (.signal .typeMismatch)) x) (rest : ∀ target data,
      x.heap.view? κ target = some data → Leads (next (target, data)) x answered raised) :
    Leads (narrow κ v >>= next) x answered raised := by
  refine leads_bind.mpr (leads_onMachine.mpr (Action.leads_mapError.mpr
    (Machine.leads_onStore.mpr ((Store.leads_narrow κ v).mono ?_ ?_))))
  · rintro ⟨target, data⟩ _ ⟨rfl, isFound⟩
    exact rest target data isFound
  · rintro _ _ ⟨rfl, rfl⟩
    exact mismatch

end Layers

section Registers

theorem tended_of_answers {work : Exec α}
    (tends : ∀ x, ∃ answer y, work x = .ok answer y ∧ x.Tends y) : Tended work where
  answered x answer y done := by
    obtain ⟨_, _, same, tends⟩ := tends x
    cases done.symm.trans same
    exact tends
  raised x cause y stopped _ := by
    obtain ⟨_, _, same, -⟩ := tends x
    cases stopped.symm.trans same

theorem Tended.leads {work : Exec α} (tended : Tended work)
    (final : Action.Final (fun _ => True) work) : Leads work x (fun _ y => x.Tends y) raised :=
  final.leads fun answer y done => tended.answered x answer y done

theorem tends_withHeap {heap : Heap} (tends : x.machine.store.Tends { x.machine.store with heap }) :
    x.Tends { x with machine := x.machine.withHeap heap } :=
  ⟨⟨tends, rfl, rfl, rfl⟩, rfl, rfl, rfl⟩

theorem within_adjust {f : Body → Body} (steady : ∀ b, x.heap.bodyOf? v = some b → b.Steady (f b)) :
    Action.Within Execution.Tends (modifyHeap fun h => h.adjust v f) x fun _ _ => True :=
  ⟨tends_withHeap (Store.tends_adjust steady), trivial⟩

theorem tended_adjust {f : Body → Body} (steady : ∀ b : Body, b.Steady (f b)) :
    Tended (modifyHeap fun h => h.adjust v f) :=
  gentle_of_within fun _ => within_adjust fun b _ => steady b

theorem within_put {κ : Type} [HeapKind κ] {old new : κ} (found : x.heap.view? κ v = some old)
    (steady : (wrap old : Body).Steady (wrap new)) :
    Action.Within Execution.Tends (modifyHeap fun h => h.put v new) x fun _ _ => True := by
  refine within_adjust fun b isBody => ?_
  cases (Heap.view?_eq_some.mp found).symm.trans isBody
  exact steady

theorem tended_report (level : LogLevel) (message : Unit → String) :
    Tended (report level message) :=
  tended_of_answers fun x => ⟨_, _, rfl, ⟨refl x.machine.store, rfl, rfl, rfl⟩, rfl, rfl, rfl⟩

theorem tended_write (offset : Nat) (slot : Slot) : Tended (write offset slot) := by
  refine tended_of_answers fun x => ⟨_, _, rfl, tends_withHeap (Store.tends_adjust fun b _ => ?_)⟩
  cases b with
  | stack s => exact .words (by simp)
  | _ => exact .refl _

theorem tended_steps : Steps @Tended where
  bind isFirst rest := isFirst.bind rest
  asks asks := asks.gentle
  write := tended_write
  registers answers := tended_of_answers fun x => by
    obtain ⟨_, _, _, _, isAnswer⟩ := answers x
    exact ⟨_, _, isAnswer, refl x.machine, rfl, rfl, rfl⟩

theorem tended_setMarker (marker : Option Nat) : Tended (setMarker marker) := by
  refine (asks_ask _).gentle.bind fun stack => tended_adjust fun b => ?_
  cases b with
  | stack s => exact .words rfl
  | _ => exact .refl _

end Registers

section Frames

/-- Leaving a frame touches tasks only if it was the entry frame, and fails only then. -/
theorem leads_leave {answered : Unit → Execution → Prop} (returns : ∀ y, x.Tends y → answered () y)
    (finishes : ∀ answer y, x.Tends y → Leads (finishTask answer) y answered raised) :
    Leads leave x answered raised := by
  refine (tended_steps.pop.leads final_pop).bind ?_
  intro answer x₁ tends
  refine (asks_ask _).leads_bind fun ⟨_, fp⟩ _ =>
    (asks_check _).leads_bind fun s _ => (asks_lift _).leads_bind fun pc _ =>
    (asks_lift _).leads_bind fun _ _ => (asks_lift _).leads_bind fun below _ =>
    (asks_lift _).leads_bind fun marker _ => ?_
  have rest : ∀ y, x.Tends y → Leads (returnTo finishTask answer s below fp pc) y answered raised := by
    intro y tends
    unfold returnTo
    by_cases isEntry : below = 0
    · rw [if_pos isEntry]
      exact finishes answer y tends
    · rw [if_neg isEntry]
      refine Leads.imp (Tended.leads ?_ ?_) fun _ z more => returns z (Trans.trans tends more)
      · exact (asks_checkStore _).gentle.bind fun _ => Action.Gentle.bind (tended_of_answers fun x =>
          ⟨_, _, rfl, refl x.machine, rfl, rfl, rfl⟩) fun _ => tended_steps.setPeek 0 answer
      · exact (asks_checkStore _).final.bind fun _ =>
          Action.Final.bind (Action.final_of_answers fun _ => ⟨_, _, rfl⟩) fun _ => final_setPeek _ _
  change Leads (if marker ≠ s.marker then setMarker marker >>= fun _ => _ else _) _ _ _
  by_cases changed : marker ≠ s.marker
  · rw [if_pos changed]
    exact ((tended_setMarker marker).leads (final_setMarker marker)).bind
      fun _ y more => rest y (Trans.trans tends more)
  · rw [if_neg changed]
    exact rest x₁ tends

end Frames

section Instructions

theorem checkStore_ok {f : Store → Except Violation α} {answer : α} {y : Execution}
    (done : checkStore f x = .ok answer y) : f x.machine.store = .ok answer := (check_ok done).1

theorem tended_makeClosure (template count : UInt16) : Tended (makeClosure template count) := by
  refine (asks_constant _).gentle.bind fun template => gentle_of_within fun x => ?_
  refine (asks_checkStore _).within_bind fun l checked => (asks_top _).within_bind fun _ _ => ?_
  have isLambda := Heap.cast_eq_ok.mp (checkStore_ok checked)
  refine .bind ((tended_alloc (Make.tended_plain (.tuple _) rfl)).within x) fun outers y tends _ => ?_
  have noTask : y.heap.is Task template = false := by
    exact tends.machine.store.heap.steady.is_task_eq_false isLambda (by simp [HeapKind.kind])
  refine .bind (within_alloc (Make.within_clone template noTask)) fun closure z _ _ => ?_
  refine (Action.Gentle.within ?_ z).forget
  refine (tended_adjust fun b => ?_).bind fun _ => (tended_steps.drop _).bind fun _ => tended_steps.push _
  cases b with
  | lambda l => exact .ofPlain rfl rfl (by simp [kind, Body.notedKinds])
  | _ => exact .refl _

theorem top_ok {count : Nat} {values : Array Value} {y : Execution}
    (done : top count x = .ok values y) : values.size = count := by
  have ends : Ends (top count) x (fun values _ => values.size = count) fun _ _ => True :=
    ends_top fun _ size => size
  unfold Ends at ends
  rw [done] at ends
  exact ends

theorem tended_makeInstance (template : UInt16) : Tended (makeInstance template) := by
  refine (asks_constant _).gentle.bind fun template => gentle_of_within fun x => ?_
  refine (asks_checkStore _).within_bind fun l checked => (asks_check _).within_bind fun _ _ =>
    (asks_check _).within_bind fun _ _ => (asks_check _).within_bind fun protocol _ => ?_
  have isLayout := Heap.cast_eq_ok.mp (checkStore_ok checked)
  have noTask := (Heap.Steady.refl x.heap).is_task_eq_false isLayout (by simp [HeapKind.kind])
  refine .bind (within_alloc (Make.within_clone template noTask)) ?_
  rintro layout y - ⟨-, _, isBody, made⟩
  cases isBody.symm.trans (Heap.view?_eq_some.mp isLayout)
  refine .ite (fun _ => within_violate _) fun _ => ?_
  refine .bind (show Action.Within Execution.Tends _ y fun _ z =>
      z.heap.view? Layout layout = some { l with protocol } from ?_)
    fun _ z _ isLayout' => .bind (within_alloc (Make.within_inst layout)) ?_
  · refine ⟨tends_withHeap (Store.tends_adjust fun b _ => ?_), Heap.view?_eq_some.mpr
      ((Heap.bodyOf?_adjust made.bodyOf?).trans (by rw [if_pos rfl]; rfl))⟩
    cases b with
    | layout l =>
      exact Body.Similar.steady ⟨rfl, rfl, by rintro _ ⟨⟩; exact ⟨_, rfl, rfl, rfl⟩,
        by simp [kind]⟩ (by simp [kind]) (by simp [kind])
    | _ => exact .refl _
  rintro made z' - ⟨-, l', found, isInstance⟩
  cases isLayout'.symm.trans found
  refine (asks_top _).within_bind fun fields isTop => .ite (fun _ => within_violate _) fun _ => ?_
  have size := top_ok isTop
  refine .bind (within_put (Heap.view?_eq_some.mpr isInstance.bodyOf?) (.ofPlain rfl ?_ ?_))
    fun _ z'' _ _ => (Action.Gentle.within ((tended_steps.drop _).bind fun _ => tended_steps.push _) z'').forget
  · simp [wrap, Body.size, size]
  · simp [wrap, kind, Body.notedKinds]

theorem tended_passes : Passes @Tended @Tended @Tended where
  toSteps := tended_steps
  prepare := tended_steps.bind
  lead := tended_steps.bind
  trail := tended_steps.bind
  prepared := id
  finished := id
  asking asks := asks.gentle
  fail _ _ := Action.gentle_fail _
  failed _ := Action.gentle_fail _
  narrow κ _ v := tended_alloc (Store.gentle_composes.narrow κ v)
  plain making isPlain := tended_alloc (Make.tended_plain making isPlain)
  concat _ := tended_alloc (Make.tended_closed.concatStrings _)
  builtin member call _ _ _ := tended_onMachine (Builtin.tended_run member call)
  closure := tended_makeClosure
  inst := tended_makeInstance
  field receiver v index := tended_adjust fun b => by
    cases b with
    | inst i => exact .ofPlain rfl (by simp [Body.size]) (by simp [kind, Body.notedKinds])
    | _ => exact .refl _
  bound descriptor target := by
    refine gentle_of_within fun x => (asks_checkStore _).within_bind fun bound checked => ?_
    obtain ⟨d, isRetargeted, -⟩ := ok_of_bind (checkStore_ok checked)
    obtain ⟨d₀, isDescriptor, -⟩ := ok_of_bind isRetargeted
    exact within_put (Heap.cast_eq_ok.mp isDescriptor)
      (.ofPlain rfl rfl (by simp [wrap, kind, Body.notedKinds]))
  content v content := by
    refine gentle_of_within fun x => leads_narrow_bind (refl x) fun target c isCell => ?_
    refine Action.Within.ite (fun _ => within_violate _) fun _ => .bind (within_put isCell
      (.ofPlain rfl rfl (by simp [wrap, kind, Body.notedKinds]))) fun _ y _ _ => ?_
    exact ((tended_steps.setPeek 0 content).within y).forget

/-- No instruction touches tasks unless it makes one, hands over or returns. -/
theorem tended_execute (pc next : Nat) {instruction : Instruction}
    (plain : instruction.switches = false) : Tended (execute pc next instruction) :=
  tended_passes.execute pc next plain fun _ => tended_setMarker

end Instructions

end Exec

end ObjectMachine
