/-
# ObjectMachine.Proofs.Conditions -- conditions and their handlers

A condition that is raised goes to the innermost mark whose table has a handler for it, and is
answered like a call. Marks are those of frames that are still active in the task that runs: a task
starts without any (`Picture.Fresh`), and is followed from turn to turn.

* `Exec.Follows.turned` -- from turn to turn, until the task has returned.
* `Exec.handlerFrom_iff` -- which handler a chain of markers selects.
* `Exec.Follows.raises` -- what a condition does.
-/
import Mathlib
import ObjectMachine.Proofs.Returning

namespace ObjectMachine

/-- Only the bottom frame, and no marker. -/
structure Picture.Fresh (p : Picture) : Prop where
  fp : p.fp = 0
  marker : p.marker = none
  room : 3 ≤ p.words.length

/-- A stack that is laid out to start. -/
theorem Stack.fresh_of_prepare {s s' : Stack} {home : Ref} {bottom : Value} {entry : Array Value}
    (prepared : s.prepare home bottom entry = .ok s') : ∃ p, s'.Shows p ∧ p.Fresh := by
  have height := (prepare_ok prepared).1
  unfold prepare at prepared
  split at prepared
  · cases prepared
  rename_i room
  split at prepared
  · cases prepared
  cases prepared
  simp only [entryRoom, Frame.reserved, Frame.size, not_lt] at room
  generalize Prod.fst (Array.foldl (β := Stack × Nat) _ _ entry) = entered at *
  have high : 3 + entry.size + 3 ≤ entered.words.size := by
    have : entered.height = s.height := height_writeFrame.symm.trans height
    simp only [Stack.height] at this room
    omega
  generalize isParked : entered.writeFrame (Frame.size + entry.size) 0 (.address home 0) bottom = parked at *
  have frameAt : FrameAt parked.words (.address home 0) (3 + entry.size) (3 + entry.size + 3) bottom 0 :=
    isParked ▸ frameAt_writeFrame high
  have inside : 3 + entry.size ≤ parked.height := by
    have : 3 + entry.size + 3 ≤ parked.height := frameAt.above_le_size
    omega
  refine ⟨_, @shows_of_parking { parked with top := .address home (3 + entry.size), marker := none, status := .parked }
    home (3 + entry.size) 0 bottom 0 rfl rfl frameAt, rfl, rfl, ?_⟩
  exact (Nat.le_add_right 3 _).trans_eq (length_loose inside).symm

namespace Heap

/-- A table of names and handlers has no handler for a name. -/
def Lacks (h : Heap) (name table : Value) : Prop :=
  ∃ t, h.view? Tuple table = some t ∧ ∀ (k : Nat) key handler, t.elements[2 * k]? = some key →
    t.elements[2 * k + 1]? = some handler → h.equal key name = .ok false

/-- The first handler for a name in a table. -/
def Handles (h : Heap) (name table handler : Value) : Prop :=
  ∃ t, h.view? Tuple table = some t ∧ ∃ (k : Nat) (key : Value), t.elements[2 * k]? = some key ∧
    t.elements[2 * k + 1]? = some handler ∧ h.equal key name = .ok true ∧
    ∀ l < k, ∀ key, t.elements[2 * l]? = some key → h.equal key name = .ok false

/-- What is found for a name when one mark is tried after the other. -/
inductive Finds (h : Heap) (name : Value) : List Mark → Option Value → Prop
  | nothing : Finds h name [] none
  | here {k : Mark} {marks : List Mark} {handler : Value} (handles : h.Handles name k.handlers handler) :
    Finds h name (k :: marks) (some handler)
  | further {k : Mark} {marks : List Mark} {found : Option Value} (lacks : h.Lacks name k.handlers)
      (rest : Finds h name marks found) : Finds h name (k :: marks) found

theorem finds_none {h : Heap} {name : Value} {marks : List Mark} :
    h.Finds name marks none ↔ ∀ k ∈ marks, h.Lacks name k.handlers := by
  induction marks with
  | nil => exact ⟨fun _ => nofun, fun _ => .nothing⟩
  | cons k marks ih =>
    rw [List.forall_mem_cons, ← ih]
    constructor
    · rintro (_ | _ | ⟨lacks, rest⟩)
      exact ⟨lacks, rest⟩
    · rintro ⟨lacks, rest⟩
      exact .further lacks rest

end Heap

namespace Exec

variable {h : Heap} {s : Stack} {name handler : Value} {marks marks' : List Mark} {top : Option Nat}
  {words : List Slot} {fuel : Nat} {x y z : Execution} {careful : Prop} {r : Ref} {place : Ref → Ref} {p : Picture}

theorem handlerIn_none (h : Heap) (name : Value) : ∀ list : List Value, handlerIn h name list = .ok none ↔
    ∀ (k : Nat) key handler, list[2 * k]? = some key → list[2 * k + 1]? = some handler →
      h.equal key name = .ok false
  | key :: handler :: rest => by
    have ih := handlerIn_none h name rest
    rw [handlerIn]
    constructor
    · intro isNone
      obtain ⟨equal, isEqual, isNone⟩ := ok_of_bind isNone
      cases equal with
      | true => cases isNone
      | false =>
        rintro (_ | k) key' handler' isKey isHandler
        · cases isKey
          exact isEqual
        · exact ih.mp isNone k key' handler' isKey isHandler
    · intro different
      rw [different 0 key handler rfl rfl]
      exact ih.mpr fun k key' handler' isKey isHandler => different (k + 1) key' handler' isKey isHandler
  | [] => by simp [handlerIn]
  | [key] => by simp [handlerIn]

theorem handlerIn_some (h : Heap) (name handler : Value) : ∀ list : List Value,
    handlerIn h name list = .ok (some handler) ↔
    ∃ (k : Nat) (key : Value), list[2 * k]? = some key ∧ list[2 * k + 1]? = some handler ∧
      h.equal key name = .ok true ∧ ∀ l < k, ∀ key, list[2 * l]? = some key → h.equal key name = .ok false
  | key :: other :: rest => by
    have ih := handlerIn_some h name handler rest
    rw [handlerIn]
    constructor
    · intro isSome
      obtain ⟨equal, isEqual, isSome⟩ := ok_of_bind isSome
      cases equal with
      | true =>
        cases isSome
        exact ⟨0, key, rfl, rfl, isEqual, nofun⟩
      | false =>
        obtain ⟨k, key', isKey, isHandler, same, different⟩ := ih.mp isSome
        refine ⟨k + 1, key', isKey, isHandler, same, ?_⟩
        rintro (_ | l) low key'' isKey'
        · cases isKey'
          exact isEqual
        · exact different l (Nat.lt_of_succ_lt_succ low) key'' isKey'
    · rintro ⟨_ | k, key', isKey, isHandler, same, different⟩
      · cases isKey
        cases isHandler
        rw [same]
        rfl
      · rw [different 0 (Nat.succ_pos k) key rfl]
        exact ih.mpr ⟨k, key', isKey, isHandler, same, fun l low => different (l + 1) (Nat.succ_lt_succ low)⟩
  | [] => by simp [handlerIn]
  | [key] => by simp [handlerIn]

/-- One mark of a chain is tried after the other. -/
theorem handlerFrom_cons {k : Mark} (chained : Picture.Chained words top (k :: marks) none)
    (same : ∀ j < words.length, (s.words[j]?).map Slot.loosen = words[j]?) :
    ∃ next, Picture.Chained words next marks none ∧ handlerFrom h s name (fuel + 1) top = (do
      match ← handlerIn h name (← h.tupleElements k.handlers).toList with
      | some handler => pure (some handler)
      | none => handlerFrom h s name fuel next) := by
  obtain ⟨rfl, isHandlers, link, next, linked, isNext, rest⟩ := chained
  refine ⟨next, rest, ?_⟩
  obtain ⟨slot, found, loose⟩ := Option.map_eq_some_iff.mp
    ((same _ (List.getElem?_eq_some_iff.mp isHandlers).1).trans isHandlers)
  cases Slot.eq_value_of_loosen loose
  have isValue : s.valueAt (k.offset + 1) = .ok k.handlers := by
    simp only [Stack.valueAt, found]
    rfl
  rw [handlerFrom, isValue, Picture.nextMarker_eq same linked isNext]
  rfl

/-- The handler that a chain of markers leads to. -/
theorem handlerFrom_iff {found : Option Value} (chained : Picture.Chained words top marks none)
    (same : ∀ j < words.length, (s.words[j]?).map Slot.loosen = words[j]?)
    (enough : marks.length < fuel) :
    handlerFrom h s name fuel top = .ok found ↔ h.Finds name marks found := by
  induction marks generalizing top fuel with
  | nil =>
    cases chained
    obtain ⟨fuel, rfl⟩ := Nat.exists_eq_succ_of_ne_zero (Nat.ne_of_gt enough)
    rw [handlerFrom, Except.ok.injEq]
    constructor
    · rintro rfl
      exact .nothing
    · rintro ⟨⟩
      rfl
  | cons k marks ih =>
    obtain ⟨fuel, rfl⟩ := Nat.exists_eq_succ_of_ne_zero (Nat.ne_of_gt (Nat.zero_lt_of_lt enough))
    obtain ⟨next, rest, isFirst⟩ := @handlerFrom_cons h s name marks top words fuel k chained same
    have ih := ih rest (Nat.lt_of_succ_lt_succ enough)
    rw [isFirst]
    constructor
    · intro isFound
      obtain ⟨elements, isTuple, isFound⟩ := ok_of_bind isFound
      obtain ⟨t, isTuple', isElements⟩ := ok_of_bind isTuple
      cases isElements
      obtain ⟨first, isFirst, isFound⟩ := ok_of_bind isFound
      cases first with
      | some handler =>
        cases isFound
        exact .here ⟨t, Heap.cast_eq_ok.mp isTuple', by simpa using (handlerIn_some ..).mp isFirst⟩
      | none =>
        exact .further ⟨t, Heap.cast_eq_ok.mp isTuple', by simpa using (handlerIn_none ..).mp isFirst⟩
          (ih.mp isFound)
    · rintro (_ | ⟨t, isTuple, isFirst⟩ | ⟨⟨t, isTuple, isFirst⟩, rest⟩)
      · have isFirst := (handlerIn_some h name _ t.elements.toList).mpr (by simpa using isFirst)
        simp only [Heap.tupleElements, Heap.cast_eq_ok.mpr isTuple, bind, Except.bind, pure, Except.pure,
          isFirst]
      · have isFirst := (handlerIn_none h name t.elements.toList).mpr (by simpa using isFirst)
        simp only [Heap.tupleElements, Heap.cast_eq_ok.mpr isTuple, bind, Except.bind, pure, Except.pure,
          isFirst, ih.mpr rest]

theorem raise_eq {index argc : UInt16} {next : Nat} (found : x.Stacked s)
    (isConstant : constant index x = .ok name x) : raise index argc next x =
      match handlerFrom x.heap s name (s.height + 2) s.marker with
      | .ok none =>
        (do fail (.unhandledCondition (← checkStore fun s => nameOf s.heap name)) : Exec Unit) x
      | .ok (some handler) =>
        (do let (lambda, l) ← narrow Lambda handler; enter lambda l argc.toNat none next : Exec Unit) x
      | .error violation => .error (.broken violation) x := by
  have isStack : runningStack x = .ok s := runningStack_eq found
  refine (Action.bind_eq_of_ok isConstant).trans ?_
  cases isFound : handlerFrom x.heap s name (s.height + 2) s.marker with
  | error violation =>
    refine Action.bind_eq_of_error ?_
    simp only [check, isStack, bind, Except.bind, isFound]
  | ok found =>
    have checked : check (fun x => do
        let s ← runningStack x
        handlerFrom x.heap s name (s.height + 2) s.marker) x = .ok found x :=
      check_eq (by simp only [isStack, bind, Except.bind, isFound])
    refine (Action.bind_eq_of_ok checked).trans ?_
    cases found <;> rfl

/-- A condition is unhandled if no handler is found, and only then. -/
theorem raise_unhandled_iff {index argc : UInt16} {next : Nat} {text : String} (found : x.Stacked s)
    (isConstant : constant index x = .ok name x) :
    raise index argc next x = .error (.raised (.failed (.unhandledCondition text))) y ↔
      handlerFrom x.heap s name (s.height + 2) s.marker = .ok none ∧
        nameOf x.heap name = .ok text ∧ y = x := by
  rw [raise_eq found isConstant]
  split
  · rename_i isFound
    simp only [isFound, true_and]
    constructor
    · intro stopped
      obtain stopped | ⟨text', x₁, checked, stopped⟩ := Action.bind_error stopped
      · obtain ⟨_, same⟩ | ⟨_, same⟩ := asks_checkStore (fun s => nameOf s.heap name) x
        · cases stopped.symm.trans same
        · cases stopped.symm.trans same
      · cases (asks_checkStore _).same checked
        cases stopped
        exact ⟨checkStore_ok checked, rfl⟩
    · rintro ⟨isText, rfl⟩
      exact checkStore_bind isText
  · rename_i handler isFound
    simp only [isFound, Except.ok.injEq, reduceCtorEq, false_and, iff_false]
    intro stopped
    have final : Action.Final (fun cause => cause = Interrupt.failed (.unhandledCondition text))
        (do let (lambda, l) ← narrow Lambda handler; enter lambda l argc.toNat none next : Exec Unit) :=
      Action.Final.bind (final_onMachine (fun signal => by cases signal <;> simp [Interrupt.ofSignal]) _) fun _ =>
        final_enter (by simp) (by simp) (by simp) _ _ _ _ _
    exact final x _ y stopped rfl
  · rename_i isFound
    simp [isFound]

namespace Follows

/-- A task is followed from turn to turn, until it has returned. -/
theorem turned (follows : Follows careful x r marks 0 place y marks')
    (adds : ∀ compiler, y.machine.compiler = some compiler → ∀ v, Store.Adds (compiler v))
    (running : y.Running)
    (known : y.suspended.Knows (place r)) (depicts : y.suspended.Depicts (place r) p)
    (turn : Turn y z) (keeps : ∀ z q, step y = .ok () z → z.suspended.Depicts (place r) q →
      careful → Picture.Keeps (y.unmarked (place r) marks') p q) :
    (∃ more marks'', Follows careful x r marks 0 (more ∘ place) z marks'') ∨
      y.doing (place r) = some .ret ∧ ∀ q, ¬ z.suspended.Depicts (place r) q := by
  cases turn with
  | completed done =>
    obtain ⟨q, after, -⟩ | gone := step_pictures running done depicts
    · exact .inl ⟨id, _, follows.stepped running done depicts after (Nat.zero_le _) (keeps _ q done after)⟩
    · exact .inr gone
  | recovered interrupted recovered =>
    obtain ⟨more, conveys, -⟩ := recovered_conveys (fun _ => adds) running interrupted recovered
    exact .inl ⟨more, _, follows.carried known conveys⟩

end Follows

end Exec

namespace Execution

open Exec (Follows step argument peek)

variable {x x₁ : Execution} {r : Ref} {i : Instruction} {argc : Nat} {p : Picture} {marks : List Mark}

/-- Whenever the frame that `x` has entered in `x₁` runs, it reads its arguments. When it returns,
the frame below goes on behind the call with the answer on top, and with all its marks. -/
def Answers (x : Execution) (r : Ref) (i : Instruction) (argc : Nat) (p : Picture) (marks : List Mark)
    (x₁ : Execution) : Prop :=
  ∀ place y marks', Follows True x₁ r marks p.words.length place y marks' → y.Running →
    y.machine.store.heap.Houses (place r) y.stack → y.fp = p.words.length →
    (∀ index < argc, ∃ v, p.words[p.words.length - (index + 1)]? = some (.value v) ∧
      argument index y = .ok (v.move place) y) ∧
    (y.instruction? = some .ret → ∃ z answer, step y = .ok () z ∧ peek 0 y = .ok answer y ∧
      z.lambda = x.lambda.move place ∧
      z.Resumes (place r) { (p.move place).topped answer with pc := x.pc + i.size } ∧
      y.marked (place r) marks' = marks.map (Mark.move place) ∧
      ((∀ k ∈ marks, k.offset + 2 < p.words.length) →
        Picture.Lists { (p.move place).topped answer with pc := x.pc + i.size } (marks.map (Mark.move place)) none))

namespace Calls

theorem listed (calls : x.Calls r i argc p x₁) (lists : p.Lists marks none) :
    ∃ p₁, x₁.suspended.Depicts r p₁ ∧ p₁.fp = p.words.length ∧ p₁.fp + 3 ≤ p₁.words.length ∧
      p₁.Lists marks none := by
  obtain ⟨p₁, depicts, isFrame, room, below, -⟩ := calls.entered
  have plain : Picture.Plain (some i) := by
    refine ⟨?_, ?_, ?_⟩
    · rintro index ⟨⟩
      cases calls.enters
    · rintro ⟨⟩
      cases calls.enters
    · rintro ⟨⟩
      cases calls.enters
  have isLeft : x.unmarked r marks = marks := by
    rw [Exec.unmarked_eq calls.running calls.depicts, calls.isNext, Picture.left_of_plain plain]
  have isMarked : x.marked r marks = marks := by
    rw [Exec.marked_eq calls.running calls.depicts fun index isMark =>
      plain.1 index (calls.isNext.symm.trans isMark), calls.isNext, Picture.left_of_plain plain]
  have keeps : Picture.Keeps (x.unmarked r marks) p p₁ := by
    rw [isLeft]
    intro k member
    have := (lists.inside k member).2
    exact ⟨below _ (by omega), below _ (by omega)⟩
  have := calls.room
  refine ⟨p₁, depicts, isFrame, room, ?_⟩
  rw [← isMarked]
  exact Exec.step_lists calls.running calls.done calls.depicts depicts lists keeps nofun (by omega)

theorem answers (calls : x.Calls r i argc p x₁) (lists : p.Lists marks none) :
    x.Answers r i argc p marks x₁ := by
  intro place y marks' follows running here isTop
  have room := calls.room
  obtain ⟨p₁, depicts, isFrame, room₁, lists₁⟩ := calls.listed lists
  have lower : ∀ k ∈ marks, k.frame < p.words.length := fun k member => by
    have := (lists.active k member).le
    omega
  obtain ⟨made, rfl, high, follows'⟩ := follows.outer depicts isFrame.ge room₁ trivial lists₁ nofun lower
  refine ⟨fun index low => calls.argument_eq follows' running here isTop (by omega), fun isRet => ?_⟩
  have isNext : y.doing (place r) = some .ret := (if_pos here).trans isRet
  have low : ∀ b ∈ p.marker, b < p.words.length := by
    intro b isMarker
    have := lists.marker_lt nofun (by omega)
    rw [show p.marker = some b from isMarker] at this
    exact this
  obtain ⟨z, answer, done, isAnswer, lambda, resumes⟩ := calls.returns follows' running isNext isTop trivial low
  refine ⟨z, answer, done, isAnswer, lambda, resumes, ?_, fun apart => ?_⟩
  · -- the marks that are left are those of the frames further down
    obtain ⟨q, depicts', -, -, -, lists'⟩ := follows.kept depicts isFrame.ge room₁
    obtain ⟨isFrame', -⟩ := Exec.doing_registers running isNext depicts'
    rw [Exec.marked_eq running depicts' (by simp [isNext]), isNext, Picture.left, List.filter_append,
      List.filter_eq_nil_iff.mpr, List.filter_eq_self.mpr, List.nil_append]
    · refine List.forall_mem_map.mpr fun k member => ?_
      have := lower k member
      exact decide_eq_true (show k.frame ≠ q.fp by omega)
    · intro k member
      have := high k member
      have := ((lists' none trivial lists₁ nofun).active k (List.mem_append_left _ member)).le
      simp only [ne_eq, decide_not, Bool.not_eq_eq_eq_not, Bool.not_true, decide_eq_false_iff_not, not_not]
      omega
  · have other (j : Nat) (low : j + 1 < p.words.length) :
        ((p.move place).topped answer).words[j]? = (p.move place).words[j]? := by
      rw [Picture.topped, Picture.length_move, List.getElem?_set_ne (by omega)]
    have under (j : Nat) (low : j < p.fp + 3) :
        ((p.move place).topped answer).words[j]? = (p.move place).words[j]? := other j (by omega)
    refine (lists.move place).keeps (List.forall_mem_map.mpr fun k member => ?_) rfl
      (fun _ _ active => active.congr rfl under) fun _ _ g active _ =>
        .inl (active.congr rfl fun j low => (under j low).symm)
    have := apart k member
    exact ⟨other _ (by simp only [Mark.move]; omega), other _ (by simp only [Mark.move]; omega)⟩

end Calls

end Execution

namespace Exec

open Execution (Running)

variable {x₀ x : Execution} {r : Ref} {p₀ p : Picture} {place : Ref → Ref} {marks : List Mark}

/-- The chain of markers of a task that is followed from its start. -/
theorem Follows.lists (fresh : x₀.suspended.Depicts r p₀) (isFresh : p₀.Fresh)
    (follows : Follows True x₀ r [] 0 place x marks) (running : x.Running)
    (here : x.heap.Houses (place r) x.stack) :
    ∃ p s, x.suspended.Depicts (place r) p ∧ p.Lists marks none ∧ x.At s x.pc ∧
      p = x.picture s := by
  have room : p₀.fp + 3 ≤ p₀.words.length := by have := isFresh.fp; have := isFresh.room; omega
  obtain ⟨p, depicts, -, -, -, lists⟩ := follows.kept fresh (Nat.zero_le _) room
  obtain ⟨s, atPc⟩ := running
  exact ⟨p, s, depicts, lists none trivial ⟨isFresh.marker, nofun, nofun, nofun, .nil⟩ nofun, atPc,
    depicts.unique (atPc.depicts.mpr (.inl ⟨here, rfl⟩)) ▸ rfl⟩

/-- A task is laid out without marks, and is followed turn by turn until it has returned. While it
runs, its chain of markers is that of its marks: those that its active frames have made and not
undone, the innermost first. A condition is unhandled if no table of these marks has a handler for
it, and only then. Otherwise the first handler of the innermost table that has one is entered with
the arguments; and its answer goes to the frame that has raised the condition, which goes on with
all its marks. -/
theorem Follows.raises (fresh : x₀.suspended.Depicts r p₀) (isFresh : p₀.Fresh)
    (follows : Follows True x₀ r [] 0 place x marks) (running : x.Running) :
    (∀ (s s' : Stack) home bottom entry, s.prepare home bottom entry = .ok s' → ∃ p, s'.Shows p ∧ p.Fresh) ∧
    (∀ p z, (∀ compiler, x.machine.compiler = some compiler → ∀ v, Store.Adds (compiler v)) →
      x.suspended.Knows (place r) → x.suspended.Depicts (place r) p → Turn x z →
      (∀ y q, step x = .ok () y → y.suspended.Depicts (place r) q →
        Picture.Keeps (x.unmarked (place r) marks) p q) →
      (∃ more marks', Follows True x₀ r [] 0 (more ∘ place) z marks') ∨
        x.doing (place r) = some .ret ∧ ∀ q, ¬ z.suspended.Depicts (place r) q) ∧
    (x.machine.store.heap.Houses (place r) x.stack →
      ∃ p, x.suspended.Depicts (place r) p ∧ p.fp = x.fp ∧ p.words.length = x.sp ∧ p.Lists marks none ∧
        ∀ index argc name i, i = .raise index argc → x.instruction? = some i → constant index x = .ok name x →
          (∀ text y, step x = .error (.raised (.failed (.unhandledCondition text))) y ↔
            (∀ k ∈ marks, x.machine.store.heap.Lacks name k.handlers) ∧
              nameOf x.machine.store.heap name = .ok text ∧ y = x.fetched i) ∧
          (∀ handler, x.machine.store.heap.Finds name marks (some handler) →
            step x = (do
              let (lambda, l) ← narrow Lambda handler
              enter lambda l argc.toNat none (x.pc + i.size) : Exec Unit) (x.fetched i)) ∧
          ∀ x₁, step x = .ok () x₁ →
            (∃ handler l, x.machine.store.heap.Finds name marks (some handler) ∧
              narrow Lambda handler (x.fetched i) = .ok (x₁.lambda, l) (x.fetched i) ∧ l.argc = argc.toNat ∧
              x₁.fp = x.sp ∧ x₁.pc = 0) ∧
            x.Answers (place r) i argc.toNat p marks x₁) := by
  refine ⟨fun s s' home bottom entry prepared => Stack.fresh_of_prepare prepared,
    fun p z adds known depicts turn keeps =>
      follows.turned adds running known depicts turn fun y q done after _ => keeps y q done after,
    fun here => ?_⟩
  obtain ⟨p, s, depicts, lists, atPc, rfl⟩ := follows.lists fresh isFresh running here
  refine ⟨_, depicts, rfl, Execution.length_picture atPc.fits, lists, ?_⟩
  rintro index argc name i isRaise isNext isConstant
  have isNext : x.doing (place r) = some i := (if_pos here).trans isNext
  obtain ⟨s', a, n, -, atPc', e, isStep⟩ := executing_of_doing running isNext
  cases atPc'.found.symm.trans atPc.found
  subst isRaise
  have isStep : step x = raise index argc (x.pc + Instruction.size (.raise index argc))
    (x.fetched (.raise index argc)) := isStep
  have isConstant' : constant index (x.fetched (.raise index argc)) = .ok name (x.fetched (.raise index argc)) := by
    obtain ⟨l, t, isLambda, isTuple, isElement⟩ := constant_ok.mp isConstant
    exact constant_ok.mpr ⟨l, t, isLambda, isTuple, isElement⟩
  -- which handler the chain of markers leads to
  have same (j : Nat) (inside : j < (x.picture s).words.length) :
      (s.words[j]?).map Slot.loosen = (x.picture s).words[j]? :=
    ((Stack.getElem?_loose s x.sp j).trans (if_pos (Execution.length_picture atPc.fits ▸ inside))).symm
  have finds (found : Option Value) : handlerFrom x.machine.store.heap s name (s.height + 2) s.marker = .ok found ↔
      x.machine.store.heap.Finds name marks found :=
    handlerFrom_iff lists.chained same (by
      have := lists.length_le
      have := Execution.length_picture atPc.fits
      have := atPc.fits
      omega)
  refine ⟨fun text y => ?_, fun handler isHandler => ?_, fun x₁ done => ⟨?_, ?_⟩⟩
  · rw [isStep, raise_unhandled_iff e.found isConstant', ← Heap.finds_none, ← finds]
    rfl
  · rw [isStep, raise_eq e.found isConstant']
    have isFound : handlerFrom (x.fetched (.raise index argc)).machine.store.heap s name (s.height + 2) s.marker =
      .ok (some handler) := (finds _).mpr isHandler
    rw [isFound]
  · rw [isStep, raise_eq e.found isConstant'] at done
    split at done
    · obtain ⟨_, _, -, failed⟩ := Action.bind_ok done
      cases failed
    · rename_i handler isFound
      obtain ⟨⟨lambda, l⟩, x₂, narrowed, entering⟩ := Action.bind_ok done
      obtain ⟨rfl, -⟩ := narrow_ok narrowed
      obtain ⟨s', -, rfl, isArgc⟩ := enter_ok e.toOn entering
      exact ⟨handler, l, (finds _).mp isFound, narrowed, isArgc, rfl, rfl⟩
    · cases done
  · have calls : x.Calls (place r) (.raise index argc) argc.toNat (x.picture s) x₁ :=
      ⟨running, depicts, isNext, rfl, done⟩
    exact calls.answers lists

end Exec

namespace Execution

open Exec (Follows step constant)

/-- A handler that answers five, a table in which three is its name, and a lambda that marks with
the table and raises three. -/
def raising : List (List Value → Machine.Item) :=
  [fun _ => .code [.push 0, .ret] [.int 5] 0 1, fun made => .tuple (.int 3 :: made),
    fun made => .code [.mark 0, .pushNull, .raise 1 0, .ret] (made.take 1 ++ [.int 3]) 0 3]

theorem raising_balanced : ∀ item ∈ raising, ∀ made, (item made).Balanced :=
  List.forall_mem_cons.mpr ⟨fun _ => .ofTable [(0, 0), (2, 1)] (by decide) (by decide) (by decide),
    List.forall_mem_cons.mpr ⟨fun _ => trivial, List.forall_mem_cons.mpr
      ⟨fun _ => .ofTable [(0, 0), (2, 2), (3, 3), (6, 3)] (by decide) (by decide) (by decide), nofun⟩⟩⟩

/-- Whether a call that is played from its start comes to an instruction that raises a condition of
the given name and completes it. -/
def raisesAt (script : List (List Value → Machine.Item)) (count : Nat) (index argc : UInt16) (name : Value) : Bool :=
  match Machine.played script 0 with
  | some x₀ =>
    match x₀.machine.references.slot x₀.currentTask, x₀.picture? with
    | .object r, some p₀ =>
      match followed true r 0 count x₀ [] with
      | some (x, _) =>
        match constant index x, step x with
        | .ok v _, .ok _ _ => decide (x₀.machine.store.heap.Houses r x₀.stack ∧ x.machine.store.heap.Houses r x.stack ∧
            p₀.fp = 0 ∧ p₀.marker = none ∧ 3 ≤ p₀.words.length ∧ x.instruction? = some (.raise index argc) ∧ v = name)
        | _, _ => false
      | none => false
    | _, _ => false
  | none => false

theorem raises_raising :
    ∃ x₀ r p₀ x marks p x₁ handler, Machine.played raising 0 = some x₀ ∧ x₀.suspended.Depicts r p₀ ∧
      p₀.Fresh ∧ Follows True x₀ r [] 0 id x marks ∧ x.Running ∧ p.Lists marks none ∧
      x.machine.store.heap.Finds (.int 3) marks (some handler) ∧ step x = .ok () x₁ ∧
      x.Answers r (.raise 1 0) 0 p marks x₁ := by
  have tried : raisesAt raising 3 1 0 (.int 3) = true := by decide +kernel
  unfold raisesAt at tried
  split at tried
  rotate_left
  · cases tried
  rename_i x₀ isPlayed
  split at tried
  rotate_left
  · cases tried
  rename_i r p₀ isTask isPicture
  split at tried
  rotate_left
  · cases tried
  rename_i x marks isFollowed
  split at tried
  rotate_left
  · cases tried
  rename_i v x' x₁ isConstant done
  obtain ⟨there, here, isBottom, noMarker, room, isNext, rfl⟩ := of_decide_eq_true tried
  cases (Exec.asks_constant _).same isConstant
  have running := Machine.running_of_played raising_balanced isPlayed
  obtain ⟨follows, running'⟩ := follows_of_followed running .start isFollowed
  have follows : Follows True x₀ r [] 0 id x marks := (eq_self true : (true = true) = True) ▸ follows
  have fresh := depicts_of_picture? running isPicture there
  have isFresh : p₀.Fresh := ⟨isBottom, noMarker, room⟩
  obtain ⟨p, -, -, -, lists, raised⟩ := (follows.raises fresh isFresh running').2.2 here
  obtain ⟨⟨handler, -, finds, -⟩, answers⟩ := (raised 1 0 _ _ rfl isNext isConstant).2.2 x₁ done
  exact ⟨x₀, r, p₀, x, marks, p, x₁, handler, isPlayed, fresh, isFresh, follows, running', lists, finds, done,
    answers⟩

end Execution

end ObjectMachine
