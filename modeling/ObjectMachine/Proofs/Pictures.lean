/-
# ObjectMachine.Proofs.Pictures -- what is on a stack outlasts every interruption

A `Picture` is what a stack holds wherever it lies: its words up to the end of the operands, with
links as offsets, its top frame, its next instruction and its innermost marker. `Machine.Depicts`
says which picture the parked stack of a task shows. A running stack has a picture as well, namely
the one it would show if the call were parked: `Execution.suspended`.

While a call is interrupted its stack is parked, moved by collections or copied into a higher one,
and other objects are made and compiled. `Machine.Conveys m place m'` says that slots, callers and
pictures come through it, with everything where `place` says.

* `Machine.Brings.conveys` -- work that brings everything along.
* `Machine.compile_conveys`, `Machine.Retains.restacked` -- what else happens to a machine
  meanwhile.
* `Exec.recovered_conveys` -- an interrupted call that goes on finds everything as it was.
-/
import Mathlib
import ObjectMachine.Proofs.Building
import ObjectMachine.Proofs.Forming
import ObjectMachine.Proofs.Framing

namespace ObjectMachine

open ObjectMachine.Action (asks_lift bind_ok lift_bind_ok)
open Heap (bodyOf?_adjust cast_eq_ok put view?_eq_some view?_iff)
open ObjectMachine.Frame (linkWord pcWord reserved)

/-- A machine word is the word of the number that it is. -/
theorem Size.ofInt_ofInt (n : Int) : ofInt (ofInt n) = ofInt n := by
  simp only [ofInt]
  omega

namespace Slot

variable {place : Ref → Ref}

/-- The slot with its link, if it is one, as an offset. -/
def loosen (slot : Slot) : Slot := slot.mapLink Link.loosen

/-- The slot with its value, if it is one, where `place` says. -/
def carry (place : Ref → Ref) (slot : Slot) : Slot := slot.mapValue (Value.move place)

@[simp] theorem loosen_value (v : Value) : (value v).loosen = value v := rfl

@[simp] theorem carry_value (v : Value) : (value v).carry place = value (v.move place) := rfl

@[simp] theorem carry_link (l : Link) : (link l).carry place = link l := rfl

theorem carry_id (slot : Slot) : slot.carry id = slot := by
  cases slot with
  | value v => exact congrArg value (Value.move_id v)
  | link l => rfl

theorem carry_carry (p q : Ref → Ref) (slot : Slot) :
    (slot.carry p).carry q = slot.carry (q ∘ p) := by
  cases slot with
  | value v => exact congrArg value (Value.move_move p q v)
  | link l => rfl

/-- Links that are addresses lead where they led. -/
theorem loosen_move (home : Ref) (slot : Slot) :
    (slot.move place home).loosen = slot.loosen.carry place := by
  cases slot with
  | value v => rfl
  | link l => cases l <;> rfl

theorem loosen_tighten (home : Ref) (slot : Slot) :
    (slot.mapLink (Link.tighten home)).loosen = slot.loosen := by
  cases slot with
  | value v => rfl
  | link l => cases l <;> rfl

theorem eq_value_of_loosen {slot : Slot} {v : Value} (loose : slot.loosen = value v) :
    slot = value v := by
  cases slot with
  | value w => exact loose
  | link l => cases loose

end Slot

/-- What a stack holds, wherever it lies. -/
structure Picture where
  /-- The words up to the end of the operands, with links as offsets. -/
  words : List Slot
  /-- Offset of the top frame. -/
  fp : Nat
  /-- The next instruction. -/
  pc : Nat
  /-- Offset of the innermost marker. -/
  marker : Option Nat
  deriving DecidableEq

/-- The picture when objects have gone where `place` says. -/
def Picture.move (place : Ref → Ref) (p : Picture) : Picture :=
  { p with words := p.words.map (Slot.carry place) }

theorem Picture.move_move (p q : Ref → Ref) (picture : Picture) :
    (picture.move p).move q = picture.move (q ∘ p) := by
  simp only [move, List.map_map]
  congr 2
  exact funext fun slot => slot.carry_carry p q

namespace Stack

variable {s s' : Stack} {p p' : Picture} {place : Ref → Ref} {home : Ref} {n : Nat}

/-- The first `n` words, with links as offsets. -/
def loose (s : Stack) (n : Nat) : List Slot := (s.words.toList.take n).map Slot.loosen

theorem getElem?_loose (s : Stack) (n i : Nat) :
    (s.loose n)[i]? = if i < n then (s.words[i]?).map Slot.loosen else none := by
  rw [loose, List.getElem?_map, List.getElem?_take, Array.getElem?_toList]
  split <;> rfl

theorem length_loose (inside : n ≤ s.height) : (s.loose n).length = n := by
  rw [loose, List.length_map, List.length_take, Array.length_toList]
  exact min_eq_left inside

/-- The parked stack shows the picture. -/
structure Shows (s : Stack) (p : Picture) : Prop where
  status : s.status = .parked
  top : ∃ home, s.top = .address home p.words.length
  words : ∃ counter, Size.ofInt counter = p.pc ∧
    s.loose (p.words.length + 2) = p.words ++ [.value (.int counter), .link (.offset p.fp)]
  marker : s.marker = p.marker

/-- What a stack shows that has a parking frame at its top. -/
theorem shows_of_parking {top frame : Nat} {v : Value} {counter : Int} (status : s.status = .parked)
    (isTop : s.top = .address home top)
    (parking : FrameAt s.words (.address home frame) top (top + 3) v counter) :
    s.Shows ⟨s.loose top, frame, Size.ofInt counter, s.marker⟩ := by
  have inside := parking.above_le_size
  have length : (s.loose top).length = top := length_loose (show top ≤ s.words.size by omega)
  refine ⟨status, ⟨home, by rw [isTop, length]⟩, ⟨counter, rfl, ?_⟩, rfl⟩
  simp only [length]
  refine List.ext_getElem? fun i => ?_
  rw [getElem?_loose, List.getElem?_append, getElem?_loose, length]
  obtain low | rfl | rfl | high : i < top ∨ i = top ∨ i = top + 1 ∨ top + 1 < i := by omega
  · rw [if_pos (by omega), if_pos low, if_pos low]
  · rw [if_pos (by omega), if_neg (by omega), parking.counter, Nat.sub_self]
    rfl
  · rw [if_pos (by omega), if_neg (by omega), parking.linked, Nat.add_sub_cancel_left]
    rfl
  · rw [if_neg (by omega), if_neg (by omega), List.getElem?_eq_none]
    simp only [List.length_cons, List.length_nil]
    omega

variable (shows : s.Shows p)
include shows

theorem Shows.unique (shows' : s.Shows p') : p' = p := by
  obtain ⟨_, top⟩ := shows.top
  obtain ⟨_, top'⟩ := shows'.top
  have lengths : p'.words.length = p.words.length := (Link.address.inj (top'.symm.trans top)).2
  obtain ⟨counter, isPc, words⟩ := shows.words
  obtain ⟨counter', isPc', words'⟩ := shows'.words
  rw [lengths, words] at words'
  obtain ⟨same, rest⟩ := List.append_inj words' lengths.symm
  have marker := shows.marker.symm.trans shows'.marker
  obtain ⟨words, fp, pc, marker⟩ := p
  obtain ⟨words', fp', pc', marker'⟩ := p'
  cases same
  cases rest
  cases isPc.symm.trans isPc'
  cases marker
  rfl

theorem Shows.loose_eq : s.loose p.words.length = p.words := by
  obtain ⟨counter, -, words⟩ := shows.words
  have first := congrArg (List.take p.words.length) words
  rwa [List.take_left, loose, ← List.map_take, List.take_take, min_eq_left (by omega)] at first

theorem Shows.room : p.words.length + 2 ≤ s.height := by
  obtain ⟨counter, -, words⟩ := shows.words
  have length := congrArg List.length words
  simp only [loose, List.length_map, List.length_take, Array.length_toList, List.length_append,
    List.length_cons, List.length_nil] at length
  simp only [height]
  omega

/-- Where objects go, pictures go with them. -/
theorem Shows.became (became : s'.relocated id home = s.relocated place home) :
    s'.Shows (p.move place) := by
  obtain ⟨_, top⟩ := shows.top
  obtain ⟨counter, isPc, words⟩ := shows.words
  have shape := relocated_of_parked place home shows.status top
  rw [shape] at became
  have status' : s'.status = .parked := by
    have same := congrArg Stack.status became
    rw [status_relocated] at same
    exact same.trans shows.status
  obtain ⟨home', top'⟩ : ∃ home', s'.top = .address home' p.words.length := by
    have same := congrArg Stack.top became
    cases isTop : s'.top with
    | address home' other =>
      rw [relocated_of_parked id home status' isTop] at same
      exact ⟨home', by rw [(Link.address.inj same).2]⟩
    | _ =>
      simp only [relocated, status', isTop] at same
      cases same
  rw [relocated_of_parked id home status' top'] at became
  have marker' := congrArg Stack.marker became
  have moved : s'.loose (p.words.length + 2) = (s.loose (p.words.length + 2)).map (Slot.carry place) := by
    refine List.ext_getElem? fun i => ?_
    rw [List.getElem?_map, getElem?_loose, getElem?_loose]
    by_cases low : i < p.words.length + 2
    · have same := congrArg (fun s : Stack => (s.words[i]?).map Slot.loosen) became
      simp only [getElem?_mapBelow, show i < p.words.length + 3 by omega, if_true, Option.map_map,
        Function.comp_def, Slot.loosen_move, Slot.carry_id] at same
      rw [if_pos low, if_pos low, same, Option.map_map]
      rfl
    · rw [if_neg low, if_neg low]
      rfl
  refine ⟨status', ⟨home', by rw [top']; simp [Picture.move]⟩, ⟨counter, isPc, ?_⟩,
    marker'.trans shows.marker⟩
  rw [show (p.move place).words.length = p.words.length by simp [Picture.move], moved, words, List.map_append]
  rfl

theorem Shows.congr (status : s'.status = .parked) (marker : s'.marker = s.marker)
    (top : ∃ home, s'.top = .address home p.words.length) (same : ∀ i < p.words.length + 2,
      (s'.words[i]?).map Slot.loosen = (s.words[i]?).map Slot.loosen) : s'.Shows p := by
  obtain ⟨counter, isPc, words⟩ := shows.words
  refine ⟨status, top, ⟨counter, isPc, ?_⟩, marker.trans shows.marker⟩
  rw [← words]
  refine List.ext_getElem? fun i => ?_
  rw [getElem?_loose, getElem?_loose]
  split
  · exact same i ‹_›
  · rfl

end Stack

namespace Heap

variable {h h' : Heap} {home : Ref} {s : Stack} {p : Picture}

theorem ParkedAs.shows {least top frame : Nat} {v : Value} {counter : Int}
    (parked : h.ParkedAs home s least top frame v counter) :
    s.Shows ⟨s.loose top, frame, Size.ofInt counter, s.marker⟩ :=
  Stack.shows_of_parking parked.status parked.top_eq parked.parking

/-- A stack that shows a picture is parked as it should be. -/
theorem Sound.parked_of_shows {busy : Ref → Prop} (sound : h.Sound busy)
    (idle : ¬ busy home) (found : h.bodyOf? (.object home) = some (.stack s)) (shows : s.Shows p) :
    h.Parked home 1 s := by
  obtain ⟨_, o, ⟨⟩, isObject, isStack⟩ := bodyOf?_eq_some.mp found
  exact ((sound.objects home o isObject).stack s isStack idle).resolve_left (by simp [shows.status])

/-- The stack at `home` is parked and shows the picture. -/
def Displays (h : Heap) (home : Ref) (p : Picture) : Prop :=
  ∃ s, h.bodyOf? (.object home) = some (.stack s) ∧ s.Shows p

theorem Displays.unique {p' : Picture} (displays : h.Displays home p)
    (displays' : h.Displays home p') : p' = p := by
  obtain ⟨s, found, shows⟩ := displays
  obtain ⟨s', found', shows'⟩ := displays'
  cases found.symm.trans found'
  exact shows.unique shows'

/-- The stack of the task `r` is at `home`. -/
def Houses (h : Heap) (r home : Ref) : Prop := ∃ t, h.view? Task (.object r) = some t ∧ t.stack = .object home

theorem Houses.unique {other : Ref} {r : Ref} (houses : h.Houses r home)
    (houses' : h.Houses r other) : other = home := by
  obtain ⟨t, isTask, isHome⟩ := houses
  obtain ⟨t', isTask', isOther⟩ := houses'
  cases isTask.symm.trans isTask'
  exact Value.object.inj (isOther.symm.trans isHome)

end Heap

namespace Machine

variable {m m' m'' : Machine} {place more : Ref → Ref} {r home : Ref} {p p' : Picture}
variable {lambda : Nat}

/-- The parked stack of the task `r` shows the picture. -/
def Depicts (m : Machine) (r : Ref) (p : Picture) : Prop :=
  ∃ home, m.store.heap.Houses r home ∧ m.store.heap.Displays home p

theorem Depicts.unique (holds : m.Depicts r p) (holds' : m.Depicts r p') : p' = p := by
  obtain ⟨home, houses, displays⟩ := holds
  obtain ⟨home', houses', displays'⟩ := holds'
  cases houses.unique houses'
  exact displays.unique displays'

/-- Slots, callers and pictures come through, with everything `m` knows where `place` says. -/
structure Conveys (m : Machine) (place : Ref → Ref) (m' : Machine) : Prop where
  injective : ∀ r s, m.Knows r → m.Knows s → place r = place s → r = s
  slots : ∀ i < m.references.scopedCount, m'.references.slot i = (m.references.slot i).move place
  null : m'.store.roots.null = place m.store.roots.null
  task : ∀ r t, m.Knows r → m.store.heap.view? Task (.object r) = some t →
    ∃ t', m'.store.heap.view? Task (.object (place r)) = some t' ∧ t'.caller = t.caller.move place
  holds : ∀ r p, m.Knows r → m.Depicts r p → m'.Depicts (place r) (p.move place)

/-- Slots, callers and pictures are as they were. -/
structure Retains (m m' : Machine) : Prop where
  slots : ∀ i, m'.references.slot i = m.references.slot i
  null : m'.store.roots.null = m.store.roots.null
  task : ∀ r t, m.store.heap.view? Task (.object r) = some t →
    ∃ t', m'.store.heap.view? Task (.object r) = some t' ∧ t'.caller = t.caller
  holds : ∀ r p, m.Depicts r p → m'.Depicts r p

theorem Conveys.retains (conveys : m.Conveys place m') (retains : m'.Retains m'') :
    m.Conveys place m'' where
  injective := conveys.injective
  slots i low := (retains.slots i).trans (conveys.slots i low)
  null := retains.null.trans conveys.null
  task r t known isTask := by
    obtain ⟨t', isTask', caller⟩ := conveys.task r t known isTask
    obtain ⟨t'', isTask'', caller'⟩ := retains.task _ t' isTask'
    exact ⟨t'', isTask'', caller'.trans caller⟩
  holds r p known holds := retains.holds _ _ (conveys.holds r p known holds)

/-- Slots that were not there before may be given up. -/
theorem Conveys.left (conveys : m.Conveys place m') {start : Nat}
    (above : m.references.scopedCount ≤ start) : m.Conveys place (m'.left start) :=
  { conveys with
    slots := fun i low => (slot_left (low.trans_le above)).trans (conveys.slots i low) }

theorem Knows.task {t : Task}
    (known : m.Knows r) (isTask : m.store.heap.view? Task (.object r) = some t) {v : Value}
    (member : v ∈ [t.stack, t.caller]) {q : Ref} (isRef : v = .object q) : m.Knows q := by
  obtain ⟨_, o, ⟨⟩, found, isBody⟩ := Heap.view?_iff.mp isTask
  refine known.mentions found (.inr ?_)
  rw [isBody, ← isRef]
  exact member

/-- What brings everything along brings tasks and their stacks along. -/
theorem Brings.conveys (brings : m.Brings place m') : m.Conveys place m' := by
  have tasks : ∀ r t, m.Knows r → m.store.heap.view? Task (.object r) = some t →
      m'.store.heap.view? Task (.object (place r)) =
        some { t with stack := t.stack.move place, caller := t.caller.move place } := by
    intro r t known isTask
    obtain ⟨_, o, ⟨⟩, found, isBody⟩ := Heap.view?_iff.mp isTask
    obtain ⟨o', found', became⟩ := brings.object r o known found
    have body := became.body (by rw [isBody]; simp [HeapKind.wrap, Body.kind])
    rw [isBody] at body
    exact view?_iff.mpr ⟨_, o', rfl, found', body⟩
  refine ⟨brings.injective, brings.slots, by rw [brings.roots]; rfl,
    fun r t known isTask => ⟨_, tasks r t known isTask, rfl⟩, ?_⟩
  rintro r p known ⟨home, ⟨t, isTask, isHome⟩, s, found, shows⟩
  have knownHome : m.Knows home := known.task isTask (by simp) isHome
  obtain ⟨_, o, ⟨⟩, isObject, isBody⟩ := Heap.bodyOf?_eq_some.mp found
  obtain ⟨o', isObject', became⟩ := brings.object home o knownHome isObject
  have bodies := congrArg Object.body became
  simp only [Object.relocated, isBody] at bodies
  cases isBody' : o'.body with
  | stack s' =>
    rw [isBody'] at bodies
    refine ⟨place home, ⟨_, tasks r t known isTask, by simp [isHome]⟩, s',
      Heap.bodyOf?_eq_some.mpr ⟨_, o', rfl, isObject', isBody'⟩, ?_⟩
    exact shows.became (Body.stack.inj bodies)
  | _ =>
    rw [isBody'] at bodies
    cases bodies

theorem Brings.rooted (brings : m.Brings place m') (values : List Value) :
    m.Brings place (m'.rooted values) :=
  { brings with
    slots i low := (slot_rooted (low.trans_le brings.count) values).trans (brings.slots i low)
    count := by
      have := brings.count
      simp only [Machine.rooted, References.scopedCount, Array.size_append] at *
      omega }

/-- Pictures that everything has come along with go on to where they are conveyed. -/
theorem Brings.trans_conveys (brings : m.Brings place m') (conveys : m'.Conveys more m'') :
    m.Conveys (more ∘ place) m'' where
  injective r s known known' same := brings.injective r s known known'
    (conveys.injective _ _ (brings.knows known) (brings.knows known') same)
  slots i low := by
    rw [conveys.slots i (low.trans_le brings.count), brings.slots i low, Value.move_move]
  null := by
    rw [conveys.null, brings.roots]
    rfl
  task r t known isTask := by
    obtain ⟨t', isTask', caller⟩ := brings.conveys.task r t known isTask
    obtain ⟨t'', isTask'', caller'⟩ := conveys.task _ t' (brings.knows known) isTask'
    exact ⟨t'', isTask'', by rw [caller', caller, Value.move_move]⟩
  holds r p known holds := by
    rw [← Picture.move_move]
    exact conveys.holds _ _ (brings.knows known) (brings.conveys.holds r p known holds)

/-- Another stack that shows whatever the one in its place has shown. -/
theorem Retains.put_stack {s s' : Stack}
    (found : m.store.heap.bodyOf? (.object home) = some (.stack s))
    (shows : ∀ p, s.Shows p → s'.Shows p) :
    m.Retains (m.withHeap (m.store.heap.put (.object home) s')) := by
  have tasks : ∀ r t, m.store.heap.view? Task (.object r) = some t →
      (m.store.heap.put (.object home) s').view? Task (.object r) = some t := by
    intro r t isTask
    rw [view?_eq_some] at isTask ⊢
    rw [put, bodyOf?_adjust isTask, if_neg]
    rintro ⟨⟩
    cases found.symm.trans isTask
  refine ⟨fun _ => rfl, rfl, fun r t isTask => ⟨t, tasks r t isTask, rfl⟩, ?_⟩
  rintro r p ⟨home', ⟨t, isTask, isHome⟩, s₁, isStack, shown⟩
  refine ⟨home', ⟨t, tasks r t isTask, isHome⟩, ?_⟩
  by_cases here : home' = home
  · subst here
    cases found.symm.trans isStack
    exact ⟨s', Heap.bodyOf?_put found s', shows p shown⟩
  · refine ⟨s₁, ?_, shown⟩
    rw [Machine.withHeap, put, bodyOf?_adjust isStack, if_neg (by simpa using Ne.symm here)]

/-- A change to an object that is no part of a task. -/
theorem Retains.adjust {v : Value} {b : Body} (found : m.store.heap.bodyOf? v = some b)
    (noTask : b.kind ≠ .task) (noStack : b.kind ≠ .stack) (f : Body → Body) :
    m.Retains (m.withHeap (m.store.heap.adjust v f)) := by
  have others : ∀ {w c}, m.store.heap.bodyOf? w = some c → c.kind ≠ b.kind →
      (m.store.heap.adjust v f).bodyOf? w = some c := by
    intro w c found' differs
    rw [bodyOf?_adjust found', if_neg]
    rintro rfl
    cases found.symm.trans found'
    exact differs rfl
  have tasks : ∀ r t, m.store.heap.view? Task (.object r) = some t →
      (m.store.heap.adjust v f).view? Task (.object r) = some t := fun r t isTask =>
    view?_eq_some.mpr (others (view?_eq_some.mp isTask) noTask.symm)
  refine ⟨fun _ => rfl, rfl, fun r t isTask => ⟨t, tasks r t isTask, rfl⟩, ?_⟩
  rintro r p ⟨home, ⟨t, isTask, isHome⟩, s, isStack, shows⟩
  exact ⟨home, ⟨t, tasks r t isTask, isHome⟩, s, others isStack noStack.symm, shows⟩

/-- The attempt that succeeds starts from an idle machine to which everything has come along. -/
theorem retrying_brings {α : Type}
    {work : Op Signal α} {answer : α} (careful : Action.Careful Undisturbed (fun _ => True) work)
    (idles : ∀ m, m.Idle → Action.Leads work m (fun _ _ => True) fun _ m' => m'.Idle)
    (idle : m.Idle) (done : retrying work m = .ok answer m') :
    ∃ place m₁, m.Brings place m₁ ∧ m₁.Idle ∧ work m₁ = .ok answer m' := by
  unfold retrying at done
  split at done
  · rename_i size m₁ attempt
    have idle₁ : m₁.Idle := (idles m idle).cause attempt
    have undisturbed := careful m _ m₁ attempt trivial
    obtain ⟨_, _, ⟨⟩, rest⟩ := bind_ok done
    obtain ⟨_, m₃, collected, retried⟩ := bind_ok rest
    generalize m₁.log.add _ _ = log at collected
    have idle₂ := idle₁.withLog log
    obtain ⟨place, carried⟩ := (@ends_collect RunError _ size idle₂.registered
      (idle₂.collectable _)).leads.answer collected
    refine ⟨_, m₃, (undisturbed.brings.withLog log).trans (carried.brings idle₂.registered),
      idle₂.carried carried, ?_⟩
    unfold Action.mapError at retried
    cases again : work m₃ with
    | ok answer' m₄ =>
      rw [again] at retried
      cases retried
      rfl
    | error stop m₄ =>
      rw [again] at retried
      cases retried
  · cases done
  · rename_i attempt
    cases done
    exact ⟨id, m, .refl m, idle, attempt⟩

/-- A lambda without code has none wherever it goes. -/
theorem Uncompiled.brought {index : Nat} (uncompiled : m.Uncompiled index)
    (idle : m.Idle) (inside : index < m.references.scopedCount) (brings : m.Brings place m') :
    m'.Uncompiled index := by
  obtain ⟨l, isLambda, noCode⟩ := uncompiled
  obtain ⟨r, o, inSlot, found, isBody⟩ := Heap.view?_iff.mp isLambda
  have known := knows_slot inSlot
  obtain ⟨o', found', became⟩ := brings.object r o known found
  have body := became.body (by rw [isBody]; simp [HeapKind.wrap, Body.kind])
  rw [isBody] at body
  have isLambda' : m'.store.heap.view? Lambda (m'.references.slot index) =
      some { l with code := l.code.move place, constants := l.constants.move place
                    outers := l.outers.move place, context := l.context.move place
                    source := l.source.move place } := by
    rw [brings.slots index inside, inSlot]
    exact view?_iff.mpr ⟨_, o', rfl, found', body⟩
  refine ⟨_, isLambda', fun isCode => noCode ?_⟩
  obtain ⟨c, isCode⟩ := Heap.is_iff.mp isCode
  obtain ⟨_, code', isRef, foundCode', isBody'⟩ := Heap.view?_iff.mp isCode
  cases isValue : l.code with
  | object q =>
    obtain ⟨code, foundCode⟩ := ((idle.store.heap.objects r o found).lambda l isBody).current q isValue
    have held : Value.object q ∈ o.body.held := by
      rw [isBody, ← isValue]
      simp [HeapKind.wrap, Body.held, Body.fields]
    obtain ⟨_, foundCode'', became'⟩ := brings.object q code (known.mentions found (.inr held)) foundCode
    rw [isValue] at isRef
    cases isRef
    cases foundCode'.symm.trans foundCode''
    have kind := became'.kind
    rw [isBody'] at kind
    cases isCode : code.body with
    | code c => exact Heap.is_iff.mpr ⟨c, view?_iff.mpr ⟨q, code, rfl, foundCode, isCode⟩⟩
    | _ =>
      rw [isCode] at kind
      cases kind
  | _ =>
    rw [isValue] at isRef
    cases isRef

theorem inScope_ok {ε α : Type}
    {work : Op ε α} {answer : α} (done : inScope work m = .ok answer m') :
    ∃ m₁, work m = .ok answer m₁ ∧ m' = m₁.left m.references.scopedCount := by
  unfold inScope at done
  cases result : work m with
  | ok found m₁ =>
    rw [result] at done
    cases done
    exact ⟨m₁, rfl, rfl⟩
  | error stop m₁ =>
    rw [result] at done
    cases done

theorem careful_installing (assembly : Assembly) (lambda : Nat) (constants : List Nat) :
    Action.Careful Undisturbed (fun _ => True) (installing assembly lambda constants) := by
  refine .after (asks_slots _).gentle fun values => .after (gentle_onStore ?_) fun code =>
    .before (gentle_onStore (Make.adds.plain (.tuple values) rfl)).careful fun pool => ?_
  · exact Make.adds.plain (.code _) rfl
  · exact .bind (asks_ask _).final fun v => .bind (asks_check _).final fun l =>
      Action.final_of_answers fun m => ⟨_, _, rfl⟩

/-- Where there is no room for its code, a lambda stays without. -/
theorem leads_installing_idle {assembly : Assembly} {constants : List Nat} (idle : m.Idle) :
    Action.Leads (installing assembly lambda constants) m (fun _ _ => True) fun _ m' =>
      m'.Idle := by
  refine (asks_slots _).leads_bind fun values _ => Action.leads_bind.mpr ?_
  refine (keeps_onStore (Make.keeps_code _) idle.store).leads.mono ?_ fun _ _ ⟨grown, _⟩ =>
    idle.grown grown
  rintro code m₁ ⟨grown, -⟩
  refine Action.leads_bind.mpr ?_
  refine (keeps_onStore (Make.keeps_tuple _) grown.store.sound).leads.mono ?_ fun _ _ ⟨grown', _⟩ =>
    idle.grown (grown.trans grown')
  rintro pool m₂ -
  exact (asks_ask _).leads_bind fun v _ => (asks_check _).leads_bind fun l _ => trivial

theorem installing_conveys {assembly : Assembly} {constants : List Nat}
    (idle : m.Idle) (uncompiled : m.Uncompiled lambda) (inside : lambda < m.references.scopedCount)
    (done : installing assembly lambda constants m = .ok () m') :
    ∃ m₁, m.Undisturbed m₁ ∧ m₁.Retains m' := by
  obtain ⟨values, _, read, done₁⟩ := bind_ok done
  cases (slots_eq constants).symm.trans read
  obtain ⟨code, m₁, madeCode, done₂⟩ := bind_ok done₁
  obtain ⟨pool, m₂, madePool, done₃⟩ := bind_ok done₂
  obtain ⟨v, _, ⟨⟩, done₄⟩ := bind_ok done₃
  obtain ⟨l, m₃, checked, done₅⟩ := bind_ok done₄
  have undisturbed : m.Undisturbed m₂ := by
    refine (Action.Gentle.bind (gentle_onStore ?_) fun code => gentle_onStore
      (Make.adds.plain (.tuple _) rfl)).answered m pool m₂ ((Action.bind_eq_of_ok madeCode).trans madePool)
    exact Make.adds.plain (.code _) rfl
  obtain ⟨old, isLambda, -⟩ := uncompiled.brought idle inside undisturbed.brings
  cases (asks_check _).same checked
  cases done₅
  exact ⟨m₂, undisturbed, .adjust (view?_eq_some.mp isLambda) (by simp [HeapKind.wrap, Body.kind])
    (by simp [HeapKind.wrap, Body.kind]) _⟩

theorem ends_asking_idle {compiler : Compiler} (lawful : compiler.Lawful) (idle : m.Idle) :
    Action.Ends (asking compiler lambda) m (fun _ m' => m'.Idle) fun _ m' => m'.Idle := by
  refine Action.ends_bind.mpr (ends_ask.mpr (ends_onStore.mpr ?_))
  refine (lawful (fun _ => False) _ m.store idle.store).mono ?_ ?_
  · rintro assembly store ⟨grown, -⟩
    exact idle.grown ⟨grown, rfl, rfl, rfl⟩
  · rintro signal store grown
    exact idle.grown ⟨grown, rfl, rfl, rfl⟩

/-- A compiler that only makes objects does not affect the tasks that wait. -/
theorem compile_conveys {v : Value} {l : Lambda}
    (adds : ∀ compiler, m.compiler = some compiler → ∀ v, Store.Adds (compiler v)) (idle : m.Idle)
    (isLambda : m.store.heap.view? Lambda v = some l)
    (noCode : ¬ m.store.heap.is Code l.code = true) (done : compile v m = .ok () m') :
    ∃ place, m.Conveys place m' := by
  obtain ⟨m₁, inside, rfl⟩ := inScope_ok done
  obtain ⟨lambda, m₀, isRoot, rest⟩ := bind_ok inside
  obtain ⟨rfl, isCompiling⟩ : lambda = m.references.scopedCount ∧ m₀ = m.compiling v := by
    cases isRoot
    exact ⟨rfl, rfl⟩
  have idle₀ : m₀.Idle := isCompiling ▸ idle.push v
  have adds₀ : ∀ compiler, m₀.compiler = some compiler → ∀ v, Store.Adds (compiler v) := isCompiling ▸ adds
  have uncompiled₀ : m₀.Uncompiled m.references.scopedCount := by
    rw [isCompiling]
    exact ⟨l, by rw [compiling, slot_push_last]; exact isLambda, noCode⟩
  have inside₀ : m.references.scopedCount < m₀.references.scopedCount := by
    rw [isCompiling]
    simp [compiling, References.scopedCount, References.push]
  have brings₀ : m.Brings id m₀ := isCompiling ▸ (Brings.refl m).push v
  obtain ⟨found, _, ⟨⟩, rest'⟩ := bind_ok rest
  cases isCompiler : m₀.compiler with
  | none =>
    simp only [isCompiler] at rest'
    cases rest'
  | some compiler =>
    simp only [isCompiler] at rest'
    obtain ⟨argc, -, reporting⟩ := (asks_check _).bind_ok rest'
    obtain ⟨_, _, ⟨⟩, asking'⟩ := bind_ok reporting
    obtain ⟨assembly, m₂, asked, rooting⟩ := bind_ok asking'
    obtain ⟨constants, m₃, isRooted, installing'⟩ := bind_ok rooting
    generalize m₀.log.add _ _ = log at asked
    have lawful := idle₀.compiler compiler isCompiler
    have gentle : Action.Gentle Undisturbed (fun _ => True) (asking compiler m.references.scopedCount) :=
      .bind (asks_ask _).gentle fun v => gentle_onStore (adds₀ compiler isCompiler v)
    obtain ⟨p, m₄, brings₄, idle₄, asked'⟩ := retrying_brings gentle.careful
      (fun _ idle => (ends_asking_idle lawful idle).leads.imp fun _ _ _ => trivial) (idle₀.withLog log) asked
    have idle₂ : m₂.Idle := (ends_asking_idle lawful idle₄).leads.answer asked'
    obtain ⟨rfl, rfl⟩ : constants = m₂.freeSlots _ ∧ m₃ = m₂.rooted _ :=
      (@ends_rootAll RunError m₂ (fun _ _ => True) assembly.constants.toList
        (fun constants m => constants = _ ∧ m = _) |>.mpr ⟨rfl, rfl⟩).leads.answer isRooted
    obtain ⟨q, m₅, brings₅, idle₅, installed⟩ := retrying_brings (careful_installing _ _ _)
      (fun _ idle => leads_installing_idle idle) (idle₂.rooted _) installing'
    -- everything up to the lambda that gets its code has come along
    have brings : Brings { m₀ with log } _ m₅ :=
      (brings₄.trans (gentle.answered _ _ _ asked').brings).rooted _ |>.trans brings₅
    have uncompiled : Uncompiled { m₀ with log } m.references.scopedCount := uncompiled₀
    obtain ⟨m₆, undisturbed, retains⟩ := installing_conveys idle₅
      (uncompiled.brought (idle₀.withLog log) inside₀ brings) (inside₀.trans_le brings.count) installed
    have whole := ((brings₀.withLog log).trans brings).trans undisturbed.brings
    exact ⟨_, (whole.conveys.retains retains).left le_rfl⟩

end Machine

namespace Heap

variable {h : Heap} {home target : Ref} {s : Stack} {least top frame : Nat} {v : Value} {counter : Int}

/-- The parked stack that is replaced by a higher one: both show what it showed. -/
theorem ParkedAs.replaced_shows {loose copied moved kept fresh : Stack} {p : Picture}
    (parked : h.ParkedAs home s least top frame v counter) (isLoose : s.uncook home = .ok loose)
    (isCopied : fresh.copyContents loose = .ok copied) (isMoved : copied.recook target = .ok moved)
    (isKept : loose.recook home = .ok kept) (shows : s.Shows p) : moved.Shows p ∧ kept.Shows p := by
  obtain ⟨parkedNew, parkedOld, -, -⟩ := parked.replaced isLoose isCopied isMoved isKept
  obtain ⟨_, isTop⟩ := shows.top
  have length : top = p.words.length := (Link.address.inj (parked.top_eq.symm.trans isTop)).2
  cases (Stack.uncook_parked parked.parkedAt).symm.trans isLoose
  cases (Stack.recook_loose (Stack.loosened_loose parked.parkedAt)).symm.trans isKept
  cases (Stack.recook_loose (parked.looseAt_copied isCopied)).symm.trans isMoved
  obtain ⟨words, rfl, -, -, same⟩ := parked.copyContents isCopied
  have old : ∀ home, ∀ i < top + 3, (((s.loosened top).tightened home top).words[i]?).map Slot.loosen =
      (s.words[i]?).map Slot.loosen := by
    intro home i low
    rw [Stack.getElem?_tightened_loosened low, Option.map_map]
    exact congrArg (fun f => (s.words[i]?).map f) (funext (Slot.loosen_tighten home))
  refine ⟨shows.congr parkedNew.status rfl ⟨target, by rw [← length]; exact parkedNew.top_eq⟩ ?_,
    shows.congr parkedOld.status rfl ⟨home, by rw [← length]; exact parkedOld.top_eq⟩ ?_⟩
  · intro i low
    rw [← old target i (by omega)]
    simp only [Stack.tightened, Stack.getElem?_mapBelow, same i (show i < top + 3 by omega)]
  · intro i low
    exact old home i (by omega)

end Heap

namespace Machine

variable {m : Machine} {home target : Ref} {s : Stack}

theorem Retains.restacked {t : Task} {task : Value} (isTask : m.store.heap.view? Task task = some t)
    (isHome : t.stack = .object home) (isOld : m.store.heap.bodyOf? (.object home) = some (.stack s))
    {least top frame : Nat} {v : Value} {counter : Int}
    (parked : m.store.heap.ParkedAs home s least top frame v counter)
    {loose copied moved kept : Stack} {newHeight : Nat}
    (isNew : m.store.heap.bodyOf? (.object target) = some (.stack (Stack.fresh newHeight)))
    (isLoose : s.uncook home = .ok loose)
    (isCopied : (Stack.fresh newHeight).copyContents loose = .ok copied)
    (isMoved : copied.recook target = .ok moved) (isKept : loose.recook home = .ok kept) :
    m.Retains (m.withHeap (((m.store.heap.put (.object target) moved).put (.object home) kept).put task
      { t with stack := .object target })) := by
  -- a stack that has just been made is not parked
  have differs : target ≠ home := by
    rintro rfl
    cases isOld.symm.trans isNew
    cases parked.status
  have bodies : ∀ {w b}, m.store.heap.bodyOf? w = some b →
      (((m.store.heap.put (.object target) moved).put (.object home) kept).put task
        ({ t with stack := .object target } : Task)).bodyOf? w = some (
          if task = w then .task { t with stack := .object target }
          else if .object home = w then .stack kept
          else if .object target = w then .stack moved else b) := by
    intro w b found
    rw [put, put, put, bodyOf?_adjust (bodyOf?_adjust (bodyOf?_adjust found))]
    rfl
  generalize ((m.store.heap.put (.object target) moved).put (.object home) kept).put task
    ({ t with stack := .object target } : Task) = h at *
  have isTaskBody := view?_eq_some.mp isTask
  have noStack : ∀ {w : Value} {s' : Stack}, m.store.heap.bodyOf? w = some (.stack s') → task ≠ w := by
    rintro _ _ found rfl
    cases found.symm.trans isTaskBody
  have others : ∀ {r : Ref} {t' : Task}, m.store.heap.view? Task (.object r) = some t' →
      task ≠ .object r → h.view? Task (.object r) = some t' := by
    intro r t' isTask' other
    have found := view?_eq_some.mp isTask'
    rw [view?_eq_some, bodies found, if_neg other, if_neg, if_neg]
    · rintro ⟨⟩
      cases isNew.symm.trans found
    · rintro ⟨⟩
      cases isOld.symm.trans found
  have own : h.view? Task task = some { t with stack := .object target } := by
    rw [view?_eq_some, bodies isTaskBody, if_pos rfl]
    rfl
  refine ⟨fun _ => rfl, rfl, fun r t' isTask' => ?_, ?_⟩
  · by_cases same : task = .object r
    · subst same
      cases isTask.symm.trans isTask'
      exact ⟨_, own, rfl⟩
    · exact ⟨t', others isTask' same, rfl⟩
  rintro r p ⟨home', ⟨t', isTask', isHome'⟩, s', found, shows⟩
  by_cases here : home' = home
  · subst here
    cases isOld.symm.trans found
    obtain ⟨showsNew, showsOld⟩ := parked.replaced_shows isLoose isCopied isMoved isKept shows
    by_cases same : task = .object r
    · subst same
      refine ⟨target, ⟨_, own, rfl⟩, moved, ?_, showsNew⟩
      refine (bodies isNew).trans ?_
      rw [if_neg (noStack isNew), if_neg (by simpa using differs.symm), if_pos rfl]
    · refine ⟨home', ⟨t', others isTask' same, isHome'⟩, kept, ?_, showsOld⟩
      refine (bodies isOld).trans ?_
      rw [if_neg (noStack isOld), if_pos rfl]
  · have other : task ≠ .object r := by
      rintro rfl
      cases isTask.symm.trans isTask'
      exact here (Value.object.inj (isHome'.symm.trans isHome))
    refine ⟨home', ⟨t', others isTask' other, isHome'⟩, s', ?_, shows⟩
    refine (bodies found).trans ?_
    rw [if_neg (noStack found), if_neg (by simpa using Ne.symm here), if_neg]
    rintro ⟨⟩
    cases isNew.symm.trans found
    cases shows.status

end Machine

namespace Execution

variable {x y : Execution} {s : Stack} {p : Picture} {pc : Nat}

/-- The machine of the call, with the running stack parked where it is. -/
def suspended (x : Execution) : Machine :=
  x.machine.withHeap (x.machine.store.heap.adjustStack (.object x.stack) fun s => x.parkedStack s x.pc)

/-- What the running stack would show if the call were parked. -/
def picture (x : Execution) (s : Stack) : Picture := ⟨s.loose x.sp, x.fp, Size.ofInt x.pc, s.marker⟩

theorem suspended_eq (found : x.Stacked s) :
    x.suspended = (x.withStack (x.parkedStack s x.pc)).machine := by
  rw [suspended, Heap.adjustStack_eq_put found]
  rfl

/-- What the instruction at `pc` has failed to get so far. -/
def lacks (x : Execution) (pc : Nat) : Nat :=
  match x.shortage with
  | some shortage => if shortage.pc = pc then shortage.pending else 0
  | none => 0

/-- A parked stack shows what it had while it ran. -/
theorem shows_parkedStack (room : x.sp + 2 ≤ s.height) :
    (x.parkedStack s x.pc).Shows (x.picture s) := by
  have inside : x.sp + 2 ≤ s.words.size := room
  have length : (s.loose x.sp).length = x.sp := Stack.length_loose (by omega)
  refine ⟨rfl, ⟨x.stack, by rw [picture, length]; rfl⟩, ⟨x.pc, rfl, ?_⟩, rfl⟩
  simp only [picture, length]
  refine List.ext_getElem? fun i => ?_
  rw [Stack.getElem?_loose, List.getElem?_append, Stack.getElem?_loose, length]
  simp only [parkedStack, Stack.writeFrame, Stack.setWord, pcWord, linkWord, Frame.lambdaWord,
    Array.getElem?_setIfInBounds, Array.size_setIfInBounds]
  obtain low | rfl | rfl | high : i < x.sp ∨ i = x.sp ∨ i = x.sp + 1 ∨ x.sp + 1 < i := by omega
  · simp [low, show i < x.sp + 2 by omega, show ¬ x.sp = i by omega, show ¬ x.sp + 1 = i by omega,
      show ¬ x.sp + 2 = i by omega]
  · simp [show x.sp < s.words.size by omega]
    rfl
  · simp [show x.sp + 1 < s.words.size by omega]
    rfl
  · rw [if_neg (by omega), if_neg (by omega), List.getElem?_eq_none]
    simp only [List.length_cons, List.length_nil]
    omega

end Execution

namespace Exec

variable {x x' y : Execution} {s : Stack} {pc : Nat} {p : Picture}

/-- The registers are read back from the parked stack of the task that runs. -/
theorem resume_ok (done : resume x = .ok () x') :
    ∃ home s sp fp pc lambda, x.machine.Hosts x.currentTask home ∧
      x.heap.bodyOf? (.object home) = some (.stack s) ∧ s.status = .parked ∧
      offsetOf ((Slot.link s.top).place home) = .ok sp ∧ countAt s (sp + pcWord) = .ok pc ∧
      (do offsetOf (← Stack.placeAt s.words home (sp + linkWord))) = .ok fp ∧
      x' = Execution.withStack { x with
        stack := home, limit := s.height - reserved * Frame.size, fp, sp, pc, lambda }
        { s with status := .running } := by
  obtain ⟨task, _, ⟨⟩, done₁⟩ := bind_ok done
  obtain ⟨⟨home, s⟩, isAnswer, done₂⟩ := check_bind_ok done₁
  obtain ⟨t, isTask, isHome, found⟩ := Heap.parkedStack_ok isAnswer
  have hosts := Machine.hosts_of_task isTask isHome
  dsimp only at done₂
  split at done₂
  · cases done₂
  rename_i isParked
  split at done₂
  · cases done₂
  obtain ⟨sp, isSp, done₃⟩ := lift_bind_ok done₂
  obtain ⟨pc, isPc, done₄⟩ := lift_bind_ok done₃
  obtain ⟨place, isPlace, done₅⟩ := lift_bind_ok done₄
  obtain ⟨fp, isFp, done₆⟩ := lift_bind_ok done₅
  obtain ⟨lambda, -, done₇⟩ := check_bind_ok done₆
  obtain ⟨_, _, ⟨⟩, done₈⟩ := bind_ok done₇
  refine ⟨home, s, sp, fp, pc, lambda, hosts, found, not_not.mp isParked, isSp, isPc, ?_, ?_⟩
  · rw [isPlace]
    exact isFp
  · have running := @adjustStack_eq { x with stack := home, limit := s.height - reserved * Frame.size, fp, sp, pc, lambda } s found
      fun s => { s with status := .running }
    cases running.symm.trans done₈
    rfl

theorem offsetOf_place {slot : Slot}
    {home : Ref} {offset other : Nat} (inside : offsetOf (slot.place home) = .ok offset)
    (loose : slot.loosen = .link (.offset other)) : offset = other := by
  have noAddress : ∀ address, offsetOf (Place.ofAddress address) ≠ .ok offset := by
    intro address isOffset
    unfold Place.ofAddress at isOffset
    repeat' split at isOffset
    all_goals cases isOffset
  cases slot with
  | value v => cases loose
  | link l =>
    cases l with
    | bottom => cases inside
    | offset position => exact absurd inside (noAddress _)
    | address stack position =>
      cases loose
      simp only [Slot.place] at inside
      split at inside
      · cases inside
        rfl
      · unfold Place.ofRef at inside
        split at inside <;> cases inside

/-- A parked stack that is resumed still shows what it showed. -/
theorem resumed_retains (done : resume x = .ok () x') :
    x.machine.Retains x'.suspended ∧ x'.currentTask = x.currentTask ∧ x'.rootTask = x.rootTask := by
  obtain ⟨home, s, sp, fp, pc, lambda, -, found, -, isSp, isPc, isFp, rfl⟩ := resume_ok done
  refine ⟨?_, rfl, rfl⟩
  rw [Execution.suspended_eq (Execution.found_withStack (x := { x with
    stack := home, limit := s.height - reserved * Frame.size, fp, sp, pc, lambda }) found _),
    Execution.withStack_withStack]
  refine @Machine.Retains.put_stack x.machine home s (Execution.parkedStack { x with
    stack := home, limit := s.height - reserved * Frame.size, fp, sp, pc, lambda }
    { s with status := .running } pc) found fun p shows => ?_
  -- the registers are those of the picture
  obtain ⟨other, isTop⟩ := shows.top
  obtain ⟨counter, counted, words⟩ := shows.words
  have wordAt : ∀ i < p.words.length + 2, (s.words[i]?).map Slot.loosen =
      (p.words ++ [.value (.int counter), .link (.offset p.fp)])[i]? := by
    intro i low
    rw [← words, Stack.getElem?_loose, if_pos low]
  obtain rfl : sp = p.words.length := offsetOf_place isSp (by rw [isTop]; rfl)
  obtain rfl : pc = p.pc := by
    have here := wordAt p.words.length (by omega)
    rw [List.getElem?_append_right le_rfl, Nat.sub_self] at here
    obtain ⟨slot, isSlot, loose⟩ := Option.map_eq_some_iff.mp here
    cases Slot.eq_value_of_loosen loose
    cases (@countAt_of_int _ (p.words.length + pcWord) _ isSlot).symm.trans isPc
    exact counted
  obtain rfl : fp = p.fp := by
    have here := wordAt (p.words.length + 1) (by omega)
    rw [List.getElem?_append_right (by omega), Nat.add_sub_cancel_left] at here
    obtain ⟨slot, isSlot, loose⟩ := Option.map_eq_some_iff.mp here
    simp only [Stack.placeAt, linkWord, isSlot, bind, Except.bind] at isFp
    exact offsetOf_place isFp loose
  have shown := @Execution.shows_parkedStack { x with
    stack := home, limit := s.height - reserved * Frame.size, fp := p.fp, sp := p.words.length,
    pc := p.pc, lambda } { s with status := .running } shows.room
  have same : Size.ofInt p.pc = p.pc := by rw [← counted, Size.ofInt_ofInt]
  obtain ⟨pictured, fp, pc, marker⟩ := p
  convert shown using 1
  simp only [Execution.picture, same]
  congr 1
  · exact shows.loose_eq.symm
  · exact shows.marker.symm

theorem answered_ok {work : Op Interrupt Unit} (done : onMachine work x = .ok () x') :
    ∃ m, work x.machine = .ok () m ∧ x' = x.withMachine m := by
  have leads : Action.Leads (onMachine work) x (fun _ x' => ∃ m, work x.machine = .ok () m ∧
      x' = x.withMachine m) fun _ _ => True :=
    leads_onMachine.mpr (Action.leads_of (fun _ m done => ⟨m, done, rfl⟩) fun _ _ _ => trivial)
  exact leads.answer done

theorem shortOf_ok {pc size pending : Nat} (done : shortOf pc size x = .ok pending x') :
    pending = x.lacks pc + size ∧ x' = { x with shortage := some { pc, pending } } := by
  obtain ⟨before, _, ⟨⟩, done₁⟩ := bind_ok done
  obtain ⟨_, added, done₂⟩ := check_bind_ok done₁
  cases done₂
  exact ⟨Size.add_ok added, rfl⟩

/-- Parking a call succeeds. -/
theorem parked_eq {s : Stack} {pc : Nat} (atPc : x.At s pc) :
    park pc x = .ok () (x.withStack (x.parkedStack s pc)) :=
  park_eq atPc.found atPc.chain.above_le atPc.mode

theorem grown_conveys {height : Nat} {r : Ref} (idle : x.machine.Idle)
    (inSlot : x.machine.references.slot x.currentTask = .object r) (holds : x.machine.Depicts r p)
    (done : growStack height x = .ok () x') :
    ∃ place m, x.machine.Conveys place m ∧ x' = x.withMachine m := by
  obtain ⟨_, _, ⟨⟩, done₁⟩ := bind_ok done
  obtain ⟨oldHeight, -, done₂⟩ := check_bind_ok done₁
  obtain ⟨grown, -, done₃⟩ := (asks_lift _).bind_ok done₂
  obtain ⟨newHeight, -, done₄⟩ := (asks_lift _).bind_ok done₃
  obtain ⟨_, x₀, reported, done₅⟩ := bind_ok done₄
  obtain ⟨log, rfl⟩ : ∃ log, x₀ = x.withMachine { x.machine with log } := by
    cases reported
    exact ⟨_, rfl⟩
  obtain ⟨made, x₄, isMade, done₆⟩ := bind_ok done₅
  obtain ⟨m₂, retried, rfl⟩ := onMachine_ok isMade
  have adds : Store.Adds (Make.stack newHeight) := Make.adds.stack newHeight
  obtain ⟨place, m₁, brings₁, idle₁, making⟩ := Machine.retrying_brings (Machine.gentle_onStore adds).careful
    (fun m idle => (Machine.keeps_onStore (Make.keeps_stack newHeight) idle.store).leads.mono
      (fun _ _ _ => trivial) fun _ _ ⟨grown, _⟩ => idle.grown grown) (idle.withLog log) retried
  obtain ⟨isGrown, target, rfl, -, isNew⟩ :=
    (Machine.keeps_onStore (Make.keeps_stack newHeight) idle₁.store).leads.answer making
  obtain ⟨more, brings⟩ : ∃ more, x.machine.Brings more m₂ :=
    ⟨_, ((Machine.Brings.refl x.machine).withLog log).trans
      (brings₁.trans ((Machine.gentle_onStore adds).answered _ _ _ making).brings)⟩
  have known : x.machine.Knows r := Machine.knows_slot inSlot
  obtain ⟨home, ⟨t, isTask, isHome⟩, s, isOld, shows⟩ := brings.conveys.holds r p known holds
  have inSlot' := brings.slots _ (Machine.slot_lt inSlot)
  rw [inSlot] at inSlot'
  -- the stack that waits is parked as it should be
  obtain ⟨top, frame, v, counter, parked⟩ := (idle₁.grown isGrown).store.heap.parked_of_shows id isOld shows
  obtain ⟨current, x₅, asked, done₇⟩ := bind_ok done₆
  obtain ⟨rfl, rfl⟩ : current = .object (more r) ∧
      x₅ = (x.withMachine { x.machine with log }).withMachine m₂ := by
    cases asked
    exact ⟨inSlot', rfl⟩
  obtain ⟨answer, isAnswer, done₈⟩ := check_bind_ok done₇
  obtain ⟨t', isTask', isAnswer⟩ := ok_of_bind isAnswer
  cases isTask.symm.trans (cast_eq_ok.mp isTask')
  rw [isHome] at isAnswer
  obtain ⟨fresh, isFresh, isAnswer⟩ := ok_of_bind isAnswer
  cases isAnswer
  cases isNew.symm.trans (view?_eq_some.mp (cast_eq_ok.mp isFresh))
  obtain ⟨answer, isAnswer, done₉⟩ := check_bind_ok done₈
  obtain ⟨s', isStack, isAnswer⟩ := ok_of_bind isAnswer
  rw [isHome] at isStack
  cases isOld.symm.trans (view?_eq_some.mp (cast_eq_ok.mp isStack))
  obtain ⟨loose, isLoose, isAnswer⟩ := ok_of_bind isAnswer
  obtain ⟨copied, isCopied, isAnswer⟩ := ok_of_bind isAnswer
  obtain ⟨moved, isMoved, isAnswer⟩ := ok_of_bind isAnswer
  obtain ⟨kept, isKept, isAnswer⟩ := ok_of_bind isAnswer
  cases isAnswer
  rw [isHome] at done₉
  cases done₉
  exact ⟨_, _, brings.conveys.retains
    (.restacked isTask isHome isOld parked isNew isLoose isCopied isMoved isKept), rfl⟩

/-- An interrupted call that goes on finds everything as it was: slots, callers, and what is on
every stack. -/
theorem recovered_conveys {interrupt : Interrupt}
    (adds : (∃ v, interrupt = .compile v) → ∀ compiler, x.machine.compiler = some compiler →
      ∀ v, Store.Adds (compiler v))
    (running : x.Running) (interrupted : step x = .error (.raised interrupt) y)
    (recovered : (do recover x.pc interrupt; resume : Exec Unit) y = .ok () x') :
    ∃ place, x.suspended.Conveys place x'.suspended ∧ x'.currentTask = x.currentTask ∧
      x'.rootTask = x.rootTask := by
  obtain ⟨_, z, recovering, resuming⟩ := bind_ok recovered
  obtain ⟨retains, current', root'⟩ := resumed_retains resuming
  suffices going : ∃ place, x.suspended.Conveys place z.machine ∧ z.currentTask = x.currentTask ∧
      z.rootTask = x.rootTask by
    obtain ⟨place, conveys, current, root⟩ := going
    exact ⟨place, conveys.retains retains, current'.trans current, root'.trans root⟩
  have stopped : x.Interrupted interrupt y := (ends_step running).leads.cause interrupted
  obtain ⟨s, atPc⟩ := running
  have suspends : interrupt.isRetried = true →
      x.suspended.Brings id (y.withStack (y.parkedStack s x.pc)).machine ∧
        y.currentTask = x.currentTask ∧ y.rootTask = x.rootTask := by
    intro retried
    have undisturbed := careful_step x interrupt y interrupted retried
    obtain ⟨y', parked', undisturbed'⟩ := park_undisturbed undisturbed (parked_eq atPc)
    have fits : y.sp ≤ y.limit := by
      rw [undisturbed.sp, undisturbed.limit]
      exact atPc.chain.above_le
    cases (park_eq (undisturbed.stacked atPc.found) fits atPc.mode).symm.trans parked'
    rw [Execution.suspended_eq atPc.found]
    exact ⟨undisturbed'.machine.brings, undisturbed.currentTask, undisturbed.rootTask⟩
  cases interrupt with
  | collect size =>
    have atPc : y.At s x.pc := stopped.at atPc
    obtain ⟨brings, current, root⟩ := suspends rfl
    obtain ⟨pending, y₁, counted, recovering₁⟩ := bind_ok recovering
    obtain ⟨-, rfl⟩ := shortOf_ok counted
    have atPc := atPc.withShortage (some { pc := x.pc, pending })
    obtain ⟨_, y₂, parking, recovering₂⟩ := bind_ok recovering₁
    cases (parked_eq atPc).symm.trans parking
    have suspended := @Execution.At.suspended _ _ _ 0 atPc atPc.chain.room
    obtain ⟨_, y₃, collecting, recovering₃⟩ := bind_ok recovering₂
    obtain ⟨m, collected, rfl⟩ := answered_ok collecting
    obtain ⟨free, _, ⟨⟩, recovering₄⟩ := bind_ok recovering₃
    obtain ⟨place, carried⟩ := (Machine.ends_collect pending suspended.sound.registered
      (suspended.collectable _)).leads.answer collected
    dsimp only at recovering₄
    split at recovering₄
    · cases recovering₄
    · cases recovering₄
      exact ⟨_, (brings.trans (carried.brings suspended.sound.registered)).conveys, current, root⟩
  | grow height =>
    obtain ⟨brings, current, root⟩ := suspends rfl
    obtain ⟨stalled, operand⟩ := stopped
    have atPc' := stalled.at atPc
    obtain ⟨_, y₁, parking, growing⟩ := bind_ok recovering
    cases (parked_eq atPc').symm.trans parking
    have suspended := @Execution.At.suspended _ _ _ 1 atPc' (by
      obtain ⟨machine, pc, rfl, -⟩ := stalled
      exact operand)
    obtain ⟨task, t, inSlot, isTask, isHome⟩ := suspended.hosts
    obtain ⟨parkedStack, found, top, frame, v, counter, parked⟩ := suspended.parked
    obtain ⟨place, m, conveys, rfl⟩ := grown_conveys suspended.idle inSlot
      ⟨_, ⟨t, isTask, isHome⟩, parkedStack, found, parked.shows⟩ growing
    exact ⟨_, brings.trans_conveys conveys, current, root⟩
  | compile v =>
    obtain ⟨brings, current, root⟩ := suspends rfl
    obtain ⟨stalled, operand, l, isLambda, noCode⟩ := stopped
    have atPc' := stalled.at atPc
    obtain ⟨_, y₁, parking, compiling⟩ := bind_ok recovering
    cases (parked_eq atPc').symm.trans parking
    have suspended := @Execution.At.suspended _ _ _ 1 atPc' (by
      obtain ⟨machine, pc, rfl, -⟩ := stalled
      exact operand)
    obtain ⟨l', isLambda', noCode'⟩ := atPc'.uncompiled_parked isLambda noCode
    obtain ⟨m, compiled, rfl⟩ := onMachine_ok compiling
    have undisturbed := careful_step x _ y interrupted rfl
    have adds' : ∀ compiler, (y.withStack (y.parkedStack s x.pc)).machine.compiler = some compiler →
        ∀ v, Store.Adds (compiler v) := fun compiler isCompiler =>
      adds ⟨v, rfl⟩ compiler (undisturbed.machine.compiler.symm.trans isCompiler)
    obtain ⟨place, conveys⟩ := Machine.compile_conveys adds' suspended.idle isLambda' noCode' compiled
    exact ⟨_, brings.trans_conveys conveys, current, root⟩
  | done answer => cases recovering
  | failed error => cases recovering

end Exec

end ObjectMachine
