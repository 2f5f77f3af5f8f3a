/-
# ObjectMachine.Proofs.Library -- tables and builtins leave a store sound

What programs find ready: narrowing, hash maps and builtins. None of them does anything to a store
but make objects and change entries of maps, so all of them keep it sound.
-/
import Mathlib
import ObjectMachine.Proofs.Allocation

namespace ObjectMachine

open Store (Keeps)
open HeapKind (wrap)

namespace Store

variable {busy : Ref → Prop} {s : Store}

theorem keeps_modify {f : Heap → Heap} {after : Unit → Store → Prop}
    (grown : s.Sound busy → s.Grown busy { s with heap := f s.heap })
    (holds : after () { s with heap := f s.heap }) : Keeps busy (modifyHeap f) s after := by
  intro sound
  rw [ends_modifyHeap]
  exact ⟨grown sound, holds⟩

theorem Sound.grown_adjust (sound : s.Sound busy) {v : Value} {f : Body → Body}
    (kept : ∀ b, s.heap.bodyOf? v = some b → b.Kept (f b)) :
    s.Grown busy { s with heap := s.heap.adjust v f } :=
  sound.grown (Heap.adjust_evolves_of_kept kept) (sound.heap.adjust_of_kept kept)

/-- Replacing an object that nothing that runs depends on by another of its kind and size. -/
theorem Sound.grown_put (sound : s.Sound busy) {α : Type} [HeapKind α] {v : Value} {data : α}
    (same : ∀ b, s.heap.bodyOf? v = some b → (wrap data).kind = b.kind ∧ (wrap data).size = b.size)
    (plain : (wrap data).kind ∉ Body.activeKinds) :
    s.Grown busy { s with heap := s.heap.put v data } := by
  refine sound.grown_adjust fun b found => ?_
  obtain ⟨kind, size⟩ := same b found
  exact .ofPlain kind size (kind ▸ plain)

theorem keeps_narrow {κ : Type} [HeapKind κ] (v : Value) :
    Keeps busy (narrow κ v) s fun answer s' => s'.heap.view? κ answer.1 = some answer.2 := by
  refine .check_bind (by simp) fun target _ => .ask_bind ?_
  cases found : s.heap.view? κ target with
  | none => exact keeps_fail rfl
  | some data => exact keeps_pure found

theorem keeps_narrowInt (v : Value) : Keeps busy (narrowInt v) s fun _ _ => True := by
  refine .check_bind (by simp) fun target _ => ?_
  cases target with
  | int n => exact keeps_pure trivial
  | _ => exact keeps_fail rfl

end Store

open Store (check keeps_fail keeps_narrow keeps_pure)

namespace Entries

theorem size_set (e : Entries) (index : Nat) (entry : Entry) :
    (e.set index entry).words.size = e.words.size := by
  simp [set]

theorem size_insertAll {h : Heap} {e filled : Entries} {entries : List Entry}
    (inserted : e.insertAll h entries = .ok filled) : filled.words.size = e.words.size := by
  induction entries generalizing e with
  | nil => cases inserted; rfl
  | cons entry entries ih =>
    rw [insertAll, List.foldlM_cons] at inserted
    obtain ⟨next, isNext, inserted⟩ := ok_of_bind inserted
    obtain ⟨index, -, isNext⟩ := ok_of_bind isNext
    cases isNext
    rw [ih inserted, size_set]

end Entries

namespace Table

variable {busy : Ref → Prop} {s : Store}

/-- A map may be given another size and other entries at any time. -/
theorem grown_put {s s' : Store} {map : Value} {t t' : Table} (found : s.heap.view? Table map = some t)
    (evolves : s.heap.Evolves (fun _ => False) s'.heap) (sound : s'.Sound busy) :
    s'.Grown busy { s' with heap := s'.heap.put map t' } := by
  refine sound.grown_put (fun b isBody => ?_) (by simp [wrap, Body.kind, Body.activeKinds])
  obtain ⟨b', isBody', kept⟩ := evolves.body (Heap.view?_eq_some.mp found)
  rw [isBody] at isBody'
  cases isBody'
  exact ⟨kept.kind.symm, kept.size.symm⟩

theorem keeps_extend (map : Value) : Keeps busy (extend map) s fun _ _ => True := by
  refine .check_bind (by simp) fun t isTable => ?_
  refine .check_bind (by simp) fun e _ => .lift_bind (by simp) fun capacity _ =>
    .lift_bind (by simp) fun length _ => .bind (Make.keeps_sequence length) ?_
  rintro entries s' grown made
  refine .check_bind (by simp) fun fresh isFresh => .check_bind (by simp) fun filled isFilled => ?_
  obtain rfl : fresh = ⟨Array.replicate length s.roots.null⟩ := by
    have found := Heap.view?_eq_some.mp (Heap.cast_eq_ok.mp isFresh)
    rw [made.bodyOf?] at found
    cases found
    rfl
  refine Store.keeps_modify (fun sound => ?_) trivial
  have first : s'.Grown busy { s' with heap := s'.heap.put entries (⟨filled.words⟩ : Sequence) } := by
    refine sound.grown_put (fun b found => ?_) (by simp [wrap, Body.kind, Body.activeKinds])
    rw [made.bodyOf?] at found
    cases found
    exact ⟨rfl, by simp [wrap, Body.size, Entries.size_insertAll isFilled]⟩
  exact first.trans (grown_put (Heap.cast_eq_ok.mp isTable) (grown.evolves.trans first.evolves)
    first.sound)

theorem keeps_enter (map key value : Value) :
    Keeps busy (enter map key value) s fun _ _ => True := by
  refine .check_bind (by simp) fun t isTable => .check_bind (by simp) fun hash _ =>
    .check_bind (by simp) fun ⟨index, taken⟩ _ => Store.keeps_modify (fun sound => ?_) trivial
  have first := sound.grown_adjust (v := t.entries) (f := written index { key, value, hash })
    (fun b _ => by
      cases b with
      | array a =>
        exact .ofPlain rfl (by simp [written, Body.size, Entries.size_set])
          (by simp [Body.kind, Body.activeKinds])
      | _ => exact .refl _)
  cases taken with
  | true => exact first
  | false => exact first.trans (grown_put (Heap.cast_eq_ok.mp isTable) first.evolves first.sound)

theorem keeps_set (map key value : Value) : Keeps busy (set map key value) s fun _ _ => True := by
  refine .ask_bind (.ite (fun _ => Store.keeps_violate rfl) fun _ =>
    .ite (fun _ => Store.keeps_violate rfl) fun _ => ?_)
  refine .check_bind (by simp) fun t _ => .check_bind (by simp) fun e _ =>
    .lift_bind (by simp) fun full _ => ?_
  refine .ite (fun _ => ?_) fun _ => keeps_enter map key value
  exact .bind (keeps_extend map) fun _ s' _ _ => keeps_enter map key value

end Table

/-- The store of the machine has only been added to. What the machine prints and reports does not
count. -/
structure Machine.Grown (busy : Ref → Prop) (m m' : Machine) : Prop where
  store : m.store.Grown busy m'.store
  references : m'.references = m.references
  settings : m'.settings = m.settings
  compiler : m'.compiler = m.compiler

namespace Machine.Grown

variable {busy : Ref → Prop} {m m' m'' : Machine}

theorem refl (sound : m.store.Sound busy) : m.Grown busy m := ⟨.refl sound, rfl, rfl, rfl⟩

theorem trans (first : m.Grown busy m') (second : m'.Grown busy m'') : m.Grown busy m'' :=
  ⟨first.store.trans second.store, second.references.trans first.references,
    second.settings.trans first.settings, second.compiler.trans first.compiler⟩

theorem adjust (sound : m.store.Sound busy) {v : Value} {f : Body → Body}
    (kept : ∀ b, m.store.heap.bodyOf? v = some b → b.Kept (f b)) :
    m.Grown busy (m.withHeap (m.store.heap.adjust v f)) :=
  ⟨sound.grown_adjust kept, rfl, rfl, rfl⟩

/-- The caller of a task may change at any time. -/
theorem putCaller (sound : m.store.Sound busy) {v : Value} {t : Task} (caller : Value)
    (isTask : m.store.heap.view? Task v = some t) :
    m.Grown busy (m.withHeap (m.store.heap.put v { t with caller })) := by
  refine adjust sound fun b found => ?_
  cases (Heap.view?_eq_some.mp isTask).symm.trans found
  exact ⟨⟨rfl, rfl, by simp [wrap], by simp [wrap, Body.kind]⟩,
    by simp [wrap], by simp [wrap, Body.kind],
    by rintro _ ⟨⟩; exact ⟨_, rfl, rfl⟩⟩

end Machine.Grown

namespace Machine

variable {α β : Type} {busy : Ref → Prop} {m : Machine}

/-- Work that leaves a sound store sound, and answers as `post` says. -/
def Keeps (busy : Ref → Prop) (work : Op Signal α) (m : Machine) (post : α → Machine → Prop) : Prop :=
  m.store.Sound busy → Action.Ends work m (fun answer m' => m.Grown busy m' ∧ post answer m')
    fun signal m' => m.Grown busy m' ∧ signal.isOverflow = false

variable {work first : Op Signal α} {next : α → Op Signal β} {post post' : α → Machine → Prop}
  {after : β → Machine → Prop}

theorem Keeps.bind (keeps : Keeps busy first m post)
    (rest : ∀ answer m', m.Grown busy m' → post answer m' → Keeps busy (next answer) m' after) :
    Keeps busy (first >>= next) m after := by
  intro sound
  rw [Action.ends_bind]
  refine (keeps sound).imp fun answer m' ⟨grown, holds⟩ => ?_
  exact (rest answer m' grown holds grown.store.sound).mono
    (fun _ _ ⟨more, holds⟩ => ⟨grown.trans more, holds⟩)
    fun _ _ ⟨more, fine⟩ => ⟨grown.trans more, fine⟩

theorem Keeps.ask_bind {f : Machine → α} (rest : Keeps busy (next (f m)) m after) :
    Keeps busy (ask f >>= next) m after := by
  intro sound
  rw [Action.ends_bind, ends_ask]
  exact rest sound

theorem keeps_onStore {work : Alloc α}
    {post : α → Store → Prop} (keeps : Store.Keeps busy work m.store post) :
    Keeps busy (onStore work) m fun answer m' => post answer m'.store := by
  intro sound
  rw [ends_onStore]
  exact (keeps sound).mono (fun _ _ ⟨grown, holds⟩ => ⟨⟨grown, rfl, rfl, rfl⟩, holds⟩)
    fun _ _ ⟨grown, fine⟩ => ⟨⟨grown, rfl, rfl, rfl⟩, fine⟩

end Machine

namespace Builtin

/-- A property of work on a store that what builtins are made of has. -/
structure Closed (P : (α : Type) → Alloc α → Prop) : Prop where
  pure {α : Type} (answer : α) : P α (Pure.pure answer)
  bind {α β : Type} {first : Alloc α} {next : α → Alloc β} :
    P α first → (∀ answer, P β (next answer)) → P β (first >>= next)
  fail {signal : Signal} (fine : signal.isOverflow = false) (roomy : ∀ size, signal ≠ .allocationFailed size) :
    P Value (Action.fail signal)
  ask (f : Store → Value) : P Value (Store.ask f)
  argument (call : Call) (index : Nat) : P Value (liftM (call.argument index))
  equal (v w : Value) : P Bool (check fun s => s.heap.equal v w)
  display (v : Value) : P String (check fun s => s.heap.display v)
  narrow (κ : Type) [HeapKind κ] (v : Value) : P (Value × κ) (Store.narrow κ v)
  narrowInt (v : Value) : P Int (Store.narrowInt v)
  string (content : String) : P Value (Make.string content)

namespace Closed

variable {P : (α : Type) → Alloc α → Prop} (closed : Closed P)
include closed

theorem smallInteger (result : Option Int) : P Value (smallInteger result) := by
  unfold Builtin.smallInteger
  split
  · exact closed.pure _
  · exact closed.fail rfl nofun

theorem onIntegers (call : Call) {answer : Int → Int → Alloc Value}
    (each : ∀ a b, P Value (answer a b)) : P Value (onIntegers call answer) :=
  closed.bind (closed.narrowInt _) fun _ => closed.bind (closed.argument _ _) fun _ =>
    closed.bind (closed.narrowInt _) fun _ => each _ _

theorem concatStrings (terms : List Value) : P Value (concatStrings terms) := by
  refine closed.bind ?_ fun _ => closed.string _
  induction terms with
  | nil => exact closed.pure _
  | cons term terms ih =>
    rw [List.mapM_cons]
    exact closed.bind (closed.bind (closed.narrow _ _) fun _ => closed.pure _) fun _ =>
      closed.bind ih fun _ => closed.pure _

/-- A builtin works on the store alone, unless it prints. -/
theorem run {builtin : Builtin} (member : builtin ∈ all) (call : Call) :
    (∃ work, builtin.run call = Machine.onStore work ∧ P Value work) ∨ builtin.run = print := by
  simp only [all, List.mem_cons, List.not_mem_nil, or_false] at member
  rcases member with rfl | rfl | rfl | rfl | rfl | rfl | rfl | rfl | rfl | rfl | rfl | rfl | rfl |
    rfl | rfl
  · exact .inl ⟨_, rfl, closed.bind (closed.narrow _ _) fun _ => closed.pure _⟩
  · exact .inl ⟨_, rfl, closed.bind (closed.narrow _ _) fun _ => closed.bind (closed.argument _ _) fun _ =>
      closed.bind (closed.narrow _ _) fun _ => closed.ask _⟩
  · exact .inl ⟨_, rfl, closed.bind (closed.argument _ _) fun _ => closed.concatStrings _⟩
  · exact .inl ⟨_, rfl, closed.onIntegers _ fun _ _ => closed.smallInteger _⟩
  · exact .inl ⟨_, rfl, closed.onIntegers _ fun _ _ => closed.smallInteger _⟩
  · exact .inl ⟨_, rfl, closed.onIntegers _ fun _ _ => closed.smallInteger _⟩
  · exact .inl ⟨_, rfl, closed.onIntegers _ fun _ _ => closed.smallInteger _⟩
  · exact .inl ⟨_, rfl, closed.bind (closed.narrowInt _) fun _ => closed.smallInteger _⟩
  · exact .inl ⟨_, rfl, closed.onIntegers _ fun _ _ => closed.ask _⟩
  · exact .inl ⟨_, rfl, closed.bind (closed.argument _ _) fun _ => closed.bind (closed.equal _ _) fun _ =>
      closed.ask _⟩
  · exact .inl ⟨_, rfl, closed.bind (closed.display _) fun _ => closed.string _⟩
  · exact .inl ⟨_, rfl, closed.bind (closed.narrow _ _) fun _ => closed.pure _⟩
  · refine .inl ⟨_, rfl, closed.bind (closed.narrow _ _) fun t => closed.bind (closed.argument _ _) fun _ =>
      closed.bind (closed.narrowInt _) fun index => ?_⟩
    cases if index < 0 then none else t.2.elements[index.toNat]? with
    | some element => exact closed.pure _
    | none => exact closed.fail rfl nofun
  · exact .inl ⟨_, rfl, closed.fail rfl nofun⟩
  · exact .inr rfl

end Closed

theorem closed_keeps : Closed fun _ work => ∀ busy s, Keeps busy work s fun _ _ => True where
  pure _ _ _ := keeps_pure trivial
  bind first next busy s := .bind (first busy s) fun _ _ _ _ => next _ _ _
  fail fine _ _ _ := keeps_fail fine
  ask _ _ _ sound := ⟨.refl sound, trivial⟩
  argument _ _ _ _ sound := Action.ends_lift (by simp) fun _ _ => ⟨.refl sound, trivial⟩
  equal _ _ _ _ sound := Store.ends_check (by simp) fun _ _ => ⟨.refl sound, trivial⟩
  display _ _ _ sound := Store.ends_check (by simp) fun _ _ => ⟨.refl sound, trivial⟩
  narrow _ _ v _ _ := (keeps_narrow v).mono fun _ _ _ _ => trivial
  narrowInt v _ _ := Store.keeps_narrowInt v
  string content _ _ := (Make.keeps_string content).mono fun _ _ _ _ => trivial

/-- What all builtins have in common. -/
def Lawful (builtin : Builtin) : Prop := ∀ (busy : Ref → Prop) (call : Call) (m : Machine),
    Machine.Keeps busy (builtin.run call) m fun _ _ => True

theorem lawful_of_mem {builtin : Builtin} (member : builtin ∈ all) : builtin.Lawful := by
  intro busy call m
  obtain ⟨work, isRun, keeps⟩ | isPrint := closed_keeps.run member call
  · rw [isRun]
    exact Machine.keeps_onStore (keeps busy m.store)
  intro sound
  rw [isPrint]
  unfold print
  rw [Action.ends_bind]
  refine Action.ends_lift (by simp) fun v _ => ?_
  rw [Action.ends_bind]
  refine Machine.ends_check (by simp) fun text _ => ?_
  exact ⟨⟨.refl sound, rfl, rfl, rfl⟩, trivial⟩

end Builtin

end ObjectMachine
