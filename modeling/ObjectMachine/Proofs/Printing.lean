/-
# ObjectMachine.Proofs.Printing -- texts of values

A heap value is printed from its objects and down to a depth, a plain value from its tree and whole.

* `Plain.renderWith_of_stored` -- a copy of a plain value is printed as the plain value is, down to
  any depth that its tuples fit in. The names of the constants come from their ordinals
  (`Store.Named`).
* `Machine.preserving_collect` -- a collection keeps such copies, whatever stacks and code there
  are. Only the heap has to be well formed (`Machine.Legible`).
* `Machine.imports_of_importPlain` -- what has been imported is such a copy, also if the machine has
  collected on the way.
* `Heap.shown_of_renderWith` -- of what is printed every sequence above the given level is open,
  every sequence at that level is cut off, and nothing else shows what it holds (`Heap.Shown`).
* `Machine.render_of_importPlain` -- so what has been imported is printed as it came.
-/
import Mathlib
import ObjectMachine.Proofs.Crossing

namespace ObjectMachine

open ObjectMachine.Action (bind_ok)

namespace Plain

variable {s : Store}

mutual

/-- A copy is printed as the plain value is. -/
theorem renderWith_of_stored (named : s.Named) (p : Plain) {v : Value} {fuel depth : Nat}
    (stored : p.Stored s v) (deep : p.nesting ≤ depth) (fueled : p.nesting < fuel) :
    s.heap.renderWith fuel depth true v = .ok p.text := by
  obtain ⟨fuel, rfl⟩ : ∃ n, fuel = n + 1 := ⟨fuel - 1, by omega⟩
  have names := named
  simp only [Store.Named, Roots.constants, List.forall_mem_cons, Heap.view?_eq_some] at names
  obtain ⟨void, null, yes, no, -⟩ := names
  cases p with
  | void =>
    obtain rfl : v = _ := stored
    simp only [Heap.renderWith, void]
    rfl
  | null =>
    obtain rfl : v = _ := stored
    simp only [Heap.renderWith, null]
    rfl
  | bool truth =>
    obtain rfl : v = _ := stored
    cases truth with
    | true =>
      simp only [Store.boolean, Roots.boolean, if_true, Heap.renderWith, yes]
      rfl
    | false =>
      simp only [Store.boolean, Roots.boolean, Bool.false_eq_true, if_false, Heap.renderWith, no]
      rfl
  | int n =>
    obtain rfl : v = _ := stored
    simp only [Heap.renderWith, text]
  | string content =>
    have found : s.heap.bodyOf? v = some (.string ⟨content⟩) := stored
    obtain ⟨r, o, rfl, -⟩ := Heap.bodyOf?_eq_some.mp found
    simp only [Heap.renderWith, found, if_true, text]
  | tuple elements =>
    obtain ⟨t, found, stored⟩ := stored
    obtain ⟨r, o, rfl, -⟩ := Heap.bodyOf?_eq_some.mp found
    simp only [nesting] at deep fueled
    have all := renderAll_of_stored named elements stored (show _ ≤ depth - 1 by omega)
      (show _ < fuel by omega)
    simp only [Heap.renderWith, found, show depth ≠ 0 by omega, if_false, all, text]
    rfl

theorem renderAll_of_stored (named : s.Named) (elements : List Plain)
    {values : List Value} {fuel depth : Nat} (stored : AllStored s elements values)
    (deep : maxNesting elements ≤ depth) (fueled : maxNesting elements < fuel) :
    values.mapM (s.heap.renderWith fuel depth true) = .ok (texts elements) := by
  cases elements with
  | nil =>
    obtain rfl : values = [] := stored
    rfl
  | cons element rest =>
    obtain ⟨v, others, rfl, isStored, stored⟩ := stored
    simp only [maxNesting] at deep fueled
    rw [List.mapM_cons, renderWith_of_stored named element isStored (by omega) (by omega),
      renderAll_of_stored named rest stored (by omega) (by omega)]
    rfl

end

end Plain

namespace Heap

/-- The elements of a tuple or an array, between their brackets. -/
def sequence? (h : Heap) (v : Value) : Option (String × List Value × String) :=
  match h.bodyOf? v with
  | some (.tuple t) => some ("(", t.elements.toList, ")")
  | some (.array s) => some ("[", s.elements.toList, "]")
  | _ => none

/-- The name that a protocol or an instance shows, between the words around it. -/
def label? (h : Heap) (v : Value) : Option (String × Value × String) :=
  match h.bodyOf? v with
  | some (.protocol p) => some ("#<protocol ", p.name, ">")
  | some (.inst _) => (h.protocolOf? v).toOption.join.map fun p => ("#<", p.name, ">")
  | _ => none

/-- What is shown of an object that is neither a sequence nor has a label: a string its characters,
a constant its name, a lambda its number of parameters, and anything else its kind. -/
def bodyWord? (quoted : Bool) : Body → Option String
  | .tuple _ | .array _ | .protocol _ => none
  | .string text => some (if quoted then Text.quote text.content else text.content)
  | .singleton s => some (singletonText s.ordinal)
  | .lambda l => some s!"#<lambda/{l.argc}>"
  | .inst _ => some "#<instance>"
  | body => some ("#<" ++ body.kind.name ++ ">")

/-- The word for a value without levels. -/
def word? (h : Heap) (quoted : Bool) : Value → Option String
  | .int n => some (toString n)
  | .signal signal => some ("#<signal: " ++ signal.message ++ ">")
  | .object r => if (h.label? (.object r)).isSome then none else (h.bodyOf? (.object r)).bind (bodyWord? quoted)

/-- The text shows the value down to a level. A sequence at that level is cut off and one above it
is open, with each of its elements shown down to one level less; a name stands within its words, on
the level of what it names; and anything else is a word, whatever it holds. -/
inductive Shown (h : Heap) : Nat → Bool → Value → String → Prop where
  | word {depth quoted v text} (isWord : h.word? quoted v = some text) : h.Shown depth quoted v text
  | within {depth quoted v before name after text} (label : h.label? v = some (before, name, after))
      (shown : h.Shown depth false name text) : h.Shown depth quoted v (before ++ text ++ after)
  | cut {quoted v start elements finish} (sequence : h.sequence? v = some (start, elements, finish)) :
      h.Shown 0 quoted v (start ++ "..." ++ finish)
  | opened {depth quoted v start elements finish texts} (sequence : h.sequence? v = some (start, elements, finish))
      (length : texts.length = elements.length)
      (shown : ∀ part ∈ elements.zip texts, h.Shown depth true part.1 part.2) :
      h.Shown (depth + 1) quoted v (start ++ ", ".intercalate texts ++ finish)

theorem allShown {h : Heap} {fuel depth : Nat} {values : List Value} {texts : List String}
    (each : ∀ {v text}, h.renderWith fuel depth true v = .ok text → h.Shown depth true v text)
    (rendered : values.mapM (h.renderWith fuel depth true) = .ok texts) :
    texts.length = values.length ∧ ∀ part ∈ values.zip texts, h.Shown depth true part.1 part.2 := by
  induction values generalizing texts with
  | nil =>
    cases rendered
    simp
  | cons v rest ih =>
    rw [List.mapM_cons] at rendered
    obtain ⟨text, first, rendered⟩ := ok_of_bind rendered
    obtain ⟨others, later, ⟨⟩⟩ := ok_of_bind rendered
    exact ⟨congrArg Nat.succ (ih later).1, List.forall_mem_cons.mpr ⟨each first, (ih later).2⟩⟩

/-- What is printed shows the value down to the level that was asked for. -/
theorem shown_of_renderWith {h : Heap} {fuel depth : Nat} {quoted : Bool}
    {v : Value} {text : String} (rendered : h.renderWith fuel depth quoted v = .ok text) :
    h.Shown depth quoted v text := by
  induction fuel generalizing depth quoted v text with
  | zero => cases rendered
  | succ fuel ih =>
    have sequence : ∀ start (elements : Array Value) finish,
        h.sequence? v = some (start, elements.toList, finish) →
        (if depth = 0 then .ok (start ++ "..." ++ finish) else do
          let texts ← elements.toList.mapM (h.renderWith fuel (depth - 1) true)
          pure (start ++ ", ".intercalate texts ++ finish)) = Except.ok text → h.Shown depth quoted v text := by
      intro start elements finish isSequence rendered
      cases depth with
      | zero =>
        cases rendered
        exact .cut isSequence
      | succ depth =>
        obtain ⟨texts, all, ⟨⟩⟩ := ok_of_bind rendered
        obtain ⟨length, shown⟩ := allShown ih all
        exact .opened isSequence length shown
    have label : ∀ before name after, h.label? v = some (before, name, after) →
        (do let text ← h.renderWith fuel depth false name
            pure (before ++ text ++ after)) = Except.ok text → h.Shown depth quoted v text := by
      intro before name after isLabel rendered
      obtain ⟨inner, first, ⟨⟩⟩ := ok_of_bind rendered
      exact .within isLabel (ih first)
    cases v with
    | int n | signal signal =>
      cases rendered
      exact .word rfl
    | object r =>
      cases found : h.bodyOf? (.object r) with
      | none => simp [renderWith, found] at rendered
      | some body =>
        simp only [renderWith, found] at rendered
        cases body with
        | tuple t | array s => exact sequence _ _ _ (by simp only [sequence?, found]) rendered
        | protocol p => exact label _ _ _ (by simp only [label?, found]) rendered
        | inst fields =>
          obtain ⟨p?, isProtocol, rendered⟩ := ok_of_bind rendered
          have isLabel : h.label? (.object r) = p?.map fun p => ("#<", p.name, ">") := by
            simp only [label?, found, isProtocol]
            rfl
          cases p? with
          | some p => exact label _ _ _ isLabel rendered
          | none =>
            cases rendered
            exact .word (by simp [word?, isLabel, found, bodyWord?])
        | _ =>
          cases rendered
          exact .word (by simp [word?, label?, found, bodyWord?])

end Heap

namespace Make

variable {s s' : Store} {v : Value}

theorem string_ok {content : String} (done : string content s = .ok v s') :
    s'.heap.bodyOf? v = some (.string ⟨content⟩) := by
  obtain ⟨size, s₁, -, placed⟩ := bind_ok done
  obtain ⟨rfl, rfl⟩ := placeLazy_ok placed
  exact made_extended.bodyOf?

theorem tuple_ok {elements : Array Value} (done : tuple elements s = .ok v s') :
    s'.heap.bodyOf? v = some (.tuple ⟨elements⟩) := by
  obtain ⟨size, s₁, -, done⟩ := bind_ok done
  obtain ⟨made, s₂, placed, done⟩ := bind_ok done
  split at done
  · cases done
  · cases done
    obtain ⟨rfl, rfl⟩ := placeLazy_ok placed
    exact made_extended.bodyOf?

end Make

namespace Machine

variable {m m' : Machine}

/-- A legible machine stays so, and a slot that holds a copy of a plain value holds one still. -/
def Preserves (m m' : Machine) : Prop := m.Legible →
  m'.Legible ∧ m.references.scopedCount ≤ m'.references.scopedCount ∧
    ∀ i < m.references.scopedCount, ∀ p : Plain,
      p.Stored m.store (m.references.slot i) → p.Stored m'.store (m'.references.slot i)

instance : IsPreorder Machine Preserves where
  refl m legible := ⟨legible, le_rfl, fun _ _ _ stored => stored⟩
  trans _ _ _ first second legible := by
    obtain ⟨legible', count, copies⟩ := first legible
    obtain ⟨legible'', count', copies'⟩ := second legible'
    exact ⟨legible'', count.trans count', fun i low p stored =>
      copies' i (low.trans_le count) p (copies i low p stored)⟩

theorem preserves_of_takes {kept : Ref → Prop}
    {place : Ref → Ref} (takes : m.store.Takes kept place m'.store)
    (formed : m.store.Formed → m'.store.Formed) (rootsKept : ∀ r ∈ m.store.roots.refs, kept r)
    (count : m.references.scopedCount ≤ m'.references.scopedCount)
    (slots : ∀ i < m.references.scopedCount, (m.references.slot i).Kept kept ∧
      m'.references.slot i = (m.references.slot i).move place) : m.Preserves m' := by
  refine fun legible => ⟨⟨formed legible.formed, takes.named rootsKept legible.named⟩, count,
    fun i low p stored => ?_⟩
  rw [(slots i low).2]
  exact takes.stored p (slots i low).1 stored

/-- New objects leave the copies alone. -/
theorem Undisturbed.preserves (undisturbed : m.Undisturbed m') (tends : m.Tends m') :
    m.Preserves m' :=
  have brings := undisturbed.brings
  preserves_of_takes brings.takes tends.store.formed (fun _ => knows_root) brings.count fun i low =>
    ⟨minds_slot m i, brings.slots i low⟩

/-- So does a collection, whatever the stacks look like. -/
theorem preserving_collect {ε : Type} (pending : Nat) :
    Action.Gentle Preserves (fun _ => True) (collect pending : Op ε Unit) := by
  have works : ∀ m : Machine, m.Legible → Action.Leads (collect pending : Op ε Unit) m (fun _ => m.Preserves)
      fun _ _ => False := by
    refine fun m legible => (leads_collect_hauls pending legible.formed).imp ?_
    rintro - m' ⟨⟨kept, place, hauled, along⟩, formed, -⟩
    have slots : m'.references.slots = m.references.slots.map (Value.move place) := along.slots
    refine preserves_of_takes ⟨fun v b isKept found noStack => ?_, along.roots⟩ (fun _ => formed) along.rootsKept
      (by simp [References.scopedCount, slots]) fun i _ => ⟨fun r isSlot => ?_, References.slot_of_map slots i⟩
    · obtain ⟨r, -, rfl, -⟩ := Heap.bodyOf?_eq_some.mp found
      exact hauled.moved (isKept r rfl) found noStack
    · exact along.slotsKept r (References.mem_slots_of_slot isSlot)
  exact ⟨fun m _ _ done legible => (works m legible).answer done legible,
    fun m _ _ stopped _ legible => ((works m legible).cause stopped).elim⟩

theorem preserving_report {ε : Type} (level : LogLevel) (message : Unit → String) :
    Action.Gentle Preserves (fun _ => True) (report level message : Op ε Unit) where
  answered := by
    rintro m _ _ ⟨⟩ legible
    exact ⟨⟨legible.formed, legible.named⟩, le_rfl, fun _ _ _ stored => stored⟩
  raised := by rintro _ _ _ ⟨⟩

theorem Preserves.push (preserves : m.Preserves m') (v : Value) :
    m.Preserves { m' with references := m'.references.push v } := by
  intro legible
  obtain ⟨legible', count, copies⟩ := preserves legible
  refine ⟨⟨legible'.formed, legible'.named⟩, by rw [scopedCount_push]; omega, fun i low p stored => ?_⟩
  rw [slot_push (low.trans_le count)]
  exact copies i low p stored

theorem Preserves.slots (preserves : m.Preserves m') (legible : m.Legible) {indices : List Nat}
    (taken : ∀ i ∈ indices, i < m.references.scopedCount) {elements : List Plain}
    (stored : Plain.AllStored m.store elements (indices.map m.references.slot)) :
    Plain.AllStored m'.store elements (indices.map m'.references.slot) :=
  stored.map_slots fun i member => (preserves legible).2.2 i (taken i member)

/-- The attempt that makes an object starts from a machine that has all the copies. -/
theorem retrying_makes {work : Op Signal Value} {b : Machine → Body}
    {v : Value} (tended : Tended work) (gentle : Action.Gentle Undisturbed (fun _ => True) work)
    (makes : ∀ m m', work m = .ok v m' → m'.store.heap.bodyOf? v = some (b m))
    (done : retrying work m = .ok v m') :
    ∃ m₁, m.Preserves m₁ ∧ m₁.Preserves m' ∧ m'.references = m₁.references ∧
      m'.store.heap.bodyOf? v = some (b m₁) := by
  have preserving : Action.Gentle Preserves (fun _ => True) work :=
    ⟨fun m a m' done => (gentle.answered m a m' done).preserves (tended.answered m a m' done),
      fun m e m' stopped raised => (gentle.raised m e m' stopped raised).preserves
        (tended.raised m e m' stopped raised)⟩
  obtain ⟨m₁, before, worked⟩ :=
    (leads_retrying_within preserving preserving_collect preserving_report).answer done
  exact ⟨m₁, before, preserving.answered m₁ v m' worked, (gentle.answered m₁ v m' worked).references,
    makes m₁ m' worked⟩

/-- The value has just been put in the last slot, where it is a copy of the plain value, and the
copies that were held before are still there. -/
structure Imports (m : Machine) (p : Plain) (v : Value) (m' : Machine) : Prop where
  preserves : m.Preserves m'
  more : m.references.scopedCount < m'.references.scopedCount
  last : m'.references.slot (m'.references.scopedCount - 1) = v
  stored : p.Stored m'.store v

theorem Imports.push {p : Plain} {v : Value} (preserves : m.Preserves m') (legible : m.Legible)
    (stored : p.Stored m'.store v) : m.Imports p v { m' with references := m'.references.push v } :=
  ⟨preserves.push v, by rw [scopedCount_push]; exact Nat.lt_succ_of_le (preserves legible).2.1, last_push _ _, stored⟩

mutual

/-- What has been imported is a copy. -/
theorem imports_of_importPlain (p : Plain) {m m' : Machine} {v : Value} (legible : m.Legible)
    (imported : importPlain p m = .ok v m') : m.Imports p v m' := by
  cases p with
  | void | null | bool truth =>
    simp only [importPlain] at imported
    cases imported
    exact .push (refl m) legible rfl
  | int n =>
    by_cases small : Value.isSmall n = true
    · simp only [importPlain, Value.ofInt?, small, if_true] at imported
      cases imported
      exact .push (refl m) legible rfl
    · simp only [importPlain, Value.ofInt?, small] at imported
      cases imported
  | string content =>
    simp only [importPlain] at imported
    obtain ⟨_, m₁, made, ⟨⟩⟩ := bind_ok imported
    obtain ⟨m₂, before, after, -, found⟩ := retrying_makes (b := fun _ => .string ⟨content⟩)
      (tended_onStore (Make.tended_plain (.string content) rfl))
      (gentle_onStore (Make.adds.plain (.string content) rfl)) (fun m m' done => by
        obtain ⟨store, worked, rfl⟩ := onStore_ok done
        exact Make.string_ok worked) made
    exact .push (Trans.trans before after) legible found
  | tuple elements =>
    simp only [importPlain] at imported
    obtain ⟨indices, m₁, isAll, imported⟩ := bind_ok imported
    obtain ⟨_, m₂, made, ⟨⟩⟩ := bind_ok imported
    obtain ⟨preserves, taken, copies⟩ := imports_of_importAll elements legible isAll
    obtain ⟨m₃, before, after, same, found⟩ :=
      retrying_makes (b := fun m => .tuple ⟨(indices.map m.references.slot).toArray⟩)
        ((asks_slots _).gentle.bind fun _ => tended_onStore (Make.tended_plain (.tuple _) rfl))
        (gentle_tupleOf indices) (fun m m' done => by
          obtain ⟨values, _, read, done⟩ := bind_ok done
          cases (slots_eq indices).symm.trans read
          obtain ⟨store, worked, rfl⟩ := onStore_ok done
          exact Make.tuple_ok worked) made
    refine .push (Trans.trans preserves (Trans.trans before after)) legible ⟨_, found, ?_⟩
    have along : m₁.Preserves m₂ := Trans.trans before after
    exact same ▸ along.slots (preserves legible).1 taken copies

/-- What has been imported are copies. -/
theorem imports_of_importAll (elements : List Plain) {m m' : Machine}
    {indices : List Nat} (legible : m.Legible) (imported : importAll elements m = .ok indices m') :
    m.Preserves m' ∧ (∀ i ∈ indices, i < m'.references.scopedCount) ∧
      Plain.AllStored m'.store elements (indices.map m'.references.slot) := by
  cases elements with
  | nil =>
    simp only [importAll] at imported
    cases imported
    exact ⟨refl m, by simp, rfl⟩
  | cons element others =>
    simp only [importAll] at imported
    obtain ⟨v, m₁, first, imported⟩ := bind_ok imported
    obtain ⟨_, _, ⟨⟩, imported⟩ := bind_ok imported
    obtain ⟨rest, m₂, later, ⟨⟩⟩ := bind_ok imported
    have imports := imports_of_importPlain element legible first
    have held := imports.preserves.push v
    have legible₁ := (held legible).1
    obtain ⟨preserves, taken, copies⟩ := imports_of_importAll others legible₁ later
    obtain ⟨-, count, kept⟩ := preserves legible₁
    have low : m₁.references.scopedCount < (m₁.references.push v).scopedCount := by simp [scopedCount_push]
    refine ⟨Trans.trans held preserves, List.forall_mem_cons.mpr ⟨low.trans_le count, taken⟩, _, _, rfl, ?_, copies⟩
    exact kept _ low element (by rw [slot_push_last]; exact imports.stored)

end

/-- What has been imported is printed as the plain value is, down to any depth that its tuples fit
in. Whatever a heap holds, what is printed shows as many levels of sequences as were asked for at
most, and the sequences that are cut off are those at that level. -/
theorem render_of_importPlain (m : Machine) (p : Plain) (legible : m.Legible) :
    (∀ v m', importPlain p m = .ok v m' → m'.Legible ∧ ∀ depth, p.nesting ≤ depth →
      m'.store.heap.render true depth v = .ok p.text) ∧
    ∀ (h : Heap) quoted depth v text, h.render quoted depth v = .ok text →
      h.Shown depth quoted v text := by
  constructor
  · intro v m' imported
    have imports := imports_of_importPlain p legible imported
    have legible' := (imports.preserves legible).1
    refine ⟨legible', fun depth deep => ?_⟩
    refine Plain.renderWith_of_stored legible'.named p imports.stored deep ?_
    calc p.nesting < (depth + 1) * 1 := by omega
      _ ≤ (depth + 1) * m'.store.heap.walkFuel := Nat.mul_le_mul_left _ (by simp [Heap.walkFuel])
  · exact fun _ _ _ _ _ rendered => Heap.shown_of_renderWith rendered

/-- The nested value is printed with all its three levels as it came, although the machine has
collected twice on the way and holds code that could not be run. -/
theorem render_of_importPlain_nested : ∃ m v m', taught = some m ∧
    importPlain nestedPlain m = .ok v m' ∧
    m'.store.heap.stats.collections - m.store.heap.stats.collections = 2 ∧ nestedPlain.nesting = 3 ∧
    m'.store.heap.render true 3 v = .ok nestedPlain.text := by
  obtain ⟨m, v, m', isTaught, tidy, -, imported, twice⟩ := taught_nested
  exact ⟨m, v, m', isTaught, imported, twice, rfl,
    ((render_of_importPlain m nestedPlain tidy.ready.toLegible).1 v m' imported).2 3 le_rfl⟩

end Machine

end ObjectMachine
