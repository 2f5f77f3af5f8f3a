/-
# ObjectMachine.Proofs.Crossing -- plain values cross the boundary

`Plain.Stored s p v` says that the value `v` is a copy of the plain value `p` in a store. It says so
without importing or exporting anything, and it goes along wherever objects are brought.

* `Plain.export_of_stored` -- what is exported is what is stored: the fuel of a walk over the heap
  suffices, because a plain value is no deeper than there are objects.
* `Machine.lands_importPlain` -- importing stores a copy in the last slot, or lacks memory, or meets
  an integer that is too large; and everything held before comes along.
* `Machine.importPlain_exportPlain` -- so what is imported can be exported, however often the
  machine collects meanwhile.
-/
import Mathlib
import ObjectMachine.Proofs.Building

namespace ObjectMachine

open ObjectMachine.Action (Draws Gentle Lands lands_bind)
open Machine (exportWith)

namespace Plain

mutual

/-- Whether all integers of a plain value are small. -/
def InRange : Plain → Prop
  | int n => Value.isSmall n = true
  | tuple elements => AllInRange elements
  | _ => True

/-- Whether all integers of plain values are small. -/
def AllInRange : List Plain → Prop
  | [] => True
  | element :: rest => element.InRange ∧ AllInRange rest

end

mutual

/-- Bytes that a copy of a plain value takes. -/
def bytes : Plain → Nat
  | string content => (Body.string ⟨content⟩).size
  | tuple elements => allBytes elements + (16 + 8 * elements.length)
  | _ => 0

/-- Bytes that copies of plain values take. -/
def allBytes : List Plain → Nat
  | [] => 0
  | element :: rest => element.bytes + allBytes rest

end

mutual

/-- How many tuples lie within each other. -/
def nesting : Plain → Nat
  | tuple elements => maxNesting elements + 1
  | _ => 0

/-- The nesting of the deepest. -/
def maxNesting : List Plain → Nat
  | [] => 0
  | element :: rest => max element.nesting (maxNesting rest)

end

mutual

/-- The value is a copy of the plain value. -/
def Stored (s : Store) : Plain → Value → Prop
  | void, v => v = .object s.roots.void
  | null, v => v = .object s.roots.null
  | bool truth, v => v = s.boolean truth
  | int n, v => v = .int n
  | string content, v => s.heap.bodyOf? v = some (.string ⟨content⟩)
  | tuple elements, v =>
    ∃ t, s.heap.bodyOf? v = some (.tuple t) ∧ AllStored s elements t.elements.toList

/-- The values are copies of the plain values, one for one. -/
def AllStored (s : Store) : List Plain → List Value → Prop
  | [], values => values = []
  | element :: rest, values =>
    ∃ v others, values = v :: others ∧ Stored s element v ∧ AllStored s rest others

end

section Stored

variable {s : Store}

theorem AllStored.length {elements : List Plain} {values : List Value}
    (stored : AllStored s elements values) : values.length = elements.length := by
  induction elements generalizing values with
  | nil =>
    obtain rfl : values = [] := stored
    rfl
  | cons element rest ih =>
    obtain ⟨v, others, rfl, -, stored⟩ := stored
    simp [ih stored]

theorem AllStored.mem {elements : List Plain} {values : List Value} {v : Value}
    (stored : AllStored s elements values) (member : v ∈ values) :
    ∃ element ∈ elements, Stored s element v := by
  induction elements generalizing values with
  | nil =>
    obtain rfl : values = [] := stored
    cases member
  | cons element rest ih =>
    obtain ⟨w, others, rfl, isStored, stored⟩ := stored
    rcases List.mem_cons.mp member with rfl | later
    · exact ⟨element, List.mem_cons_self, isStored⟩
    · obtain ⟨element', member', isStored'⟩ := ih stored later
      exact ⟨element', List.mem_cons_of_mem _ member', isStored'⟩

theorem AllStored.copy {elements : List Plain} {values : List Value} {element : Plain}
    (stored : AllStored s elements values) (member : element ∈ elements) :
    ∃ v ∈ values, Stored s element v := by
  induction elements generalizing values with
  | nil => cases member
  | cons first rest ih =>
    obtain ⟨w, others, rfl, isStored, stored⟩ := stored
    rcases List.mem_cons.mp member with rfl | later
    · exact ⟨w, List.mem_cons_self, isStored⟩
    · obtain ⟨v, member', isStored'⟩ := ih stored later
      exact ⟨v, List.mem_cons_of_mem _ member', isStored'⟩

/-- What holds of each slot holds of all. -/
theorem AllStored.map_slots {s' : Store} {f g : Nat → Value}
    {elements : List Plain} {indices : List Nat} (stored : AllStored s elements (indices.map f))
    (each : ∀ i ∈ indices, ∀ p : Plain, p.Stored s (f i) → p.Stored s' (g i)) :
    AllStored s' elements (indices.map g) := by
  induction elements generalizing indices with
  | nil => simpa [AllStored] using stored
  | cons element rest ih =>
    obtain ⟨v, others, isCons, isStored, stored⟩ := stored
    obtain ⟨i, more, rfl, rfl, rfl⟩ := List.map_eq_cons_iff.mp isCons
    exact ⟨_, _, rfl, each i List.mem_cons_self element isStored,
      ih stored fun j member => each j (List.mem_cons_of_mem _ member)⟩

theorem Stored.noSignal {p : Plain} {v : Value} (stored : p.Stored s v) : v.isSignal = false := by
  cases p with
  | void | null | int n => cases stored; rfl
  | bool truth =>
    cases stored
    cases truth <;> rfl
  | string content =>
    obtain ⟨r, o, rfl, -⟩ := Heap.bodyOf?_eq_some.mp stored
    rfl
  | tuple elements =>
    obtain ⟨t, found, -⟩ := stored
    obtain ⟨r, o, rfl, -⟩ := Heap.bodyOf?_eq_some.mp found
    rfl

end Stored

end Plain

namespace Store.Named

variable {s : Store} (named : s.Named)
include named

theorem distinct {r q : Ref} {i j : Nat} (isConstant : (r, i) ∈ s.roots.constants)
    (isConstant' : (q, j) ∈ s.roots.constants) (differ : i ≠ j) : r ≠ q := by
  rintro rfl
  have same : (⟨i⟩ : Singleton) = ⟨j⟩ :=
    Option.some.inj ((named (r, i) isConstant).symm.trans (named (r, j) isConstant'))
  exact differ (congrArg Singleton.ordinal same)

theorem pairwise :
    (s.roots.null ≠ s.roots.void ∧ s.roots.yes ≠ s.roots.void ∧ s.roots.no ≠ s.roots.void) ∧
      (s.roots.yes ≠ s.roots.null ∧ s.roots.no ≠ s.roots.null) ∧ s.roots.no ≠ s.roots.yes := by
  have void : (s.roots.void, Roots.voidOrdinal) ∈ s.roots.constants := by simp [Roots.constants]
  have null : (s.roots.null, Roots.nullOrdinal) ∈ s.roots.constants := by simp [Roots.constants]
  have yes : (s.roots.yes, Roots.trueOrdinal) ∈ s.roots.constants := by simp [Roots.constants]
  have no : (s.roots.no, Roots.falseOrdinal) ∈ s.roots.constants := by simp [Roots.constants]
  exact ⟨⟨named.distinct null void (by decide), named.distinct yes void (by decide),
      named.distinct no void (by decide)⟩,
    ⟨named.distinct yes null (by decide), named.distinct no null (by decide)⟩, named.distinct no yes (by decide)⟩

/-- An object that is no singleton is none of the constants. -/
theorem other {v : Value}
    {b : Body} (found : s.heap.bodyOf? v = some b) (kind : b.kind ≠ .singleton) :
    v ≠ .object s.roots.void ∧ v ≠ .object s.roots.null ∧ v ≠ .object s.roots.yes ∧
      v ≠ .object s.roots.no := by
  have differs : ∀ c ∈ s.roots.constants, v ≠ .object c.1 := by
    rintro c isConstant rfl
    cases found.symm.trans (Heap.view?_eq_some.mp (named c isConstant))
    exact kind rfl
  simpa [Roots.constants] using differs

end Store.Named

namespace Plain

variable {s : Store}

mutual

theorem exportWith_of_stored (named : s.Named) (p : Plain) {v : Value} {fuel : Nat}
    (stored : p.Stored s v) (deep : p.nesting < fuel) : exportWith s fuel v = .ok p := by
  obtain ⟨⟨nullVoid, yesVoid, noVoid⟩, ⟨yesNull, noNull⟩, noYes⟩ := named.pairwise
  obtain ⟨fuel, rfl⟩ : ∃ n, fuel = n + 1 := ⟨fuel - 1, by omega⟩
  cases p with
  | void =>
    obtain rfl : v = _ := stored
    simp [exportWith]
  | null =>
    obtain rfl : v = _ := stored
    simp [exportWith, nullVoid]
  | bool truth =>
    obtain rfl : v = _ := stored
    cases truth with
    | true => simp [exportWith, Store.boolean, Roots.boolean, yesVoid, yesNull]
    | false => simp [exportWith, Store.boolean, Roots.boolean, noVoid, noNull, noYes]
  | int n =>
    obtain rfl : v = _ := stored
    simp [exportWith]
  | string content =>
    have found : s.heap.bodyOf? v = some (.string ⟨content⟩) := stored
    obtain ⟨noVoid, noNull, noYes, noNo⟩ := named.other found (by simp [Body.kind])
    obtain ⟨r, o, rfl, -⟩ := Heap.bodyOf?_eq_some.mp found
    simp only [exportWith, noVoid, noNull, noYes, noNo, if_false, found]
  | tuple elements =>
    obtain ⟨t, found, stored⟩ := stored
    obtain ⟨noVoid, noNull, noYes, noNo⟩ := named.other found (by simp [Body.kind])
    obtain ⟨r, o, rfl, -⟩ := Heap.bodyOf?_eq_some.mp found
    simp only [nesting] at deep
    have all := exportAll_of_stored named elements stored (show _ < fuel by omega)
    simp only [exportWith, noVoid, noNull, noYes, noNo, if_false, found, all]
    rfl

theorem exportAll_of_stored (named : s.Named) (elements : List Plain) {values : List Value}
    {fuel : Nat} (stored : AllStored s elements values) (deep : maxNesting elements < fuel) :
    values.mapM (exportWith s fuel) = .ok elements := by
  cases elements with
  | nil =>
    obtain rfl : values = [] := stored
    rfl
  | cons element rest =>
    obtain ⟨v, others, rfl, isStored, stored⟩ := stored
    simp only [maxNesting] at deep
    rw [List.mapM_cons, exportWith_of_stored named element isStored (by omega),
      exportAll_of_stored named rest stored (by omega)]
    rfl

end

/-- A value is a copy of one plain value at most. -/
theorem Stored.unique (named : s.Named) {p q : Plain} {v : Value} (first : p.Stored s v)
    (second : q.Stored s v) : p = q := by
  have asFirst := exportWith_of_stored named p first (Nat.lt_succ_of_le (Nat.le_max_left p.nesting q.nesting))
  have asSecond := exportWith_of_stored named q second (Nat.lt_succ_of_le (Nat.le_max_right p.nesting _))
  exact Except.ok.inj (asFirst.symm.trans asSecond)

theorem exists_maxNesting {elements : List Plain} (some : 0 < maxNesting elements) :
    ∃ element ∈ elements, element.nesting = maxNesting elements := by
  induction elements with
  | nil => cases some
  | cons first rest ih =>
    simp only [maxNesting] at some ⊢
    rcases Nat.le_total (maxNesting rest) first.nesting with deepest | deeper
    · exact ⟨first, List.mem_cons_self, by omega⟩
    · obtain ⟨element, member, isDeepest⟩ := ih (by omega)
      exact ⟨element, List.mem_cons_of_mem _ member, by omega⟩

theorem length_le_of_nodup {path : List Ref} {size : Nat} (distinct : path.Nodup)
    (inHeap : ∀ r ∈ path, r.position < size) : path.length ≤ size := by
  have within : path ⊆ (List.range size).map Ref.mk := fun r member =>
    List.mem_map.mpr ⟨r.position, List.mem_range.mpr (inHeap r member), rfl⟩
  simpa using (List.subperm_of_subset distinct within).length_le

/-- A chain of tuples, each within the one before, goes through different objects: a tuple within
itself would be a copy of two plain values. -/
theorem Stored.path_le (named : s.Named)
    {p : Plain} {v : Value} (stored : p.Stored s v) (path : List Ref)
    (distinct : path.Nodup) (inHeap : ∀ r ∈ path, r.position < s.heap.objects.size)
    (deeper : ∀ r ∈ path, ∃ q : Plain, q.Stored s (.object r) ∧ p.nesting < q.nesting) :
    path.length + p.nesting ≤ s.heap.objects.size := by
  induction isNesting : p.nesting generalizing p v path with
  | zero => exact length_le_of_nodup distinct inHeap
  | succ n ih =>
    cases p with
    | tuple elements =>
      obtain ⟨t, found, copies⟩ := stored
      obtain ⟨r, o, rfl, isObject, -⟩ := Heap.bodyOf?_eq_some.mp found
      have whole : (tuple elements).Stored s (.object r) := ⟨t, found, copies⟩
      have isNew : r ∉ path := by
        intro onPath
        obtain ⟨q, again, isDeeper⟩ := deeper r onPath
        cases again.unique named whole
        exact lt_irrefl _ isDeeper
      have distinct' := List.nodup_cons.mpr ⟨isNew, distinct⟩
      have inHeap' : ∀ q ∈ r :: path, q.position < s.heap.objects.size := List.forall_mem_cons.mpr ⟨(Array.getElem?_eq_some_iff.mp isObject).1, inHeap⟩
      simp only [nesting] at isNesting deeper
      obtain rfl | some := Nat.eq_zero_or_pos n
      · exact length_le_of_nodup distinct' inHeap'
      · obtain ⟨element, member, isDeepest⟩ := @exists_maxNesting elements (by omega)
        obtain ⟨w, -, isElement⟩ := copies.copy member
        have longer := ih isElement (r :: path) distinct' inHeap' (List.forall_mem_cons.mpr
          ⟨⟨_, whole, by simp only [nesting]; omega⟩, fun q onPath => by
            obtain ⟨other, isOther, isDeeper⟩ := deeper q onPath
            exact ⟨other, isOther, by omega⟩⟩) (by omega)
        simp only [List.length_cons] at longer
        omega
    | _ => cases isNesting

theorem export_of_stored {m : Machine} (named : m.store.Named) {p : Plain} {v : Value}
    (stored : p.Stored m.store v) : m.exportPlain v = .ok p := by
  refine exportWith_of_stored named p stored ?_
  have shallow := stored.path_le named [] List.nodup_nil (by simp) (by simp)
  rw [List.length_nil] at shallow
  simp only [Heap.walkFuel]
  omega

end Plain

namespace Store

variable {s s' : Store} {kept : Ref → Prop} {place : Ref → Ref}

mutual

/-- Copies of plain values are taken along. -/
theorem Takes.stored (takes : s.Takes kept place s') (p : Plain) {v : Value} (isKept : v.Kept kept)
    (stored : p.Stored s v) : p.Stored s' (v.move place) := by
  cases p with
  | void | null =>
    obtain rfl : v = _ := stored
    simp only [Plain.Stored, takes.roots]
    rfl
  | bool truth =>
    obtain rfl : v = _ := stored
    simp only [Plain.Stored, Store.boolean, Roots.boolean, takes.roots]
    cases truth <;> rfl
  | int n =>
    obtain rfl : v = _ := stored
    rfl
  | string content => exact (takes.body v _ isKept stored (by simp [Body.kind])).1
  | tuple elements =>
    obtain ⟨t, found, copies⟩ := stored
    obtain ⟨found', held⟩ := takes.body v _ isKept found (by simp [Body.kind])
    exact ⟨_, found', takes.allStored elements held copies⟩

theorem Takes.allStored (takes : s.Takes kept place s')
    (elements : List Plain) {values : List Value}
    (isKept : ∀ v ∈ values, v.Kept kept) (stored : Plain.AllStored s elements values) :
    Plain.AllStored s' elements (values.map (Value.move place)) := by
  cases elements with
  | nil =>
    obtain rfl : values = [] := stored
    rfl
  | cons element rest =>
    obtain ⟨v, others, rfl, isStored, stored⟩ := stored
    exact ⟨_, _, rfl, takes.stored element (isKept v List.mem_cons_self) isStored,
      takes.allStored rest (fun w member => isKept w (List.mem_cons_of_mem _ member)) stored⟩

end

end Store

namespace Machine

variable {m m' : Machine} {place : Ref → Ref} {rest : Nat}

/-- A value leads to something known, if it leads to an object at all. -/
abbrev Minds (m : Machine) (v : Value) : Prop := v.Kept m.Knows

theorem minds_slot (m : Machine) (index : Nat) : m.Minds (m.references.slot index) :=
  fun _ isSlot => knows_slot isSlot

theorem Brings.stored (brings : m.Brings place m') (p : Plain) {v : Value} (minds : m.Minds v)
    (stored : p.Stored m.store v) : p.Stored m'.store (v.move place) :=
  brings.takes.stored p minds stored

theorem Brings.storedSlots (brings : m.Brings place m') {indices : List Nat}
    (taken : ∀ i ∈ indices, i < m.references.scopedCount) {elements : List Plain}
    (stored : Plain.AllStored m.store elements (indices.map m.references.slot)) :
    Plain.AllStored m'.store elements (indices.map m'.references.slot) :=
  stored.map_slots fun i member p copy => by
    rw [brings.slots i (taken i member)]
    exact brings.stored p (minds_slot m i) copy

section Importing

/-- The machine after work that may collect: ready, with some bytes left to spend, and with
everything that was known. -/
structure Goes (m : Machine) (rest : Nat) (m' : Machine) : Prop where
  brings : ∃ place, m.Brings place m'
  ready : m'.Ready
  affords : m'.Affords rest

theorem Goes.trans {more : Nat} {m'' : Machine} (first : m.Goes more m')
    (second : m'.Goes rest m'') : m.Goes rest m'' := by
  obtain ⟨p, brings⟩ := first.brings
  obtain ⟨q, brings'⟩ := second.brings
  exact ⟨⟨_, brings.trans brings'⟩, second.ready, second.affords⟩

theorem Goes.push (goes : m.Goes rest m') {v : Value} (minds : m'.Minds v) :
    m.Goes rest { m' with references := m'.references.push v } := by
  obtain ⟨place, brings⟩ := goes.brings
  exact ⟨⟨place, brings.push v⟩, goes.ready.push minds, { goes.affords with }⟩

/-- The error is a lack of memory: what is alive and the block that is wanted are more than a space
may hold. -/
def Short (m : Machine) (error : RunError) : Prop := ∃ size, error = .outOfMemory size ∧
    m.store.heap.settings.maxSize < m.store.heap.used + size

/-- An import has failed, for lack of memory or because of an integer out of range. -/
structure ImportFails (m : Machine) (inRange : Prop) (error : RunError) (m' : Machine) : Prop where
  brings : ∃ place, m.Brings place m'
  ready : m'.Ready
  cause : m'.Short error ∨ error = .signal .typeMismatch ∧ ¬ inRange

theorem ImportFails.weaken {inner outer : Prop}
    {error : RunError} (fails : m.ImportFails inner error m') (implies : outer → inner) :
    m.ImportFails outer error m' :=
  { fails with
    cause := fails.cause.imp_right fun ⟨mismatch, outside⟩ => ⟨mismatch, fun holds => outside (implies holds)⟩ }

theorem ImportFails.after {m'' : Machine} {inRange : Prop}
    {error : RunError} (goes : m.Goes rest m') (fails : m'.ImportFails inRange error m'') :
    m.ImportFails inRange error m'' := by
  obtain ⟨p, brings⟩ := goes.brings
  obtain ⟨q, brings'⟩ := fails.brings
  exact { fails with brings := ⟨_, brings.trans brings'⟩ }

/-- Work that wants a single block lacks memory only if that block and what is alive are too
much. -/
theorem leads_retrying_block {α : Type} {work : Op Signal α} {block : Nat}
    (draws : ∀ m, Draws space work m [block]) (gentle : Gentle Undisturbed (fun _ => True) work) :
    Action.Leads (retrying work) m (fun _ _ => True) fun error m' =>
      ∀ size, error = .outOfMemory size → m'.Short error := by
  refine Action.leads_of (fun _ _ _ => trivial) ?_
  rintro _ m' stopped size rfl
  obtain ⟨first, m₁, c, refused, collected, again⟩ := retrying_outOfMemory stopped
  obtain ⟨before, later, isPlan, taken, -⟩ := (draws c).cause again size rfl
  obtain ⟨rfl, rfl⟩ : before = [] ∧ block = size := by
    cases before with
    | nil => exact ⟨rfl, (List.cons.inj isPlan).1⟩
    | cons b before => simp at isPlan
  have same := (gentle.raised c _ m' again trivial).store.heap.settings
  refine ⟨block, rfl, ?_⟩
  have used : m'.store.heap.used = c.space.used := congrArg Space.used taken
  rw [same, used]
  exact refused_block refused (draws m) collected again (draws c)

theorem lands_retrying_block {α : Type} {work : Op Signal α}
    {block : Nat} {done : α → Machine → Prop} (draws : ∀ m, Draws space work m [block])
    (gentle : Gentle Undisturbed (fun _ => True) work) (ready : m.Ready)
    (affords : m.Affords (2 * block + rest)) (works : ∀ place m₁, m.Brings place m₁ → m₁.Ready →
      m₁.Affords (block + rest) → Lands work m₁ done fun signal m₂ => m₁.Constructed block m₂ ∧
      ∃ size ≤ block, signal = .allocationFailed size) :
    Lands (retrying work) m done fun error m' => (∃ place, m.Brings place m') ∧ m'.Ready ∧
      m'.Short error := by
  refine ((lands_retrying ready affords works).and (leads_retrying_block draws gentle)).mono
    (fun _ _ ⟨holds, _⟩ => holds) ?_
  rintro _ m' ⟨⟨brings, ready', size, rfl⟩, short⟩
  exact ⟨brings, ready', short size rfl⟩

theorem draws_tupleOf (indices : List Nat) : Draws space
    (do onStore (Make.tuple (← slots indices)) : Op Signal Value) m [16 + 8 * indices.length] := by
  refine (asks_slots _).draws_bind fun values read => ?_
  cases (slots_eq indices).symm.trans read
  exact draws_slots_tuple indices

theorem gentle_tupleOf (indices : List Nat) : Gentle Undisturbed (fun _ => True)
    (do onStore (Make.tuple (← slots indices)) : Op Signal Value) :=
  (asks_slots _).gentle.bind fun _ => gentle_onStore (Make.adds.plain (.tuple _) rfl)

theorem lands_held {ε : Type} {v : Value} {done : Value → Machine → Prop}
    {raised : ε → Machine → Prop} : Lands (held v) m done raised ↔
      done v { m with references := m.references.push v } := Iff.rfl

theorem lands_root {ε : Type} {v : Value} {done : Nat → Machine → Prop}
    {raised : ε → Machine → Prop} : Lands (root v) m done raised ↔
      done m.references.scopedCount { m with references := m.references.push v } := Iff.rfl

theorem lands_slots {indices : List Nat} {done : Array Value → Machine → Prop}
    {raised : Signal → Machine → Prop} :
    Lands (slots indices) m done raised ↔ done (indices.map m.references.slot).toArray m := by
  unfold Lands
  rw [slots_eq]

/-- The value has just been put in the last slot, where it is a copy of the plain value. -/
structure Holds (m : Machine) (rest : Nat) (p : Plain) (v : Value) (m' : Machine) : Prop where
  goes : m.Goes rest m'
  more : m.references.scopedCount < m'.references.scopedCount
  last : m'.references.slot (m'.references.scopedCount - 1) = v
  stored : p.Stored m'.store v

theorem last_push (r : References) (v : Value) :
    (r.push v).slot ((r.push v).scopedCount - 1) = v := by
  simp [References.slot, References.push, References.scopedCount]

theorem scopedCount_push (r : References) (v : Value) :
    (r.push v).scopedCount = r.scopedCount + 1 := by
  simp [References.scopedCount, References.push]

theorem Holds.of_known (goes : m.Goes rest m') {p : Plain} {v : Value} (minds : m'.Minds v)
    (stored : p.Stored m'.store v) :
    m.Holds rest p v { m' with references := m'.references.push v } where
  goes := goes.push minds
  more := by
    obtain ⟨place, brings⟩ := goes.brings
    exact brings.count.trans_lt (by simp [scopedCount_push])
  last := last_push _ _
  stored := stored

theorem Holds.of_made {bytes : Nat} {m₁ : Machine} (brings : m.Brings place m₁) (ready : m₁.Ready)
    (affords : m₁.Affords (bytes + rest)) (constructed : m₁.Constructed bytes m') {p : Plain}
    {v : Value} {b : Body} (made : m₁.store.Made v b m'.store) (stored : p.Stored m'.store v) :
    m.Holds rest p v { m' with references := m'.references.push v } where
  goes :=
    { brings := ⟨_, (brings.trans constructed.brings).push v⟩
      ready := by
        refine ready.push_built constructed.builds constructed.undisturbed constructed.ready.formed ?_
        rintro r rfl
        obtain ⟨_, ⟨⟩, absent, found⟩ := made
        obtain ⟨_, o, ⟨⟩, isObject, -⟩ := Heap.bodyOf?_eq_some.mp found
        exact .inr ⟨absent, o, isObject⟩
      affords := { constructed.affords affords with } }
  more := (brings.trans constructed.brings).count.trans_lt (by simp [scopedCount_push])
  last := last_push _ _
  stored := stored

mutual

/-- Importing a plain value stores a copy of it in the last slot. -/
theorem lands_importPlain (p : Plain)
    {m : Machine} {rest : Nat} (ready : m.Ready) (affords : m.Affords (2 * p.bytes + rest)) :
    Lands (importPlain p) m (fun v m' => p.InRange ∧ m.Holds rest p v m')
      (m.ImportFails p.InRange) := by
  have here : m.Goes rest m := ⟨⟨id, .refl m⟩, ready, affords.mono (by omega)⟩
  cases p with
  | void =>
    simp only [importPlain]
    rw [lands_bind, lands_ask, lands_held]
    refine ⟨trivial, .of_known here ?_ rfl⟩
    rintro _ ⟨⟩
    exact knows_root (by simp [Roots.refs, Roots.others])
  | null =>
    simp only [importPlain]
    rw [lands_bind, lands_ask, lands_held]
    refine ⟨trivial, .of_known here ?_ rfl⟩
    rintro _ ⟨⟩
    exact knows_root (by simp [Roots.refs, Roots.others])
  | bool truth =>
    simp only [importPlain]
    rw [lands_bind, lands_ask, lands_held]
    refine ⟨trivial, .of_known here ?_ rfl⟩
    cases truth <;>
    · rintro _ ⟨⟩
      exact knows_root (by simp [Roots.refs, Roots.others])
  | int n =>
    simp only [importPlain]
    by_cases small : Value.isSmall n = true
    · simp only [Value.ofInt?, small, if_true]
      rw [lands_held]
      exact ⟨small, .of_known here (by rintro _ ⟨⟩) rfl⟩
    · simp only [Value.ofInt?, small]
      exact ⟨⟨id, .refl m⟩, ready, .inr ⟨rfl, small⟩⟩
  | string content =>
    simp only [importPlain, Plain.bytes] at affords ⊢
    have modest : (Body.string ⟨content⟩).size ≤ 2 ^ 50 := by
      have := affords.used
      omega
    rw [lands_bind]
    refine (lands_retrying_block (fun m => draws_onStore (Make.draws_string content))
      (gentle_onStore (Make.adds.plain (.string content) rfl)) ready affords
      fun place m₁ brings ready₁ affords₁ => ?_).mono (fun v m' holds => lands_held.mpr ⟨trivial, holds⟩)
      (fun _ _ ⟨brings, ready, short⟩ => ⟨brings, ready, .inl short⟩)
    refine (lands_onStore ready₁ (Make.constructs_string content modest (knows_layout m₁ _))
      (Make.tended_plain (.string content) rfl)).mono ?_ fun _ _ failed => failed
    rintro v m₂ ⟨constructed, made⟩
    exact .of_made brings ready₁ affords₁ constructed made made.bodyOf?
  | tuple elements =>
    simp only [importPlain, Plain.bytes] at affords ⊢
    rw [lands_bind]
    have affordsAll : m.Affords (2 * Plain.allBytes elements + (2 * (16 + 8 * elements.length) + rest)) :=
      affords.mono (by omega)
    refine (lands_importAll elements ready affordsAll).mono ?_ fun _ _ fails => fails
    rintro indices m₁ ⟨inRange, goes, taken, stored⟩
    rw [lands_bind]
    have length : indices.length = elements.length := by simpa using stored.length
    refine (lands_retrying_block (fun m => length ▸ draws_tupleOf indices) (gentle_tupleOf indices)
      goes.ready goes.affords fun place m₂ brings ready₂ affords₂ => ?_).mono
      (fun v m' holds => lands_held.mpr ⟨inRange, holds⟩)
      (fun _ _ ⟨brings, ready, short⟩ => .after goes ⟨brings, ready, .inl short⟩)
    rw [lands_bind, lands_slots]
    have copies := brings.storedSlots taken stored
    have size : (Body.tuple ⟨(indices.map m₂.references.slot).toArray⟩).size =
        16 + 8 * elements.length := by simp [Body.size, length]
    have modest : 16 + 8 * elements.length ≤ 2 ^ 50 := by
      have := affords.used
      omega
    have constructs := @Make.constructs_tuple m₂.Knows m₂.store (indices.map m₂.references.slot).toArray
      (size ▸ modest) (knows_layout m₂ _) (fun r member => by
        obtain ⟨i, -, isSlot⟩ := List.mem_map.mp (List.mem_toArray.mp (Array.mem_toList_iff.mp member))
        exact knows_slot isSlot) (fun v member => by
        obtain ⟨_, -, isCopy⟩ := copies.mem (List.mem_toArray.mp member)
        exact isCopy.noSignal)
    rw [size] at constructs
    refine (lands_onStore ready₂ constructs (Make.tended_plain (.tuple _) rfl)).mono ?_ fun _ _ failed => failed
    rintro v m₃ ⟨constructed, made⟩
    obtain ⟨q, toFirst⟩ := goes.brings
    refine .of_made (toFirst.trans brings) ready₂ affords₂ constructed made ⟨_, made.bodyOf?, ?_⟩
    have along := constructed.brings.storedSlots (fun i member => (taken i member).trans_le brings.count)
      copies
    rwa [constructed.undisturbed.references] at along

theorem lands_importAll (elements : List Plain) {m : Machine} {rest : Nat} (ready : m.Ready)
    (affords : m.Affords (2 * Plain.allBytes elements + rest)) :
    Lands (importAll elements) m (fun indices m' => Plain.AllInRange elements ∧ m.Goes rest m' ∧
        (∀ i ∈ indices, i < m'.references.scopedCount) ∧
        Plain.AllStored m'.store elements (indices.map m'.references.slot))
      (m.ImportFails (Plain.AllInRange elements)) := by
  cases elements with
  | nil =>
    simp only [importAll]
    exact ⟨trivial, ⟨⟨id, .refl m⟩, ready, affords.mono (by omega)⟩, by simp, rfl⟩
  | cons element others =>
    simp only [importAll, Plain.allBytes] at affords ⊢
    rw [lands_bind]
    have affordsFirst : m.Affords (2 * element.bytes + (2 * Plain.allBytes others + rest)) :=
      affords.mono (by omega)
    refine (lands_importPlain element ready affordsFirst).mono ?_ fun _ _ fails =>
      fails.weaken fun all => all.1
    rintro v m₁ ⟨inRange, holds⟩
    have minds : m₁.Minds v := holds.last ▸ minds_slot m₁ _
    have goes := holds.goes.push minds
    rw [lands_bind, lands_root, lands_bind]
    refine (lands_importAll others goes.ready goes.affords).mono ?_ fun _ _ fails =>
      (ImportFails.after goes fails).weaken fun all => all.2
    rintro indices m₂ ⟨allInRange, goes', taken, stored⟩
    obtain ⟨place, brings⟩ := goes'.brings
    have low : m₁.references.scopedCount < (m₁.references.push v).scopedCount := by
      simp [scopedCount_push]
    have isSlot : (m₁.references.push v).slot m₁.references.scopedCount = v := by
      simpa [scopedCount_push] using last_push m₁.references v
    refine ⟨⟨inRange, allInRange⟩, goes.trans goes', ?_, _, _, rfl, ?_, stored⟩
    · exact List.forall_mem_cons.mpr ⟨low.trans_le brings.count, taken⟩
    · rw [brings.slots _ low, isSlot]
      exact brings.stored element (fun r isValue => knows_slot (isSlot.trans isValue)) holds.stored

end

end Importing

/-- One collection. -/
def Collects (m m' : Machine) : Prop := ∃ pending, (collect pending : Op RunError Unit) m = .ok () m'

theorem Collects.brings (collects : m.Collects m') (ready : m.Ready) :
    m'.Ready ∧ ∃ place, m.Brings place m' := by
  obtain ⟨pending, collected⟩ := collects
  obtain ⟨place, carried⟩ := (ends_collect pending ready.registered ready.collectable).leads.answer collected
  exact ⟨ready.carried carried, place, carried.brings ready.registered⟩

/-- Any number of collections bring everything along. -/
theorem Collects.brings_all (collects : Relation.ReflTransGen Collects m m') (ready : m.Ready) :
    m'.Ready ∧ ∃ place, m.Brings place m' := by
  induction collects with
  | refl => exact ⟨ready, id, .refl m⟩
  | tail _ last ih =>
    obtain ⟨ready', p, brings⟩ := ih
    obtain ⟨ready'', q, brings'⟩ := last.brings ready'
    exact ⟨ready'', _, brings.trans brings'⟩

/-- Plain values survive the boundary. A value whose integers are small is imported, or memory is
short; one with another integer is refused, or memory is short; and nothing is found broken. What
has been imported is in the last slot, and from there it can be exported as it was, after any number
of collections. All that while everything held before leads to the same graph. -/
theorem importPlain_exportPlain (m : Machine) (p : Plain) (ready : m.Ready)
    (affords : m.Affords (2 * p.bytes)) :
    Lands (importPlain p) m
      (fun v m' => p.InRange ∧ m.references.scopedCount < m'.references.scopedCount ∧
        m'.references.slot (m'.references.scopedCount - 1) = v ∧
        ∀ m'', Relation.ReflTransGen Collects m' m'' →
          m''.exportPlain (m''.references.slot (m'.references.scopedCount - 1)) = .ok p ∧
            m''.Ready ∧ ∃ place, m.Brings place m'')
      fun error m' => (m'.Short error ∨ error = .signal .typeMismatch ∧ ¬ p.InRange) ∧
        m'.Ready ∧ ∃ place, m.Brings place m' := by
  have lands : Lands _ m (fun v m' => p.InRange ∧ m.Holds 0 p v m') _ := lands_importPlain p ready affords
  refine lands.mono ?_ fun _ _ fails => ⟨fails.cause, fails.ready, fails.brings⟩
  rintro v m' ⟨inRange, holds⟩
  refine ⟨inRange, holds.more, holds.last, fun m'' collects => ?_⟩
  obtain ⟨ready'', q, brings'⟩ := Collects.brings_all collects holds.goes.ready
  obtain ⟨place, brings⟩ := holds.goes.brings
  have low : m'.references.scopedCount - 1 < m'.references.scopedCount := by
    have := holds.more
    omega
  refine ⟨?_, ready'', _, brings.trans brings'⟩
  rw [brings'.slots _ low, holds.last]
  exact Plain.export_of_stored ready''.named (brings'.stored p (holds.last ▸ minds_slot m' _) holds.stored)

/-- A nested value with the greatest small integer and two strings of which the tight space has room
for one. -/
def nestedPlain : Plain :=
  .tuple [.string "a string of thirty characters.", .tuple [.int (2 ^ 62 - 1), .void, .tuple []],
    .string "ein String mit dreißig Zeichen", .bool false, .null]

/-- A tight space with a lambda whose code returns what is not there. -/
def taught : Option Machine :=
  match create tightSettings {} with
  | .ok m =>
    match (assemble { units := #[1], constants := #[], height := 0, maxHeight := 0 } 0 >>= held : Op RunError Value) m with
    | .ok _ m' => some m'
    | .error _ _ => none
  | .error _ => none

/-- Whether the nested value is imported into the tight space, and how often the machine collects on
the way. -/
def nestedCollections? : Option Nat :=
  taught.bind fun m =>
    if m.Tidy ∧ m.store.heap.used + 2 * nestedPlain.bytes ≤ 2 ^ 50 ∧
        m.store.heap.settings.growthPercent = 100 ∧ m.store.heap.capacity ≤ 2 ^ 50 then
      match importPlain nestedPlain m with
      | .ok _ m' => some (m'.store.heap.stats.collections - m.store.heap.stats.collections)
      | .error _ _ => none
    else none

/-- What is so of the machine that the nested value is imported into. -/
theorem taught_nested : ∃ m v m', taught = some m ∧ m.Tidy ∧ m.Affords (2 * nestedPlain.bytes) ∧
    importPlain nestedPlain m = .ok v m' ∧
    m'.store.heap.stats.collections - m.store.heap.stats.collections = 2 := by
  have twice : nestedCollections? = some 2 := by decide +kernel
  obtain ⟨m, isTaught, twice⟩ := Option.bind_eq_some_iff.mp twice
  split at twice
  · rename_i room
    split at twice
    · rename_i v m' imported
      refine ⟨m, v, m', isTaught, room.1, ⟨room.2.1, by omega, by omega, ?_⟩, imported, Option.some.inj twice⟩
      have rounded : Size.roundUp m.store.heap.capacity ≤ m.store.heap.capacity + 7 := by
        simp only [Size.roundUp, Size.word]
        omega
      rw [room.2.2.1]
      omega
    · cases twice
  · cases twice

/-- The nested value comes out as it went in, although the machine collects twice on the way and
holds code that could not be run. -/
theorem importPlain_exportPlain_nested : ∃ m v m', taught = some m ∧
    importPlain nestedPlain m = .ok v m' ∧
    m'.store.heap.stats.collections - m.store.heap.stats.collections = 2 ∧
    ∀ m'', Relation.ReflTransGen Collects m' m'' →
      m''.exportPlain (m''.references.slot (m'.references.scopedCount - 1)) = .ok nestedPlain := by
  obtain ⟨m, v, m', isTaught, tidy, affords, imported, twice⟩ := taught_nested
  have lands := importPlain_exportPlain m nestedPlain tidy.ready affords
  unfold Lands at lands
  rw [imported] at lands
  exact ⟨m, v, m', isTaught, imported, twice, fun m'' collects => (lands.2.2.2 m'' collects).1⟩

end Machine

end ObjectMachine
