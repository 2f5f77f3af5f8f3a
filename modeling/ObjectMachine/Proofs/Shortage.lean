/-
# ObjectMachine.Proofs.Shortage -- when memory runs out

Work that is tried again after a collection asks for blocks one after the other. `Action.Draws` says
for which blocks: a success has taken all of them, and a failure those before the first that did not
fit. A collection grows the space for the one block that failed (`Heap.collectInto_room`), whatever
else the work is about to ask for.

* `Make.draws_string`, `Make.draws_tuple`, `Make.draws_task` -- the blocks that these take.
* `Machine.retrying_short` -- what a lack of memory says about the heap after the collection: the
  work does not fit into what is free, and the space is as large as it may become, or was large
  enough for the one block. If the work is one block, memory is short indeed.
* `Machine.task_starved` -- otherwise it may not be.
-/
import Mathlib
import ObjectMachine.Channel
import ObjectMachine.Proofs.Forming

namespace ObjectMachine

open Size (roundUp)

namespace Space

/-- A space that is measured and handed out in whole words. -/
def InWords (s : Space) : Prop := s.capacity % Size.word = 0 ∧ s.used % Size.word = 0

/-- The space after blocks of these sizes have been taken. -/
def after (s : Space) (sizes : List Nat) : Space := { s with used := s.used + (sizes.map roundUp).sum }

@[simp] theorem after_nil (s : Space) : s.after [] = s := rfl

theorem after_after (s : Space) (first second : List Nat) :
    (s.after first).after second = s.after (first ++ second) := by
  simp [after, Nat.add_assoc]

theorem InWords.take {s : Space} (inWords : s.InWords) (size : Nat) :
    ({ s with used := s.used + roundUp size } : Space).InWords := by
  refine ⟨inWords.1, ?_⟩
  have rounded := Size.roundUp_mod size
  have used := inWords.2
  simp only [Size.word] at *
  omega

theorem free_lt_of_allocate {s : Space} {size : Nat} (refused : s.allocate size = .ok none) :
    s.free < roundUp size := by
  obtain ⟨rounded, isRounded, refused⟩ := ok_of_bind refused
  cases align_ok isRounded
  split at refused
  · assumption
  · cases refused

/-- A block of words fits if its bytes do. -/
theorem InWords.roundUp_le {s : Space} (inWords : s.InWords) {size : Nat} (fits : size ≤ s.free) :
    roundUp size ≤ s.free := by
  obtain ⟨capacity, used⟩ := inWords
  simp only [free, roundUp, Size.word] at *
  omega

end Space

namespace Transfer

variable {α β : Type} {inv : Transfer → Prop} {fine : Violation → Prop}

/-- Work of a collection that keeps `inv`, and fails for reasons that are `fine` only. -/
def Keeps (inv : Transfer → Prop) (fine : Violation → Prop) (c : Migration α) : Prop :=
  ∀ ⦃t⦄, inv t → Leaves fine (fun _ t => inv t) (c.run t)

theorem keeps_pure (answer : α) : Keeps inv fine (pure answer) := fun _ holds => holds

theorem keeps_get : Keeps inv fine (get : Migration Transfer) := fun _ holds => holds

theorem Keeps.bind {c : Migration α} {f : α → Migration β} (first : Keeps inv fine c)
    (rest : ∀ answer, Keeps inv fine (f answer)) : Keeps inv fine (c >>= f) :=
  fun _ holds => Leaves.bind (first holds) fun answer _ holds' => rest answer holds'

theorem Keeps.map {c : Migration α} (keeps : Keeps inv fine c) (g : α → β) :
    Keeps inv fine (g <$> c) := by
  rw [map_eq_pure_bind]
  exact keeps.bind fun _ => keeps_pure _

theorem keeps_lift {result : Except Violation α}
    (isFine : ∀ violation, result = .error violation → fine violation) :
    Keeps inv fine (liftM result : Migration α) := by
  intro t holds
  cases result with
  | error violation => exact isFine violation rfl
  | ok answer => exact holds

theorem Keeps.mapM {f : α → Migration β} (each : ∀ x, Keeps inv fine (f x)) (xs : List α) :
    Keeps inv fine (xs.mapM f) := by
  induction xs with
  | nil => exact keeps_pure _
  | cons x xs ih =>
    rw [List.mapM_cons]
    exact (each x).bind fun _ => ih.bind fun _ => keeps_pure _

theorem Keeps.foldlM {f : β → α → Migration β} (each : ∀ b a, Keeps inv fine (f b a)) (xs : List α)
    (b : β) : Keeps inv fine (xs.foldlM f b) := by
  induction xs generalizing b with
  | nil => exact keeps_pure _
  | cons x xs ih =>
    rw [List.foldlM_cons]
    exact (each b x).bind fun _ => ih _

/-- What a whole copy keeps if moving one object does: scanning writes to the target only, and may
find stacks in disorder. -/
structure Lasting (inv : Transfer → Prop) (fine : Violation → Prop) : Prop where
  ref : ∀ r, Keeps inv fine (migrateRef r)
  read : ∀ (o : Object) objects violation, o.read objects = .error violation → fine violation
  scan : ∀ t target, inv t → inv { t with target }
  slots : ∀ (s : Stack) violation, s.liveSlots = .error violation → fine violation
  attach : ∀ r b violation, attach r b = .error violation → fine violation
  stray : fine .fieldOutsideSpace
  endless : fine .endless

namespace Lasting

variable (lasting : Lasting inv fine)

include lasting

theorem migrate (v : Value) : Keeps inv fine (Transfer.migrate v) := by
  cases v with
  | object ref => exact (lasting.ref ref).bind fun _ => keeps_pure _
  | _ => exact keeps_pure _

theorem migrateHeader (header : Header) : Keeps inv fine (Transfer.migrateHeader header) := by
  cases header with
  | layout ref => exact (lasting.ref ref).bind fun _ => keeps_pure _
  | forward target => exact keeps_pure _

theorem traverseStack (s : Stack) : Keeps inv fine (s.traverse Transfer.migrate) := by
  have outside : Keeps inv fine (liftM (Except.error Violation.fieldOutsideSpace :
      Except Violation Unit) : Migration Unit) :=
    keeps_lift (by rintro _ ⟨⟩; exact lasting.stray)
  unfold Stack.traverse
  refine (keeps_lift (lasting.slots s)).bind fun slots => (Keeps.foldlM (fun state offset => ?_)
    slots _).bind fun _ => keeps_pure _
  obtain ⟨words, replaced⟩ := state
  dsimp only
  split
  · split
    · exact outside.bind fun _ => (lasting.migrate _).bind fun _ => keeps_pure _
    · exact (lasting.migrate _).bind fun _ => keeps_pure _
  · split
    · exact outside.bind fun _ => keeps_pure _
    · exact keeps_pure _
  · exact keeps_pure _

theorem traverse (body : Body) : Keeps inv fine (body.traverse Transfer.migrate) := by
  cases body with
  | stack s => exact (lasting.traverseStack s).bind fun _ => keeps_pure _
  | _ =>
    rw [Body.traverse_eq Transfer.migrate (by rintro _ ⟨⟩)]
    exact (Keeps.mapM lasting.migrate _).map _

theorem scanAt (position : Nat) (object : Object) :
    Keeps inv fine (Transfer.scanAt position object) :=
  keeps_get.bind fun _ => (keeps_lift (lasting.read _ _)).bind fun _ =>
    (lasting.migrateHeader _).bind fun _ => keeps_get.bind fun _ =>
      (keeps_lift (lasting.read _ _)).bind fun _ => (lasting.traverse _).bind fun _ =>
        (keeps_lift (lasting.attach _ _)).bind fun _ _ holds => lasting.scan _ _ holds

theorem scanFrom (fuel position : Nat) : Keeps inv fine (Transfer.scanFrom fuel position) := by
  induction fuel generalizing position with
  | zero => exact fun _ _ => lasting.endless
  | succ fuel ih =>
    intro t holds
    unfold Transfer.scanFrom
    rw [StateT.run_bind, StateT.run_get, pure_bind]
    cases t.target[position]? with
    | none => exact holds
    | some object => exact ((lasting.scanAt position object).bind fun _ => ih _) holds

theorem migrateRoots (outside : Roots × References) :
    Keeps inv fine (Machine.migrateRoots outside) := by
  have layouts : Keeps inv fine (outside.1.layouts.mapM migrateRef) := by
    intro t holds
    have vector := Roots.run_mapM_vector outside.1.layouts migrateRef t
    have listed := Keeps.mapM lasting.ref outside.1.layouts.toList holds
    cases ran : (outside.1.layouts.toList.mapM migrateRef).run t with
    | error violation =>
      rw [ran] at vector listed
      rw [vector]
      exact listed
    | ok result =>
      rw [ran] at vector listed
      obtain ⟨moved, ranVector, -⟩ := vector
      rw [ranVector]
      exact listed
  have roots : Keeps inv fine outside.1.migrate := by
    rw [Roots.migrate_eq]
    exact layouts.bind fun _ => (Keeps.mapM lasting.ref _).map _
  have references : Keeps inv fine outside.2.migrate := by
    unfold References.migrate
    rw [Array.mapM_eq_mapM_toList, ← Array.foldlM_toList]
    exact ((Keeps.mapM lasting.migrate _).map _).bind fun slots =>
      (Keeps.foldlM (fun _ _ => (lasting.migrate _).bind fun _ => keeps_pure _) _ _).bind
        fun _ => keeps_pure _
  exact roots.bind fun _ => references.bind fun _ => keeps_pure _

/-- A whole copy fails for reasons that are fine only, and keeps `inv` to its end. -/
theorem copyLive (h : Heap) (outside : Roots × References) (capacity : Nat)
    (start : inv { source := h.objects, target := #[], space := Space.fresh capacity })
    (large : fine .capacityOverflow) :
    match h.copyLive Machine.migrateRoots outside capacity with
    | .ok (_, h') => ∃ t, inv t ∧ h'.objects = t.target ∧ h'.space = t.space ∧ h'.settings = h.settings
    | .error violation => fine violation := by
  have walks := lasting.migrateRoots outside
  unfold Heap.copyLive Space.create
  by_cases small : roundUp capacity < Space.addressLimit
  case neg =>
    simp only [small, if_false, bind, Except.bind]
    exact large
  simp only [small, if_true, bind, Except.bind]
  have walked := walks start
  cases ran : (Machine.migrateRoots outside).run _ with
  | error violation =>
    rw [ran] at walked
    exact walked
  | ok result =>
    rw [ran] at walked
    have scanned := lasting.scanFrom (h.objects.size + 1) 0 walked
    dsimp only
    cases ran' : (Transfer.scanFrom (h.objects.size + 1) 0).run result.2 with
    | error violation =>
      rw [ran'] at scanned
      exact scanned
    | ok last =>
      rw [ran'] at scanned
      exact ⟨last.2, scanned, rfl, rfl, rfl⟩

end Lasting

/-- The new space is measured and filled in whole words, and keeps its size. -/
theorem lasting_inWords (capacity : Nat) :
    Lasting (fun t => t.space.InWords ∧ t.space.capacity = capacity) fun _ => True where
  ref := by
    rintro r t ⟨inWords, isCapacity⟩
    simp only [migrateRef, StateT.run_bind, StateT.run_get, pure_bind]
    split
    · trivial
    · exact ⟨inWords, isCapacity⟩
    · exact leaves_copy (fun _ _ => trivial) (fun _ _ => trivial) (fun _ _ => trivial) (fun _ => trivial)
        fun _ _ _ => ⟨inWords.take _, isCapacity⟩
  read _ _ _ _ := trivial
  scan _ _ holds := holds
  slots _ _ _ := trivial
  attach _ _ _ _ := trivial
  stray := trivial
  endless := trivial

end Transfer

namespace Heap

variable {outside outside' : Roots × References}

/-- The copies of a collection lie in whole words in a space of the size asked for. -/
theorem copyLive_inWords {h h' : Heap} {capacity : Nat}
    (copied : h.copyLive Machine.migrateRoots outside capacity = .ok (outside', h')) :
    h'.space.InWords ∧ h'.capacity = roundUp capacity ∧ h'.settings = h.settings := by
  have kept := (Transfer.lasting_inWords (roundUp capacity)).copyLive h outside capacity
    ⟨⟨Size.roundUp_mod capacity, rfl⟩, rfl⟩ trivial
  rw [copied] at kept
  obtain ⟨t, ⟨inWords, isCapacity⟩, -, space, settings⟩ := kept
  exact ⟨space ▸ inWords, (congrArg Space.capacity space).trans isCapacity, settings⟩

/-- A collection ends in a space as large as it may become, or in one that has room for the block
that was asked for and is not crowded. -/
theorem collectInto_room {h h' : Heap}
    {pending maxSize capacity : Nat}
    (done : (h.collectInto Machine.migrateRoots pending maxSize capacity outside).outcome =
      .ok (outside', h')) : h'.space.InWords ∧ h'.settings = h.settings ∧ (maxSize ≤ h'.capacity ∨
        pending ≤ h'.free ∧ h'.used * 100 ≤ h'.capacity * h'.settings.growthPercent) := by
  refine collectInto_rounds capacity outside h done (fun capacity outside h small copied wanted enough => ?_)
    fun capacity outside h next middle h₁ copied _ ih => ?_
  · obtain ⟨inWords, isCapacity, settings⟩ := copyLive_inWords copied
    refine ⟨inWords, settings, ?_⟩
    have large := Size.roundUp_ge capacity
    rw [not_and_or] at enough
    rcases enough with full | quiet
    · exact .inl (isCapacity ▸ by omega)
    · right
      unfold wantsRoom at wanted
      obtain ⟨filled, isFilled, wanted⟩ := ok_of_bind wanted
      obtain ⟨allowed, isAllowed, wanted⟩ := ok_of_bind wanted
      cases Size.mul_ok isFilled
      cases Size.mul_ok isAllowed
      cases wanted
      simp only [Bool.or_eq_true, decide_eq_true_eq, not_or, Nat.not_lt] at quiet
      exact ⟨quiet.1, quiet.2.trans (Nat.mul_le_mul_right _ (isCapacity ▸ large))⟩
  · obtain ⟨inWords, settings, roomy⟩ := ih
    exact ⟨inWords, settings.trans (copyLive_inWords copied).2.2, roomy⟩

end Heap

namespace Action

variable {σ α β : Type}

/-- Work that takes blocks of these sizes, one after the other. A success has taken all of them; a
failed allocation comes after those before it, and did not fit. -/
def Draws (space : σ → Space) (work : Action σ Signal α) (s : σ) (sizes : List Nat) : Prop :=
  Leads work s (fun _ s' => space s' = (space s).after sizes) fun cause s' =>
    ∀ size, cause = .allocationFailed size → ∃ before rest, sizes = before ++ size :: rest ∧
      space s' = (space s).after before ∧ (space s').free < roundUp size

section Drawing

variable {space : σ → Space} {s : σ} {sizes sizes' : List Nat}
variable {first : Action σ Signal α} {next : α → Action σ Signal β}

theorem Draws.bind (draws : Draws space first s sizes)
    (rest : ∀ answer s', first s = .ok answer s' → Draws space (next answer) s' sizes') :
    Draws space (first >>= next) s (sizes ++ sizes') := by
  refine leads_bind.mpr (leads_of (fun answer s₁ done => ?_) fun cause s₁ stopped => ?_)
  · have taken : space s₁ = (space s).after sizes := Leads.answer draws done
    refine Leads.mono (rest answer s₁ done) (fun _ s' all => ?_) ?_
    · rw [all, taken, Space.after_after]
    · rintro _ s' failed size rfl
      obtain ⟨before, later, rfl, some, short⟩ := failed size rfl
      refine ⟨sizes ++ before, later, by simp, ?_, short⟩
      rw [some, taken, Space.after_after]
  · rintro size rfl
    obtain ⟨before, later, rfl, some, short⟩ := Leads.cause draws stopped size rfl
    exact ⟨before, later ++ sizes', by simp, some, short⟩

theorem Draws.cons_bind {size : Nat} (draws : Draws space first s [size])
    (rest : ∀ answer s', first s = .ok answer s' → Draws space (next answer) s' sizes') :
    Draws space (first >>= next) s (size :: sizes') := draws.bind rest

/-- Work that only asks takes nothing. -/
theorem Asks.draws (asks : Asks first) : Draws space first s [] := by
  refine asks.final.leads fun answer s' done => ?_
  cases asks.same done
  rfl

theorem Asks.draws_bind (asks : Asks first)
    (rest : ∀ answer, first s = .ok answer s → Draws space (next answer) s sizes) :
    Draws space (first >>= next) s sizes := asks.leads_bind rest

/-- Work that asks at its end. -/
theorem Draws.bind_asks (draws : Draws space first s sizes) (asks : ∀ answer, Asks (next answer)) :
    Draws space (first >>= next) s sizes := by
  have ends : Draws space (first >>= next) s (sizes ++ []) := draws.bind fun answer _ _ => (asks answer).draws
  rwa [List.append_nil] at ends

end Drawing

end Action

open ObjectMachine.Action (Leads leads_of)

namespace Heap

theorem draws_allocate (size : Nat) (object : Unit → Object) (h : Heap) :
    Action.Draws Heap.space (allocate size object) h [size] := by
  unfold Action.Draws Leads allocate reserve
  cases taken : h.space.allocate size with
  | error violation => trivial
  | ok space =>
    cases space with
    | none =>
      rintro _ ⟨⟩
      exact ⟨[], [], rfl, rfl, Space.free_lt_of_allocate taken⟩
    | some space =>
      rw [(Space.eq_of_allocate taken).1]
      simp [Space.after]

end Heap

namespace Store

variable {α : Type} {s : Store} {sizes : List Nat}

/-- The space a store fills. -/
def space (s : Store) : Space := s.heap.space

theorem draws_onHeap {work : Action Heap Signal α}
    (draws : Action.Draws Heap.space work s.heap sizes) :
    Action.Draws space (onHeap work) s sizes := by
  revert draws
  obtain ⟨heap, roots⟩ := s
  simp only [Action.Draws, Leads, onHeap]
  cases work heap with
  | ok answer heap => exact id
  | error stop heap => cases stop <;> exact id

end Store

namespace Make

open ObjectMachine.Action

variable {s : Store}

theorem draws_placeLazy (kind : Kind) (size : Nat) (body : Unit → Body) :
    Draws Store.space (placeLazy kind size body) s [size] :=
  (Store.asks_ask _).draws_bind fun _ _ =>
    (Store.draws_onHeap (Heap.draws_allocate _ _ _)).bind_asks fun _ => asks_pure _

theorem draws_place (size : Nat) (body : Body) : Draws Store.space (place size body) s [size] :=
  draws_placeLazy _ _ _

theorem draws_string (content : String) :
    Draws Store.space (string content) s [(Body.string ⟨content⟩).size] := by
  refine (asks_lift _).draws_bind fun size lifted => ?_
  obtain ⟨words, isWords, aligned⟩ := ok_of_bind (lift_ok lifted)
  have isSize : size = (Body.string ⟨content⟩).size := by
    rw [Space.align_ok aligned, Size.elements_ok isWords, Nat.mul_comm content.length]
    rfl
  exact isSize ▸ draws_place _ _

theorem draws_tuple (elements : Array Value) :
    Draws Store.space (tuple elements) s [(Body.tuple ⟨elements⟩).size] := by
  refine (asks_lift _).draws_bind fun size lifted => ?_
  have isSize : size = (Body.tuple ⟨elements⟩).size := roundUp_elements (lift_ok lifted)
  refine isSize ▸ (draws_place _ _).bind_asks fun made => ?_
  split
  · exact asks_violate _
  · exact asks_pure _

theorem draws_task (height : Nat) :
    Draws Store.space (task height) s [(Body.stack (Stack.fresh height)).size, 24] := by
  refine Draws.cons_bind ?_ fun made s' _ =>
    (Store.asks_ask _).draws_bind fun _ _ => draws_place _ _
  refine (asks_lift _).draws_bind fun size lifted => ?_
  have isSize : size = (Body.stack (Stack.fresh height)).size := by
    rw [roundUp_elements (lift_ok lifted)]
    simp [Body.size, Stack.height, Stack.fresh]
  exact isSize ▸ draws_placeLazy _ _ _

end Make

namespace Machine

variable {α : Type} {m m' : Machine} {sizes : List Nat} {work : Op Signal α}

/-- The space a machine fills. -/
def space (m : Machine) : Space := m.store.heap.space

theorem draws_onStore {work : Alloc α} (draws : Action.Draws Store.space work m.store sizes) :
    Action.Draws space (onStore work) m sizes := leads_onStore.mpr draws

theorem slots_eq (indices : List Nat) : (slots indices : Op Signal (Array Value)) m =
      .ok (indices.map fun index => m.references.slot index).toArray m := by
  have listed : (indices.mapM slot : Op Signal (List Value)) m =
      .ok (indices.map fun index => m.references.slot index) m := by
    induction indices with
    | nil => rfl
    | cons index indices ih =>
      have rest : (do pure (m.references.slot index :: (← indices.mapM slot)) :
          Op Signal (List Value)) m = _ := Action.bind_eq_of_ok ih
      rw [List.mapM_cons]
      exact rest
  exact Action.bind_eq_of_ok listed

theorem draws_slots_tuple {m₁ : Machine} (indices : List Nat) :
    Action.Draws space
      (onStore (Make.tuple (indices.map fun index => m.references.slot index).toArray)) m₁
      [16 + 8 * indices.length] := by
  have tuple := Make.draws_tuple (s := m₁.store) (indices.map fun index => m.references.slot index).toArray
  simp only [Body.size, List.size_toArray, List.length_map] at tuple
  exact draws_onStore tuple

theorem outOfMemory_inj {signal : Signal} {size : Nat}
    (isShort : RunError.ofSignal signal = .outOfMemory size) : signal = .allocationFailed size := by
  cases signal with
  | allocationFailed n => cases isShort; rfl
  | _ => cases isShort

/-- A lack of memory is a second refusal, after a collection for what was refused first. -/
theorem retrying_outOfMemory {size : Nat}
    (short : retrying work m = .error (.raised (.outOfMemory size)) m') :
    ∃ first stopped c, work m = .error (.raised (.allocationFailed first)) stopped ∧
      (stopped.store.heap.collect migrateRoots first stopped.outside).outcome =
        .ok (c.outside, c.store.heap) ∧ work c = .error (.raised (.allocationFailed size)) m' := by
  unfold retrying at short
  split at short
  · rename_i first stopped attempt
    have again : Leads (do
        report .debug fun _ => s!"allocation of {first} bytes failed, collecting"
        collect first
        work.mapError RunError.ofSignal : Op RunError α) stopped (fun _ _ => True) fun cause m' =>
        ∀ size, cause = .outOfMemory size → ∃ c,
          (stopped.store.heap.collect migrateRoots first stopped.outside).outcome =
            .ok (c.outside, c.store.heap) ∧
          work c = .error (.raised (.allocationFailed size)) m' := by
      refine Action.leads_bind.mpr (Action.leads_bind.mpr ?_)
      refine (leads_collect first).mono ?_ fun _ _ absurd => absurd.elim
      rintro - c ⟨collected, -, -⟩
      refine Action.leads_mapError.mpr (leads_of (fun _ _ _ => trivial) ?_)
      intro cause m' stopped size isShort
      cases outOfMemory_inj isShort
      exact ⟨c, collected, stopped⟩
    obtain ⟨c, collected, refused⟩ := again.cause short size rfl
    exact ⟨first, stopped, c, attempt, collected, refused⟩
  · rename_i stop stopped differs attempt
    injection short with isShort _
    cases stop with
    | raised signal =>
      injection isShort with isShort
      exact absurd (congrArg Stop.raised (outOfMemory_inj isShort)) (differs size)
    | _ => cases isShort
  · cases short

/-- If the work is one block, then what is alive and that block are more than a space may hold. -/
theorem refused_block {first size block : Nat}
    {stopped c : Machine} (refused : work m = .error (.raised (.allocationFailed first)) stopped)
    (draws : Action.Draws space work m [block])
    (collected : (stopped.store.heap.collect migrateRoots first stopped.outside).outcome =
      .ok (c.outside, c.store.heap)) (again : work c = .error (.raised (.allocationFailed size)) m')
    (draws' : Action.Draws space work c [block]) :
    c.store.heap.settings.maxSize < c.space.used + block := by
  obtain ⟨inWords, settings, roomy⟩ := Heap.collectInto_room collected
  obtain ⟨_, _, isFirst, -, -⟩ := draws.cause refused first rfl
  obtain ⟨before, rest, isPlan, taken, tight⟩ := draws'.cause again size rfl
  obtain rfl : first = block := by
    have member : first ∈ [block] := isFirst ▸ by simp
    simpa using member
  obtain ⟨rfl, rfl⟩ : before = [] ∧ size = first := by
    cases before with
    | nil => exact ⟨rfl, (List.cons.inj isPlan).1.symm⟩
    | cons b before => simp at isPlan
  rw [taken, Space.after_nil] at tight
  rcases roomy with large | ⟨fits, -⟩
  · obtain ⟨capacity, used⟩ := inWords
    rw [settings]
    simp only [Space.free, space, Heap.capacity, roundUp, Size.word] at *
    omega
  · exact absurd (inWords.roundUp_le fits) (Nat.not_le.mpr tight)

/-- Work that lacks memory although it was done again after a collection does not fit into the space
that the collection left. That space is as large as it may become, or else it had room for the block
that was refused first and was not crowded; so if the work is one block, then what is alive and that
block are more than a space may hold. -/
theorem retrying_short (plan : Machine → List Nat) (draws : ∀ m, Action.Draws space work m (plan m))
    {size : Nat} (short : retrying work m = .error (.raised (.outOfMemory size)) m') :
    ∃ first stopped c, work m = .error (.raised (.allocationFailed first)) stopped ∧
      (stopped.store.heap.collect migrateRoots first stopped.outside).outcome =
      .ok (c.outside, c.store.heap) ∧ work c = .error (.raised (.allocationFailed size)) m' ∧
      c.space.capacity < c.space.used + ((plan c).map roundUp).sum ∧
      (c.store.heap.settings.maxSize ≤ c.space.capacity ∨ first ≤ c.space.free ∧
      c.space.used * 100 ≤ c.space.capacity * c.store.heap.settings.growthPercent) ∧
      ∀ block, plan m = [block] → plan c = [block] →
      c.store.heap.settings.maxSize < c.space.used + block := by
  obtain ⟨first, stopped, c, refused, collected, again⟩ := retrying_outOfMemory short
  obtain ⟨-, settings, roomy⟩ := Heap.collectInto_room collected
  obtain ⟨before, rest, isPlan, taken, tight⟩ := (draws c).cause again size rfl
  have full : c.space.capacity < c.space.used + (before.map roundUp).sum + roundUp size := by
    rw [taken] at tight
    simp only [Space.free, Space.after] at tight
    omega
  refine ⟨first, stopped, c, refused, collected, again, ?_, settings ▸ roomy, ?_⟩
  · rw [isPlan]
    simp only [List.map_append, List.map_cons, List.sum_append, List.sum_cons]
    omega
  · intro block isFirst isAgain
    exact refused_block refused (isFirst ▸ draws m) collected again (isAgain ▸ draws c)

/-- A space in which the first objects leave 240 bytes. -/
def tightSettings : Settings := { heap := { initialSize := 3000, maxSize := 65536, growthPercent := 100 } }

/-- Whether a task of 24 words is refused in the tight space, first and last for want of 24 bytes,
and the space is full in the end. -/
def tightFull : Bool :=
  match create tightSettings {} with
  | .ok m =>
    match onStore (Make.task 24) m, retrying (onStore (Make.task 24)) m with
    | .error (.raised (.allocationFailed 24)) _, .error (.raised (.outOfMemory 24)) m' =>
      m'.space == { capacity := 3000, used := 3000 }
    | _, _ => false
  | .error _ => false

theorem tight_of_full (full : tightFull = true) : ∃ m stopped m', create tightSettings {} = .ok m ∧
    onStore (Make.task 24) m = .error (.raised (.allocationFailed 24)) stopped ∧
    retrying (onStore (Make.task 24)) m = .error (.raised (.outOfMemory 24)) m' ∧
    m'.space = { capacity := 3000, used := 3000 } := by
  unfold tightFull at full
  split at full
  · rename_i m isMachine
    split at full
    · rename_i stopped m' isStopped isShort
      exact ⟨m, stopped, m', isMachine, isStopped, isShort, by simpa using full⟩
    · cases full
  · cases full

theorem retrying_short_tight : ∃ m c m', create tightSettings {} = .ok m ∧
    retrying (onStore (Make.task 24)) m = .error (.raised (.outOfMemory 24)) m' ∧
    onStore (Make.task 24) c = .error (.raised (.allocationFailed 24)) m' ∧
    c.space.capacity < c.space.used + ([240, 24].map roundUp).sum := by
  obtain ⟨m, -, m', isMachine, -, short, -⟩ := tight_of_full (by decide +kernel)
  obtain ⟨_, _, c, -, -, again, full, -⟩ :=
    retrying_short (fun _ => [240, 24]) (fun _ => draws_onStore (Make.draws_task 24)) short
  exact ⟨m, c, m', isMachine, short, again, full⟩

/-- A task needs a stack and itself. In the tight space the stack just fits, so the collection is
for 24 bytes, for which there is room without growing; and then the stack takes that room. Memory is
said to be lacking although what is alive, the stack and the task would fit into a space of a
twentieth of the size that it may have. -/
theorem task_starved :
    ∃ m stopped c m' : Machine, create tightSettings {} = .ok m ∧
      onStore (Make.task 24) m = .error (.raised (.allocationFailed 24)) stopped ∧
      (stopped.store.heap.collect migrateRoots 24 stopped.outside).outcome = .ok (c.outside,
      c.store.heap) ∧ retrying (onStore (Make.task 24)) m = .error (.raised (.outOfMemory 24)) m' ∧
      20 * (c.space.used + (240 + 24)) ≤ tightSettings.heap.maxSize := by
  obtain ⟨m, stopped, m', isMachine, refused, short, isSpace⟩ := tight_of_full (by decide +kernel)
  obtain ⟨first, stopped', c, refused', collected, again⟩ := retrying_outOfMemory short
  cases refused.symm.trans refused'
  have draws : Action.Draws space (onStore (Make.task 24)) c [240, 24] := draws_onStore (Make.draws_task 24)
  obtain ⟨before, rest, isPlan, taken, -⟩ := draws.cause again 24 rfl
  obtain rfl : before = [240] := by
    match before with
    | [] => cases isPlan
    | [b] => cases isPlan; rfl
    | b :: b' :: before => simp at isPlan
  refine ⟨m, stopped, c, m', isMachine, refused, collected, short, ?_⟩
  have used : c.space.used + 240 = 3000 := by
    rw [isSpace] at taken
    exact (congrArg Space.used taken).symm
  have isMax : tightSettings.heap.maxSize = 65536 := rfl
  omega

end Machine

end ObjectMachine
