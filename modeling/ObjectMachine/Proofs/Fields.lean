/-
# ObjectMachine.Proofs.Fields -- what an object holds, as a list

A collection reaches the values of a body through `Body.traverse`, in a monad. This module says the
same without one: `Body.fields` lists the values in the order they are visited, `Body.refill` puts
other values in their place, and

* `traverse_eq` -- traversing a body is mapping over its fields and putting the results back, as
  long as no word of a stack is visited twice (`Stack.Visitable`).

`Value.move` sends references through a map of places and leaves integers and signals alone;
`Body.mapFields` does so for a whole body, and keeps its kind and its size.
-/
import Mathlib
import ObjectMachine.Heap.Collection

namespace ObjectMachine

namespace Value

/-- A value whose object has gone where `place` says. Integers and signals stay. -/
def move (place : Ref → Ref) : Value → Value
  | object ref => object (place ref)
  | v => v

@[simp] theorem move_int (place : Ref → Ref) (n : Int) : (int n).move place = int n := rfl

@[simp] theorem move_signal (place : Ref → Ref) (s : Signal) : (signal s).move place = signal s := rfl

@[simp] theorem move_object (place : Ref → Ref) (r : Ref) : (object r).move place = object (place r) := rfl

theorem move_id (v : Value) : v.move id = v := by
  cases v <;> rfl

theorem move_congr {f g : Ref → Ref} {v : Value} (same : ∀ r, v = .object r → f r = g r) :
    v.move f = v.move g := by
  cases v with
  | object r => simp [same r rfl]
  | _ => rfl

end Value

namespace Stack

/-- The values of the words at the given offsets. -/
def valuesAt (words : Array Slot) (offsets : List Nat) : List Value :=
  offsets.filterMap fun offset => words[offset]?.bind Slot.asValue?

/-- The words at the given offsets replaced by values, as far as there are some. -/
def overwrite : Array Slot → List Nat → List Value → Array Slot
  | words, offset :: offsets, v :: values =>
    overwrite (words.setIfInBounds offset (.value v)) offsets values
  | words, _, _ => words

/-- The values that the frames of a relocatable stack hold, in the order they are visited. -/
def visited (s : Stack) : List Value :=
  match s.liveSlots with
  | .ok slots => valuesAt s.words slots
  | .error _ => []

/-- The stack with other values in the words that are visited. -/
def refill (values : List Value) (s : Stack) : Stack :=
  match s.liveSlots with
  | .ok slots => { s with words := overwrite s.words slots values }
  | .error _ => s

/-- The words to visit are there, hold values, and none is visited twice. -/
def Visitable (s : Stack) : Prop := ∃ slots, s.liveSlots = .ok slots ∧ slots.Nodup ∧
    ∀ offset ∈ slots, ∃ v, s.words[offset]? = some (.value v)

theorem valuesAt_setIfInBounds {words : Array Slot}
    {offsets : List Nat} {offset : Nat} {slot : Slot} (apart : offset ∉ offsets) :
    valuesAt (words.setIfInBounds offset slot) offsets = valuesAt words offsets := by
  apply List.filterMap_congr
  intro other member
  rw [Array.getElem?_setIfInBounds_ne (by rintro rfl; exact apart member)]

@[simp] theorem size_overwrite (words : Array Slot) (offsets : List Nat) (values : List Value) :
    (overwrite words offsets values).size = words.size := by
  fun_induction overwrite words offsets values with
  | case1 words offset offsets v values ih => simpa using ih
  | case2 => rfl

@[simp] theorem height_refill (values : List Value) (s : Stack) :
    (s.refill values).height = s.height := by
  unfold refill
  split <;> simp [height]

section Traversal

variable {m : Type → Type} [Monad m] [LawfulMonad m]

/-- Replacing words one by one is mapping over their values first and writing afterwards. What a
step does is only known for a word that holds a value and has not been replaced. -/
theorem foldlM_replace {α : Type} {f : Value → m Value} {g : Array Slot → m α}
    {replace : Array Slot × Array Bool → Nat → m (Array Slot × Array Bool)}
    (step : ∀ {words replaced offset v}, words[offset]? = some (.value v) →
      replaced.getD offset false = false →
      replace (words, replaced) offset = (fun moved => (words.setIfInBounds offset (.value moved),
          replaced.setIfInBounds offset true)) <$> f v) {offsets : List Nat} {words : Array Slot}
    {replaced : Array Bool} (distinct : offsets.Nodup)
    (values : ∀ offset ∈ offsets, ∃ v, words[offset]? = some (.value v))
    (fresh : ∀ offset ∈ offsets, replaced.getD offset false = false) :
    (offsets.foldlM replace (words, replaced) >>= fun state => g state.1) =
      (valuesAt words offsets).mapM f >>= fun values => g (overwrite words offsets values) := by
  induction offsets generalizing words replaced with
  | nil => simp [valuesAt, overwrite]
  | cons offset offsets ih =>
    obtain ⟨apart, distinct⟩ := List.nodup_cons.mp distinct
    obtain ⟨v, found⟩ := values offset List.mem_cons_self
    have visits : valuesAt words (offset :: offsets) = v :: valuesAt words offsets := by
      simp [valuesAt, found, Slot.asValue?]
    rw [List.foldlM_cons, step found (fresh offset List.mem_cons_self), visits]
    simp only [bind_map_left, bind_assoc, List.mapM_cons, pure_bind, overwrite]
    congr 1
    funext moved
    rw [ih distinct, valuesAt_setIfInBounds apart]
    · intro other member
      rw [Array.getElem?_setIfInBounds_ne (by rintro rfl; exact apart member)]
      exact values other (List.mem_cons_of_mem _ member)
    · intro other member
      have differs : offset ≠ other := by rintro rfl; exact apart member
      simpa [Array.getElem?_setIfInBounds_ne differs] using fresh other (List.mem_cons_of_mem _ member)

theorem traverse_eq [MonadLiftT (Except Violation) m] [LawfulMonadLiftT (Except Violation) m]
    (f : Value → m Value) {s : Stack} (visitable : s.Visitable) :
    s.traverse f = (fun values => s.refill values) <$> s.visited.mapM f := by
  obtain ⟨slots, isLive, distinct, values⟩ := visitable
  have lifted : (liftM s.liveSlots : m (List Nat)) = pure slots := by
    rw [isLive]
    exact LawfulMonadLiftT.monadLift_pure slots
  have fresh : ∀ offset ∈ slots, (Array.replicate s.height false).getD offset false = false := by
    intro offset _
    by_cases inside : offset < s.height <;> simp [inside]
  simp only [traverse, lifted, pure_bind]
  refine (foldlM_replace (f := f) (g := fun words => pure { s with words }) ?_ distinct values fresh).trans ?_
  · intro words replaced offset v found unreplaced
    simp [found, unreplaced]
  · simp [visited, refill, isLive]

end Traversal

end Stack

namespace Body

/-- The values a body holds, in the order a collection visits them. -/
def fields : Body → List Value
  | layout l => [l.protocol, l.methods]
  | protocol p => [p.name, p.methods, p.parent]
  | tuple t => t.elements.toList
  | array s => s.elements.toList
  | hashMap t => [t.entries]
  | forwarder f => [f.descriptor]
  | forwarderDescriptor d => [d.target]
  | cell c => [c.content]
  | inst i => i.fields.toList
  | lambda l => [l.code, l.constants, l.outers, l.context, l.source]
  | method m => [m.selector, m.signature, m.lambda]
  | selector s => [s.name, s.keywords, s.accessor]
  | signature s => [s.parameters]
  | stack s => s.visited
  | task t => [t.stack, t.caller]
  | string _ | code _ | context _ | singleton _ => []

/-- The body with other values in its fields, in the order of `fields`. -/
def refill (values : List Value) : Body → Body
  | layout l =>
    .layout { l with protocol := values.getD 0 l.protocol, methods := values.getD 1 l.methods }
  | protocol p =>
    .protocol
      { name := values.getD 0 p.name, methods := values.getD 1 p.methods
        parent := values.getD 2 p.parent }
  | tuple _ => .tuple ⟨values.toArray⟩
  | array _ => .array ⟨values.toArray⟩
  | hashMap t => .hashMap { t with entries := values.getD 0 t.entries }
  | forwarder f => .forwarder ⟨values.getD 0 f.descriptor⟩
  | forwarderDescriptor d => .forwarderDescriptor { d with target := values.getD 0 d.target }
  | cell c => .cell ⟨values.getD 0 c.content⟩
  | inst _ => .inst ⟨values.toArray⟩
  | lambda l =>
    .lambda
      { l with code := values.getD 0 l.code, constants := values.getD 1 l.constants
               outers := values.getD 2 l.outers, context := values.getD 3 l.context
               source := values.getD 4 l.source }
  | method m =>
    .method
      { selector := values.getD 0 m.selector, signature := values.getD 1 m.signature
        lambda := values.getD 2 m.lambda }
  | selector s =>
    .selector
      { s with name := values.getD 0 s.name, keywords := values.getD 1 s.keywords
               accessor := values.getD 2 s.accessor }
  | signature s => .signature ⟨values.getD 0 s.parameters⟩
  | task t => .task { stack := values.getD 0 t.stack, caller := values.getD 1 t.caller }
  | string text => .string text
  | code c => .code c
  | context c => .context c
  | singleton s => .singleton s
  | stack s => .stack (s.refill values)

/-- The body with every field sent through `f`. -/
def mapFields (f : Value → Value) (b : Body) : Body := b.refill (b.fields.map f)

/-- No word of the body is visited twice, if it is a stack. -/
def Visitable (b : Body) : Prop := ∀ s, b = .stack s → s.Visitable

/-- Traversing a body visits its fields in order and puts back what they became. -/
theorem traverse_eq {m : Type → Type} [Monad m]
    [LawfulMonad m] [MonadLiftT (Except Violation) m] [LawfulMonadLiftT (Except Violation) m]
    (f : Value → m Value) {b : Body} (visitable : b.Visitable) :
    b.traverse f = (fun values => b.refill values) <$> b.fields.mapM f := by
  cases b with
  | stack s => simp [traverse, fields, refill, Stack.traverse_eq f (visitable s rfl)]
  | tuple t => simp [traverse, fields, refill, Array.mapM_eq_mapM_toList]
  | array s => simp [traverse, fields, refill, Array.mapM_eq_mapM_toList]
  | inst i => simp [traverse, fields, refill, Array.mapM_eq_mapM_toList]
  | _ => simp [traverse, fields, refill]

@[simp] theorem kind_mapFields (f : Value → Value) (b : Body) : (b.mapFields f).kind = b.kind := by
  cases b <;> rfl

@[simp] theorem size_mapFields (f : Value → Value) (b : Body) : (b.mapFields f).size = b.size := by
  cases b <;> simp [mapFields, refill, fields, size]

theorem mapFields_congr {f g : Value → Value} {b : Body} (same : ∀ v ∈ b.fields, f v = g v) :
    b.mapFields f = b.mapFields g := by
  rw [mapFields, mapFields, List.map_congr_left same]

theorem fields_mapFields (f : Value → Value) {b : Body} (noStack : b.kind ≠ .stack) :
    (b.mapFields f).fields = b.fields.map f := by
  cases b with
  | stack s => exact absurd rfl noStack
  | _ => simp [mapFields, refill, fields]

end Body

end ObjectMachine
