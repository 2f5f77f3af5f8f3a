/-
# ObjectMachine.Proofs.Allocation -- work that makes objects

Allocating work leaves a sound store sound, whether it ends with an answer or runs out of room half
way: `Store.Keeps busy work s post` says so, together with what is known of the answer. The store
only grows meanwhile (`Store.Grown`), so whoever is interrupted finds everything as it was.

One rule for each way to put such work together, then one lemma for each constructor.
-/
import Mathlib
import ObjectMachine.Proofs.Soundness

namespace ObjectMachine

open ObjectMachine.Action (Ends ends_bind)
open Size (roundUp)

/-- Whether the signal asks for a higher stack. -/
def Signal.isOverflow : Signal → Bool
  | stackOverflow _ => true
  | _ => false

namespace Store

/-- A sound heap with a layout for each kind. -/
structure Sound (busy : Ref → Prop) (s : Store) : Prop where
  heap : s.heap.Sound busy
  layouts : ∀ kind, ∃ l, s.heap.view? Layout (.object (s.roots.layout kind)) = some l ∧ l.kind = kind

/-- The store has only been added to, and is sound. -/
structure Grown (busy : Ref → Prop) (s s' : Store) : Prop where
  evolves : s.heap.Evolves (fun _ => False) s'.heap
  roots : s'.roots = s.roots
  sound : s'.Sound busy

variable {busy : Ref → Prop} {s s' s'' : Store}

theorem Sound.grown (sound : s.Sound busy) {heap : Heap}
    (evolves : s.heap.Evolves (fun _ => False) heap) (heapSound : heap.Sound busy) :
    s.Grown busy { s with heap } where
  evolves := evolves
  roots := rfl
  sound :=
    { heap := heapSound
      layouts := by
        intro kind
        obtain ⟨l, found, isKind⟩ := sound.layouts kind
        obtain ⟨l', found', kind', -⟩ := evolves.view_layout found
        exact ⟨l', found', kind'.trans isKind⟩ }

theorem Grown.refl (sound : s.Sound busy) : s.Grown busy s := ⟨.refl _ _, rfl, sound⟩

theorem Grown.trans (first : s.Grown busy s') (second : s'.Grown busy s'') : s.Grown busy s'' :=
  ⟨first.evolves.trans second.evolves, second.roots.trans first.roots, second.sound⟩

/-- Work that leaves a sound store sound, and answers as `post` says. -/
def Keeps {α : Type} (busy : Ref → Prop) (work : Alloc α) (s : Store) (post : α → Store → Prop) :
    Prop :=
  s.Sound busy → Ends work s (fun answer s' => s.Grown busy s' ∧ post answer s')
    fun signal s' => s.Grown busy s' ∧ signal.isOverflow = false

section Rules

variable {α β : Type} {work first : Alloc α} {next : α → Alloc β} {post post' : α → Store → Prop}
  {after : β → Store → Prop}

theorem Keeps.mono (keeps : Keeps busy work s post)
    (weaker : ∀ answer s', s.Grown busy s' → post answer s' → post' answer s') :
    Keeps busy work s post' := fun sound =>
  (keeps sound).imp fun answer s' ⟨grown, holds⟩ => ⟨grown, weaker answer s' grown holds⟩

theorem Keeps.bind (keeps : Keeps busy first s post)
    (rest : ∀ answer s', s.Grown busy s' → post answer s' → Keeps busy (next answer) s' after) :
    Keeps busy (first >>= next) s after := by
  intro sound
  rw [ends_bind]
  refine (keeps sound).imp fun answer s' ⟨grown, holds⟩ => ?_
  exact (rest answer s' grown holds grown.sound).mono
    (fun _ _ ⟨more, holds⟩ => ⟨grown.trans more, holds⟩) fun _ _ ⟨more, fine⟩ => ⟨grown.trans more, fine⟩

theorem keeps_pure {answer : α} (holds : post answer s) : Keeps busy (pure answer) s post :=
  fun sound => ⟨.refl sound, holds⟩

theorem keeps_fail {signal : Signal} (fine : signal.isOverflow = false) :
    Keeps busy (Action.fail signal) s post := fun sound => ⟨.refl sound, fine⟩

theorem keeps_violate {violation : Violation} (fine : violation.isMistimed = false) :
    Keeps busy (Action.violate violation) s post := fun _ => fine

theorem Keeps.ask_bind {f : Store → α} (rest : Keeps busy (next (f s)) s after) :
    Keeps busy (ask f >>= next) s after := by
  intro sound
  rw [ends_bind, ends_ask]
  exact rest sound

theorem Keeps.check_bind {f : Store → Except Violation α} (calm : Calm (f s))
    (rest : ∀ answer, f s = .ok answer → Keeps busy (next answer) s after) :
    Keeps busy (check f >>= next) s after := by
  intro sound
  exact ends_bind.mpr (ends_check calm fun answer found => rest answer found sound)

theorem Keeps.lift_bind {result : Except Violation α} (calm : Calm result)
    (rest : ∀ answer, result = .ok answer → Keeps busy (next answer) s after) :
    Keeps busy ((liftM result : EStateM (Stop Signal) Store α) >>= next) s after := by
  intro sound
  exact Action.ends_lift_bind calm fun answer found => rest answer found sound

theorem Keeps.ite {p : Prop} [Decidable p] {yes no : Alloc α} (onYes : p → Keeps busy yes s post)
    (onNo : ¬ p → Keeps busy no s post) : Keeps busy (if p then yes else no) s post := by
  by_cases holds : p
  · rw [if_pos holds]
    exact onYes holds
  · rw [if_neg holds]
    exact onNo holds

end Rules

/-- The value leads to an object with this body, and did not lead to any before. -/
def Made (s : Store) (v : Value) (body : Body) (s' : Store) : Prop :=
  ∃ r, v = .object r ∧ s.heap.object? r = none ∧ s'.heap.bodyOf? v = some body

theorem Made.bodyOf? {v : Value} {body : Body} (made : s.Made v body s') :
    s'.heap.bodyOf? v = some body := by
  obtain ⟨r, -, -, found⟩ := made
  exact found

end Store

namespace Heap

variable {busy : Ref → Prop} {h : Heap} {size : Nat}

theorem allocate_taken {space : Space} (taken : h.space.allocate size = .ok (some space)) :
    roundUp size ≤ h.free ∧ space = { h.space with used := h.space.used + roundUp size } := by
  obtain ⟨used, capacity, room⟩ := Space.allocate_used taken
  cases space
  simp_all [Heap.free]

/-- An allocation fails without a trace, or answers a new object. -/
theorem allocate_cases (size : Nat) (object : Unit → Object) (h : Heap) :
    (∃ stop, allocate size object h = .error stop h) ∨ roundUp size ≤ h.free ∧
      allocate size object h = .ok ⟨h.objects.size⟩ (h.extended (object ()) size) := by
  unfold allocate reserve
  cases taken : h.space.allocate size with
  | error violation => exact .inl ⟨_, rfl⟩
  | ok space =>
    cases space with
    | none => exact .inl ⟨_, rfl⟩
    | some space =>
      obtain ⟨room, rfl⟩ := allocate_taken taken
      exact .inr ⟨room, rfl⟩

theorem ends_allocate (object : Unit → Object) (sound : h.Sound busy)
    (fits : roundUp size = roundUp (object ()).body.size)
    (new : h.ObjectSound busy ⟨h.objects.size⟩ (object ())) : Ends (allocate size object) h
      (fun r h' => h.Evolves (fun _ => False) h' ∧ h'.Sound busy ∧ h.object? r = none ∧
        h'.object? r = some (object ())) fun signal h' => h' = h ∧ signal.isOverflow = false := by
  unfold Ends allocate reserve
  cases taken : h.space.allocate size with
  | error violation =>
    have calm : Calm (h.space.allocate size) := by simp [Space.allocate]
    exact calm violation taken
  | ok space =>
    cases space with
    | none => exact ⟨rfl, rfl⟩
    | some space =>
      obtain ⟨room, rfl⟩ := allocate_taken taken
      have evolves := extended_evolves h (object ()) size
      have absent : h.object? ⟨h.objects.size⟩ = none := by simp [object?]
      have found : (h.extended (object ()) size).object? ⟨h.objects.size⟩ = some (object ()) := by
        simp [object?_extended]
      refine ⟨evolves, sound.extended fits room ?_, absent, found⟩
      obtain ⟨⟨layout, header, described⟩, lambda, stack⟩ := new
      exact ⟨⟨layout, header, described.stay evolves.object (.refl _)⟩,
        fun l isLambda => (lambda l isLambda).evolve evolves ⟨rfl, rfl, rfl⟩,
        fun st isStack idle => evolves.atRest (stack st isStack idle)⟩

end Heap

namespace Size

theorem mul_ok {a b c : Nat} (product : mul a b = .ok c) : c = a * b := by
  unfold mul at product
  split at product
  · cases product; rfl
  · cases product

theorem elements_ok {words width count n : Nat} (sum : elements words width count = .ok n) :
    n = words * word + count * width := by
  obtain ⟨tail, isTail, sum⟩ := ok_of_bind sum
  rw [add_ok sum, mul_ok isTail]

theorem roundUp_roundUp (n : Nat) : roundUp (roundUp n) = roundUp n := roundUp_eq_of_mod (roundUp_mod n)

end Size

namespace Make

open Store (Keeps Made onHeap)

variable {busy : Ref → Prop} {s : Store}

theorem onHeap_allocate_cases (size : Nat) (object : Unit → Object) (s : Store) :
    (∃ stop, onHeap (Heap.allocate size object) s = .error stop s) ∨
      roundUp size ≤ s.heap.free ∧ onHeap (Heap.allocate size object) s =
        .ok ⟨s.heap.objects.size⟩ { s with heap := s.heap.extended (object ()) size } := by
  obtain ⟨stop, same⟩ | ⟨room, same⟩ := Heap.allocate_cases size object s.heap
  · exact .inl ⟨stop, by simp only [onHeap, same]⟩
  · exact .inr ⟨room, by simp only [onHeap, same]⟩

section Allocating

variable {size : Nat} {object : Unit → Object} {s' : Store}

theorem onHeap_allocate_ok {r : Ref} (done : onHeap (Heap.allocate size object) s = .ok r s') :
    roundUp size ≤ s.heap.free ∧ r = ⟨s.heap.objects.size⟩ ∧
      s' = { s with heap := s.heap.extended (object ()) size } := by
  obtain ⟨_, same⟩ | ⟨room, same⟩ := onHeap_allocate_cases size object s
  · cases done.symm.trans same
  · cases done.symm.trans same
    exact ⟨room, rfl, rfl⟩

theorem placeLazy_ok {kind : Kind} {body : Unit → Body} {v : Value}
    (done : placeLazy kind size body s = .ok v s') : v = .object ⟨s.heap.objects.size⟩ ∧
      s' = { s with heap := s.heap.extended ⟨.layout (s.roots.layout kind), body ()⟩ size } := by
  obtain ⟨_, _, ⟨⟩, placed⟩ := Action.bind_ok done
  obtain ⟨_, _, allocated, ⟨⟩⟩ := Action.bind_ok placed
  obtain ⟨-, rfl, rfl⟩ := onHeap_allocate_ok allocated
  exact ⟨rfl, rfl⟩

theorem onHeap_allocate_error {stop : Stop Signal}
    (stopped : onHeap (Heap.allocate size object) s = .error stop s') : s' = s := by
  obtain ⟨_, same⟩ | ⟨-, same⟩ := onHeap_allocate_cases size object s <;> cases stopped.symm.trans same
  rfl

end Allocating

theorem keeps_placeAs {layout : Ref} {size : Nat} (body : Unit → Body)
    (fits : roundUp size = roundUp (body ()).size) (described : s.heap.Describes layout (body ()))
    (lambda : ∀ l, body () = .lambda l → s.heap.LambdaSound l)
    (stack : ∀ st, body () = .stack st → st.status = .empty) :
    Keeps busy (placeAs layout size body) s fun v s' => s.Made v (body ()) s' := by
  intro sound
  unfold placeAs
  rw [ends_bind, Store.ends_onHeap]
  refine (Heap.ends_allocate _ sound.heap fits ⟨⟨layout, rfl, described⟩, lambda,
    fun st isStack _ => .inl (stack st isStack)⟩).mono ?_ ?_
  · intro r heap ⟨evolves, heapSound, absent, found⟩
    exact ⟨sound.grown evolves heapSound, r, rfl, absent, Heap.bodyOf?_eq_some.mpr ⟨r, _, rfl, found, rfl⟩⟩
  · rintro signal heap ⟨rfl, fine⟩
    exact ⟨.refl sound, fine⟩

theorem keeps_placeLazy {kind : Kind} {size : Nat} (body : Unit → Body)
    (isKind : (body ()).kind = kind) (noInstance : kind ≠ .inst)
    (fits : roundUp size = roundUp (body ()).size)
    (lambda : ∀ l, body () = .lambda l → s.heap.LambdaSound l)
    (stack : ∀ st, body () = .stack st → st.status = .empty) :
    Keeps busy (placeLazy kind size body) s fun v s' => s.Made v (body ()) s' := by
  intro sound
  obtain ⟨l, found, kind_eq⟩ := sound.layouts kind
  refine Keeps.ask_bind (keeps_placeAs body fits ⟨l, found, kind_eq.trans isKind.symm, ?_⟩ lambda stack) sound
  intro i isInstance
  rw [isInstance] at isKind
  exact absurd isKind.symm noInstance

/-- A body that is no instance, no lambda and no stack can be placed wherever a layout of its kind
is. -/
theorem keeps_place {size : Nat} (body : Body) (fits : roundUp size = roundUp body.size)
    (plain : body.kind ≠ .inst ∧ body.kind ≠ .lambda ∧ body.kind ≠ .stack) :
    Keeps busy (place size body) s fun v s' => s.Made v body s' :=
  keeps_placeLazy (fun _ => body) rfl plain.1 fits (by rintro l rfl; exact absurd rfl plain.2.1)
    (by rintro st rfl; exact absurd rfl plain.2.2)

/-- Whether objects of the kind can be placed wherever there is a layout of the kind. -/
def isPlain : Kind → Bool
  | .inst | .lambda | .stack | .task => false
  | _ => true

/-- Work that places plain objects, each in as many bytes as it takes, and reads nothing but
roots. -/
inductive Places : {α : Type} → Alloc α → Prop
  | done {α : Type} (answer : α) : Places (pure answer)
  | refused {α : Type} (storage : Storage) : Places (Action.violate (.signalStored storage) : Alloc α)
  | root {α β : Type} {next : α → Alloc β} (f : Roots → α) (rest : ∀ answer, Places (next answer)) :
      Places (Store.ask (fun s => f s.roots) >>= next)
  | lift {α β : Type} {next : α → Alloc β} {result : Except Violation α} (calm : Calm result)
      (rest : ∀ answer, result = .ok answer → Places (next answer)) :
      Places ((liftM result : EStateM (Stop Signal) Store α) >>= next)
  | place {size : Nat} {kind : Kind} {body : Unit → Body} (isKind : (body ()).kind = kind)
      (plain : isPlain kind = true) (fits : roundUp size = roundUp (body ()).size) :
      Places (placeLazy kind size body)
  | bind {α β : Type} {first : Alloc α} {next : α → Alloc β} (places : Places first)
      (rest : ∀ answer, Places (next answer)) : Places (first >>= next)

theorem Places.keeps {α : Type} {work : Alloc α} (places : Places work) :
    Keeps busy work s fun _ _ => True := by
  induction places generalizing s with
  | done answer => exact Store.keeps_pure trivial
  | refused storage => exact Store.keeps_violate rfl
  | root f _ ih => exact .ask_bind (ih _)
  | lift calm _ ih => exact .lift_bind calm fun answer isAnswer => ih answer isAnswer
  | place isKind plain fits =>
    subst isKind
    refine (keeps_placeLazy _ rfl ?_ fits ?_ ?_).mono fun _ _ _ _ => trivial
    · intro isInstance
      simp [isInstance, isPlain] at plain
    · intro l isLambda
      simp [isLambda, Body.kind, isPlain] at plain
    · intro st isStack
      simp [isStack, Body.kind, isPlain] at plain
  | bind _ _ ih ih' => exact .bind ih fun answer _ _ _ => ih' answer

/-- Bytes of `length` elements of `width` bytes behind a header of two words, aligned. -/
theorem roundUp_aligned {width length size : Nat}
    (isSize : (Size.elements 2 width length >>= Size.align) = .ok size) :
    roundUp size = roundUp (roundUp (16 + width * length)) := by
  obtain ⟨words, isWords, isSize⟩ := ok_of_bind isSize
  rw [Space.align_ok isSize, Size.elements_ok isWords, Nat.mul_comm length]
  rfl

theorem keeps_string (content : String) :
    Keeps busy (string content) s fun v s' => s.Made v (.string ⟨content⟩) s' :=
  .lift_bind (by simp) fun _ isSize => keeps_place (.string ⟨content⟩) (roundUp_aligned isSize) (by simp [Body.kind])

/-- Bytes of a sequence of words behind a header of `words` words. -/
theorem roundUp_elements {words count size : Nat}
    (isSize : Size.elements words 8 count = .ok size) : size = 8 * words + 8 * count := by
  rw [Size.elements_ok isSize, Nat.mul_comm count, Nat.mul_comm words]
  rfl

theorem keeps_tuple (elements : Array Value) :
    Keeps busy (tuple elements) s fun v s' => s.Made v (.tuple ⟨elements⟩) s' := by
  refine .lift_bind (by simp) fun size isSize => .bind (keeps_place (.tuple ⟨elements⟩)
    (by simp [Body.size, roundUp_elements isSize]) (by simp [Body.kind])) fun v s' _ made => ?_
  exact .ite (fun _ => Store.keeps_violate rfl) fun _ => Store.keeps_pure made

theorem keeps_sequence (length : Nat) : Keeps busy (sequence length) s fun v s' =>
    s.Made v (.array ⟨Array.replicate length s.roots.null⟩) s' := by
  refine .lift_bind (by simp) fun size isSize => .ask_bind ?_
  refine keeps_placeLazy _ rfl (by simp) ?_ (by simp) (by simp)
  simp [Body.size, roundUp_elements isSize]

theorem keeps_lambda {l : Lambda} (sound : s.heap.LambdaSound l) :
    Keeps busy (lambda l) s fun v s' => s.Made v (.lambda l) s' := by
  refine .bind (keeps_placeLazy (fun _ => .lambda l) rfl (by simp [Body.kind]) rfl
    (by rintro _ ⟨⟩; exact sound) (by simp)) fun v s' _ made => ?_
  exact .lift_bind (by simp) fun _ _ => .lift_bind (by simp) fun _ _ => Store.keeps_pure made

theorem keeps_code (units : Array UInt16) : Keeps busy (code units) s fun v s' =>
    s.Made v (.code ⟨units⟩) s' ∧ units.size < Size.limit := by
  refine .lift_bind (by simp) fun size isSize => ?_
  refine (keeps_place (.code ⟨units⟩) (roundUp_aligned isSize) (by simp [Body.kind])).mono fun v s' _ made => ⟨made, ?_⟩
  obtain ⟨words, isWords, -⟩ := ok_of_bind isSize
  obtain ⟨tail, isTail, -⟩ := ok_of_bind isWords
  unfold Size.mul at isTail
  split at isTail
  · omega
  · cases isTail

theorem keeps_inst {layout : Value} : Keeps busy (inst layout) s fun v s' =>
    ∃ l, s.heap.view? Layout layout = some l ∧
      s.Made v (.inst ⟨Array.replicate l.fieldCount s.roots.null⟩) s' := by
  refine .check_bind (by simp) fun l isLayout => ?_
  have found := Heap.cast_eq_ok.mp isLayout
  refine .ite (fun _ => Store.keeps_violate rfl) fun isInstance => ?_
  refine .lift_bind (by simp) fun size isSize => .ask_bind ?_
  cases layout with
  | object ref =>
    have isInstance := not_not.mp isInstance
    refine (keeps_placeAs (fun _ => .inst ⟨Array.replicate l.fieldCount s.roots.null⟩) ?_
      ⟨l, found, isInstance, ?_⟩ (by simp) (by simp)).mono fun v s' _ made => ⟨l, found, made⟩
    · simp [Body.size, roundUp_elements isSize]
    · rintro i ⟨⟩
      simp
  | _ => exact Store.keeps_violate rfl

theorem keeps_stack (height : Nat) : Keeps busy (stack height) s fun v s' =>
    s.Made v (.stack (Stack.fresh height)) s' := by
  refine .lift_bind (by simp) fun size isSize => ?_
  refine keeps_placeLazy _ rfl (by simp) ?_ (by simp) (by rintro _ ⟨⟩; rfl)
  simp [Body.size, Stack.height, Stack.fresh, roundUp_elements isSize]

theorem keeps_task (height : Nat) :
    Keeps busy (task height) s fun v s' => ∃ r caller, s.heap.object? r = none ∧
      s'.heap.bodyOf? (.object r) = some (.stack (Stack.fresh height)) ∧
      s.Made v (.task { stack := .object r, caller }) s' := by
  refine .bind (keeps_stack height) ?_
  rintro _ s' grown ⟨r, rfl, absent, isStack⟩
  refine .ask_bind ((keeps_place _ rfl (by simp [Body.kind])).mono ?_)
  rintro v s'' grown' ⟨q, rfl, absent', isTask⟩
  refine ⟨r, _, absent, grown'.evolves.stack isStack id, q, rfl, ?_, isTask⟩
  cases found : s.heap.object? q with
  | none => rfl
  | some o =>
    obtain ⟨o', found', -⟩ := grown.evolves.object q o found
    rw [absent'] at found'
    cases found'

theorem keeps_clone (v : Value) : Keeps busy (clone v) s fun v' s' =>
    ∃ body, s.heap.bodyOf? v = some body ∧ s.Made v' body s' := by
  refine .ask_bind ?_
  cases isObject : s.heap.objectOf? v with
  | none => exact Store.keeps_violate rfl
  | some object =>
    obtain ⟨r, rfl, found⟩ : ∃ r, v = .object r ∧ s.heap.object? r = some object := by
      cases v <;> simp_all [Heap.objectOf?, Value.asRef?]
    have isBody : s.heap.bodyOf? (.object r) = some object.body :=
      Heap.bodyOf?_eq_some.mpr ⟨r, object, rfl, found, rfl⟩
    cases body : object.body with
    | stack st =>
      obtain ⟨header, _⟩ := object
      subst body
      exact Store.keeps_violate rfl
    | _ =>
      intro sound
      have fits : roundUp object.body.size = roundUp object.body.size := rfl
      have old := sound.heap.objects r object found
      have copied := Heap.ends_allocate (fun _ => object) sound.heap fits
        ⟨old.described, old.lambda, by simp [body]⟩
      obtain ⟨header, _⟩ := object
      subst body
      change Ends (Store.onHeap _ >>= _) _ _ _
      rw [ends_bind, Store.ends_onHeap]
      refine copied.mono ?_ ?_
      · intro q heap ⟨evolves, heapSound, absent, isCopy⟩
        exact ⟨sound.grown evolves heapSound, _, isBody, q, rfl, absent,
          Heap.bodyOf?_eq_some.mpr ⟨q, _, rfl, isCopy, rfl⟩⟩
      · rintro signal heap ⟨rfl, fine⟩
        exact ⟨.refl sound, fine⟩

end Make

/-- An object that is to be made. -/
inductive Making where
  | string (content : String)
  | blankString (length : Nat)
  | nulls (length : Nat)
  | tuple (elements : Array Value)
  | sequence (length : Nat)
  | table (capacity : Nat)
  | layout (kind : Kind) (fieldCount : Nat) (protocol : Value)
  | protocol (name parent : Value)
  | method (selector signature lambda : Value)
  | selector (name : Value) (argc : Nat) (keywords : Value) (accessor : Bool)
  | signature (parameters : Array Value)
  | lambda (data : Lambda)
  | code (units : Array UInt16)
  | context
  | cell (content : Value)
  | forwarder (binding : Binding) (target : Value)
  | inst (layout : Value)
  | stack (height : Nat)
  | task (height : Nat)
  | singleton (ordinal : Nat)
  | clone (v : Value)

/-- The constructor of an object. -/
def Making.work : Making → Alloc Value
  | .string content => Make.string content
  | .blankString length => Make.blankString length
  | .nulls length => Make.nulls length
  | .tuple elements => Make.tuple elements
  | .sequence length => Make.sequence length
  | .table capacity => Make.table capacity
  | .layout kind fieldCount v => Make.layout kind fieldCount v
  | .protocol name parent => Make.protocol name parent
  | .method s p l => Make.method s p l
  | .selector name argc keywords accessor => Make.selector name argc keywords accessor
  | .signature parameters => Make.signature parameters
  | .lambda data => Make.lambda data
  | .code units => Make.code units
  | .context => Make.context
  | .cell content => Make.cell content
  | .forwarder binding target => Make.forwarder binding target
  | .inst v => Make.inst v
  | .stack height => Make.stack height
  | .task height => Make.task height
  | .singleton ordinal => Make.singleton ordinal
  | .clone v => Make.clone v

namespace Making

/-- Whether it takes no more than plain objects. -/
def isPlain : Making → Bool
  | lambda _ | inst _ | stack _ | task _ | clone _ => false
  | _ => true

open Make (roundUp_aligned roundUp_elements) in
theorem places (making : Making) (plain : making.isPlain = true) : Make.Places making.work := by
  have sequences : ∀ {size count : Nat} (body : Body), Size.sequence count = .ok size →
      body.size = 16 + 8 * count → roundUp size = roundUp body.size := by
    intro size count body isSize isBody
    rw [roundUp_elements isSize, isBody]
  have tuples : ∀ elements, Make.Places (Make.tuple elements) := fun elements =>
    .lift (by simp) fun _ isSize => .bind (.place rfl rfl (sequences (.tuple ⟨elements⟩) isSize rfl)) fun made => by
      split
      · exact .refused _
      · exact .done made
  have rows : ∀ length, Make.Places (Make.sequence length) := fun length =>
    .lift (by simp) fun _ isSize => .root Roots.null fun null => .place rfl rfl
      (sequences (.array ⟨Array.replicate length null⟩) isSize (by simp [Body.size]))
  cases making with
  | string content => exact .lift (by simp) fun _ isSize => .place rfl rfl (roundUp_aligned isSize)
  | blankString length =>
    exact .lift (by simp) fun _ isSize => .place rfl rfl (by simpa [Body.size] using roundUp_aligned isSize)
  | nulls length =>
    exact .lift (by simp) fun _ isSize => .root Roots.null fun null => .place rfl rfl
      (sequences (.tuple ⟨Array.replicate length null⟩) isSize (by simp [Body.size]))
  | tuple elements => exact tuples elements
  | sequence length => exact rows length
  | table capacity => exact .lift (by simp) fun length _ => .bind (rows length) fun _ => .place rfl rfl rfl
  | layout kind fieldCount v =>
    exact .root Roots.emptyTuple fun _ => .bind (.place rfl rfl rfl) fun made => .lift (by simp) fun _ _ => .done made
  | protocol name parent => exact .root Roots.emptyTuple fun _ => .place rfl rfl rfl
  | method s p l => exact .place rfl rfl rfl
  | selector name argc keywords accessor =>
    exact .root (fun roots => roots.boolean accessor) fun _ => .bind (.place rfl rfl rfl) fun made =>
      .lift (by simp) fun _ _ => .done made
  | signature parameters => exact .bind (tuples parameters) fun _ => .place rfl rfl rfl
  | code units => exact .lift (by simp) fun _ isSize => .place rfl rfl (roundUp_aligned isSize)
  | context => exact .place rfl rfl rfl
  | cell content => exact .place rfl rfl rfl
  | forwarder binding target => exact .bind (.place rfl rfl rfl) fun _ => .place rfl rfl rfl
  | singleton ordinal => exact .bind (.place rfl rfl rfl) fun made => .lift (by simp) fun _ _ => .done made
  | _ => cases plain

end Making

end ObjectMachine
