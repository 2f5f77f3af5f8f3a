/-
# ObjectMachine.Proofs.Checks -- checks that have nothing to do with the state of a stack

Asking a store for a hash, a method or a text may find a broken invariant, and so may reading words
of a stack. What is found then is about that question. Only converting, visiting and parking a stack
can find that it was not its time, and no check of this module does any of it.
-/
import Mathlib
import ObjectMachine.Proofs.Ending

namespace ObjectMachine

namespace Size

@[simp] theorem calm_add (a b : Nat) : Calm (add a b) := by
  simp [add]

@[simp] theorem calm_mul (a b : Nat) : Calm (mul a b) := by
  simp [mul]

@[simp] theorem calm_align (n : Nat) : Calm (align n) := by
  simp [align]

@[simp] theorem calm_grow (n : Nat) : Calm (grow n) := by
  simp [grow]

@[simp] theorem calm_count (n : Nat) : Calm (count n) := by
  simp [count]

@[simp] theorem calm_elements (words width count : Nat) : Calm (elements words width count) := by
  simp [elements]

@[simp] theorem calm_text (length : Nat) : Calm (text length) := by
  simp [text]

@[simp] theorem calm_code (length : Nat) : Calm (code length) := by
  simp [code]

@[simp] theorem calm_sequence (length : Nat) : Calm (sequence length) := calm_elements _ _ _

@[simp] theorem calm_inst (count : Nat) : Calm (inst count) := calm_elements _ _ _

@[simp] theorem calm_stack (height : Nat) : Calm (stack height) := calm_elements _ _ _

@[simp] theorem calm_growTo (height n : Nat) : Calm (growTo height n) := by
  fun_induction growTo height n with
  | case1 n small violation failed =>
    have calm := calm_grow n
    rw [failed] at calm
    exact Calm.error.mpr (Calm.error.mp calm)
  | case2 n small grown isGrown more ih => exact ih
  | case3 n large => exact Calm.ok n

end Size

@[simp] theorem Instruction.calm_decodeAt (code : Array UInt16) (pc : Nat) :
    Calm (decodeAt code pc) := by
  unfold decodeAt
  split
  · simp
  · split <;> simp

namespace Heap

variable (h : Heap)
variable {test : Value → Value → Except Violation Bool}

@[simp] theorem calm_cast (α : Type) [HeapKind α] (v : Value) : Calm (h.cast α v) := by
  unfold cast
  split <;> simp

@[simp] theorem calm_layoutOf (v : Value) : Calm (h.layoutOf v) := by
  unfold layoutOf
  split <;> simp

@[simp] theorem calm_hashWith (fuel : Nat) (v : Value) : Calm (h.hashWith fuel v) := by
  induction fuel generalizing v with
  | zero => simp [hashWith]
  | succ fuel ih =>
    unfold hashWith
    split
    · exact Calm.ok _
    · simp
    · split
      · exact Calm.ok _
      · refine Calm.bind ?_ fun _ _ => Calm.pure _
        rw [← Array.foldlM_toList]
        exact Calm.foldlM fun hash element _ => by simp [ih]
      · simp [ih]
      · exact Calm.ok _
      · simp
      · simp

@[simp] theorem calm_hash (v : Value) : Calm (h.hash v) := h.calm_hashWith _ v

@[simp] theorem calm_checkKey (v : Value) : Calm (h.checkKey v) := by
  unfold checkKey
  split
  · exact Calm.ok _
  · simp
  · split <;> simp

theorem calm_allEqual (calm : ∀ a b, Calm (test a b))
    (pairs : List (Value × Value)) : Calm (allEqual test pairs) := by
  induction pairs with
  | nil => exact Calm.ok _
  | cons pair pairs ih => simp [allEqual, calm, ih]

theorem calm_selectorsAgree (calm : ∀ a b, Calm (test a b))
    (a b : Selector) : Calm (selectorsAgree test a b) := by
  simp [selectorsAgree, calm]

@[simp] theorem calm_equalWith (fuel : Nat) (a b : Value) : Calm (h.equalWith fuel a b) := by
  induction fuel generalizing a b with
  | zero => simp [equalWith]
  | succ fuel ih =>
    unfold equalWith
    split
    · exact Calm.ok _
    · split
      · exact Calm.ok _
      · simp [calm_allEqual ih]
      · exact calm_selectorsAgree (fun p q => by simp [ih]) _ _
      · exact Calm.ok _

@[simp] theorem calm_equal (a b : Value) : Calm (h.equal a b) := h.calm_equalWith _ a b

@[simp] theorem calm_keyEqual (a b : Value) : Calm (h.keyEqual a b) := by
  simp [keyEqual]

@[simp] theorem calm_selectorsEqual (a b : Selector) : Calm (h.selectorsEqual a b) :=
  calm_selectorsAgree h.calm_keyEqual a b

@[simp] theorem calm_derefWith (fuel : Nat) (v : Value) : Calm (h.derefWith fuel v) := by
  induction fuel generalizing v with
  | zero => simp [derefWith]
  | succ fuel ih =>
    unfold derefWith forwarded?
    cases h.view? Forwarder v with
    | none => exact Calm.ok _
    | some f =>
      refine Calm.bind ?_ fun _ _ => ih _
      exact (Calm.map_iff Descriptor.target).mpr (h.calm_cast Descriptor f.descriptor)

@[simp] theorem calm_deref (v : Value) : Calm (h.deref v) := by
  unfold deref
  split <;> simp

@[simp] theorem calm_leadsTo (descriptor : Value) (fuel : Nat) (v : Value) :
    Calm (h.leadsTo descriptor fuel v) := by
  induction fuel generalizing v with
  | zero => simp [leadsTo]
  | succ fuel ih =>
    unfold leadsTo
    split <;> simp [ih]

@[simp] theorem calm_retargeted (descriptor target : Value) :
    Calm (h.retargeted descriptor target) := by
  simp [retargeted]

@[simp] theorem calm_bound (descriptor target : Value) : Calm (h.bound descriptor target) := by
  simp [bound]

@[simp] theorem calm_chainWith (fuel : Nat) (v : Value) : Calm (h.chainWith fuel v) := by
  induction fuel generalizing v with
  | zero => simp [chainWith]
  | succ fuel ih =>
    unfold chainWith
    split <;> simp [ih]

@[simp] theorem calm_chain (v : Value) : Calm (h.chain v) := h.calm_chainWith _ v

@[simp] theorem calm_distance (layout : Layout) (target : Value) :
    Calm (h.distance layout target) := by
  simp [distance]

@[simp] theorem calm_tupleElements (v : Value) : Calm (h.tupleElements v) := by
  simp [tupleElements]

@[simp] theorem calm_protocolOf? (v : Value) : Calm (h.protocolOf? v) := by
  simp [protocolOf?]

@[simp] theorem calm_renderWith (fuel depth : Nat) (quoted : Bool) (v : Value) :
    Calm (h.renderWith fuel depth quoted v) := by
  induction fuel generalizing depth quoted v with
  | zero => simp [renderWith]
  | succ fuel ih =>
    have elements : ∀ (list : List Value), Calm (list.mapM (h.renderWith fuel (depth - 1) true)) :=
      fun list => Calm.mapM fun element _ => ih _ _ element
    cases v with
    | int n => exact Calm.ok _
    | signal s => exact Calm.ok _
    | object r =>
      simp only [renderWith]
      split
      · exact Calm.ok _
      · simp [elements]
      · simp [elements]
      · exact Calm.ok _
      · simp [ih]
      · exact Calm.ok _
      · refine Calm.bind (h.calm_protocolOf? _) fun found _ => ?_
        cases found <;> simp [ih]
      · exact Calm.ok _
      · simp

@[simp] theorem calm_display (v : Value) : Calm (h.display v) := h.calm_renderWith _ _ _ v

end Heap

namespace Store

variable (s : Store)

@[simp] theorem calm_layoutOf (v : Value) : Calm (s.layoutOf v) := by
  refine Calm.bind (s.heap.calm_deref v) fun target _ => ?_
  cases target <;> simp

@[simp] theorem calm_scoreFrom (score : Nat) (pairs : List (Value × Value)) :
    Calm (s.scoreFrom score pairs) := by
  induction pairs generalizing score with
  | nil => exact Calm.ok _
  | cons pair pairs ih =>
    simp only [scoreFrom, Calm.ite_iff, Calm.bind_iff]
    refine ⟨fun _ => ⟨by simp, fun layout _ => ⟨by simp, fun steps _ => ?_⟩⟩, fun _ => ih _⟩
    cases steps <;> simp [ih]

@[simp] theorem calm_score (signature : Value) (arguments : Array Value) :
    Calm (s.score signature arguments) := by
  simp [score]

end Store

@[simp] theorem Search.calm_inTable (s : Store) (selector : Selector) (arguments : Array Value)
    (search : Search) (table : Value) : Calm (inTable s selector arguments search table) := by
  refine Calm.bind (by simp) fun methods _ => ?_
  rw [← Array.foldlM_toList]
  refine Calm.foldlM fun search method _ => ?_
  simp only [Calm.bind_iff, Calm.ite_iff, Heap.calm_cast, Heap.calm_selectorsEqual, Store.calm_score,
    Calm.pure, true_and, implies_true, and_true]
  intro m _ named _ _ _ _ score _
  cases score <;> simp

@[simp] theorem Search.calm_run (s : Store) (minScore : Nat) (selector : Value)
    (arguments : Array Value) : Calm (run s minScore selector arguments) := by
  unfold run
  split
  · simp
  · simp only [Calm.bind_iff, Store.calm_layoutOf, Heap.calm_cast, Heap.calm_chain, true_and]
    exact fun _ _ _ _ _ _ => Calm.foldlM fun _ _ _ => by simp

@[simp] theorem Store.calm_lookup (s : Store) (selector : Value) (arguments : Array Value) :
    Calm (s.lookup selector arguments) := by
  simp [lookup]

@[simp] theorem Store.calm_lookupSuper (s : Store) (selector : Value) (arguments : Array Value)
    (current : Value) : Calm (s.lookupSuper selector arguments current) := by
  refine Calm.bind (by simp) fun previous _ => ?_
  cases previous <;> simp

namespace Entries

variable (h : Heap) (e : Entries)

@[simp] theorem calm_probe (hash : UInt64) (key : Value) (fuel index : Nat) :
    Calm (e.probe h hash key fuel index) := by
  induction fuel generalizing index with
  | zero => simp [probe]
  | succ fuel ih =>
    unfold probe
    split <;> simp [ih]

@[simp] theorem calm_find (hash : UInt64) (key : Value) : Calm (e.find h hash key) :=
  e.calm_probe h hash key _ _

@[simp] theorem calm_insertAll (entries : List Entry) : Calm (e.insertAll h entries) :=
  Calm.foldlM fun e entry _ => by simp

end Entries

@[simp] theorem Heap.calm_entries (h : Heap) (t : Table) : Calm (h.entries t) := by
  simp [entries]

@[simp] theorem Heap.calm_tableGet? (h : Heap) (t : Table) (key : Value) :
    Calm (h.tableGet? t key) := by
  simp [tableGet?]

@[simp] theorem Table.calm_isFull (size capacity : Nat) : Calm (isFull size capacity) := by
  simp [isFull]

@[simp] theorem Builtin.Call.calm_argument (call : Call) (index : Nat) :
    Calm (call.argument index) := by
  unfold argument
  split <;> simp

namespace Stack

variable (s : Stack)

@[simp] theorem calm_valueAt (offset : Nat) : Calm (s.valueAt offset) := by
  unfold valueAt
  split <;> simp

@[simp] theorem calm_placeAt (words : Array Slot) (home : Ref) (offset : Nat) :
    Calm (placeAt words home offset) := by
  unfold placeAt
  split <;> simp

@[simp] theorem calm_copyContents (old : Stack) : Calm (s.copyContents old) := by
  simp [copyContents]

@[simp] theorem calm_prepare (home : Ref) (bottomLambda : Value) (entry : Array Value) :
    Calm (s.prepare home bottomLambda entry) := by
  simp [prepare]

end Stack

@[simp] theorem Heap.calm_preparedStack (h : Heap) (task bottomLambda : Value)
    (entry : Array Value) : Calm (h.preparedStack task bottomLambda entry) := by
  refine Calm.bind (by simp) fun t _ => ?_
  cases t.stack <;> simp

namespace Exec

@[simp] theorem calm_offsetOf (place : Place) : Calm (offsetOf place) := by
  cases place <;> simp [offsetOf]

@[simp] theorem calm_countAt (s : Stack) (offset : Nat) : Calm (countAt s offset) := by
  refine Calm.bind (by simp) fun v _ => ?_
  cases v <;> simp

@[simp] theorem calm_lambdaAt (h : Heap) (s : Stack) (frame : Nat) : Calm (lambdaAt h s frame) := by
  simp [lambdaAt]

@[simp] theorem calm_nextMarker (s : Stack) (marker : Nat) : Calm (nextMarker s marker) := by
  refine Calm.bind (by simp) fun link _ => ?_
  cases link <;> simp

@[simp] theorem calm_markerBelow (s : Stack) (frame fuel : Nat) (marker : Option Nat) :
    Calm (markerBelow s frame fuel marker) := by
  induction fuel generalizing marker with
  | zero => simp [markerBelow]
  | succ fuel ih => cases marker <;> simp [markerBelow, ih]

@[simp] theorem calm_handlerIn (h : Heap) (name : Value) (handlers : List Value) :
    Calm (handlerIn h name handlers) := by
  fun_induction handlerIn h name handlers <;> simp_all

@[simp] theorem calm_handlerFrom (h : Heap) (s : Stack) (name : Value) (fuel : Nat)
    (marker : Option Nat) : Calm (handlerFrom h s name fuel marker) := by
  induction fuel generalizing marker with
  | zero => simp [handlerFrom]
  | succ fuel ih =>
    cases marker with
    | none => exact Calm.ok _
    | some marker =>
      simp only [handlerFrom, Calm.bind_iff, Stack.calm_valueAt, Heap.calm_tupleElements,
        calm_handlerIn, true_and]
      intro _ _ _ _ found _
      cases found <;> simp [ih]

@[simp] theorem calm_nameOf (h : Heap) (v : Value) : Calm (nameOf h v) := by
  refine Calm.bind (by simp) fun target _ => ?_
  split <;> simp

@[simp] theorem calm_elementOf (h : Heap) (tuple : Value) (index : Nat) :
    Calm (elementOf h tuple index) := by
  refine Calm.bind (by simp) fun t _ => ?_
  split <;> simp

@[simp] theorem calm_isAttached (h : Heap) (task : Value) (fuel : Nat) (link : Value) :
    Calm (isAttached h task fuel link) := by
  induction fuel generalizing link with
  | zero => simp [isAttached]
  | succ fuel ih =>
    simp only [isAttached, Calm.ite_iff, Calm.ok, implies_true, true_and, Calm.bind_iff, Heap.calm_cast]
    intro _ t _
    cases callerOf? h t <;> simp [ih]

@[simp] theorem calm_abandonFrom (fuel : Nat) (task : Value) (h : Heap) :
    Calm (abandonFrom fuel task h) := by
  induction fuel generalizing task h with
  | zero => simp [abandonFrom]
  | succ fuel ih =>
    refine Calm.bind (by simp) fun t _ => ?_
    simp only
    split <;> simp [ih]

end Exec

@[simp] theorem Exec.calm_runningStack (x : Execution) : Calm (runningStack x) := Heap.calm_cast _ _ _

@[simp] theorem Exec.calm_runningLambda (x : Execution) : Calm (runningLambda x) := Heap.calm_cast _ _ _

end ObjectMachine
