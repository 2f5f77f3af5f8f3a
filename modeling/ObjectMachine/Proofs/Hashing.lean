/-
# ObjectMachine.Proofs.Hashing -- hashes by contents

`Heap.Hashes` says which hash a key has: integers, strings and singletons have one, and so do
selectors and tuples of keys. It depends on contents only, so keys that are equal have the same
hash.

Neither equality nor hashes change as long as keys do not. `Heap.Mirrors` says so for two heaps at
once, whatever else changes between them: more objects and writes to other objects are one case of
it, the move to another space is another.

* `Heap.hash_eq` -- hashing finds the hash.
* `Heap.Hashes.same` -- equal keys have the same hash.
* `Heap.Mirrors.same_iff`, `Heap.Mirrors.hashes` -- contents outlive changes and collections.
-/
import Mathlib
import ObjectMachine.Proofs.Equality
import ObjectMachine.Proofs.Moving

namespace ObjectMachine

open HeapKind (wrap)

namespace Heap

/-- The hash of a key. -/
inductive Hashes (h : Heap) : Value → UInt64 → Prop
  | int (n : Int) : Hashes h (.int n) (mix hashBasis (UInt64.ofInt n) &&& hashMask)
  | string {v : Value} {x : Text} (found : h.view? Text v = some x) :
      Hashes h v (x.content.toList.foldl (fun hash c => mix hash c.val.toUInt64) hashBasis &&& hashMask)
  | tuple {v : Value} {t : Tuple} {hashes : List UInt64} (found : h.view? Tuple v = some t)
      (size : hashes.length = t.elements.size)
      (each : ∀ (i : Nat) e n, t.elements[i]? = some e → hashes[i]? = some n → Hashes h e n) :
      Hashes h v (hashes.foldl mix tupleBasis &&& hashMask)
  | selector {v : Value} {s : Selector} {n : UInt64} (found : h.view? Selector v = some s)
      (wellNamed : h.WellNamed s) (name : Hashes h s.name n) :
      Hashes h v (mix n (UInt64.ofNat s.argc) &&& hashMask)
  | singleton {v : Value} {s : Singleton} (found : h.view? Singleton v = some s) :
      Hashes h v (mix singletonBasis (UInt64.ofNat s.ordinal) &&& hashMask)

variable {h h' : Heap} {v a b : Value} {n n' : UInt64}

namespace Hashes

theorem ofPair (found : h.view? Tuple v = some ⟨#[a, b]⟩) (first : h.Hashes a n)
    (second : h.Hashes b n') : h.Hashes v ([n, n'].foldl mix tupleBasis &&& hashMask) := by
  refine .tuple found rfl fun i e m isElement isHash => ?_
  match i with
  | 0 =>
    cases isElement
    cases isHash
    exact first
  | 1 =>
    cases isElement
    cases isHash
    exact second
  | i + 2 => cases isHash

theorem comparable (hashes : h.Hashes v n) : h.Comparable v := by
  induction hashes with
  | int n => exact .leaf (by simp [There]) rfl rfl
  | string found => exact .ofText found
  | tuple found size each ih =>
    refine .tuple found fun e member => ?_
    obtain ⟨i, low, isElement⟩ := Array.getElem_of_mem member
    have isElement : _ = some e := (Array.getElem?_eq_getElem low).trans (congrArg some isElement)
    exact ih i e _ isElement (List.getElem?_eq_getElem (by omega))
  | selector found wellNamed => exact .selector found wellNamed.named wellNamed.listed wellNamed.keywords
  | singleton found =>
    exact .leaf (there_of_view found) (view?_eq_none_of_kind found (by decide))
      (view?_eq_none_of_kind found (by decide))

theorem checkKey (hashes : h.Hashes v n) : h.checkKey v = .ok () := by
  cases hashes with
  | int => rfl
  | string found => exact checkKey_of_view found rfl
  | tuple found => exact checkKey_of_view found rfl
  | selector found => exact checkKey_of_view found rfl
  | singleton found => exact checkKey_of_view found rfl

/-- The test for equal keys decides equality by contents. -/
theorem decides (left : h.Hashes a n) (right : h.Hashes b n') :
    Decides (h.keyEqual a b) (h.Same a b) :=
  keyEqual_decides left.comparable right.comparable left.checkKey right.checkKey

theorem isKey (hashes : h.Hashes v n) : h.isKey v = true := by
  have ofView : ∀ {α : Type} [HeapKind α] {data : α}, h.view? α v = some data →
      (HeapKind.kind α).isKey = true → h.isKey v = true := by
    intro α _ data found isKey
    obtain ⟨r, o, rfl, -⟩ := view?_iff.mp found
    simp [Heap.isKey, kindOf?, view?_eq_some.mp found, HeapKind.kind_wrap, isKey]
  cases hashes with
  | int => rfl
  | string found => exact ofView found rfl
  | tuple found => exact ofView found rfl
  | selector found => exact ofView found rfl
  | singleton found => exact ofView found rfl

end Hashes

theorem foldlM_mix {hash : Value → Except Violation UInt64} {values : List Value} {hashes : List UInt64}
    (size : hashes.length = values.length)
    (each : ∀ (i : Nat) v n, values[i]? = some v → hashes[i]? = some n → hash v = .ok n) (start : UInt64) :
    values.foldlM (fun sum v => do pure (mix sum (← hash v))) start = .ok (hashes.foldl mix start) := by
  induction values generalizing hashes start with
  | nil =>
    obtain rfl := List.length_eq_zero_iff.mp size
    rfl
  | cons v values ih =>
    cases hashes with
    | nil => cases size
    | cons n hashes =>
      rw [List.foldlM_cons, each 0 v n rfl rfl]
      exact ih (by simpa using size) (fun i w m isValue isHash => each (i + 1) w m isValue isHash) _

theorem hashWith_eq {fuel : Nat} (hashes : h.Hashes v n) (within : Within h.PartOf fuel v) :
    h.hashWith fuel v = .ok n := by
  induction hashes generalizing fuel with
  | int n =>
    obtain ⟨fuel, rfl⟩ := within.pos
    rfl
  | string found =>
    obtain ⟨fuel, rfl⟩ := within.pos
    obtain ⟨r, o, rfl, -⟩ := view?_iff.mp found
    simp only [hashWith, view?_eq_some.mp found, wrap]
  | tuple found size each ih =>
    obtain ⟨fuel, rfl⟩ := within.pos
    obtain ⟨r, o, rfl, -⟩ := view?_iff.mp found
    simp only [hashWith, view?_eq_some.mp found, wrap]
    rw [← Array.foldlM_toList, foldlM_mix (by simpa using size) fun i e m isElement isHash => ?_]
    · rfl
    · have isElement := by simpa using isElement
      exact ih i e m isElement isHash (within.next (.element found (Array.mem_of_getElem? isElement)))
  | selector found wellNamed name ih =>
    obtain ⟨fuel, rfl⟩ := within.pos
    obtain ⟨r, o, rfl, -⟩ := view?_iff.mp found
    simp only [hashWith, view?_eq_some.mp found, wrap, ih (within.next (.name found))]
    rfl
  | singleton found =>
    obtain ⟨fuel, rfl⟩ := within.pos
    obtain ⟨r, o, rfl, -⟩ := view?_iff.mp found
    simp only [hashWith, view?_eq_some.mp found, wrap]

theorem hash_eq (hashes : h.Hashes v n) : h.hash v = .ok n := hashWith_eq hashes hashes.comparable.within

theorem Hashes.unique (hashes : h.Hashes v n) (hashes' : h.Hashes v n') : n = n' :=
  Except.ok.inj ((hash_eq hashes).symm.trans (hash_eq hashes'))

/-- What equals a key has the same hash. -/
theorem Hashes.of_same (hashes : h.Hashes a n) (comparable : h.Comparable b) (same : h.Same a b) :
    h.Hashes b n := by
  induction hashes generalizing b with
  | int n =>
    cases same with
    | refl => exact .int n
    | string left => cases left
    | tuple left => cases left
    | selector left => cases left
  | string found =>
    cases same with
    | refl => exact .string found
    | string left right =>
      cases found.symm.trans left
      exact .string right
    | tuple left => cases view?_kind found left
    | selector left => cases view?_kind found left
  | @tuple _ t hashes found size each ih =>
    cases same with
    | refl => exact .tuple found size each
    | string left => cases view?_kind found left
    | tuple left right sameSize elements =>
      cases found.symm.trans left
      refine .tuple right (size.trans sameSize) fun i e n isElement isHash => ?_
      have low := (Array.getElem?_eq_some_iff.mp isElement).1
      have isOld := Array.getElem?_eq_getElem (show i < t.elements.size by omega)
      exact ih i _ n isOld isHash (comparable.element right (Array.mem_of_getElem? isElement))
        (elements i _ e isOld isElement)
    | selector left => cases view?_kind found left
  | selector found wellNamed name ih =>
    cases same with
    | refl => exact .selector found wellNamed name
    | string left => cases view?_kind found left
    | tuple left => cases view?_kind found left
    | selector left right sameName argc =>
      cases found.symm.trans left
      obtain ⟨named, listed, keywords⟩ := comparable.ofSelector right
      rw [argc]
      exact .selector right ⟨named, listed, keywords⟩ (ih (comparable.part (.name right)) sameName)
  | singleton found =>
    cases same with
    | refl => exact .singleton found
    | string left => cases view?_kind found left
    | tuple left => cases view?_kind found left
    | selector left => cases view?_kind found left

/-- Equal keys have the same hash. -/
theorem Hashes.same (hashes : h.Hashes a n) (hashes' : h.Hashes b n') (same : h.Same a b) :
    n = n' :=
  (hashes.of_same hashes'.comparable same).unique hashes'

section Spares

/-- Objects may be added and written to, but keys are left alone and everything keeps its kind. -/
def Spares (h h' : Heap) : Prop := ∀ v b, h.bodyOf? v = some b →
    ∃ b', h'.bodyOf? v = some b' ∧ b'.kind = b.kind ∧ (b.kind.isKey = true → b' = b)

theorem Spares.trans {h'' : Heap} (first : h.Spares h') (second : h'.Spares h'') :
    h.Spares h'' := by
  intro v b found
  obtain ⟨b', found', kind, same⟩ := first v b found
  obtain ⟨b'', found'', kind', same'⟩ := second v b' found'
  exact ⟨b'', found'', kind'.trans kind, fun isKey => (same' (kind ▸ isKey)).trans (same isKey)⟩

theorem spares_adjust {f : Body → Body}
    (noKey : ∀ b, h.bodyOf? v = some b → (f b).kind = b.kind ∧ b.kind.isKey = false) :
    h.Spares (h.adjust v f) := by
  intro w b found
  refine ⟨_, bodyOf?_adjust found, ?_⟩
  split
  · rename_i isAt
    obtain ⟨kind, noKey⟩ := noKey b (isAt ▸ found)
    exact ⟨kind, fun isKey => absurd (noKey.symm.trans isKey) (by simp)⟩
  · exact ⟨rfl, fun _ => rfl⟩

theorem spares_extended (o : Object) (size : Nat) : h.Spares (h.extended o size) :=
  fun _ b found => ⟨b, bodyOf?_extended_of_some found, rfl, fun _ => rfl⟩

end Spares

section Mirrors

/-- Values `v` of `h` on which `on` holds are `f v` in `h'`, and keys among them have kept their
contents. -/
structure Mirrors (h : Heap) (on : Value → Prop) (f : Value → Value) (h' : Heap) : Prop where
  plain : ∀ v, v.asRef? = none → f v = v
  injective : ∀ a b, on a → on b → f a = f b → a = b
  body : ∀ v b, on v → h.bodyOf? v = some b → ∃ b', h'.bodyOf? (f v) = some b' ∧ b'.kind = b.kind ∧
    (b.kind.isKey = true → b' = b.mapFields f ∧ ∀ w ∈ b.fields, on w)

variable {on : Value → Prop} {f : Value → Value}

namespace Mirrors

section

variable (mirrors : h.Mirrors on f h')
include mirrors

theorem text (isOn : on v) {x : Text} (found : h.view? Text v = some x) :
    h'.view? Text (f v) = some x := by
  obtain ⟨b', found', -, same⟩ := mirrors.body v _ isOn (view?_eq_some.mp found)
  obtain ⟨rfl, -⟩ := same rfl
  exact view?_eq_some.mpr found'

theorem tuple (isOn : on v) {t : Tuple} (found : h.view? Tuple v = some t) :
    h'.view? Tuple (f v) = some ⟨t.elements.map f⟩ ∧ ∀ e ∈ t.elements, on e := by
  obtain ⟨b', found', -, same⟩ := mirrors.body v _ isOn (view?_eq_some.mp found)
  obtain ⟨rfl, fields⟩ := same rfl
  refine ⟨view?_eq_some.mpr (found'.trans ?_), fun e member => fields e ?_⟩
  · simp [wrap, Body.mapFields, Body.refill, Body.fields, ← Array.toList_map]
  · simpa [wrap, Body.fields] using member

theorem selector (isOn : on v) {s : Selector} (found : h.view? Selector v = some s) :
    h'.view? Selector (f v) = some { s with
        name := f s.name, keywords := f s.keywords, accessor := f s.accessor } ∧
      on s.name ∧ on s.keywords ∧ on s.accessor := by
  obtain ⟨b', found', -, same⟩ := mirrors.body v _ isOn (view?_eq_some.mp found)
  obtain ⟨rfl, fields⟩ := same rfl
  exact ⟨view?_eq_some.mpr found', fields _ (by simp [wrap, Body.fields]),
    fields _ (by simp [wrap, Body.fields]), fields _ (by simp [wrap, Body.fields])⟩

theorem singleton (isOn : on v) {s : Singleton} (found : h.view? Singleton v = some s) :
    h'.view? Singleton (f v) = some s := by
  obtain ⟨b', found', -, same⟩ := mirrors.body v _ isOn (view?_eq_some.mp found)
  obtain ⟨rfl, -⟩ := same rfl
  exact view?_eq_some.mpr found'

/-- What is an object of a kind later has been one. -/
theorem of_view {α : Type} [HeapKind α]
    {data : α} (isOn : on v) (there : h.There v) (found : h'.view? α (f v) = some data) :
    ∃ b, h.bodyOf? v = some b ∧ b.kind = HeapKind.kind α := by
  cases v with
  | object r =>
    obtain ⟨o, isObject⟩ := there r rfl
    have isBody : h.bodyOf? (.object r) = some o.body := bodyOf?_eq_some.mpr ⟨r, o, rfl, isObject, rfl⟩
    obtain ⟨b', found', kind, -⟩ := mirrors.body _ _ isOn isBody
    cases (view?_eq_some.mp found).symm.trans found'
    exact ⟨o.body, isBody, kind.symm.trans (HeapKind.kind_wrap data)⟩
  | _ =>
    rw [mirrors.plain _ rfl] at found
    cases found

theorem of_text (isOn : on v) (there : h.There v) {x : Text}
    (found : h'.view? Text (f v) = some x) : h.view? Text v = some x := by
  obtain ⟨b, isBody, kind⟩ := mirrors.of_view isOn there found
  cases b <;> cases kind
  have old := view?_eq_some (α := Text).mpr isBody
  cases (mirrors.text isOn old).symm.trans found
  exact old

theorem of_tuple (isOn : on v)
    (there : h.There v) {t' : Tuple} (found : h'.view? Tuple (f v) = some t') :
    ∃ t, h.view? Tuple v = some t ∧ t'.elements = t.elements.map f := by
  obtain ⟨b, isBody, kind⟩ := mirrors.of_view isOn there found
  cases b <;> cases kind
  have old := view?_eq_some (α := Tuple).mpr isBody
  cases (mirrors.tuple isOn old).1.symm.trans found
  exact ⟨_, old, rfl⟩

theorem of_selector (isOn : on v) (there : h.There v)
    {s' : Selector} (found : h'.view? Selector (f v) = some s') :
    ∃ s, h.view? Selector v = some s ∧ s' = { s with
      name := f s.name, keywords := f s.keywords, accessor := f s.accessor } := by
  obtain ⟨b, isBody, kind⟩ := mirrors.of_view isOn there found
  cases b <;> cases kind
  have old := view?_eq_some (α := Selector).mpr isBody
  cases (mirrors.selector isOn old).1.symm.trans found
  exact ⟨_, old, rfl⟩

theorem there (isOn : on v) (there : h.There v) : h'.There (f v) := by
  intro r isRef
  cases v with
  | object q =>
    obtain ⟨o, isObject⟩ := there q rfl
    obtain ⟨b', found', -⟩ := mirrors.body (.object q) o.body isOn
      (bodyOf?_eq_some.mpr ⟨q, o, rfl, isObject, rfl⟩)
    rw [isRef] at found'
    obtain ⟨_, o', ⟨⟩, isObject', -⟩ := bodyOf?_eq_some.mp found'
    exact ⟨o', isObject'⟩
  | _ =>
    rw [mirrors.plain _ rfl] at isRef
    cases isRef

theorem comparable (comparable : h.Comparable v) (isOn : on v) : h'.Comparable (f v) := by
  induction comparable with
  | @leaf v there noTuple noSelector =>
    refine .leaf (mirrors.there isOn there) ?_ ?_
    · cases found : h'.view? Tuple (f v) with
      | none => rfl
      | some t =>
        obtain ⟨_, found, -⟩ := mirrors.of_tuple isOn there found
        exact absurd (noTuple.symm.trans found) (by simp)
    · cases found : h'.view? Selector (f v) with
      | none => rfl
      | some s =>
        obtain ⟨_, found, -⟩ := mirrors.of_selector isOn there found
        exact absurd (noSelector.symm.trans found) (by simp)
  | tuple found elements ih =>
    obtain ⟨found', ons⟩ := mirrors.tuple isOn found
    refine .tuple found' fun e member => ?_
    obtain ⟨e, isElement, rfl⟩ := Array.mem_map.mp member
    exact ih e isElement (ons e isElement)
  | selector found named listed keywords ih =>
    obtain ⟨found', onName, onKeywords, -⟩ := mirrors.selector isOn found
    obtain ⟨x, isText⟩ := is_iff.mp named
    obtain ⟨t, isTuple⟩ := is_iff.mp listed
    exact .selector found' (is_iff.mpr ⟨x, mirrors.text onName isText⟩)
      (is_iff.mpr ⟨_, (mirrors.tuple onKeywords isTuple).1⟩) (ih onKeywords)

theorem same (same : h.Same a b) (onA : on a) (onB : on b) : h'.Same (f a) (f b) := by
  induction same with
  | refl v => exact .refl _
  | string left right => exact .string (mirrors.text onA left) (mirrors.text onB right)
  | tuple left right size elements ih =>
    obtain ⟨left', onsA⟩ := mirrors.tuple onA left
    obtain ⟨right', onsB⟩ := mirrors.tuple onB right
    refine .tuple left' right' (by simpa using size) fun i p q isP isQ => ?_
    rw [Array.getElem?_map, Option.map_eq_some_iff] at isP isQ
    obtain ⟨p, isP, rfl⟩ := isP
    obtain ⟨q, isQ, rfl⟩ := isQ
    exact ih i p q isP isQ (onsA p (Array.mem_of_getElem? isP)) (onsB q (Array.mem_of_getElem? isQ))
  | selector left right name argc keywords accessor ihName ihKeywords =>
    obtain ⟨left', onName, onKeywords, -⟩ := mirrors.selector onA left
    obtain ⟨right', onName', onKeywords', -⟩ := mirrors.selector onB right
    exact .selector left' right' (ihName onName onName') argc (ihKeywords onKeywords onKeywords')
      (congrArg f accessor)

theorem of_same (left : h.Comparable a) (right : h.Comparable b) (onA : on a) (onB : on b)
    (same : h'.Same (f a) (f b)) : h.Same a b := by
  generalize isA : f a = a' at same
  generalize isB : f b = b' at same
  induction same generalizing a b with
  | refl v =>
    cases mirrors.injective a b onA onB (isA.trans isB.symm)
    exact .refl a
  | string isX isY =>
    subst isA isB
    exact .string (mirrors.of_text onA left.there isX) (mirrors.of_text onB right.there isY)
  | tuple isX isY size elements ih =>
    subst isA isB
    obtain ⟨x, isX', elementsX⟩ := mirrors.of_tuple onA left.there isX
    obtain ⟨y, isY', elementsY⟩ := mirrors.of_tuple onB right.there isY
    rw [elementsX, elementsY] at size ih
    refine .tuple isX' isY' (by simpa using size) fun i p q isP isQ => ?_
    have memberP := Array.mem_of_getElem? isP
    have memberQ := Array.mem_of_getElem? isQ
    refine ih i (f p) (f q) ?_ ?_ (left.element isX' memberP) (right.element isY' memberQ)
      ((mirrors.tuple onA isX').2 p memberP) ((mirrors.tuple onB isY').2 q memberQ) rfl rfl
    · rw [Array.getElem?_map, isP, Option.map_some]
    · rw [Array.getElem?_map, isQ, Option.map_some]
  | selector isX isY name argc keywords accessor ihName ihKeywords =>
    subst isA isB
    obtain ⟨x, isX', rfl⟩ := mirrors.of_selector onA left.there isX
    obtain ⟨y, isY', rfl⟩ := mirrors.of_selector onB right.there isY
    obtain ⟨-, onName, onKeywords, onAccessor⟩ := mirrors.selector onA isX'
    obtain ⟨-, onName', onKeywords', onAccessor'⟩ := mirrors.selector onB isY'
    refine .selector isX' isY' ?_ argc ?_ (mirrors.injective _ _ onAccessor onAccessor' accessor)
    · exact ihName (left.part (.name isX')) (right.part (.name isY')) onName onName' rfl rfl
    · exact ihKeywords (left.part (.keywords isX')) (right.part (.keywords isY')) onKeywords
        onKeywords' rfl rfl

/-- Keys are equal later exactly if they have been. -/
theorem same_iff (left : h.Comparable a) (right : h.Comparable b) (onA : on a) (onB : on b) :
    h'.Same (f a) (f b) ↔ h.Same a b :=
  ⟨mirrors.of_same left right onA onB, fun same => mirrors.same same onA onB⟩

/-- Keys keep their hashes. -/
theorem hashes (hashes : h.Hashes v n) (isOn : on v) : h'.Hashes (f v) n := by
  induction hashes with
  | int n =>
    rw [mirrors.plain _ rfl]
    exact .int n
  | string found => exact .string (mirrors.text isOn found)
  | tuple found size each ih =>
    obtain ⟨found', ons⟩ := mirrors.tuple isOn found
    refine .tuple found' (by simpa using size) fun i e n isElement isHash => ?_
    rw [Array.getElem?_map, Option.map_eq_some_iff] at isElement
    obtain ⟨e, isElement, rfl⟩ := isElement
    exact ih i e n isElement isHash (ons e (Array.mem_of_getElem? isElement))
  | @selector v s n found wellNamed name ih =>
    obtain ⟨found', onName, onKeywords, -⟩ := mirrors.selector isOn found
    obtain ⟨x, isText⟩ := is_iff.mp wellNamed.named
    obtain ⟨t, isTuple⟩ := is_iff.mp wellNamed.listed
    have named' := is_iff.mpr ⟨x, mirrors.text onName isText⟩
    have listed' := is_iff.mpr ⟨_, (mirrors.tuple onKeywords isTuple).1⟩
    have keywords' := mirrors.comparable wellNamed.keywords onKeywords
    have hashed := Hashes.selector found' ⟨named', listed', keywords'⟩ (ih onName)
    exact hashed
  | singleton found => exact .singleton (mirrors.singleton isOn found)

end

/-- Whatever else happens, keys mirror themselves as long as nobody writes to them. -/
theorem ofSpares (spares : h.Spares h') : h.Mirrors (fun _ => True) id h' where
  plain _ _ := rfl
  injective _ _ _ _ same := same
  body v b _ found := by
    obtain ⟨b', found', kind, same⟩ := spares v b found
    refine ⟨b', found', kind, fun isKey => ⟨?_, fun _ _ => trivial⟩⟩
    rw [same isKey]
    cases b with
    | string | singleton => rfl
    | tuple | selector => simp [Body.mapFields, Body.refill, Body.fields]
    | _ => cases isKey

/-- Values are told apart where they are moved if the objects are. -/
theorem ofMove {place : Ref → Ref}
    (injective : ∀ r q, on (.object r) → on (.object q) → place r = place q → r = q)
    (body : ∀ v b, on v → h.bodyOf? v = some b →
      ∃ b', h'.bodyOf? (v.move place) = some b' ∧ b'.kind = b.kind ∧
        (b.kind.isKey = true → b' = b.mapFields (Value.move place) ∧ ∀ w ∈ b.fields, on w)) :
    h.Mirrors on (Value.move place) h' where
  plain v isPlain := by
    cases v with
    | object r => cases isPlain
    | _ => rfl
  injective a b onA onB same := by
    cases a with
    | object r =>
      cases b with
      | object q => rw [injective r q onA onB (Value.object.inj same)]
      | _ => cases same
    | _ =>
      cases b with
      | object q => cases same
      | _ => exact same
  body := body

/-- A collection moves keys with their contents. -/
theorem ofCarried {outside : Roots × References} {place : Ref → Ref}
    (carried : h.Carried outside place h') : h.Mirrors (h.Live outside) (Value.move place) h' := by
  refine .ofMove (fun r q liveR liveQ => carried.bijection.injOn (liveR r rfl) (liveQ q rfl))
    fun v b live found => ?_
  obtain ⟨r, -, found'⟩ := carried.body live found
  refine ⟨_, found', Body.kind_relocated _ _ _, fun isKey => ?_⟩
  cases b with
  | string | tuple | selector | singleton => exact ⟨rfl, fun w member => live.held found member⟩
  | _ => cases isKey

end Mirrors

end Mirrors

end Heap

end ObjectMachine
