/-
# ObjectMachine.Proofs.Equality -- equality by contents

`Heap.Same` says when two values are equal by their contents, without a count of steps, and
`Heap.Comparable` when the contents of a value form a tree. Among such values the test decides the
relation, which is an equivalence.

* `Heap.equal_decides`, `Heap.keyEqual_decides` -- the test answers, and rightly so.
* `Heap.selectorsEqual_decides` -- so does the test whether two selectors name the same message.
* `Heap.Same.trans`, `Heap.Same.symm` -- equality by contents is an equivalence.
-/
import Mathlib
import ObjectMachine.Proofs.Walks

namespace ObjectMachine

namespace Heap

/-- `b` is part of the contents of `a`. -/
inductive PartOf (h : Heap) (a : Value) : Value → Prop
  | element {t : Tuple} {b : Value} (found : h.view? Tuple a = some t) (member : b ∈ t.elements) :
      PartOf h a b
  | name {s : Selector} (found : h.view? Selector a = some s) : PartOf h a s.name
  | keywords {s : Selector} (found : h.view? Selector a = some s) : PartOf h a s.keywords

/-- A value does not dangle. -/
def There (h : Heap) (v : Value) : Prop := ∀ r, v = .object r → ∃ o, h.object? r = some o

/-- The contents of a value form a tree. A selector has a string for its name and a tuple of
keywords. -/
inductive Comparable (h : Heap) : Value → Prop
  | leaf {v : Value} (there : h.There v) (noTuple : h.view? Tuple v = none) (noSelector : h.view? Selector v = none) :
      Comparable h v
  | tuple {v : Value} {t : Tuple} (found : h.view? Tuple v = some t)
      (elements : ∀ e ∈ t.elements, Comparable h e) : Comparable h v
  | selector {v : Value} {s : Selector} (found : h.view? Selector v = some s)
      (named : h.is Text s.name = true) (listed : h.is Tuple s.keywords = true)
      (keywords : Comparable h s.keywords) : Comparable h v

/-- Two values are equal by their contents. -/
inductive Same (h : Heap) : Value → Value → Prop
  | refl (v : Value) : Same h v v
  | string {a b : Value} {x : Text} (left : h.view? Text a = some x) (right : h.view? Text b = some x) :
      Same h a b
  | tuple {a b : Value} {x y : Tuple} (left : h.view? Tuple a = some x) (right : h.view? Tuple b = some y)
      (size : x.elements.size = y.elements.size)
      (elements : ∀ (i : Nat) p q, x.elements[i]? = some p → y.elements[i]? = some q → Same h p q) :
      Same h a b
  | selector {a b : Value} {x y : Selector} (left : h.view? Selector a = some x)
      (right : h.view? Selector b = some y) (name : Same h x.name y.name) (argc : x.argc = y.argc)
      (keywords : Same h x.keywords y.keywords) (accessor : x.accessor = y.accessor) : Same h a b

variable {h : Heap} {a b c v : Value}
variable {test : Value → Value → Except Violation Bool}

section Kinds

variable {α β : Type} [HeapKind α] [HeapKind β]

theorem view?_kind {x : α} {y : β} (left : h.view? α v = some x) (right : h.view? β v = some y) :
    HeapKind.kind α = HeapKind.kind β := by
  have same := (view?_eq_some.mp left).symm.trans (view?_eq_some.mp right)
  rw [← HeapKind.kind_wrap x, ← HeapKind.kind_wrap y, Option.some.inj same]

theorem view?_eq_none_of_kind {x : α} (found : h.view? α v = some x)
    (differs : HeapKind.kind α ≠ HeapKind.kind β) : h.view? β v = none := by
  cases other : h.view? β v with
  | none => rfl
  | some y => exact absurd (view?_kind found other) differs

theorem there_of_view {x : α} (found : h.view? α v = some x) : h.There v := by
  obtain ⟨r, o, rfl, isObject, -⟩ := view?_iff.mp found
  rintro _ ⟨⟩
  exact ⟨o, isObject⟩

end Kinds

/-- Equality by contents is an equivalence. -/
theorem Same.symm (same : h.Same a b) : h.Same b a := by
  induction same with
  | refl v => exact .refl v
  | string left right => exact .string right left
  | tuple left right size _ ih =>
    exact .tuple right left size.symm fun i p q isP isQ => ih i q p isQ isP
  | selector left right _ argc _ accessor name keywords =>
    exact .selector right left name argc.symm keywords accessor.symm

theorem Same.trans (first : h.Same a b) (second : h.Same b c) : h.Same a c := by
  induction first generalizing c with
  | refl v => exact second
  | string left right =>
    cases second with
    | refl => exact .string left right
    | string left' right' =>
      cases right.symm.trans left'
      exact .string left right'
    | tuple left' => cases view?_kind right left'
    | selector left' => cases view?_kind right left'
  | @tuple a b x y left right size elements ih =>
    cases second with
    | refl => exact .tuple left right size elements
    | string left' => cases view?_kind right left'
    | @tuple _ _ _ z left' right' size' elements' =>
      cases right.symm.trans left'
      refine .tuple left right' (size.trans size') fun i p r isP isR => ?_
      have low := (Array.getElem?_eq_some_iff.mp isP).1
      have isQ : y.elements[i]? = some y.elements[i] := Array.getElem?_eq_getElem (by omega)
      exact ih i p _ isP isQ (elements' i _ r isQ isR)
    | selector left' => cases view?_kind right left'
  | selector left right name argc keywords accessor ihName ihKeywords =>
    cases second with
    | refl => exact .selector left right name argc keywords accessor
    | string left' => cases view?_kind right left'
    | tuple left' => cases view?_kind right left'
    | selector left' right' name' argc' keywords' accessor' =>
      cases right.symm.trans left'
      exact .selector left right' (ihName name') (argc.trans argc') (ihKeywords keywords')
        (accessor.trans accessor')

namespace Comparable

theorem ofText {x : Text} (found : h.view? Text v = some x) : h.Comparable v :=
  .leaf (there_of_view found) (view?_eq_none_of_kind found (by decide))
    (view?_eq_none_of_kind found (by decide))

theorem element {t : Tuple} (comparable : h.Comparable v) (found : h.view? Tuple v = some t)
    (member : a ∈ t.elements) : h.Comparable a := by
  cases comparable with
  | leaf _ noTuple => exact absurd (noTuple.symm.trans found) (by simp)
  | tuple found' elements =>
    cases found.symm.trans found'
    exact elements a member
  | selector found' => cases view?_kind found found'

theorem ofSelector {s : Selector}
    (comparable : h.Comparable v) (found : h.view? Selector v = some s) :
    h.is Text s.name = true ∧ h.is Tuple s.keywords = true ∧ h.Comparable s.keywords := by
  cases comparable with
  | leaf _ _ noSelector => exact absurd (noSelector.symm.trans found) (by simp)
  | tuple found' => cases view?_kind found found'
  | selector found' named listed keywords =>
    cases found.symm.trans found'
    exact ⟨named, listed, keywords⟩

theorem there (comparable : h.Comparable v) : h.There v := by
  cases comparable with
  | leaf there => exact there
  | tuple found => exact there_of_view found
  | selector found => exact there_of_view found

theorem part (comparable : h.Comparable a) (isPart : h.PartOf a b) : h.Comparable b := by
  cases isPart with
  | element found member => exact comparable.element found member
  | name found =>
    obtain ⟨x, isText⟩ := is_iff.mp (comparable.ofSelector found).1
    exact .ofText isText
  | keywords found => exact (comparable.ofSelector found).2.2

theorem acc_text {x : Text} (found : h.view? Text v = some x) :
    Acc (fun b a => h.PartOf a b) v := by
  refine .intro _ fun b isPart => ?_
  cases isPart with
  | element found' => cases view?_kind found found'
  | name found' => cases view?_kind found found'
  | keywords found' => cases view?_kind found found'

theorem acc (comparable : h.Comparable v) : Acc (fun b a => h.PartOf a b) v := by
  induction comparable with
  | leaf _ noTuple noSelector =>
    refine .intro _ fun b isPart => ?_
    cases isPart with
    | element found => exact absurd (noTuple.symm.trans found) (by simp)
    | name found => exact absurd (noSelector.symm.trans found) (by simp)
    | keywords found => exact absurd (noSelector.symm.trans found) (by simp)
  | tuple found elements ih =>
    refine .intro _ fun b isPart => ?_
    cases isPart with
    | element found' member =>
      cases found.symm.trans found'
      exact ih b member
    | name found' => cases view?_kind found found'
    | keywords found' => cases view?_kind found found'
  | selector found named listed keywords ih =>
    refine .intro _ fun b isPart => ?_
    cases isPart with
    | element found' => cases view?_kind found found'
    | name found' =>
      cases found.symm.trans found'
      obtain ⟨x, isText⟩ := is_iff.mp named
      exact acc_text isText
    | keywords found' =>
      cases found.symm.trans found'
      exact ih

theorem within (comparable : h.Comparable v) : Within h.PartOf h.walkFuel v := by
  refine within_walkFuel (fun a b isPart => ?_) comparable.acc
  cases isPart with
  | element found => exact view?_isSome_bodyOf? found
  | name found => exact view?_isSome_bodyOf? found
  | keywords found => exact view?_isSome_bodyOf? found

end Comparable

/-- A test answers, and rightly so. -/
def Decides (result : Except Violation Bool) (holds : Prop) : Prop :=
  ∃ answer, result = .ok answer ∧ (answer = true ↔ holds)

namespace Decides

variable {p q : Prop} {result : Except Violation Bool}

theorem ok {answer : Bool} (agrees : answer = true ↔ p) : Decides (.ok answer) p := ⟨answer, rfl, agrees⟩

variable (decides : Decides result p)
include decides

theorem congr (iff : p ↔ q) : Decides result q := by
  obtain ⟨answer, isAnswer, agrees⟩ := decides
  exact ⟨answer, isAnswer, agrees.trans iff⟩

theorem of_holds (holds : p) : result = .ok true := by
  obtain ⟨answer, rfl, agrees⟩ := decides
  rw [agrees.mpr holds]

theorem holds (isTrue : result = .ok true) : p := by
  obtain ⟨answer, isAnswer, agrees⟩ := decides
  cases isAnswer.symm.trans isTrue
  exact agrees.mp rfl

theorem of_not (fails : ¬ p) : result = .ok false := by
  obtain ⟨answer, rfl, agrees⟩ := decides
  rw [Bool.eq_false_iff.mpr fun isTrue => fails (agrees.mp isTrue)]

end Decides

theorem allEqual_decides {holds : Value → Value → Prop} {pairs : List (Value × Value)}
    (each : ∀ pair ∈ pairs, Decides (test pair.1 pair.2) (holds pair.1 pair.2)) :
    Decides (allEqual test pairs) (∀ pair ∈ pairs, holds pair.1 pair.2) := by
  induction pairs with
  | nil => exact .ok (by simp)
  | cons pair pairs ih =>
    obtain ⟨a, b⟩ := pair
    have first := each (a, b) List.mem_cons_self
    by_cases same : holds a b
    · rw [allEqual, first.of_holds same]
      exact (ih fun pair member => each pair (List.mem_cons_of_mem _ member)).congr (by simp [same])
    · rw [allEqual, first.of_not same]
      exact .ok (by simp [same])

/-- Two selectors name the same message. -/
structure SameMessage (h : Heap) (x y : Selector) : Prop where
  name : h.Same x.name y.name
  argc : x.argc = y.argc
  keywords : h.Same x.keywords y.keywords
  accessor : x.accessor = y.accessor

theorem selectorsAgree_decides {x y : Selector}
    (names : Decides (test x.name y.name) (h.Same x.name y.name))
    (keywords : Decides (test x.keywords y.keywords) (h.Same x.keywords y.keywords)) :
    Decides (selectorsAgree test x y) (h.SameMessage x y) := by
  unfold selectorsAgree
  by_cases sameName : h.Same x.name y.name
  swap
  · rw [names.of_not sameName]
    exact .ok (iff_of_false (by simp) fun same => sameName same.name)
  rw [names.of_holds sameName]
  by_cases sameArgc : x.argc = y.argc
  swap
  · simp only [sameArgc, ne_eq, not_false_eq_true, if_true, bind, Except.bind]
    exact .ok (iff_of_false (by simp) fun same => sameArgc same.argc)
  simp only [sameArgc, ne_eq, not_true_eq_false, if_false, Bool.not_true, Bool.false_eq_true, bind,
    Except.bind]
  by_cases sameKeywords : h.Same x.keywords y.keywords
  · rw [keywords.of_holds sameKeywords]
    simp only [Bool.not_true, Bool.false_eq_true, if_false]
    refine .ok ?_
    rw [decide_eq_true_iff]
    exact ⟨fun accessor => ⟨sameName, sameArgc, sameKeywords, accessor⟩, fun same => same.accessor⟩
  · rw [keywords.of_not sameKeywords]
    exact .ok (iff_of_false (by simp) fun same => sameKeywords same.keywords)

theorem checkKey_of_view {α : Type} [HeapKind α] {data : α} (found : h.view? α v = some data)
    (isKey : (HeapKind.kind α).isKey = true) : h.checkKey v = .ok () := by
  obtain ⟨r, o, rfl, -⟩ := view?_iff.mp found
  simp [checkKey, kindOf?, view?_eq_some.mp found, HeapKind.kind_wrap, isKey]

/-- Comparing names or keywords insists on keys first, which they are. -/
theorem decides_key {test : Except Violation Bool} {p : Prop} (left : h.checkKey a = .ok ())
    (right : h.checkKey b = .ok ()) (decides : Decides test p) :
    Decides (do h.checkKey a; h.checkKey b; test) p := by
  rw [left, right]
  exact decides

theorem same_tuple_iff {x y : Tuple}
    (left : h.view? Tuple a = some x) (right : h.view? Tuple b = some y) (differs : a ≠ b)
    (size : x.elements.size = y.elements.size) :
    (∀ pair ∈ x.elements.toList.zip y.elements.toList, h.Same pair.1 pair.2) ↔ h.Same a b := by
  constructor
  · intro each
    refine .tuple left right size fun i p q isP isQ => each (p, q) ?_
    refine List.mem_of_getElem? (i := i) ?_
    rw [List.getElem?_zip_eq_some]
    exact ⟨by simpa using isP, by simpa using isQ⟩
  · rintro same ⟨p, q⟩ member
    obtain ⟨i, isPair⟩ := List.getElem?_of_mem member
    rw [List.getElem?_zip_eq_some] at isPair
    cases same with
    | refl => exact absurd rfl differs
    | string left' => cases view?_kind left left'
    | tuple left' right' _ elements =>
      cases left.symm.trans left'
      cases right.symm.trans right'
      exact elements i p q (by simpa using isPair.1) (by simpa using isPair.2)
    | selector left' => cases view?_kind left left'

/-- Equality by contents ends among values whose contents are trees, and is decided. -/
theorem equalWith_decides {fuel : Nat} (left : h.Comparable a) (right : h.Comparable b)
    (within : Within h.PartOf fuel a) : Decides (h.equalWith fuel a b) (h.Same a b) := by
  induction fuel generalizing a b with
  | zero =>
    obtain ⟨_, absurd⟩ := within.pos
    cases absurd
  | succ fuel ih =>
    rw [equalWith]
    by_cases identical : a = b
    · rw [if_pos identical]
      exact .ok (iff_of_true rfl (identical ▸ .refl a))
    rw [if_neg identical]
    split
    · rename_i x y isX isY
      have isX := view?_eq_some (α := Text).mpr isX
      have isY := view?_eq_some (α := Text).mpr isY
      refine .ok ⟨fun equal => ?_, fun same => ?_⟩
      · obtain rfl : x = y := by
          cases x
          cases y
          simpa using equal
        exact .string isX isY
      · cases same with
        | refl => exact absurd rfl identical
        | string left' right' =>
          cases isX.symm.trans left'
          cases isY.symm.trans right'
          simp
        | tuple left' => cases view?_kind isX left'
        | selector left' => cases view?_kind isX left'
    · rename_i x y isX isY
      have isX := view?_eq_some (α := Tuple).mpr isX
      have isY := view?_eq_some (α := Tuple).mpr isY
      by_cases size : x.elements.size = y.elements.size
      · rw [if_pos size]
        refine Decides.congr (allEqual_decides ?_) (same_tuple_iff isX isY identical size)
        rintro ⟨p, q⟩ member
        obtain ⟨isP, isQ⟩ := List.of_mem_zip member
        have isP := Array.mem_toList_iff.mp isP
        exact ih (left.element isX isP) (right.element isY (Array.mem_toList_iff.mp isQ))
          (within.next (.element isX isP))
      · rw [if_neg size]
        refine .ok (iff_of_false (by simp) fun same => ?_)
        cases same with
        | refl => exact absurd rfl identical
        | string left' => cases view?_kind isX left'
        | tuple left' right' size' =>
          cases isX.symm.trans left'
          cases isY.symm.trans right'
          exact size size'
        | selector left' => cases view?_kind isX left'
    · rename_i x y isX isY
      have isX := view?_eq_some (α := Selector).mpr isX
      have isY := view?_eq_some (α := Selector).mpr isY
      obtain ⟨named, listed, keywords⟩ := left.ofSelector isX
      obtain ⟨named', listed', keywords'⟩ := right.ofSelector isY
      obtain ⟨name, isName⟩ := is_iff.mp named
      obtain ⟨name', isName'⟩ := is_iff.mp named'
      obtain ⟨list, isList⟩ := is_iff.mp listed
      obtain ⟨list', isList'⟩ := is_iff.mp listed'
      refine (selectorsAgree_decides (h := h)
        (decides_key (checkKey_of_view isName rfl) (checkKey_of_view isName' rfl)
          (ih (.ofText isName) (.ofText isName') (within.next (.name isX))))
        (decides_key (checkKey_of_view isList rfl) (checkKey_of_view isList' rfl)
          (ih keywords keywords' (within.next (.keywords isX))))).congr ⟨?_, fun same => ?_⟩
      · rintro ⟨name, argc, keywords, accessor⟩
        exact .selector isX isY name argc keywords accessor
      · cases same with
        | refl => exact absurd rfl identical
        | string left' => cases view?_kind isX left'
        | tuple left' => cases view?_kind isX left'
        | selector left' right' name argc keywords accessor =>
          cases isX.symm.trans left'
          cases isY.symm.trans right'
          exact ⟨name, argc, keywords, accessor⟩
    · rename_i noStrings noTuples noSelectors
      refine .ok (iff_of_false (by simp) fun same => ?_)
      cases same with
      | refl => exact identical rfl
      | string left' right' =>
        exact noStrings _ _ (view?_eq_some.mp left') (view?_eq_some.mp right')
      | tuple left' right' =>
        exact noTuples _ _ (view?_eq_some.mp left') (view?_eq_some.mp right')
      | selector left' right' =>
        exact noSelectors _ _ (view?_eq_some.mp left') (view?_eq_some.mp right')

theorem equal_decides (left : h.Comparable a) (right : h.Comparable b) :
    Decides (h.equal a b) (h.Same a b) := equalWith_decides left right left.within

theorem keyEqual_decides (left : h.Comparable a) (right : h.Comparable b)
    (isLeft : h.checkKey a = .ok ()) (isRight : h.checkKey b = .ok ()) :
    Decides (h.keyEqual a b) (h.Same a b) := decides_key isLeft isRight (equal_decides left right)

/-- A selector has a string for its name and a tuple of keywords whose contents form a tree. -/
structure WellNamed (h : Heap) (s : Selector) : Prop where
  named : h.is Text s.name = true
  listed : h.is Tuple s.keywords = true
  keywords : h.Comparable s.keywords

theorem selectorsEqual_decides {x y : Selector} (left : h.WellNamed x) (right : h.WellNamed y) :
    Decides (h.selectorsEqual x y) (h.SameMessage x y) := by
  obtain ⟨name, isName⟩ := is_iff.mp left.named
  obtain ⟨name', isName'⟩ := is_iff.mp right.named
  obtain ⟨list, isList⟩ := is_iff.mp left.listed
  obtain ⟨list', isList'⟩ := is_iff.mp right.listed
  exact selectorsAgree_decides
    (keyEqual_decides (.ofText isName) (.ofText isName') (checkKey_of_view isName rfl)
      (checkKey_of_view isName' rfl))
    (keyEqual_decides left.keywords right.keywords (checkKey_of_view isList rfl)
      (checkKey_of_view isList' rfl))

end Heap

end ObjectMachine
