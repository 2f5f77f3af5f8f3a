/-
# ObjectMachine.Proofs.Soundness -- what holds of every heap

Whatever is done to a heap, every object has a header that leads to a layout of its kind, a lambda
has disciplined code or none, and a stack has nothing to run or is parked (`Heap.Sound`). Stacks
that are `busy` are left out, the one that runs being such.

`Heap.Evolves` is what work on a heap may do between collections: make objects, and change objects
in what does not matter to frames.

* `Heap.Sound.evolve` -- a heap that has evolved is sound if what is new is.
* `Heap.Sound.extended`, `Heap.Sound.adjust` -- making an object and changing one.
-/
import Mathlib
import ObjectMachine.Proofs.Activation
import ObjectMachine.Proofs.Checks

namespace ObjectMachine

/-- Kinds of objects that are never written to. -/
@[simp] def Body.fixedKinds : List Kind :=
  [.string, .tuple, .method, .selector, .signature, .code, .context, .forwarder, .singleton]

/-- What every change to an object leaves as it is: its kind and size, what a layout says about its
instances, and all of an object that is never written to. -/
structure Body.Similar (b b' : Body) : Prop where
  kind : b'.kind = b.kind
  size : b'.size = b.size
  layout : ∀ l, b = .layout l → ∃ l', b' = .layout l' ∧ l'.kind = l.kind ∧ l'.fieldCount = l.fieldCount
  fixed : b.kind ∈ Body.fixedKinds → b' = b

/-- What frames know about a lambda. -/
structure Lambda.SameCode (l l' : Lambda) : Prop where
  code : l'.code = l.code
  constants : l'.constants = l.constants
  maxHeight : l'.maxHeight = l.maxHeight

/-- A change that leaves what runs as it is, too: what frames know about a lambda, all of a stack,
and which stack a task has. -/
structure Body.Kept (b b' : Body) : Prop extends b.Similar b' where
  lambda : ∀ l, b = .lambda l → ∃ l', b' = .lambda l' ∧ l.SameCode l'
  stack : b.kind = .stack → b' = b
  task : ∀ t, b = .task t → ∃ t', b' = .task t' ∧ t'.stack = t.stack

namespace Body

@[refl] theorem Similar.refl (b : Body) : b.Similar b :=
  ⟨rfl, rfl, fun l isLayout => ⟨l, isLayout, rfl, rfl⟩, fun _ => rfl⟩

theorem Similar.trans {a b c : Body} (first : a.Similar b) (second : b.Similar c) :
    a.Similar c where
  kind := second.kind.trans first.kind
  size := second.size.trans first.size
  layout := by
    intro l isLayout
    obtain ⟨l', isLayout', kind, count⟩ := first.layout l isLayout
    obtain ⟨l'', isLayout'', kind', count'⟩ := second.layout l' isLayout'
    exact ⟨l'', isLayout'', kind'.trans kind, count'.trans count⟩
  fixed := by
    intro isFixed
    have same := first.fixed isFixed
    subst same
    exact second.fixed isFixed

@[refl] theorem Kept.refl (b : Body) : b.Kept b :=
  ⟨.refl b, fun l isLambda => ⟨l, isLambda, rfl, rfl, rfl⟩, fun _ => rfl, fun t isTask => ⟨t, isTask, rfl⟩⟩

theorem Kept.trans {a b c : Body} (first : a.Kept b) (second : b.Kept c) : a.Kept c where
  toSimilar := first.toSimilar.trans second.toSimilar
  lambda := by
    intro l isLambda
    obtain ⟨l', isLambda', code, constants, declared⟩ := first.lambda l isLambda
    obtain ⟨l'', isLambda'', code', constants', declared'⟩ := second.lambda l' isLambda'
    exact ⟨l'', isLambda'', code'.trans code, constants'.trans constants, declared'.trans declared⟩
  stack := by
    intro isStack
    have same := first.stack isStack
    subst same
    exact second.stack isStack
  task := by
    intro t isTask
    obtain ⟨t', isTask', stack⟩ := first.task t isTask
    obtain ⟨t'', isTask'', stack'⟩ := second.task t' isTask'
    exact ⟨t'', isTask'', stack'.trans stack⟩

/-- Kinds of objects that what runs depends on. -/
def activeKinds : List Kind := [.layout, .lambda, .stack, .task] ++ fixedKinds

theorem Kept.ofPlain {b b' : Body} (kind : b'.kind = b.kind) (size : b'.size = b.size)
    (plain : b.kind ∉ activeKinds) : b.Kept b' := by
  simp only [activeKinds, List.mem_append, List.mem_cons, List.not_mem_nil, or_false, not_or] at plain
  obtain ⟨⟨noLayout, noLambda, noStack, noTask⟩, written⟩ := plain
  refine ⟨⟨kind, size, ?_, ?_⟩, ?_, ?_, ?_⟩
  · rintro l rfl
    exact absurd rfl noLayout
  · exact fun isFixed => absurd isFixed written
  · rintro l rfl
    exact absurd rfl noLambda
  · exact fun isStack => absurd isStack noStack
  · rintro t rfl
    exact absurd rfl noTask

end Body

namespace Heap

variable {busy busy' : Ref → Prop} {r : Ref}

section Views

variable {α : Type} [HeapKind α] {h : Heap} {v : Value} {data : α}

theorem view?_eq_some : h.view? α v = some data ↔ h.bodyOf? v = some (HeapKind.wrap data) := by
  unfold view?
  cases h.bodyOf? v with
  | none => simp
  | some body => simp [HeapKind.view?_eq_some]

theorem bodyOf?_eq_some {body : Body} :
    h.bodyOf? v = some body ↔ ∃ r o, v = .object r ∧ h.object? r = some o ∧ o.body = body := by
  cases v with
  | object r => simp [bodyOf?, Option.map_eq_some_iff]
  | _ => simp [bodyOf?]

theorem view?_iff : h.view? α v = some data ↔
    ∃ r o, v = .object r ∧ h.object? r = some o ∧ o.body = HeapKind.wrap data :=
  view?_eq_some.trans bodyOf?_eq_some

theorem cast_eq_ok : h.cast α v = .ok data ↔ h.view? α v = some data := by
  unfold cast
  cases h.view? α v <;> simp

theorem is_iff : h.is α v = true ↔ ∃ data, h.view? α v = some data := by
  rw [is, Option.isSome_iff_exists]

theorem object?_eq_some {o : Object} :
    h.object? r = some o ↔ h.objects[r.position]? = some o := Iff.rfl

end Views

/-- Objects stay where they are, with their headers, kinds and sizes. -/
def Stays (h h' : Heap) : Prop := ∀ r o, h.object? r = some o →
    ∃ o', h'.object? r = some o' ∧ o'.header = o.header ∧ o.body.Similar o'.body

namespace Stays

variable {h h' h'' : Heap} {v : Value}

@[refl] theorem refl (h : Heap) : h.Stays h := fun _ o found => ⟨o, found, rfl, .refl _⟩

theorem trans (first : h.Stays h') (second : h'.Stays h'') : h.Stays h'' := by
  intro r o found
  obtain ⟨o', found', header, similar⟩ := first r o found
  obtain ⟨o'', found'', header', similar'⟩ := second r o' found'
  exact ⟨o'', found'', header'.trans header, similar.trans similar'⟩

theorem body (stays : h.Stays h') {b : Body} (found : h.bodyOf? v = some b) :
    ∃ b', h'.bodyOf? v = some b' ∧ b.Similar b' := by
  obtain ⟨r, o, rfl, isObject, rfl⟩ := bodyOf?_eq_some.mp found
  obtain ⟨o', isObject', -, similar⟩ := stays r o isObject
  exact ⟨o'.body, bodyOf?_eq_some.mpr ⟨r, o', rfl, isObject', rfl⟩, similar⟩

theorem view_layout (stays : h.Stays h') {l : Layout} (found : h.view? Layout v = some l) :
    ∃ l', h'.view? Layout v = some l' ∧ l'.kind = l.kind ∧ l'.fieldCount = l.fieldCount := by
  obtain ⟨b', found', similar⟩ := stays.body (view?_eq_some.mp found)
  obtain ⟨l', rfl, same⟩ := similar.layout l rfl
  exact ⟨l', view?_eq_some.mpr found', same⟩

end Stays

/-- What may happen to a heap between collections: what runs is only touched where it is `loose`,
and a lambda that has code keeps it even there. -/
structure Evolves (loose : Ref → Prop) (h h' : Heap) : Prop where
  object : h.Stays h'
  kept : ∀ r b, h.bodyOf? (.object r) = some b → ¬ loose r →
    ∃ b', h'.bodyOf? (.object r) = some b' ∧ b.Kept b'
  lambda : ∀ v l, h.view? Lambda v = some l → h.is Code l.code = true →
    ∃ l', h'.view? Lambda v = some l' ∧ l.SameCode l'

namespace Evolves

variable {loose loose' : Ref → Prop} {h h' h'' : Heap} {v : Value} {s : Stack}

@[refl] theorem refl (loose : Ref → Prop) (h : Heap) : h.Evolves loose h :=
  ⟨.refl h, fun _ b found _ => ⟨b, found, .refl _⟩, fun _ l found _ => ⟨l, found, rfl, rfl, rfl⟩⟩

section

variable (evolves : h.Evolves loose h')
include evolves

theorem mono (le : ∀ r, loose r → loose' r) : h.Evolves loose' h' := ⟨evolves.object,
    fun r b found tight => evolves.kept r b found fun isLoose => tight (le r isLoose),
    evolves.lambda⟩

theorem body {b : Body} (found : h.bodyOf? v = some b) :
    ∃ b', h'.bodyOf? v = some b' ∧ b.Similar b' := evolves.object.body found

theorem view_layout {l : Layout} (found : h.view? Layout v = some l) :
    ∃ l', h'.view? Layout v = some l' ∧ l'.kind = l.kind ∧ l'.fieldCount = l.fieldCount :=
  evolves.object.view_layout found

theorem stack (found : h.bodyOf? (.object r) = some (.stack s)) (tight : ¬ loose r) :
    h'.bodyOf? (.object r) = some (.stack s) := by
  obtain ⟨b', found', kept⟩ := evolves.kept r _ found tight
  rw [found', kept.stack rfl]

theorem view_task {t : Task} (found : h.view? Task (.object r) = some t) (tight : ¬ loose r) :
    ∃ t', h'.view? Task (.object r) = some t' ∧ t'.stack = t.stack := by
  obtain ⟨b', found', kept⟩ := evolves.kept r _ (view?_eq_some.mp found) tight
  obtain ⟨t', rfl, same⟩ := kept.task t rfl
  exact ⟨t', view?_eq_some.mpr found', same⟩

theorem view_lambda {l : Lambda} (found : h.view? Lambda (.object r) = some l) (tight : ¬ loose r) :
    ∃ l', h'.view? Lambda (.object r) = some l' ∧ l.SameCode l' := by
  obtain ⟨b', found', kept⟩ := evolves.kept r _ (view?_eq_some.mp found) tight
  obtain ⟨l', rfl, same⟩ := kept.lambda l rfl
  exact ⟨l', view?_eq_some.mpr found', same⟩

/-- What is never written to stays as it is. -/
theorem view_fixed {κ : Type} [HeapKind κ] {data : κ} (fixed : HeapKind.kind κ ∈ Body.fixedKinds)
    (found : h.view? κ v = some data) : h'.view? κ v = some data := by
  obtain ⟨b', found', similar⟩ := evolves.body (view?_eq_some.mp found)
  rw [similar.fixed (HeapKind.kind_wrap data ▸ fixed)] at found'
  exact view?_eq_some.mpr found'

theorem is_code (isCode : h.is Code v = true) : h'.is Code v = true := by
  obtain ⟨c, found⟩ := is_iff.mp isCode
  exact is_iff.mpr ⟨c, evolves.view_fixed (by decide) found⟩

end

theorem trans (first : h.Evolves loose h') (second : h'.Evolves loose h'') :
    h.Evolves loose h'' where
  object := first.object.trans second.object
  kept := by
    intro r b found tight
    obtain ⟨b', found', kept⟩ := first.kept r b found tight
    obtain ⟨b'', found'', kept'⟩ := second.kept r b' found' tight
    exact ⟨b'', found'', kept.trans kept'⟩
  lambda := by
    intro v l found compiled
    obtain ⟨l', found', code, constants, declared⟩ := first.lambda v l found compiled
    obtain ⟨l'', found'', code', constants', declared'⟩ := second.lambda v l' found'
      (code ▸ first.is_code compiled)
    exact ⟨l'', found'', code'.trans code, constants'.trans constants, declared'.trans declared⟩

/-- What has just been made may be changed in any way. -/
theorem trans_fresh (first : h.Evolves loose h') (second : h'.Evolves loose' h'')
    (fresh : ∀ r, loose' r → h.object? r = none) : h.Evolves loose h'' := by
  have both := (first.mono fun _ isLoose => Or.inl isLoose).trans
    (second.mono fun _ isLoose => Or.inr isLoose)
  refine ⟨both.object, fun r b found tight => both.kept r b found ?_, both.lambda⟩
  rintro (isLoose | isLoose)
  · exact tight isLoose
  · obtain ⟨_, o, ⟨⟩, isObject, -⟩ := bodyOf?_eq_some.mp found
    rw [fresh r isLoose] at isObject
    cases isObject

variable (evolves : h.Evolves loose h')
include evolves

theorem is_lambda (isLambda : h.is Lambda v = true) : h'.is Lambda v = true := by
  obtain ⟨l, found⟩ := is_iff.mp isLambda
  obtain ⟨b', found', similar⟩ := evolves.body (view?_eq_some.mp found)
  cases b' with
  | lambda l' => exact is_iff.mpr ⟨l', view?_eq_some.mpr found'⟩
  | _ => cases similar.kind

/-- What is no code does not become code. -/
theorem is_code_iff (current : ∀ r, v = .object r → ∃ o, h.object? r = some o) :
    h'.is Code v = true ↔ h.is Code v = true := by
  refine ⟨fun isCode => ?_, evolves.is_code⟩
  obtain ⟨c, found'⟩ := is_iff.mp isCode
  obtain ⟨r, o', rfl, isObject', isBody'⟩ := view?_iff.mp found'
  obtain ⟨o, isObject⟩ := current r rfl
  obtain ⟨o'', isObject'', -, similar⟩ := evolves.object r o isObject
  cases isObject''.symm.trans isObject'
  have isCode : o.body.kind = .code := by
    rw [← similar.kind, isBody']
    rfl
  exact is_iff.mpr ⟨c, view?_iff.mpr ⟨r, o, rfl, isObject, by rw [← similar.fixed (by simp [isCode]), isBody']⟩⟩

theorem fieldCountsIn (pool : Array Value)
    (index : UInt16) (count : Nat) (known : h.fieldCountsIn pool index = some count) :
    h'.fieldCountsIn pool index = some count := by
  obtain ⟨v, isConstant, known⟩ := Option.bind_eq_some_iff.mp known
  obtain ⟨l, isLayout, rfl⟩ := Option.map_eq_some_iff.mp known
  obtain ⟨l', isLayout', -, same⟩ := evolves.view_layout isLayout
  simp [Heap.fieldCountsIn, isConstant, fieldCount?, isLayout', same]

theorem fieldCounts (constants : Value)
    (index : UInt16) (count : Nat) (known : h.fieldCounts constants index = some count) :
    h'.fieldCounts constants index = some count := by
  obtain ⟨t, isTuple, known⟩ := Option.bind_eq_some_iff.mp known
  simp [Heap.fieldCounts, evolves.view_fixed (by decide) isTuple, evolves.fieldCountsIn _ _ _ known]

theorem runs {l : Lambda} {c : Code} {pc height : Nat} (runs : h.Runs v l c pc height) :
    ∃ l', h'.Runs v l' c pc height ∧ l'.maxHeight = l.maxHeight := by
  obtain ⟨l', found', code, constants, declared⟩ := evolves.lambda v l runs.lambda (is_iff.mpr ⟨c, runs.code⟩)
  have more := evolves.fieldCounts l.constants
  refine ⟨l', ⟨found', ?_, ?_, ?_⟩, declared⟩
  · rw [code]
    exact evolves.view_fixed (by decide) runs.code
  · rw [constants, declared]
    exact runs.disciplined.mono more
  · rw [constants]
    exact (runs.disciplined.heightAt_iff more).mpr runs.path

theorem chain {words : Array Slot} {link : Nat → Link}
    {limit frame above pc : Nat} (chain : h.Chain words link limit frame above pc) :
    h'.Chain words link limit frame above pc := by
  refine chain.carry (f := id) (g := id) (fun _ => rfl) rfl (fun _ => rfl) ?_
    (fun _ _ _ _ isLambda => evolves.is_lambda isLambda)
    (fun _ _ _ _ _ _ _ _ runs => evolves.runs runs) le_rfl
  intro i _
  cases words[i]? with
  | none => rfl
  | some slot => cases slot <;> rfl

theorem parkedAs {home : Ref}
    {least top frame : Nat} {counter : Int} (parked : h.ParkedAs home s least top frame v counter) :
    h'.ParkedAs home s least top frame v counter :=
  { parked with isLambda := evolves.is_lambda parked.isLambda, chain := evolves.chain parked.chain }

theorem parked {home : Ref} {least : Nat} (parked : h.Parked home least s) :
    h'.Parked home least s := by
  obtain ⟨top, frame, v, counter, parked⟩ := parked
  exact ⟨top, frame, v, counter, evolves.parkedAs parked⟩

theorem atRest {home : Ref} (atRest : h.AtRest home s) :
    h'.AtRest home s := atRest.imp id evolves.parked

end Evolves

/-- The code of a lambda is an object of the heap unless it is missing, and is disciplined. -/
structure LambdaSound (h : Heap) (l : Lambda) : Prop where
  current : ∀ r, l.code = .object r → ∃ o, h.object? r = some o
  disciplined : ∀ c, h.view? Code l.code = some c →
    Disciplined c.units (h.fieldCounts l.constants) l.maxHeight

/-- What holds of the object at `r`. -/
structure ObjectSound (busy : Ref → Prop) (h : Heap) (r : Ref) (o : Object) : Prop where
  described : ∃ layout, o.header = .layout layout ∧ h.Describes layout o.body
  lambda : ∀ l, o.body = .lambda l → h.LambdaSound l
  stack : ∀ s, o.body = .stack s → ¬ busy r → h.AtRest r s

/-- What holds of every heap, stacks that are `busy` left out. -/
structure Sound (busy : Ref → Prop) (h : Heap) : Prop where
  accounted : h.Accounted
  addressable : h.capacity < Space.addressLimit
  objects : ∀ r o, h.object? r = some o → h.ObjectSound busy r o

theorem Sound.settle {h : Heap} (sound : h.Sound busy)
    (settled : ∀ r s, busy r → ¬ busy' r → h.bodyOf? (.object r) = some (.stack s) → h.AtRest r s) :
    h.Sound busy' := by
  refine ⟨sound.accounted, sound.addressable, fun r o found =>
    { sound.objects r o found with stack := fun s isStack idle => ?_ }⟩
  by_cases isBusy : busy r
  · exact settled r s isBusy idle (bodyOf?_eq_some.mpr ⟨r, o, rfl, found, isStack⟩)
  · exact (sound.objects r o found).stack s isStack isBusy

theorem Sound.mono {h : Heap} (sound : h.Sound busy) (le : ∀ r, busy r → busy' r) : h.Sound busy' :=
  sound.settle fun r _ isBusy idle _ => absurd (le r isBusy) idle

section Evolving

variable {busy loose : Ref → Prop} {h h' : Heap}

theorem Describes.stay {b b' : Body} (described : h.Describes r b) (stays : h.Stays h')
    (similar : b.Similar b') : h'.Describes r b' := by
  obtain ⟨l, found, kind, count⟩ := described
  obtain ⟨l', found', kind', count'⟩ := stays.view_layout found
  refine ⟨l', found', by rw [kind', kind, similar.kind], ?_⟩
  rintro i rfl
  cases b with
  | inst j =>
    have size := similar.size
    simp only [Body.size] at size
    rw [count', ← count j rfl]
    omega
  | _ => cases similar.kind

theorem LambdaSound.evolve {l l' : Lambda} (sound : h.LambdaSound l) (evolves : h.Evolves loose h')
    (same : l.SameCode l') : h'.LambdaSound l' where
  current := by
    intro r isCode
    obtain ⟨o, found⟩ := sound.current r (same.code ▸ isCode)
    obtain ⟨o', found', -⟩ := evolves.object r o found
    exact ⟨o', found'⟩
  disciplined := by
    intro c found'
    rw [same.constants, same.maxHeight]
    rw [same.code] at found'
    -- the code was there before, and it was this code
    obtain ⟨c', found⟩ := is_iff.mp ((evolves.is_code_iff sound.current).mp (is_iff.mpr ⟨c, found'⟩))
    cases (evolves.view_fixed (by decide) found).symm.trans found'
    exact (sound.disciplined c found).mono (evolves.fieldCounts l.constants)

theorem Sound.evolve (sound : h.Sound busy) (evolves : h.Evolves loose h')
    (tight : ∀ r s, h.bodyOf? (.object r) = some (.stack s) → loose r → busy r)
    (accounted : h'.Accounted) (capacity : h'.capacity = h.capacity) (lambdas : ∀ v l l',
      h.view? Lambda v = some l → h'.view? Lambda v = some l' → l.SameCode l' ∨ h'.LambdaSound l')
    (fresh : ∀ r o, h'.object? r = some o → h.object? r = none → h'.ObjectSound busy r o) :
    h'.Sound busy := by
  refine ⟨accounted, capacity ▸ sound.addressable, fun r o' found' => ?_⟩
  cases found : h.object? r with
  | none => exact fresh r o' found' found
  | some o =>
    obtain ⟨o'', found'', header, similar⟩ := evolves.object r o found
    obtain rfl : o'' = o' := Option.some.inj (found''.symm.trans found')
    have isBody : h.bodyOf? (.object r) = some o.body := bodyOf?_eq_some.mpr ⟨r, o, rfl, found, rfl⟩
    have isBody' : h'.bodyOf? (.object r) = some o''.body := bodyOf?_eq_some.mpr ⟨r, o'', rfl, found', rfl⟩
    have old := sound.objects r o found
    have kind := similar.kind
    refine ⟨?_, fun l' isLambda' => ?_, fun s' isStack' idle => ?_⟩
    · obtain ⟨layout, isLayout, described⟩ := old.described
      exact ⟨layout, header.trans isLayout, described.stay evolves.object similar⟩
    · cases isLambda : o.body with
      | lambda l =>
        rw [isLambda] at isBody
        rw [isLambda'] at isBody'
        obtain same | new := lambdas (.object r) l l' (view?_eq_some.mpr isBody) (view?_eq_some.mpr isBody')
        · exact (old.lambda l isLambda).evolve evolves same
        · exact new
      | _ => rw [isLambda', isLambda] at kind; cases kind
    · cases isStack : o.body with
      | stack s =>
        rw [isStack] at isBody
        have same := evolves.stack isBody fun isLoose => idle (tight r s isBody isLoose)
        rw [isBody', isStack'] at same
        obtain rfl : s' = s := Body.stack.inj (Option.some.inj same)
        exact evolves.atRest (old.stack s' isStack idle)
      | _ => rw [isStack', isStack] at kind; cases kind

end Evolving

section Adjusting

variable {busy loose : Ref → Prop} {h : Heap} {v : Value} {f : Body → Body}

theorem object?_adjust (r q : Ref) : (h.adjust (.object r) f).object? q =
    (h.object? q).map fun o => if r = q then { o with body := f o.body } else o := by
  simp only [adjust, object?, Array.getElem?_modify]
  by_cases here : r = q
  · subst here
    simp
  · have differs : r.position ≠ q.position := fun same => here (by cases r; cases q; simp_all)
    simp [here, differs]

theorem bodyOf?_adjust {w : Value} {b : Body} (found : h.bodyOf? w = some b) :
    (h.adjust v f).bodyOf? w = some (if v = w then f b else b) := by
  obtain ⟨q, o, rfl, isObject, rfl⟩ := bodyOf?_eq_some.mp found
  rw [bodyOf?_eq_some]
  cases v with
  | object r =>
    refine ⟨q, _, rfl, by rw [object?_adjust, isObject]; rfl, ?_⟩
    by_cases here : r = q <;> simp [here]
  | _ => exact ⟨q, o, rfl, isObject, by simp⟩

theorem adjust_stays (similar : ∀ b, h.bodyOf? v = some b → b.Similar (f b)) :
    h.Stays (h.adjust v f) := by
  intro q o found
  cases v with
  | object r =>
    rw [object?_adjust, found]
    by_cases here : r = q
    · subst here
      exact ⟨{ o with body := f o.body }, by simp, rfl,
        similar _ (bodyOf?_eq_some.mpr ⟨r, o, rfl, found, rfl⟩)⟩
    · exact ⟨o, by simp [here], rfl, .refl _⟩
  | _ => exact ⟨o, found, rfl, .refl _⟩

theorem adjust_evolves (similar : ∀ b, h.bodyOf? v = some b → b.Similar (f b))
    (kept : ∀ r b, v = .object r → h.bodyOf? v = some b → ¬ loose r → b.Kept (f b))
    (compiled : ∀ l, h.bodyOf? v = some (.lambda l) → h.is Code l.code = true →
      ∃ l', f (.lambda l) = .lambda l' ∧ l.SameCode l') : h.Evolves loose (h.adjust v f) where
  object := adjust_stays similar
  kept := by
    intro r b found tight
    refine ⟨_, bodyOf?_adjust found, ?_⟩
    by_cases here : v = .object r
    · subst here
      rw [if_pos rfl]
      exact kept r b rfl found tight
    · rw [if_neg here]
  lambda := by
    intro w l found isCompiled
    have after := bodyOf?_adjust (v := v) (f := f) (view?_eq_some.mp found)
    by_cases here : v = w
    · subst here
      obtain ⟨l', isLambda', same⟩ := compiled l (view?_eq_some.mp found) isCompiled
      rw [if_pos rfl] at after
      exact ⟨l', view?_eq_some.mpr (after.trans (congrArg some isLambda')), same⟩
    · rw [if_neg here] at after
      exact ⟨l, view?_eq_some.mpr after, rfl, rfl, rfl⟩

/-- Changing an object in what nothing that runs depends on. -/
theorem adjust_evolves_of_kept (kept : ∀ b, h.bodyOf? v = some b → b.Kept (f b)) :
    h.Evolves (fun _ => False) (h.adjust v f) :=
  adjust_evolves (fun b found => (kept b found).toSimilar) (fun _ b _ found _ => kept b found)
    fun l found _ => (kept _ found).lambda l rfl

variable (similar : ∀ b, h.bodyOf? v = some b → b.Similar (f b))

include similar in
theorem adjust_accounted (accounted : h.Accounted) : (h.adjust v f).Accounted := by
  cases v with
  | object r =>
    have sizes : (h.adjust (.object r) f).objects.toList.map (fun o => Size.roundUp o.body.size) =
        h.objects.toList.map fun o => Size.roundUp o.body.size := by
      apply List.ext_getElem?
      intro i
      have here := object?_adjust (h := h) (f := f) r ⟨i⟩
      simp only [object?] at here
      rw [List.getElem?_map, List.getElem?_map, Array.getElem?_toList, Array.getElem?_toList, here]
      cases found : h.objects[i]? with
      | none => rfl
      | some o =>
        by_cases same : r = ⟨i⟩
        · subst same
          have size := (similar _ (bodyOf?_eq_some.mpr ⟨_, o, rfl, found, rfl⟩)).size
          simp [size]
        · simp [same]
    exact ⟨by rw [sizes]; exact accounted.used, accounted.fits⟩
  | _ => exact accounted

/-- A heap is sound after one object has been changed if what runs has been touched in busy stacks
only, and a lambda has got sound code. -/
theorem Sound.adjust (sound : h.Sound busy) (evolves : h.Evolves loose (h.adjust v f))
    (tight : ∀ r s, h.bodyOf? (.object r) = some (.stack s) → loose r → busy r)
    (similar : ∀ b, h.bodyOf? v = some b → b.Similar (f b))
    (lambdas : ∀ l l', h.bodyOf? v = some (.lambda l) → f (.lambda l) = .lambda l' →
      l.SameCode l' ∨ (h.adjust v f).LambdaSound l') : (h.adjust v f).Sound busy := by
  refine sound.evolve evolves tight (adjust_accounted similar sound.accounted) ?_ ?_ ?_
  · cases v <;> rfl
  · intro w l l' found found'
    have after := bodyOf?_adjust (v := v) (f := f) (view?_eq_some.mp found)
    rw [view?_eq_some.mp found'] at after
    by_cases here : v = w
    · subst here
      rw [if_pos rfl] at after
      exact lambdas l l' (view?_eq_some.mp found) (Option.some.inj after).symm
    · rw [if_neg here] at after
      cases after
      exact .inl ⟨rfl, rfl, rfl⟩
  · intro r o found absent
    cases v with
    | object q =>
      rw [object?_adjust, absent] at found
      cases found
    | _ => exact absurd (absent.symm.trans found) (by simp)

theorem Sound.adjust_of_kept (sound : h.Sound busy)
    (kept : ∀ b, h.bodyOf? v = some b → b.Kept (f b)) : (h.adjust v f).Sound busy := by
  refine sound.adjust (adjust_evolves_of_kept kept) (fun _ _ _ absurd => absurd.elim)
    (fun b found => (kept b found).toSimilar) ?_
  intro l l' found becomes
  obtain ⟨l'', isLambda, same⟩ := (kept _ found).lambda l rfl
  cases becomes.symm.trans isLambda
  exact .inl same

end Adjusting

section Allocating

variable {busy : Ref → Prop} {h : Heap} {size : Nat} {object : Unit → Object}
variable {o : Object}

/-- A heap with one object more, for which `size` bytes are taken. -/
def extended (h : Heap) (o : Object) (size : Nat) : Heap :=
  { h with objects := h.objects.push o
           space := { h.space with used := h.space.used + Size.roundUp size } }

theorem object?_extended (o : Object) (r : Ref) : (h.extended o size).object? r =
    if r.position = h.objects.size then some o else h.object? r := by
  simp only [extended, object?, Array.getElem?_push]

theorem object?_extended_of_some {o old : Object} (found : h.object? r = some old) :
    (h.extended o size).object? r = some old := by
  have inside := (Array.getElem?_eq_some_iff.mp found).1
  rw [object?_extended, if_neg (by omega), found]

theorem bodyOf?_extended_of_some {v : Value} {body : Body} (found : h.bodyOf? v = some body) :
    (h.extended o size).bodyOf? v = some body := by
  obtain ⟨r, old, rfl, isObject, isBody⟩ := bodyOf?_eq_some.mp found
  exact bodyOf?_eq_some.mpr ⟨r, old, rfl, object?_extended_of_some isObject, isBody⟩

theorem extended_evolves (h : Heap) (o : Object) (size : Nat) :
    h.Evolves (fun _ => False) (h.extended o size) where
  object := fun _ old found => ⟨old, object?_extended_of_some found, rfl, .refl _⟩
  kept := fun _ b found _ => ⟨b, bodyOf?_extended_of_some found, .refl _⟩
  lambda := fun _ l found _ => ⟨l, view?_eq_some.mpr (bodyOf?_extended_of_some
    (view?_eq_some.mp found)), rfl, rfl, rfl⟩

theorem Accounted.extended (accounted : h.Accounted)
    (fits : Size.roundUp size = Size.roundUp o.body.size) (room : Size.roundUp size ≤ h.free) :
    (h.extended o size).Accounted := by
  constructor
  · have used := accounted.used
    simp only [Heap.used] at used
    simp [Heap.extended, Heap.used, used, fits]
  · have fits := accounted.fits
    simp only [free, Space.free, Heap.used, capacity, Heap.extended] at room fits ⊢
    omega

theorem Sound.extended (sound : h.Sound busy)
    (fits : Size.roundUp size = Size.roundUp o.body.size) (room : Size.roundUp size ≤ h.free)
    (new : (h.extended o size).ObjectSound busy ⟨h.objects.size⟩ o) :
    (h.extended o size).Sound busy := by
  have evolves := extended_evolves h o size
  refine sound.evolve evolves (fun _ _ _ absurd => absurd.elim) (sound.accounted.extended fits room)
    rfl ?_ ?_
  · intro v l l' found found'
    have same := (view?_eq_some.mp found').symm.trans (bodyOf?_extended_of_some (view?_eq_some.mp found))
    obtain rfl : l' = l := Body.lambda.inj (Option.some.inj same)
    exact .inl ⟨rfl, rfl, rfl⟩
  · intro r o' found absent
    rw [object?_extended] at found
    by_cases last : r.position = h.objects.size
    · rw [if_pos last] at found
      cases found
      obtain rfl : r = ⟨h.objects.size⟩ := by cases r; simp_all
      exact new
    · rw [if_neg last, absent] at found
      cases found

end Allocating

end Heap

end ObjectMachine
