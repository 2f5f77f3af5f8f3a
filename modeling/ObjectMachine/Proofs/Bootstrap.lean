/-
# ObjectMachine.Proofs.Bootstrap -- the first objects are in order

The first objects are made without a look at the space they are made in. So they are the same in
every space that has room for them, and what is to be known of them is computed once.

* `Store.alike_of_create` -- new stores differ in their spaces at most.
* `Store.holds_of_create` -- what can be decided of one new store holds of all.
* `Machine.idle_of_create` -- a machine that has been created is idle.
-/
import Mathlib
import ObjectMachine.Proofs.Machines

namespace ObjectMachine

theorem Heap.accounted_of_create {settings : HeapSettings}
    {h : Heap} (created : Heap.create settings = .ok h) :
    h.objects = #[] ∧ h.Accounted ∧ h.capacity < Space.addressLimit := by
  obtain ⟨space, isSpace, created⟩ := ok_of_bind created
  cases created
  unfold Space.create at isSpace
  split at isSpace
  · rename_i small
    cases isSpace
    exact ⟨rfl, ⟨rfl, Nat.zero_le _⟩, small⟩
  · cases isSpace

namespace Store

variable {α β : Type}

/-- The second store has the objects and roots of the first, in a space that is in order. -/
structure Alike (s t : Store) : Prop where
  objects : t.heap.objects = s.heap.objects
  roots : t.roots = s.roots
  accounted : t.heap.Accounted
  addressable : t.heap.capacity < Space.addressLimit

/-- Work that makes the same objects in every space that has room for them. -/
def Blind (work : Alloc α) : Prop :=
  ∀ ⦃s t a b s' t'⦄, Alike s t → work s = .ok a s' → work t = .ok b t' → a = b ∧ Alike s' t'

theorem blind_pure (answer : α) : Blind (pure answer) := by
  rintro s t _ _ _ _ alike ⟨⟩ ⟨⟩
  exact ⟨rfl, alike⟩

theorem Blind.bind {first : Alloc α} {next : α → Alloc β} (blind : Blind first)
    (rest : ∀ answer, Blind (next answer)) : Blind (first >>= next) := by
  intro s t a b s' t' alike done done'
  obtain ⟨middle, s₁, ran, done⟩ := Action.bind_ok done
  obtain ⟨middle', t₁, ran', done'⟩ := Action.bind_ok done'
  obtain ⟨rfl, alike₁⟩ := blind alike ran ran'
  exact rest middle alike₁ done done'

theorem blind_ask {f : Store → α} (same : ∀ s t, Alike s t → f s = f t) : Blind (ask f) := by
  rintro s t _ _ _ _ alike ⟨⟩ ⟨⟩
  exact ⟨same s t alike, alike⟩

theorem blind_violate (violation : Violation) : Blind (Action.violate violation : Alloc α) := by
  rintro s t a b s' t' - ⟨⟩

theorem blind_lift_bind {result : Except Violation α} {next : α → Alloc β}
    (rest : ∀ answer, result = .ok answer → Blind (next answer)) :
    Blind ((liftM result : EStateM (Stop Signal) Store α) >>= next) := by
  cases result with
  | ok answer => exact rest answer rfl
  | error violation => exact blind_violate violation

theorem Blind.forM {work : α → Alloc Unit} (each : ∀ a, Blind (work a)) (list : List α) :
    Blind (list.forM work) := by
  induction list with
  | nil => exact blind_pure ()
  | cons a list ih => exact (each a).bind fun _ => ih

theorem Blind.mapM {work : α → Alloc β} (each : ∀ a, Blind (work a)) (list : List α) :
    Blind (list.mapM work) := by
  induction list with
  | nil => exact blind_pure []
  | cons a list ih =>
    rw [List.mapM_cons]
    exact (each a).bind fun _ => ih.bind fun _ => blind_pure _

theorem blind_modifyRoots (f : Roots → Roots) : Blind (modifyRoots f) := by
  rintro s t _ _ _ _ alike ⟨⟩ ⟨⟩
  exact ⟨rfl, { alike with roots := congrArg f alike.roots }⟩

theorem blind_modifyLayout (kind : Kind)
    {f : Layout → Layout} (same : ∀ l, (f l).kind = l.kind ∧ (f l).fieldCount = l.fieldCount) :
    Blind (modifyLayout kind f) := by
  rintro s t _ _ _ _ ⟨objects, roots, accounted, addressable⟩ ⟨⟩ ⟨⟩
  refine ⟨rfl, by simp only [Heap.adjust, objects, roots], roots, ?_, addressable⟩
  dsimp only
  refine Heap.adjust_accounted (fun b _ => ?_) accounted
  cases b with
  | layout l => exact ⟨rfl, rfl, by rintro _ ⟨⟩; exact ⟨f l, rfl, same l⟩, by simp [Body.kind]⟩
  | _ => exact .refl _

theorem blind_placeAs (layout : Ref)
    {size : Nat} {body : Unit → Body} (fits : Size.roundUp size = Size.roundUp (body ()).size) :
    Blind (Make.placeAs layout size body) := by
  refine Blind.bind ?_ fun _ => blind_pure _
  rintro s t a b s' t' ⟨objects, roots, accounted, addressable⟩ done done'
  obtain ⟨-, rfl, rfl⟩ := Make.onHeap_allocate_ok done
  obtain ⟨room, rfl, rfl⟩ := Make.onHeap_allocate_ok done'
  exact ⟨by rw [objects], by simp only [Heap.extended, objects], roots, accounted.extended fits room, addressable⟩

theorem blind_placeLazy {kind : Kind}
    {size : Nat} {body : Unit → Body} (fits : Size.roundUp size = Size.roundUp (body ()).size) :
    Blind (Make.placeLazy kind size body) :=
  (blind_ask fun _ _ alike => by rw [alike.roots]).bind fun _ => blind_placeAs _ fits

theorem blind_place {size : Nat} {body : Body} (fits : Size.roundUp size = Size.roundUp body.size) :
    Blind (Make.place size body) := blind_placeLazy fits

theorem blind_places {work : Alloc α} (places : Make.Places work) : Blind work := by
  induction places with
  | done answer => exact blind_pure answer
  | refused storage => exact blind_violate _
  | root f _ ih => exact (blind_ask fun _ _ alike => by rw [alike.roots]).bind ih
  | lift _ _ ih => exact blind_lift_bind ih
  | place _ _ fits => exact blind_placeLazy fits
  | bind _ _ ih ih' => exact ih.bind ih'

theorem blind_plain (making : Making) (plain : making.isPlain = true) : Blind making.work :=
  blind_places (making.places plain)

theorem blind_made {work : Alloc Value} (blind : Blind work) : Blind (made work) := by
  refine blind.bind fun v => ?_
  cases v with
  | object ref => exact blind_pure ref
  | _ => exact blind_violate _

theorem blind_bootstrap : Blind bootstrap := by
  have layouts : Blind makeLayouts := Blind.forM (fun kind =>
    (blind_ask fun _ _ alike => by rw [alike.objects]).bind fun _ => (blind_placeAs _ (by rfl)).bind fun _ =>
      blind_modifyRoots _) _
  have protocols : ∀ parent, Blind (makeProtocols parent) := fun parent => Blind.mapM (fun kind =>
    (blind_plain (.string _) rfl).bind fun _ => (blind_plain (.protocol _ _) rfl).bind fun _ => blind_pure _) _
  have singleton : ∀ ordinal, Blind (made (Make.singleton ordinal)) := fun _ =>
    blind_made (blind_plain (.singleton _) rfl)
  have lambda : ∀ data, Blind (Make.lambda data) := fun data => (blind_place rfl).bind fun _ =>
    blind_lift_bind fun _ _ => blind_lift_bind fun _ _ => blind_pure _
  unfold bootstrap
  refine layouts.bind fun _ => (blind_made (blind_plain (.tuple _) rfl)).bind fun _ =>
    (Blind.forM (fun _ => blind_modifyLayout _ (by simp)) _).bind fun _ => (blind_modifyRoots _).bind fun _ =>
    (singleton _).bind fun _ => (singleton _).bind fun _ => (singleton _).bind fun _ =>
    (singleton _).bind fun _ =>
    (blind_modifyRoots _).bind fun _ => (blind_plain (.string _) rfl).bind fun _ =>
    (blind_made (blind_plain (.protocol _ _) rfl)).bind fun _ => (protocols _).bind fun _ =>
    (Blind.forM (fun _ => blind_modifyLayout _ (by simp)) _).bind fun _ => (blind_made (blind_plain (.string _) rfl)).bind
    fun _ => (blind_made (blind_place (by rfl))).bind fun _ => (blind_plain (.code _) rfl).bind fun _ =>
    (blind_made (lambda _)).bind fun _ => (blind_made (blind_plain (.table _) rfl)).bind fun _ =>
    blind_modifyRoots _

/-- The first objects are the same in every space. -/
theorem alike_of_create {settings settings' : HeapSettings} {s t : Store}
    (created : create settings = .ok s) (created' : create settings' = .ok t) : s.Alike t := by
  have steps : ∀ {settings s}, create settings = .ok s → ∃ heap, heap.objects = #[] ∧ heap.Accounted ∧
      heap.capacity < Space.addressLimit ∧ bootstrap { heap, roots := Roots.unset } = .ok () s := by
    intro settings s created
    unfold create at created
    split at created
    · cases created
    · rename_i heap isHeap
      split at created
      · rename_i done
        cases created
        obtain ⟨empty, accounted, small⟩ := Heap.accounted_of_create isHeap
        exact ⟨heap, empty, accounted, small, done⟩
      · cases created
  obtain ⟨heap, empty, -, -, done⟩ := steps created
  obtain ⟨heap', empty', accounted, small, done'⟩ := steps created'
  have start : Alike ⟨heap, Roots.unset⟩ ⟨heap', Roots.unset⟩ := ⟨empty'.trans empty.symm, rfl, accounted, small⟩
  exact (blind_bootstrap start done done').2

theorem exists_create : ∃ s, create {} = .ok s := by
  have done : (create {}).isOk = true := by decide +kernel
  cases created : create {} with
  | ok s => exact ⟨s, rfl⟩
  | error error =>
    rw [created] at done
    cases done

/-- What can be decided of the objects and roots of one new store holds of all. -/
theorem holds_of_create (p : Store → Prop) [DecidablePred p] (same : ∀ {s t}, s.Alike t → (p t ↔ p s))
    (first : (match create {} with
      | .ok s => decide (p s)
      | .error _ => false) = true)
    {settings : HeapSettings} {s : Store} (created : create settings = .ok s) : p s := by
  split at first
  · rename_i isFirst
    exact (same (alike_of_create isFirst created)).mpr (of_decide_eq_true first)
  · cases first

end Store

namespace Heap

variable {h : Heap}

/-- Whether the layout of a kind lies there. -/
def isLayout (h : Heap) (kind : Kind) (r : Ref) : Bool :=
  (h.view? Layout (.object r)).any fun l => decide (l.kind = kind)

/-- Whether an object is described, and neither an instance nor a stack. -/
def isStill (h : Heap) (o : Object) : Bool :=
  (match o.header with
    | .layout l => h.isLayout o.body.kind l
    | .forward _ => false) &&
  match o.body with
  | .inst _ | .stack _ => false
  | _ => true

/-- Whether a body has no code to run. -/
def isBlank (h : Heap) : Body → Bool
  | .lambda l => (h.view? Code l.code).any fun c => decide (c.units = #[])
  | _ => true

theorem view_of_isLayout {kind : Kind} {r : Ref} (isLayout : h.isLayout kind r = true) :
    ∃ l, h.view? Layout (.object r) = some l ∧ l.kind = kind := by
  simpa [Heap.isLayout, Option.any_eq_true] using isLayout

/-- A lambda without instructions is disciplined. -/
theorem lambdaSound_empty {h : Heap} {l : Lambda} (code : h.view? Code l.code = some ⟨#[]⟩) :
    h.LambdaSound l where
  current := by
    intro r isCode
    obtain ⟨q, o, isRef, found, -⟩ := Heap.view?_iff.mp code
    cases isCode.symm.trans isRef
    exact ⟨o, found⟩
  disciplined := by
    intro c isCode
    cases code.symm.trans isCode
    refine .ofTable [(0, 0)] (by decide) (by simp) fun entry member => ?_
    cases List.mem_singleton.mp member
    rfl

theorem described_of_isStill {o : Object} (still : h.isStill o = true) :
    (∃ l, o.header = .layout l ∧ h.Describes l o.body) ∧ ∀ s, o.body ≠ .stack s := by
  obtain ⟨header, body⟩ := o
  simp only [isStill, Bool.and_eq_true] at still
  obtain ⟨described, still⟩ := still
  cases header with
  | forward target => cases described
  | layout l =>
    obtain ⟨layout, found, isKind⟩ := view_of_isLayout described
    refine ⟨⟨l, rfl, layout, found, isKind, ?_⟩, ?_⟩ <;>
    · rintro _ rfl
      cases still

theorem objectSound_of_isStill {busy : Ref → Prop} {r : Ref} {o : Object}
    (still : h.isStill o = true) (blank : h.isBlank o.body = true) : h.ObjectSound busy r o := by
  obtain ⟨described, noStack⟩ := described_of_isStill still
  refine ⟨described, fun l isLambda => ?_, fun s isStack => absurd isStack (noStack s)⟩
  rw [isLambda] at blank
  obtain ⟨⟨units⟩, isCode, empty⟩ := (Option.any_eq_true _ _).mp blank
  obtain rfl : units = #[] := of_decide_eq_true empty
  exact lambdaSound_empty isCode

end Heap

/-- What can be seen of a store without instances and stacks: its references lead to objects, which
are all still; each kind has its layout; and the constants have their ordinals. -/
def Store.Tidy (s : Store) : Prop :=
  (∀ r ∈ s.roots.refs, r.position < s.heap.objects.size) ∧
  (∀ o ∈ s.heap.objects.toList, s.heap.isStill o = true ∧
    ∀ v ∈ o.body.held, ∀ r ∈ v.asRef?, r.position < s.heap.objects.size) ∧
  (∀ kind ∈ Kind.all, s.heap.isLayout kind (s.roots.layout kind) = true) ∧
  s.heap.is Lambda (.object s.roots.emptyLambda) = true ∧ s.Named

instance : DecidablePred Store.Named := fun s => inferInstanceAs (Decidable (∀ c ∈ s.roots.constants, _))

instance : DecidablePred Store.Tidy := fun _ => inferInstanceAs (Decidable (_ ∧ _))

/-- A new store is tidy, and there is no code in it. -/
theorem Store.tidy_of_create {settings : HeapSettings}
    {s : Store} (created : create settings = .ok s) :
    s.Tidy ∧ ∀ o ∈ s.heap.objects.toList, s.heap.isBlank o.body = true :=
  holds_of_create (fun s => s.Tidy ∧ ∀ o ∈ s.heap.objects.toList, s.heap.isBlank o.body = true)
    (fun ⟨objects, roots, _, _⟩ => by
      simp only [Tidy, Named, Heap.isStill, Heap.isBlank, Heap.isLayout, Heap.is, Heap.view?, Heap.bodyOf?,
        Heap.object?, objects, roots])
    (by decide +kernel) created

namespace Machine

variable {m : Machine}

/-- A machine that has just been created runs nothing and is in order. -/
theorem idle_of_create {settings : Settings} {log : Log} (created : create settings log = .ok m) :
    m.Idle := by
  unfold create at created
  split at created
  · cases created
  · split at created
    · cases created
    · rename_i isStore
      cases created
      obtain ⟨⟨-, objects, layouts, bottom, named⟩, blank⟩ := Store.tidy_of_create isStore
      have alike := Store.alike_of_create isStore isStore
      refine ⟨⟨⟨alike.accounted, alike.addressable, fun r o found => ?_⟩, fun kind => ?_⟩, named, bottom,
        by rintro i handle ⟨⟩, by rintro compiler ⟨⟩⟩
      · have member := Array.mem_toList_iff.mpr (Array.mem_of_getElem? found)
        exact Heap.objectSound_of_isStill (objects o member).1 (blank o member)
      · exact Heap.view_of_isLayout (layouts kind kind.mem_all)

end Machine

end ObjectMachine
