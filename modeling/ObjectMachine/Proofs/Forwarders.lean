/-
# ObjectMachine.Proofs.Forwarders -- forwarders lead somewhere

A forwarder stands for the target of its descriptor, which may be a forwarder again. Nothing that
happens to a heap lets forwarders go in a circle: a new one leads to what was there before it, and
an open descriptor refuses a target from which it is reached (`Heap.Wired`). A closed descriptor
stays as it is.

* `Heap.leadsTo_decides` -- the test for circles is right.
* `Heap.Event.wired` -- every event leaves forwarders leading somewhere.
* `Heap.Event.closed` -- and closed descriptors alone.
* `Heap.forwarders_acyclic` -- forwarders over every history.
-/
import Mathlib
import ObjectMachine.Proofs.Crews
import ObjectMachine.Proofs.Histories

namespace ObjectMachine

open ObjectMachine.Action (Asks bind_ok)

namespace Heap

variable {h h' : Heap} {kept : Ref → Prop} {place : Ref → Ref} {v w descriptor target : Value}
  {d d' : Descriptor} {f : Forwarder} {r : Ref}

section Following

/-- Following forwarders from `v` comes by the descriptor. -/
def Reaches (h : Heap) (v descriptor : Value) : Prop :=
  ∃ w f, Relation.ReflTransGen h.ForwardsTo v w ∧ h.view? Forwarder w = some f ∧ f.descriptor = descriptor

theorem StandsFor.plain (stands : h.StandsFor v w) : h.view? Forwarder w = none := by
  induction stands with
  | itself plain => exact plain
  | through _ _ ih => exact ih

theorem StandsFor.acyclic (stands : h.StandsFor v w) : ¬ Relation.TransGen h.ForwardsTo v v := by
  induction stands with
  | itself plain =>
    intro circle
    obtain ⟨_, ⟨_, _, isForwarder, -⟩, -⟩ := Relation.TransGen.head'_iff.mp circle
    cases plain.symm.trans isForwarder
  | through forwards _ ih =>
    intro circle
    obtain ⟨_, forwards', path⟩ := Relation.TransGen.head'_iff.mp circle
    obtain ⟨f, d, isForwarder, isDescriptor, rfl⟩ := forwards
    obtain ⟨f', d', isForwarder', isDescriptor', rfl⟩ := forwards'
    cases isForwarder.symm.trans isForwarder'
    cases isDescriptor.symm.trans isDescriptor'
    exact ih (.tail' path ⟨f, d, isForwarder, isDescriptor, rfl⟩)

theorem reaches_iff_of_plain (plain : h.view? Forwarder v = none) : ¬ h.Reaches v descriptor := by
  rintro ⟨w, f, path, isForwarder, -⟩
  obtain rfl | ⟨_, ⟨_, _, isForwarder', -⟩, -⟩ := path.cases_head
  · cases plain.symm.trans isForwarder
  · cases plain.symm.trans isForwarder'

theorem reaches_iff_of_forwarder (isForwarder : h.view? Forwarder v = some f)
    (isDescriptor : h.view? Descriptor f.descriptor = some d) :
    h.Reaches v descriptor ↔ f.descriptor = descriptor ∨ h.Reaches d.target descriptor := by
  constructor
  · rintro ⟨w, f', path, isForwarder', same⟩
    obtain rfl | ⟨_, ⟨f'', d'', isForwarder'', isDescriptor'', rfl⟩, path⟩ := path.cases_head
    · cases isForwarder.symm.trans isForwarder'
      exact .inl same
    · cases isForwarder.symm.trans isForwarder''
      cases isDescriptor.symm.trans isDescriptor''
      exact .inr ⟨w, f', path, isForwarder', same⟩
  · rintro (same | ⟨w, f', path, isForwarder', same⟩)
    · exact ⟨v, f, .refl, isForwarder, same⟩
    · exact ⟨w, f', .head ⟨f, d, isForwarder, isDescriptor, rfl⟩ path, isForwarder', same⟩

/-- The test for circles decides whether following forwarders comes by a descriptor. -/
theorem leadsTo_decides {fuel : Nat}
    (stands : h.StandsFor v w) (within : Within h.ForwardsTo fuel v) :
    Decides (h.leadsTo descriptor fuel v) (h.Reaches v descriptor) := by
  induction stands generalizing fuel with
  | itself plain =>
    obtain ⟨fuel, rfl⟩ := within.pos
    simp only [leadsTo, plain]
    exact .ok (iff_of_false (by simp) (reaches_iff_of_plain plain))
  | through forwards _ ih =>
    obtain ⟨fuel, rfl⟩ := within.pos
    have rest := ih (within.next forwards)
    obtain ⟨f, d, isForwarder, isDescriptor, rfl⟩ := forwards
    have iff := @reaches_iff_of_forwarder h _ descriptor _ _ isForwarder isDescriptor
    simp only [leadsTo, isForwarder]
    split_ifs with same
    · exact .ok (iff_of_true rfl (iff.mpr (.inl same)))
    · rw [cast_eq_ok.mpr isDescriptor]
      exact rest.congr (by rw [iff, or_iff_right same])

theorem StandsFor.within (stands : h.StandsFor v w) : Within h.ForwardsTo h.walkFuel v :=
  within_walkFuel (fun _ _ ⟨_, _, isForwarder, _⟩ => view?_isSome_bodyOf? isForwarder) stands.acc

end Following

/-- Forwarders lead somewhere, and descriptors have targets that are there. -/
structure Wired (h : Heap) : Prop where
  there : ∀ v d, h.view? Descriptor v = some d → h.There d.target
  ends : ∀ v, ∃ w, h.StandsFor v w

namespace Wired

theorem not_reaches (wired : h.Wired) (isDescriptor : h.view? Descriptor descriptor = some d) :
    ¬ h.Reaches d.target descriptor := by
  rintro ⟨w, f, path, isForwarder, rfl⟩
  obtain ⟨_, stands⟩ := wired.ends w
  exact Within.not_leads_back stands.acc ⟨f, d, isForwarder, isDescriptor, rfl⟩ path

theorem isDescriptor (wired : h.Wired) (isForwarder : h.view? Forwarder v = some f) :
    ∃ d, h.view? Descriptor f.descriptor = some d := by
  obtain ⟨w, stands⟩ := wired.ends v
  cases stands with
  | itself plain => cases plain.symm.trans isForwarder
  | through forwards =>
    obtain ⟨f', d, isForwarder', isDescriptor, -⟩ := forwards
    cases isForwarder.symm.trans isForwarder'
    exact ⟨d, isDescriptor⟩

end Wired

/-- What forwarders stand for is carried over to another heap along with them. -/
theorem StandsFor.transport (f : Value → Value) (on : Value → Prop)
    (plain : ∀ v, on v → h.view? Forwarder v = none → h'.view? Forwarder (f v) = none)
    (forwards : ∀ v target, on v → h.ForwardsTo v target → h'.ForwardsTo (f v) (f target) ∧
      on target) (stands : h.StandsFor v w) (isOn : on v) : h'.StandsFor (f v) (f w) := by
  induction stands with
  | itself isPlain => exact .itself (plain _ isOn isPlain)
  | through isNext _ ih =>
    obtain ⟨isNext', isOn'⟩ := forwards _ _ isOn isNext
    exact .through isNext' (ih isOn')

section Keeping

variable {kinds : List Kind}

namespace Keeps

theorem there (keeps : h.Keeps kinds h') (isThere : h.There v) : h'.There v := by
  intro r isRef
  obtain ⟨o, found⟩ := isThere r isRef
  obtain ⟨o', found', -⟩ := keeps r o found
  exact ⟨o', found'⟩

theorem view {κ : Type} [HeapKind κ] (keeps : h.Keeps kinds h') (set : HeapKind.kind κ ∈ kinds)
    (isThere : h.There v) : h'.view? κ v = h.view? κ v := by
  cases v with
  | object r =>
    obtain ⟨o, found⟩ := isThere r rfl
    obtain ⟨o', found', kind, same⟩ := keeps r o found
    have isBody : h.bodyOf? (.object r) = some o.body := bodyOf?_eq_some.mpr ⟨r, o, rfl, found, rfl⟩
    have isBody' : h'.bodyOf? (.object r) = some o'.body := bodyOf?_eq_some.mpr ⟨r, o', rfl, found', rfl⟩
    refine Option.ext fun data => ?_
    rw [view?_eq_some, view?_eq_some, isBody, isBody', Option.some_inj, Option.some_inj]
    have ofKind : o.body.kind = HeapKind.kind κ → o'.body = o.body := fun isKind => same (isKind ▸ set)
    constructor
    · intro isNew
      rw [← ofKind (by rw [← kind, isNew, HeapKind.kind_wrap]), isNew]
    · intro isOld
      rw [ofKind (by rw [isOld, HeapKind.kind_wrap]), isOld]
  | _ => rfl

theorem standsFor (keeps : h.Keeps (.forwarderDescriptor :: setKinds) h') (wired : h.Wired)
    (isThere : h.There v) (stands : h.StandsFor v w) : h'.StandsFor v w := by
  refine stands.transport id h.There (fun v there plain => ?_) (fun v target there forwards => ?_) isThere
  · rwa [id, keeps.view (by decide) there]
  · obtain ⟨f, d, isForwarder, isDescriptor, rfl⟩ := forwards
    refine ⟨⟨f, d, (keeps.view (by decide) there).trans isForwarder, ?_, rfl⟩, wired.there _ d isDescriptor⟩
    exact (keeps.view (by decide) (there_of_view isDescriptor)).trans isDescriptor

/-- Forwarders still lead somewhere if new ones and new descriptors do. -/
theorem wired (keeps : h.Keeps (.forwarderDescriptor :: setKinds) h') (wired : h.Wired)
    (descriptors : ∀ v d, ¬ h.There v → h'.view? Descriptor v = some d → h.There d.target)
    (forwarders : ∀ v f, ¬ h.There v → h'.view? Forwarder v = some f →
      ∃ d, h.view? Descriptor f.descriptor = some d) : h'.Wired where
  there v d isDescriptor := by
    by_cases there : h.There v
    · rw [keeps.view (by decide) there] at isDescriptor
      exact keeps.there (wired.there v d isDescriptor)
    · exact keeps.there (descriptors v d there isDescriptor)
  ends v := by
    by_cases there : h.There v
    · obtain ⟨w, stands⟩ := wired.ends v
      exact ⟨w, keeps.standsFor wired there stands⟩
    · cases isForwarder : h'.view? Forwarder v with
      | none => exact ⟨v, .itself isForwarder⟩
      | some f =>
        obtain ⟨d, isDescriptor⟩ := forwarders v f there isForwarder
        have isThere := wired.there _ d isDescriptor
        obtain ⟨w, stands⟩ := wired.ends d.target
        refine ⟨w, .through ⟨f, d, isForwarder, ?_, rfl⟩ (keeps.standsFor wired isThere stands)⟩
        exact (keeps.view (by decide) (there_of_view isDescriptor)).trans isDescriptor

end Keeps

theorem view?_extended_new {κ : Type} [HeapKind κ] {o : Object} {size : Nat}
    {data : κ} (absent : ¬ h.There v) (found : (h.extended o size).view? κ v = some data) :
    o.body = HeapKind.wrap data := by
  obtain ⟨r, o', rfl, isObject, isBody⟩ := view?_iff.mp found
  rw [object?_extended] at isObject
  split at isObject
  · cases isObject
    exact isBody
  · exact absurd (by rintro _ ⟨⟩; exact ⟨o', isObject⟩) absent

end Keeping

section Putting

theorem view?_put_forwarder (found : h.view? Descriptor descriptor = some d) :
    (h.put descriptor d').view? Forwarder = h.view? Forwarder := by
  rw [put, view?_adjust (view?_eq_some.mp found)]
  refine Function.update_eq_self_iff.mpr ?_
  rw [view?_eq_none_of_kind found (by decide)]
  rfl

theorem view?_put_descriptor (found : h.view? Descriptor descriptor = some d) :
    (h.put descriptor d').view? Descriptor =
      Function.update (h.view? Descriptor) descriptor (some d') := by
  rw [put, view?_adjust (view?_eq_some.mp found)]
  rfl

/-- A descriptor may get any target from which it is not reached. -/
theorem Wired.put (wired : h.Wired) (found : h.view? Descriptor descriptor = some d)
    (there : h.There d'.target) (avoids : ¬ h.Reaches d'.target descriptor) :
    (h.put descriptor d').Wired := by
  have stays : ∀ {v}, h.There v → (h.put descriptor d').There v := by
    intro v isThere r isRef
    obtain ⟨o, isObject⟩ := isThere r isRef
    obtain ⟨q, -, rfl, -⟩ := view?_iff.mp found
    exact ⟨_, (object?_adjust q r).trans (congrArg _ isObject)⟩
  have forwards : ∀ {v f e}, h.view? Forwarder v = some f → h.view? Descriptor f.descriptor = some e →
      f.descriptor ≠ descriptor → (h.put descriptor d').ForwardsTo v e.target := by
    intro v f e isForwarder isDescriptor differs
    refine ⟨f, e, by rwa [view?_put_forwarder found], ?_, rfl⟩
    rwa [view?_put_descriptor found, Function.update_of_ne differs]
  -- nothing changes for what does not come by the descriptor, as its new target
  have unchanged : ∀ {v w}, h.StandsFor v w → ¬ h.Reaches v descriptor → (h.put descriptor d').StandsFor v w := by
    intro v w stands avoids
    refine stands.transport id (fun v => ¬ h.Reaches v descriptor) (fun v _ plain => ?_)
      (fun v target avoids isNext => ?_) avoids
    · rwa [id, view?_put_forwarder found]
    · obtain ⟨f, e, isForwarder, isDescriptor, rfl⟩ := isNext
      rw [reaches_iff_of_forwarder isForwarder isDescriptor, not_or] at avoids
      exact ⟨forwards isForwarder isDescriptor avoids.1, avoids.2⟩
  obtain ⟨last, stands⟩ := wired.ends d'.target
  have lands := unchanged stands avoids
  refine ⟨fun v e isDescriptor => ?_, fun v => ?_⟩
  · rw [view?_put_descriptor found] at isDescriptor
    by_cases here : v = descriptor
    · subst here
      rw [Function.update_self] at isDescriptor
      cases isDescriptor
      exact stays there
    · rw [Function.update_of_ne here] at isDescriptor
      exact stays (wired.there v e isDescriptor)
  · obtain ⟨w, stands⟩ := wired.ends v
    induction stands with
    | itself plain => exact ⟨_, .itself (by rwa [view?_put_forwarder found])⟩
    | through isNext _ ih =>
      obtain ⟨f, e, isForwarder, isDescriptor, rfl⟩ := isNext
      by_cases here : f.descriptor = descriptor
      · refine ⟨last, .through ⟨f, d', by rwa [view?_put_forwarder found], ?_, rfl⟩ lands⟩
        rw [view?_put_descriptor found, here, Function.update_self]
      · obtain ⟨w', stands'⟩ := ih
        exact ⟨w', .through (forwards isForwarder isDescriptor here) stands'⟩

end Putting

section Moving

variable (hauled : h.Hauled kept place h')
include hauled

theorem Hauled.view_descriptor (isKept : kept r) (found : h.view? Descriptor (.object r) = some d) :
    h'.view? Descriptor (.object (place r)) = some { d with target := d.target.move place } ∧
      d.target.Kept kept := by
  obtain ⟨moved, kepts⟩ := hauled.moved isKept (view?_eq_some.mp found) nofun
  exact ⟨view?_eq_some.mpr moved, kepts _ List.mem_cons_self⟩

theorem Hauled.view_forwarder (isKept : kept r) (found : h.view? Forwarder (.object r) = some f) :
    h'.view? Forwarder (.object (place r)) = some ⟨f.descriptor.move place⟩ ∧
      f.descriptor.Kept kept := by
  obtain ⟨moved, kepts⟩ := hauled.moved isKept (view?_eq_some.mp found) nofun
  exact ⟨view?_eq_some.mpr moved, kepts _ List.mem_cons_self⟩

/-- What is of some kind after a collection was of it before. -/
theorem Hauled.kind_back {κ : Type} [HeapKind κ] {data : κ} (found' : h'.view? κ v = some data) :
    ∃ r b, kept r ∧ v = .object (place r) ∧ h.bodyOf? (.object r) = some b ∧
      b.kind = HeapKind.kind κ := by
  obtain ⟨r', o', rfl, isObject', isBody⟩ := view?_iff.mp found'
  obtain ⟨r, isKept, rfl⟩ := hauled.onto r' o' isObject'
  obtain ⟨o, _, isObject, same, -, towed⟩ := hauled.object r isKept
  cases isObject'.symm.trans same
  exact ⟨r, o.body, isKept, rfl, bodyOf?_eq_some.mpr ⟨r, o, rfl, isObject, rfl⟩,
    by rw [← towed.kind, isBody, HeapKind.kind_wrap]⟩

theorem Hauled.standsFor (isKept : v.Kept kept) (stands : h.StandsFor v w) :
    h'.StandsFor (v.move place) (w.move place) := by
  refine stands.transport (Value.move place) (Value.Kept kept) (fun v isKept plain => ?_)
    (fun v target isKept forwards => ?_) isKept
  · cases isForwarder : h'.view? Forwarder (v.move place) with
    | none => rfl
    | some f =>
      obtain ⟨r, b, isKept', same, isBody, kind⟩ := hauled.kind_back isForwarder
      cases v with
      | object q =>
        cases hauled.injective q r (isKept q rfl) isKept' (Value.object.inj same)
        cases b <;> cases kind
        cases plain.symm.trans (view?_eq_some.mpr isBody)
      | _ => cases same
  · obtain ⟨f, d, isForwarder, isDescriptor, rfl⟩ := forwards
    obtain ⟨r, -, rfl, -⟩ := view?_iff.mp isForwarder
    obtain ⟨q, -, isRef, -⟩ := view?_iff.mp isDescriptor
    obtain ⟨isForwarder', keptDescriptor⟩ := hauled.view_forwarder (isKept r rfl) isForwarder
    rw [isRef] at isForwarder' keptDescriptor isDescriptor
    obtain ⟨isDescriptor', keptTarget⟩ := hauled.view_descriptor (keptDescriptor q rfl) isDescriptor
    exact ⟨⟨_, _, isForwarder', isDescriptor', rfl⟩, keptTarget⟩

theorem Hauled.wired (wired : h.Wired) : h'.Wired where
  there v d' found' := by
    obtain ⟨r, b, isKept, rfl, isBody, kind⟩ := hauled.kind_back found'
    cases b <;> cases kind
    rename_i d
    obtain ⟨isDescriptor', keptTarget⟩ := hauled.view_descriptor isKept (view?_eq_some.mpr isBody)
    cases isDescriptor'.symm.trans found'
    intro r' isRef
    cases isTarget : d.target with
    | object s =>
      obtain ⟨_, o', -, isObject', -⟩ := hauled.object s (keptTarget s isTarget)
      rw [isTarget] at isRef
      cases isRef
      exact ⟨o', isObject'⟩
    | _ =>
      rw [isTarget] at isRef
      cases isRef
  ends v := by
    cases isForwarder : h'.view? Forwarder v with
    | none => exact ⟨v, .itself isForwarder⟩
    | some f =>
      obtain ⟨r, -, isKept, rfl, -⟩ := hauled.kind_back isForwarder
      obtain ⟨w, stands⟩ := wired.ends (.object r)
      exact ⟨_, hauled.standsFor (by rintro _ ⟨⟩; exact isKept) stands⟩

end Moving

/-- Every event leaves forwarders leading somewhere. -/
theorem Event.wired (event : h.Event kept place h') (wired : h.Wired) : h'.Wired := by
  cases event with
  | @made o size makes =>
    refine (keeps_extended o size).wired wired (fun v d absent found => ?_) fun v f absent found => ?_
    · have isBody := view?_extended_new absent found
      obtain ⟨-, there, -⟩ | ⟨r, isObject⟩ := makes
      · exact there _ (by rw [isBody]; exact List.mem_cons_self)
      · exact wired.there (.object r) d (view?_iff.mpr ⟨r, o, rfl, isObject, isBody⟩)
    · have isBody := view?_extended_new absent found
      obtain ⟨-, -, admits⟩ | ⟨r, isObject⟩ := makes
      · rw [isBody] at admits
        exact is_iff.mp admits
      · exact wired.isDescriptor (v := .object r) (view?_iff.mpr ⟨r, o, rfl, isObject, isBody⟩)
  | written writes =>
    have absurd : ∀ {κ : Type} [HeapKind κ] {v : Value} {data : κ}, ¬ h.There v → h'.view? κ v = some data → False := by
      intro κ _ v data absent found
      obtain ⟨r, o, rfl, isObject, -⟩ := view?_iff.mp found
      refine absent ?_
      rintro _ ⟨⟩
      cases old : h.object? r with
      | none => cases (writes.none r old).symm.trans isObject
      | some o => exact ⟨o, rfl⟩
    exact writes.keeps.wired wired (fun _ _ absent found => (absurd absent found).elim)
      fun _ _ absent found => (absurd absent found).elim
  | rebound rebinds =>
    obtain ⟨old, found, -, same | ⟨there, leads⟩⟩ := rebinds.old
    · exact wired.put found (same ▸ wired.there _ old found) (same ▸ wired.not_reaches found)
    · obtain ⟨w, stands⟩ := wired.ends _
      refine wired.put found there fun reaches => ?_
      cases leads.symm.trans ((leadsTo_decides stands stands.within).of_holds reaches)
  | collected _ hauled => exact hauled.wired wired

theorem Event.closed (event : h.Event kept place h') (isKept : kept r)
    (found : h.view? Descriptor (.object r) = some d) (isClosed : d.binding = .closed) :
    h'.view? Descriptor (.object (place r)) = some { d with target := d.target.move place } := by
  have there := there_of_view found
  have same : ({ d with target := d.target.move id } : Descriptor) = d := by rw [Value.move_id]
  cases event with
  | @made o size =>
    have keeps : h.Keeps [.forwarderDescriptor] (h.extended o size) := keeps_extended o size
    rw [same, id, keeps.view List.mem_cons_self there, found]
  | written writes => rw [same, id, writes.keeps.view List.mem_cons_self there, found]
  | rebound rebinds =>
    obtain ⟨old, isOld, isOpen, -⟩ := rebinds.old
    rw [same, id, view?_put_descriptor isOld, Function.update_of_ne, found]
    rintro rfl
    cases found.symm.trans isOld
    exact isOpen isClosed
  | collected _ hauled => exact (hauled.view_descriptor isKept found).1

theorem History.closed (history : h.History kept place h') (isKept : kept r)
    (found : h.view? Descriptor (.object r) = some d) (isClosed : d.binding = .closed) :
    h'.view? Descriptor (.object (place r)) = some { d with target := d.target.move place } := by
  induction history with
  | start => rwa [id, Value.move_id]
  | next _ event ih =>
    rw [← Value.move_move]
    exact event.closed isKept.2 (ih isKept.1) isClosed

theorem wired_of_create {settings : HeapSettings} {s : Store}
    (created : Store.create settings = .ok s) : s.heap.Wired := by
  refine ⟨fun v d found => (nomatch plain_of_create created (view?_eq_some.mp found)),
    fun v => ⟨v, .itself ?_⟩⟩
  cases found : s.heap.view? Forwarder v with
  | none => rfl
  | some f => cases plain_of_create created (view?_eq_some.mp found)

section Operations

variable {s s' : Store}

theorem history_of_forwarder {binding : Binding} (there : s.heap.There target)
    (done : Make.forwarder binding target s = .ok v s') : s.heap.Advances s'.heap := by
  obtain ⟨descriptor, s₁, first, second⟩ := bind_ok done
  have isDescriptor : s₁.heap.view? Descriptor descriptor = some ⟨binding, target⟩ := by
    obtain ⟨rfl, rfl⟩ := Make.placeLazy_ok first
    exact view?_eq_some.mpr bodyOf?_extended_new
  have advances := (Advances.refl s.heap).made first (by simpa [Body.fields] using there) trivial
  exact advances.made second (by simpa [Body.fields] using there_of_view isDescriptor)
    (is_iff.mpr ⟨_, isDescriptor⟩)

theorem history_of_clone {original : Value} (done : Make.clone original s = .ok v s') :
    s.heap.Advances s'.heap := by
  obtain ⟨o, isFound, -, rfl⟩ := Make.clone_ok done
  obtain ⟨r, isObject⟩ : ∃ r, s.heap.object? r = some o := by
    cases original with
    | object r => exact ⟨r, isFound⟩
    | _ => cases isFound
  exact (Advances.refl s.heap).next (.made (.inr ⟨r, isObject⟩))

theorem history_of_bindForwarder {x x' : Execution} {pc next : Nat}
    (there : ∀ v, Exec.peek 0 x = .ok v x → x.heap.There v)
    (done : Exec.execute pc next .bindForwarder x = .ok () x') : x.heap.Advances x'.heap := by
  obtain ⟨target, x₁, popped, done⟩ := bind_ok done
  obtain ⟨_, _, peeked, popped⟩ := bind_ok popped
  cases Asks.same (Exec.asks_peek 0) peeked
  obtain ⟨_, _, dropped, ⟨⟩⟩ := bind_ok popped
  obtain ⟨_, _, below, ⟨⟩⟩ := bind_ok dropped
  cases (Exec.check_ok below).2
  obtain ⟨v, _, peeked', done⟩ := bind_ok done
  cases Asks.same (Exec.asks_peek 0) peeked'
  obtain ⟨found, x₁, asked, done⟩ := bind_ok done
  have same := Asks.same (Exec.asks_askStore _) asked
  cases same
  split at done
  · cases done
  · rename_i f
    obtain ⟨_, _, checked, ⟨⟩⟩ := bind_ok done
    obtain ⟨isBound, rfl⟩ := Exec.check_ok checked
    exact (Advances.refl x.heap).next (.rebound (.inl ⟨_, there _ peeked, .inr isBound⟩))

end Operations

/-- Over every history of a heap forwarders lead to something that is none, and looking through them
ends there. An open descriptor refuses a target exactly if it is reached from there, and otherwise
only its target changes. A closed one refuses every change and stays as it is, wherever it is moved.
Making and binding forwarders and copying objects goes on with the history. -/
theorem forwarders_acyclic {settings : HeapSettings} {s : Store} (created : Store.create settings = .ok s)
    (history : s.heap.History kept place h) :
    (∀ v, ¬ Relation.TransGen h.ForwardsTo v v ∧
      ∃ w, h.StandsFor v w ∧ h.view? Forwarder w = none ∧ h.deref v = .ok w ∧
      ∀ t : Store, t.heap = h →
        (∀ (κ : Type) [HeapKind κ], Store.narrow κ v t = match h.view? κ w with
          | some data => .ok (w, data) t
          | none => .error (.raised .typeMismatch) t) ∧
        Store.narrowInt v t = match w with
          | .int n => .ok n t
          | _ => .error (.raised .typeMismatch) t) ∧
    (∀ descriptor target d, h.view? Descriptor descriptor = some d → d.binding = .opened →
      target.isSignal = false →
        (h.retargeted descriptor target = .error .forwarderCycle ↔ h.Reaches target descriptor) ∧
        (¬ h.Reaches target descriptor → h.retargeted descriptor target = .ok { d with target } ∧
          ∀ v, v ≠ descriptor → (h.put descriptor { d with target }).bodyOf? v = h.bodyOf? v)) ∧
    Violation.forwarderCycle.message = "forwarder cycle" ∧
    (∀ r d, h.view? Descriptor (.object r) = some d → d.binding = .closed →
      (∀ target, h.retargeted (.object r) target = .error .closedForwarderRetargeted ∧
        h.bound (.object r) target = .error .closedForwarderRetargeted) ∧
      (∀ binding, h.rebound (.object r) binding = .error .closedForwarderReopened) ∧
      ∀ kept place h', h.History kept place h' → kept r →
        h'.view? Descriptor (.object (place r)) = some { d with target := d.target.move place }) ∧
    (∀ (t t' : Store) v, t.heap = h →
      (∀ binding target, h.There target → Make.forwarder binding target t = .ok v t' →
        ∃ kept, (∀ r, kept r) ∧ h.History kept id t'.heap) ∧
      ∀ original, Make.clone original t = .ok v t' → ∃ kept, (∀ r, kept r) ∧ h.History kept id t'.heap) ∧
    ∀ x x' pc next, x.machine.store.heap = h → (∀ v, Exec.peek 0 x = .ok v x → h.There v) →
      Exec.execute pc next .bindForwarder x = .ok () x' →
        ∃ kept, (∀ r, kept r) ∧ h.History kept id x'.machine.store.heap := by
  have wired : h.Wired := history.invariant Event.wired (wired_of_create created)
  refine ⟨fun v => ?_, fun descriptor target d found isOpen noSignal => ?_, rfl, fun r d found isClosed => ?_,
    ?_, ?_⟩
  · obtain ⟨w, stands⟩ := wired.ends v
    have isDeref := deref_eq stands
    refine ⟨stands.acyclic, w, stands, stands.plain, isDeref, ?_⟩
    rintro t rfl
    have asks : (Store.deref v : Alloc Value) t = .ok w t := by simp only [Store.deref, Store.check, isDeref]
    refine ⟨fun κ _ => (Action.bind_eq_of_ok asks).trans ?_, (Action.bind_eq_of_ok asks).trans ?_⟩
    · have asked : (Store.ask fun s => s.heap.view? κ w : Alloc _) t = .ok (t.heap.view? κ w) t := rfl
      refine (Action.bind_eq_of_ok asked).trans ?_
      cases t.heap.view? κ w <;> rfl
    · cases w <;> rfl
  · obtain ⟨w, stands⟩ := wired.ends target
    have decides := @leadsTo_decides h _ _ descriptor _ stands stands.within
    have isCast := cast_eq_ok.mpr found
    by_cases reaches : h.Reaches target descriptor
    · have leads := decides.of_holds reaches
      simp [retargeted, isCast, isOpen, noSignal, leads, reaches, bind, Except.bind, throw, throwThe,
        MonadExceptOf.throw]
    · have leads := decides.of_not reaches
      refine ⟨iff_of_false ?_ reaches, fun _ => ⟨?_, fun v differs => ?_⟩⟩
      · simp [retargeted, isCast, isOpen, noSignal, leads, bind, Except.bind, pure, Except.pure]
      · simp [retargeted, isCast, isOpen, noSignal, leads, bind, Except.bind, pure, Except.pure]
      · rw [put, bodyOf?_adjust_map]
        simp [Ne.symm differs]
  · have isCast := cast_eq_ok.mpr found
    refine ⟨fun target => ⟨?_, ?_⟩, fun binding => ?_, fun kept place h' history isKept =>
      history.closed isKept found isClosed⟩
    · simp [retargeted, isCast, isClosed, bind, Except.bind, throw, throwThe, MonadExceptOf.throw]
    · simp [Heap.bound, retargeted, isCast, isClosed, bind, Except.bind, throw, throwThe, MonadExceptOf.throw]
    · simp [rebound, isCast, isClosed, bind, Except.bind, throw, throwThe, MonadExceptOf.throw]
  · rintro t t' v rfl
    exact ⟨fun _ _ there done => history_of_forwarder there done, fun _ done => history_of_clone done⟩
  · rintro x x' pc next rfl there done
    exact history_of_bindForwarder there done

/-- A forwarder with an open descriptor, and a closed descriptor, made in a new heap. -/
theorem forwarders_acyclic_made :
    ∃ s : Store, ∃ h descriptor forwarder closed, Store.create {} = .ok s ∧
      s.heap.History (fun _ => ((True ∧ True) ∧ True) ∧ True) id h ∧ h.view? Descriptor descriptor =
      some ⟨.opened, .int 7⟩ ∧ h.view? Forwarder forwarder = some ⟨descriptor⟩ ∧
      h.view? Descriptor closed = some ⟨.closed, forwarder⟩ ∧ h.retargeted descriptor forwarder =
      .error .forwarderCycle ∧ h.retargeted descriptor (.int 8) = .ok ⟨.opened, .int 8⟩ ∧
      h.rebound closed .opened = .error .closedForwarderReopened := by
  obtain ⟨s, created⟩ := Store.exists_create
  let n := s.heap.objects.size
  let make (b : Body) : Object := ⟨.layout (s.roots.layout b.kind), b⟩
  let h₁ := s.heap.extended (make (.forwarderDescriptor ⟨.opened, .int 7⟩)) 24
  let h₂ := h₁.extended (make (.forwarder ⟨.object ⟨n⟩⟩)) 16
  let h := h₂.extended (make (.forwarderDescriptor ⟨.closed, .object ⟨n + 1⟩⟩)) 24
  have event₁ : s.heap.Event (fun _ => True) id h₁ :=
    .made (.inl ⟨⟨_, rfl⟩, by simp [Body.fields, There, make], trivial⟩)
  have event₂ : h₁.Event (fun _ => True) id h₂ := .made (.inl ⟨⟨_, rfl⟩,
    by simp [Body.fields, There, make, h₁, extended, object?, n],
    is_iff.mpr ⟨⟨.opened, .int 7⟩, by
      simp [view?_eq_some, bodyOf?_eq_some, make, h₁, extended, object?, n, HeapKind.wrap]⟩⟩)
  have event₃ : h₂.Event (fun _ => True) id h := .made (.inl ⟨⟨_, rfl⟩,
    by simp [Body.fields, There, make, h₁, h₂, extended, object?, Array.getElem?_push, n], trivial⟩)
  have history := ((History.start.next event₁).next event₂).next event₃
  obtain ⟨-, retargets, -, closes, -⟩ := forwarders_acyclic created history
  have objects : h.object? ⟨n⟩ = some (make (.forwarderDescriptor ⟨.opened, .int 7⟩)) ∧
      h.object? ⟨n + 1⟩ = some (make (.forwarder ⟨.object ⟨n⟩⟩)) ∧
      h.object? ⟨n + 2⟩ = some (make (.forwarderDescriptor ⟨.closed, .object ⟨n + 1⟩⟩)) := by
    refine ⟨?_, ?_, ?_⟩ <;> rw [object?_extended, object?_extended, object?_extended] <;>
      simp [h₁, h₂, extended, Nat.add_assoc, n]
  have isOpen : h.view? Descriptor (.object ⟨n⟩) = some ⟨.opened, .int 7⟩ :=
    view?_iff.mpr ⟨_, _, rfl, objects.1, rfl⟩
  have isForwarder : h.view? Forwarder (.object ⟨n + 1⟩) = some ⟨.object ⟨n⟩⟩ :=
    view?_iff.mpr ⟨_, _, rfl, objects.2.1, rfl⟩
  have isClosed : h.view? Descriptor (.object ⟨n + 2⟩) = some ⟨.closed, .object ⟨n + 1⟩⟩ :=
    view?_iff.mpr ⟨_, _, rfl, objects.2.2, rfl⟩
  exact ⟨s, h, .object ⟨n⟩, .object ⟨n + 1⟩, .object ⟨n + 2⟩, created, history, isOpen, isForwarder, isClosed,
    ((retargets _ _ _ isOpen rfl rfl).1).mpr ((reaches_iff_of_forwarder isForwarder isOpen).mpr (.inl rfl)),
    ((retargets _ (.int 8) _ isOpen rfl rfl).2 (reaches_iff_of_plain rfl)).1,
    (closes _ _ isClosed rfl).2.1 .opened⟩

end Heap

end ObjectMachine
