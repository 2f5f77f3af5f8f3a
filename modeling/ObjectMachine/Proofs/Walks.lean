/-
# ObjectMachine.Proofs.Walks -- walks that end

Forwarders, chains of parents and contents of keys are followed for at most as many steps as there
are objects, and one more. `Within edge depth a` says that no walk along `edge` from `a` has `depth`
steps, and `Heap.within_walkFuel` that a walk over a heap that does not go in a circle is that
short.

What a walk finds is said without counting steps: `Heap.StandsFor` follows forwarders, and
`Heap.Climbs` the parents of a protocol.

* `Heap.deref_eq` -- following forwarders finds what a value stands for.
* `Heap.chain_eq` -- climbing finds the protocols of a chain, each of them once.
-/
import Mathlib
import ObjectMachine.Dispatch
import ObjectMachine.Proofs.Soundness

namespace ObjectMachine

/-- Every walk along `edge` from a place has fewer than `depth` steps. -/
inductive Within {α : Type} (edge : α → α → Prop) : Nat → α → Prop
  | step {depth : Nat} {a : α} (next : ∀ b, edge a b → Within edge depth b) : Within edge (depth + 1) a

namespace Within

variable {α : Type} {edge : α → α → Prop} {depth : Nat} {a b : α}

theorem next (within : Within edge (depth + 1) a) (isNext : edge a b) : Within edge depth b := by
  cases within with
  | step next => exact next b isNext

theorem pos (within : Within edge depth a) : ∃ less, depth = less + 1 := by
  cases within with
  | @step less => exact ⟨less, rfl⟩

/-- What has no infinite walk does not lead back to itself. -/
theorem not_leads_back (ends : Acc (fun b a => edge a b) a) (isNext : edge a b) :
    ¬ Relation.ReflTransGen edge b a := by
  intro back
  have circle : Relation.TransGen edge a a := .head' isNext back
  have acc : Acc (Relation.TransGen fun b a => edge a b) a := ends.transGen
  induction acc with
  | intro a _ ih => exact ih a circle.swap ends isNext back circle

/-- A walk that never returns is no longer than there are places with an edge. -/
theorem ofAcc (ends : Acc (fun b a => edge a b) a) (places : Finset α)
    (inside : ∀ x y, Relation.ReflTransGen edge a x → edge x y → x ∈ places) :
    Within edge (places.card + 1) a := by
  classical
  induction ends generalizing places with
  | intro a next ih =>
    refine .step fun b isNext => ?_
    have member : a ∈ places := inside a b .refl isNext
    -- the rest of the walk stays away from `a`
    have rest := ih b isNext (places.erase a) fun x y reached edge => by
      refine Finset.mem_erase.mpr ⟨?_, inside x y (.head isNext reached) edge⟩
      rintro rfl
      exact not_leads_back (.intro x next) isNext reached
    rwa [Finset.card_erase_add_one member] at rest

end Within

namespace Heap

variable {h : Heap} {v w : Value}

/-- A walk over the objects of a heap that does not go in a circle. -/
theorem within_walkFuel {edge : Value → Value → Prop}
    (inside : ∀ a b, edge a b → (h.bodyOf? a).isSome) (ends : Acc (fun b a => edge a b) v) :
    Within edge h.walkFuel v := by
  let places : Finset Value := (Finset.range h.objects.size).image fun i => .object ⟨i⟩
  have card : places.card = h.objects.size := by
    rw [Finset.card_image_of_injective _ fun i j same => by simpa using same, Finset.card_range]
  have within := Within.ofAcc ends places fun x y _ isEdge => by
    obtain ⟨body, found⟩ := Option.isSome_iff_exists.mp (inside x y isEdge)
    obtain ⟨r, o, rfl, isObject, -⟩ := bodyOf?_eq_some.mp found
    have low := (Array.getElem?_eq_some_iff.mp isObject).1
    exact Finset.mem_image.mpr ⟨r.position, Finset.mem_range.mpr low, rfl⟩
  rwa [card] at within

theorem view?_isSome_bodyOf? {α : Type} [HeapKind α] {data : α} (found : h.view? α v = some data) :
    (h.bodyOf? v).isSome := by
  simp [view?_eq_some.mp found]

section Forwarders

/-- The value is a forwarder with this target. -/
def ForwardsTo (h : Heap) (v target : Value) : Prop :=
  ∃ f d, h.view? Forwarder v = some f ∧ h.view? Descriptor f.descriptor = some d ∧ d.target = target

/-- Following forwarders from `v` ends at `w`, which is none. -/
inductive StandsFor (h : Heap) : Value → Value → Prop
  | itself {v : Value} (plain : h.view? Forwarder v = none) : StandsFor h v v
  | through {v target w : Value} (forwards : h.ForwardsTo v target)
      (stands : StandsFor h target w) : StandsFor h v w

theorem ForwardsTo.unique {a b : Value} (first : h.ForwardsTo v a) (second : h.ForwardsTo v b) :
    a = b := by
  obtain ⟨f, d, isForwarder, isDescriptor, rfl⟩ := first
  obtain ⟨f', d', isForwarder', isDescriptor', rfl⟩ := second
  cases isForwarder.symm.trans isForwarder'
  cases isDescriptor.symm.trans isDescriptor'
  rfl

theorem StandsFor.acc (stands : h.StandsFor v w) : Acc (fun b a => h.ForwardsTo a b) v := by
  induction stands with
  | itself plain =>
    refine .intro _ fun b ⟨f, _, isForwarder, _⟩ => ?_
    rw [plain] at isForwarder
    cases isForwarder
  | through forwards _ ih =>
    refine .intro _ fun b forwards' => ?_
    rwa [← forwards.unique forwards']

theorem derefWith_eq {fuel : Nat} (stands : h.StandsFor v w) (within : Within h.ForwardsTo fuel v) :
    h.derefWith fuel v = .ok w := by
  induction stands generalizing fuel with
  | itself plain =>
    obtain ⟨fuel, rfl⟩ := within.pos
    simp [derefWith, forwarded?, plain]
  | through forwards _ ih =>
    obtain ⟨fuel, rfl⟩ := within.pos
    have rest := ih (within.next forwards)
    obtain ⟨f, d, isForwarder, isDescriptor, rfl⟩ := forwards
    have isTarget : (h.cast Descriptor f.descriptor).map Descriptor.target = .ok d.target := by
      rw [cast_eq_ok.mpr isDescriptor]
      rfl
    simp only [derefWith, forwarded?, isForwarder, Option.map_some, isTarget]
    exact rest

theorem deref_eq (stands : h.StandsFor v w) : h.deref v = .ok w := by
  cases v with
  | object r =>
    exact derefWith_eq stands (within_walkFuel
      (fun _ _ ⟨_, _, isForwarder, _⟩ => view?_isSome_bodyOf? isForwarder) stands.acc)
  | _ =>
    cases stands with
    | itself => rfl
    | through forwards =>
      obtain ⟨_, _, isForwarder, -⟩ := forwards
      cases isForwarder

end Forwarders

section Chains

/-- The protocols from `v` up the chain of parents, which ends. -/
inductive Climbs (h : Heap) : Value → List (Value × Protocol) → Prop
  | top {v : Value} (plain : h.view? Protocol v = none) : Climbs h v []
  | up {v : Value} {p : Protocol} {chain : List (Value × Protocol)}
      (found : h.view? Protocol v = some p) (climbs : Climbs h p.parent chain) :
      Climbs h v ((v, p) :: chain)

/-- The protocol has this parent. -/
def Refines (h : Heap) (v parent : Value) : Prop := ∃ p, h.view? Protocol v = some p ∧ p.parent = parent

variable {chain chain' : List (Value × Protocol)}

variable (climbs : h.Climbs v chain)
include climbs

theorem Climbs.acc : Acc (fun b a => h.Refines a b) v := by
  induction climbs with
  | top plain =>
    refine .intro _ fun b ⟨p, found, _⟩ => ?_
    rw [plain] at found
    cases found
  | up found _ ih =>
    refine .intro _ fun b ⟨p', found', isParent⟩ => ?_
    cases found.symm.trans found'
    exact isParent ▸ ih

theorem chainWith_eq {fuel : Nat} (within : Within h.Refines fuel v) :
    h.chainWith fuel v = .ok chain := by
  induction climbs generalizing fuel with
  | top plain =>
    obtain ⟨fuel, rfl⟩ := within.pos
    simp [chainWith, plain]
  | up found _ ih =>
    obtain ⟨fuel, rfl⟩ := within.pos
    simp [chainWith, found, ih (within.next ⟨_, found, rfl⟩), bind, Except.bind, pure, Except.pure]

theorem chain_eq : h.chain v = .ok chain := chainWith_eq climbs
    (within_walkFuel (fun _ _ ⟨_, found, _⟩ => view?_isSome_bodyOf? found) climbs.acc)

theorem Climbs.unique (climbs' : h.Climbs v chain') : chain = chain' :=
  Except.ok.inj ((chain_eq climbs).symm.trans (chain_eq climbs'))

/-- Whatever is on a chain is above its start. -/
theorem Climbs.reached {entry : Value × Protocol} (member : entry ∈ chain) :
    Relation.ReflTransGen h.Refines v entry.1 := by
  induction climbs with
  | top => cases member
  | up found _ ih =>
    obtain rfl | member := List.mem_cons.mp member
    · exact .refl
    · exact .head ⟨_, found, rfl⟩ (ih member)

/-- No protocol is on a chain twice. -/
theorem Climbs.nodup : (chain.map Prod.fst).Nodup := by
  induction climbs with
  | top => exact List.nodup_nil
  | @up v p chain found rest ih =>
    refine List.nodup_cons.mpr ⟨fun member => ?_, ih⟩
    obtain ⟨entry, member, same⟩ := List.mem_map.mp member
    have above : h.Refines v p.parent := ⟨p, found, rfl⟩
    have back := rest.reached member
    rw [same] at back
    exact Within.not_leads_back (Climbs.up found rest).acc above back

end Chains

end Heap

end ObjectMachine
