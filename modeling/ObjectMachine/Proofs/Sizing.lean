/-
# ObjectMachine.Proofs.Sizing -- how large the space is after a collection

A collection copies into one space after the other until there is room enough. Nothing is copied
twice into one space, so no space is too small for what the first held (`Transfer.lasting_roomy`),
whatever the stacks look like.

* `Heap.collectInto_unexhausted` -- a collection never runs out of the space that it copies into.
* `Heap.collectInto_capacity` -- the space does not shrink, and stays below the largest one allowed.
* `Heap.collect_sized` -- both, with the room that is left and the bytes that are kept.
-/
import Mathlib
import ObjectMachine.Proofs.Building
import ObjectMachine.Proofs.Shortage

namespace ObjectMachine

open Machine (StartsAt migrateRoots)
open Size (roundUp roundUp_mono)

/-! ## No space is too small -/

/-- The violation of a copy for which there is no room. -/
def Violation.isExhaustion : Violation → Bool
  | .toSpaceExhausted _ => true
  | _ => false

/-- A check that has nothing to do with the room for copies. -/
def Ample {α : Type} (result : Except Violation α) : Prop :=
  ∀ violation, result = .error violation → violation.isExhaustion = false

namespace Ample

variable {α β : Type}

@[simp] theorem ok (answer : α) : Ample (.ok answer) := by
  rintro _ ⟨⟩

@[simp] theorem pure (answer : α) : Ample (Pure.pure answer) := ok answer

@[simp] theorem error {violation : Violation} :
    Ample (.error violation : Except Violation α) ↔ violation.isExhaustion = false :=
  ⟨fun ample => ample violation rfl, by rintro fine _ ⟨⟩; exact fine⟩

@[simp] theorem throw {violation : Violation} :
    Ample (MonadExcept.throw violation : Except Violation α) ↔ violation.isExhaustion = false :=
  error

theorem bind {first : Except Violation α} {next : α → Except Violation β} (ample : Ample first)
    (rest : ∀ answer, Ample (next answer)) : Ample (first >>= next) := by
  cases first with
  | error violation => exact error.mpr (error.mp ample)
  | ok answer => exact rest answer

end Ample

namespace Size

theorem ample_align (n : Nat) : Ample (align n) := by
  unfold align
  split <;> simp [Violation.isExhaustion]

theorem ample_add (a b : Nat) : Ample (add a b) := by
  unfold add
  split <;> simp [Violation.isExhaustion]

theorem ample_mul (a b : Nat) : Ample (mul a b) := by
  unfold mul
  split <;> simp [Violation.isExhaustion]

theorem ample_grow (n : Nat) : Ample (grow n) :=
  (ample_add _ _).bind fun _ => (ample_add _ _).bind fun _ => (ample_add _ _).bind fun _ =>
    Ample.pure _

end Size

namespace Stack

theorem ample_relink {convert : Slot → Except Violation (Option (Link × Nat))}
    (ample : ∀ slot, Ample (convert slot)) (fuel frame : Nat) (words : Array Slot) :
    Ample (relink convert fuel frame words) := by
  induction fuel generalizing frame words with
  | zero => exact Ample.error.mpr rfl
  | succ fuel ih =>
    unfold relink
    split
    · exact Ample.error.mpr rfl
    · refine (ample _).bind fun converted => ?_
      cases converted with
      | none => exact Ample.pure _
      | some next => exact ih _ _

theorem ample_toOffset (self : Ref) (slot : Slot) : Ample (toOffset self slot) := by
  unfold toOffset
  split <;> simp [Violation.isExhaustion]

theorem ample_toAddress (self : Ref) (slot : Slot) : Ample (toAddress self slot) := by
  unfold toAddress
  split <;> simp [Violation.isExhaustion]

theorem ample_uncook (s : Stack) (self : Ref) : Ample (s.uncook self) := by
  unfold uncook
  split
  · exact Ample.ok _
  · exact Ample.error.mpr rfl
  · split
    · exact Ample.error.mpr rfl
    · refine (ample_toOffset _ _).bind fun converted => ?_
      cases converted with
      | none => exact Ample.throw.mpr rfl
      | some next =>
        exact (ample_relink (ample_toOffset self) _ _ _).bind fun _ => Ample.pure _

theorem ample_recook (s : Stack) (self : Ref) : Ample (s.recook self) := by
  unfold recook
  split
  · exact Ample.ok _
  · exact Ample.error.mpr rfl
  · split
    · exact Ample.error.mpr rfl
    · refine (ample_toAddress _ _).bind fun converted => ?_
      cases converted with
      | none => exact Ample.throw.mpr rfl
      | some next =>
        exact (ample_relink (ample_toAddress self) _ _ _).bind fun _ => Ample.pure _

theorem ample_liveFrom (words : Array Slot) (fuel frame limit : Nat) :
    Ample (liveFrom words fuel frame limit) := by
  induction fuel generalizing frame limit with
  | zero => exact Ample.error.mpr rfl
  | succ fuel ih =>
    unfold liveFrom
    dsimp only
    split
    · exact (ih _ _).bind fun _ => Ample.pure _
    · exact Ample.pure _
    · exact Ample.pure _
    · exact Ample.throw.mpr rfl

theorem ample_liveSlots (s : Stack) : Ample s.liveSlots := by
  unfold liveSlots
  split
  · exact Ample.ok _
  · split
    · exact Ample.error.mpr rfl
    · split
      · exact ample_liveFrom _ _ _ _
      · exact Ample.error.mpr rfl

end Stack

namespace Transfer

/-- Bytes that an object of the old space will take if it is still to be copied. -/
def burden (o : Object) : Nat :=
  match o.header with
  | .layout _ => roundUp o.body.size
  | .forward _ => 0

/-- Everything that has not been copied yet would fit. -/
def Roomy (t : Transfer) : Prop := t.space.used + (t.source.toList.map burden).sum ≤ t.space.capacity

/-- An object that is copied takes the bytes that were set aside for it. -/
theorem sum_burden_forward {source : Array Object} {position : Nat} {o : Object} {l moved : Ref}
    (found : source[position]? = some o) (header : o.header = .layout l) :
    ((source.setIfInBounds position { o with header := .forward moved }).toList.map burden).sum +
      roundUp o.body.size = (source.toList.map burden).sum := by
  obtain ⟨low, rfl⟩ := Array.getElem?_eq_some_iff.mp found
  have low' : position < source.toList.length := by simpa using low
  have whole : source.toList =
      source.toList.take position ++ source[position] :: source.toList.drop (position + 1) := by
    rw [← Array.getElem_toList, List.getElem_cons_drop, List.take_append_drop]
  rw [Array.toList_setIfInBounds, List.set_eq_take_append_cons_drop, if_pos low']
  conv_rhs => rw [whole]
  simp only [List.map_append, List.map_cons, List.sum_append, List.sum_cons]
  have here : burden source[position] = roundUp source[position].body.size := by
    simp [burden, header]
  have gone : burden { source[position] with header := .forward moved } = 0 := rfl
  rw [here, gone]
  omega

theorem ample_read (o : Object) (objects : Array Object) : Ample (o.read objects) := by
  unfold Object.read
  split
  · exact Ample.error.mpr rfl
  · split
    · exact Ample.error.mpr rfl
    · split
      · exact Ample.ok _
      · exact Ample.error.mpr rfl
    · exact Ample.error.mpr rfl

theorem ample_detach (r : Ref) (b : Body) : Ample (detach r b) := by
  cases b with
  | stack s => exact (s.ample_uncook r).bind fun _ => Ample.pure _
  | _ => exact Ample.ok _

theorem ample_attach (r : Ref) (b : Body) : Ample (attach r b) := by
  cases b with
  | stack s => exact (s.ample_recook r).bind fun _ => Ample.pure _
  | _ => exact Ample.ok _

/-- A block for which there is room is handed out, unless its size cannot be rounded. -/
theorem ample_allocate {space : Space} {size : Nat} (room : roundUp size ≤ space.free) :
    (∃ taken, space.allocate size = .ok (some taken)) ∨
      ∃ violation, space.allocate size = .error violation ∧ violation.isExhaustion = false := by
  unfold Space.allocate
  cases aligned : Size.align size with
  | error violation => exact .inr ⟨violation, rfl, Size.ample_align size violation aligned⟩
  | ok rounded =>
    cases Space.align_ok aligned
    exact .inl ⟨_, if_neg (by omega)⟩

/-- Copying an object for which room has been set aside. -/
theorem keeps_migrateRef {t : Transfer}
    (roomy : Roomy t) {r l : Ref} {b : Body} (found : t.source[r.position]? = some ⟨.layout l, b⟩) :
    Leaves (fun violation => violation.isExhaustion = false) (fun _ t => Roomy t)
      ((migrateRef r).run t) := by
  have setAside := @sum_burden_forward t.source r.position _ l ⟨t.target.size⟩ found rfl
  unfold Roomy at roomy
  dsimp only at setAside
  have room : roundUp b.size ≤ t.space.free := by
    unfold Space.free
    omega
  simp only [migrateRef, StateT.run_bind, StateT.run_get, pure_bind, found]
  refine leaves_copy (ample_read _ _) (ample_detach r b) (fun violation refused => ?_) (fun full => ?_)
    fun loose _ _ => ?_
  · obtain ⟨_, allocated⟩ | ⟨_, failed, fine⟩ := ample_allocate room
    · cases refused.symm.trans allocated
    · cases refused.symm.trans failed
      exact fine
  · obtain ⟨_, allocated⟩ | ⟨_, failed, -⟩ := ample_allocate room
    · cases full.symm.trans allocated
    · cases full.symm.trans failed
  · simp only [Roomy]
    omega

/-- As long as everything would fit, it does. -/
theorem lasting_roomy : Lasting Roomy fun violation => violation.isExhaustion = false where
  ref := by
    intro r t roomy
    cases found : t.source[r.position]? with
    | none =>
      simp only [migrateRef, StateT.run_bind, StateT.run_get, pure_bind, found]
      exact rfl
    | some o =>
      obtain ⟨header, body⟩ := o
      cases header with
      | forward moved =>
        simp only [migrateRef, StateT.run_bind, StateT.run_get, pure_bind, found]
        exact roomy
      | layout l => exact keeps_migrateRef roomy found
  read := ample_read
  scan _ _ roomy := roomy
  slots s := s.ample_liveSlots
  attach r b := ample_attach r b
  stray := rfl
  endless := rfl

end Transfer

/-- Settings that are accepted leave a share of the space for what is live. -/
theorem HeapSettings.percent_of_valid {s : HeapSettings} (valid : s.problem? = none) :
    1 ≤ s.growthPercent ∧ s.growthPercent ≤ 100 := by
  unfold problem? at valid
  split_ifs at valid with _ _ _ percent
  omega

namespace Heap

variable {h h' : Heap} {outside outside' : Roots × References} {pending maxSize capacity : Nat}

theorem ample_wantsRoom : Ample (h.wantsRoom capacity pending) :=
  (Size.ample_mul _ _).bind fun _ => (Size.ample_mul _ _).bind fun _ => Ample.pure _

theorem ample_nextCapacity {live : Nat} : Ample (nextCapacity live pending capacity maxSize) :=
  (Size.ample_grow _).bind fun _ => (Size.ample_add _ _).bind fun _ => (Size.ample_align _).bind
    fun _ => Ample.pure _

/-- What is still to be copied at the beginning is no more than what is used. -/
theorem Accounted.sum_burden_le (accounted : h.Accounted) :
    (h.objects.toList.map Transfer.burden).sum ≤ h.used := by
  rw [accounted.used]
  refine List.sum_le_sum fun o _ => ?_
  unfold Transfer.burden
  split <;> simp

theorem ample_copyLive (accounted : h.Accounted) (large : h.used ≤ roundUp capacity) :
    Ample (h.copyLive migrateRoots outside capacity) := by
  have start : Transfer.Roomy { source := h.objects, target := #[], space := Space.fresh capacity } := by
    have burden := accounted.sum_burden_le
    simp only [Transfer.Roomy, Space.fresh]
    omega
  have kept := Transfer.lasting_roomy.copyLive h outside capacity start rfl
  intro violation failed
  rwa [failed] at kept

/-- However often a collection has to start over, it never runs out of the space that it copies
into. Stacks may be in any disorder. -/
theorem collectInto_unexhausted {h : Heap}
    {outside : Roots × References} {pending maxSize capacity : Nat}
    (accounted : h.Accounted) (headed : h.Headed) (large : h.used ≤ roundUp capacity) :
    Ample (h.collectInto migrateRoots pending maxSize capacity outside).outcome := by
  unfold collectInto
  split
  · rename_i violation failed
    exact Ample.error.mpr (ample_copyLive accounted large violation failed)
  · rename_i outside' h' copied
    obtain ⟨kept, place, hauled, -, accounted', capacity_eq, -⟩ := copyLive_hauls headed copied
    split
    · rename_i violation failed
      exact Ample.error.mpr (ample_wantsRoom violation failed)
    · split
      · rename_i room
        split
        · rename_i violation failed
          exact Ample.error.mpr (ample_nextCapacity violation failed)
        · rename_i next isNext
          have grows := nextCapacity_gt room.1 isNext
          have fits : h'.used ≤ roundUp next := by
            have := accounted'.fits
            rw [capacity_eq] at this
            exact this.trans (roundUp_mono grows.1.le)
          exact collectInto_unexhausted accounted' (hauled.headed headed) fits
      · exact Ample.ok _
termination_by maxSize - capacity
decreasing_by omega

/-! ## How large the last space is -/

/-- The space does not shrink, and does not outgrow the largest one allowed. -/
theorem collectInto_capacity {h h' : Heap}
    {outside outside' : Roots × References} {pending maxSize capacity limit : Nat}
    (within : capacity ≤ roundUp limit) (high : maxSize ≤ limit) (done :
      (h.collectInto migrateRoots pending maxSize capacity outside).outcome = .ok (outside', h')) :
    capacity ≤ h'.capacity ∧ h'.capacity ≤ roundUp limit := by
  revert within
  refine collectInto_rounds capacity outside h done (fun capacity outside h small copied _ _ within => ?_)
    fun capacity outside h next middle h₁ _ grows ih within => ?_
  · obtain ⟨-, isCapacity, -⟩ := copyLive_inWords copied
    rw [isCapacity]
    refine ⟨Size.roundUp_ge capacity, (roundUp_mono within).trans ?_⟩
    rw [Size.roundUp_roundUp]
  · have large := ih ((grows.2.trans high).trans (Size.roundUp_ge limit))
    omega

/-- A block that the largest space would have room for can be taken after a collection for it. -/
theorem allocate_of_room (accounted : h.Accounted) (inWords : h.space.InWords)
    (addressable : h.capacity < Space.addressLimit) (room : maxSize ≤ h.capacity ∨ pending ≤ h.free)
    (wanted : h.used + pending ≤ maxSize) (object : Unit → Object) :
    ∃ r h', h.allocate pending object = .ok r h' := by
  have free : h.space.free = h.capacity - h.used := rfl
  have fits := accounted.fits
  have enough : pending ≤ h.space.free := by
    rcases room with full | room
    · omega
    · exact room
  have small : pending < 2 ^ 63 := by
    simp only [Space.addressLimit] at addressable
    omega
  have taken : h.space.allocate pending =
      .ok (some { h.space with used := h.space.used + roundUp pending }) := by
    unfold Space.allocate
    rw [Size.align_eq small]
    exact if_neg (inWords.roundUp_le enough).not_gt
  simp only [allocate, reserve, taken]
  exact ⟨_, _, rfl⟩

/-- A collection never runs out of the space that it copies into. The space does not shrink and
stays within the largest one that the settings allow; there is room for the block that is waiting
and the space is not crowded, or it is as large as it may become. So the block can be taken
afterwards, if the largest space has room for it at all. If nothing is found broken on the way, what
is used in the end is what was live, and nothing is as long as no size comes near the end of the
range. -/
theorem collect_sized (h : Heap)
    (outside : Roots × References) (pending : Nat) (valid : h.settings.problem? = none)
    (accounted : h.Accounted) (headers : ∀ r o, h.object? r = some o → ∃ l, o.header = .layout l)
    (within : h.capacity ≤ roundUp h.settings.maxSize) :
    (∀ size, (h.collect migrateRoots pending outside).outcome ≠ .error (.toSpaceExhausted size)) ∧
      (∀ outside' h', (h.collect migrateRoots pending outside).outcome = .ok (outside', h') →
      h.capacity ≤ h'.capacity ∧ h'.capacity ≤ roundUp h.settings.maxSize ∧ (h.settings.maxSize ≤
      h'.capacity ∨ pending ≤ h'.free ∧ h'.used * 100 ≤ h'.capacity * h.settings.growthPercent) ∧
      (h'.used + pending ≤ h.settings.maxSize → ∀ object, ∃ r h'', h'.allocate pending object =
      .ok r h'')) ∧ (outside.2.WellRegistered → h.Collectable (StartsAt outside) →
      (∀ r, h.Reachable (StartsAt outside) r → ∃ o, h.object? r = some o) →
      h.capacity ≤ 2 ^ 53 → h.liveBytes (h.Reachable (StartsAt outside)) + pending ≤ 2 ^ 52 →
      ∃ outside' h', (h.collect migrateRoots pending outside).outcome = .ok (outside', h') ∧
      h'.used = h.liveBytes (h.Reachable (StartsAt outside))) := by
  have large : h.used ≤ roundUp h.capacity := accounted.fits.trans (Size.roundUp_ge _)
  refine ⟨fun size exhausted => ?_, fun outside' h' done => ?_, ?_⟩
  · have ample := collectInto_unexhausted accounted headers large _ exhausted
    cases ample
  · obtain ⟨-, -, -, -, accounted', addressable, settings⟩ := collectInto_hauls headers done
    obtain ⟨inWords, -, room⟩ := collectInto_room done
    obtain ⟨notLess, notMore⟩ := collectInto_capacity within le_rfl done
    rw [settings] at room
    exact ⟨notLess, notMore, room, fun wanted object =>
      allocate_of_room accounted' inWords addressable (room.imp_right And.left) wanted object⟩
  · intro registered collectable closed few modest
    obtain ⟨positive, atMost⟩ := HeapSettings.percent_of_valid valid
    have threshold : roundUp h.capacity * h.settings.growthPercent ≤ 2 ^ 53 * 100 := by
      refine Nat.mul_le_mul ((roundUp_mono few).trans ?_) atMost
      rw [Size.roundUp_eq_of_mod rfl]
    obtain ⟨outside', h', done, kept, -⟩ := collectInto_ok h outside pending h.settings.maxSize
      h.capacity registered collectable closed large modest positive atMost (by omega)
    exact ⟨outside', h', done, kept⟩

end Heap

namespace Machine

/-- Settings whose largest space is not in whole words. -/
def raggedSettings : Settings := { heap := { initialSize := 3000, maxSize := 6005, growthPercent := 50 } }

/-- The space of a new machine with the ragged settings. -/
def raggedSpace? : Option Space :=
  match create raggedSettings {} with
  | .ok m => if m.store.heap.settings = raggedSettings.heap then some m.space else none
  | .error _ => none

end Machine

/-- A block that fills the largest space to its last byte can be taken, although that space is not
in whole words. -/
theorem Heap.collect_sized_ragged : ∃ (m : Machine) (outside' : Roots × References) (h' : Heap),
    Machine.create Machine.raggedSettings {} = .ok m ∧
    (m.store.heap.collect migrateRoots 3245 m.outside).outcome = .ok (outside', h') ∧
    m.store.heap.settings.maxSize = 6005 ∧ h'.capacity ≤ 6008 ∧
    ∃ r h'', h'.allocate 3245 (fun _ => ⟨.layout ⟨0⟩, .context {}⟩) = .ok r h'' := by
  have space : Machine.raggedSpace? = some { capacity := 3000, used := 2760 } := by decide +kernel
  unfold Machine.raggedSpace? at space
  split at space
  case h_2 => cases space
  rename_i m created
  split at space
  case isFalse => cases space
  rename_i settings
  have space : m.store.heap.space = { capacity := 3000, used := 2760 } := Option.some.inj space
  have capacity : m.store.heap.capacity = 3000 := by rw [capacity, space]
  have ready := Machine.ready_of_create created
  have collectable := ready.collectable
  have live := collectable.accounted.liveBytes_le (m.store.heap.Reachable (StartsAt m.outside))
  have used : m.store.heap.used = 2760 := by rw [used, space]
  have maxSize : m.store.heap.settings.maxSize = 6005 := by rw [settings]; rfl
  obtain ⟨-, sized, succeeds⟩ := collect_sized m.store.heap m.outside 3245 (by rw [settings]; rfl)
    collectable.accounted ready.formed.heap.headed (by rw [capacity, maxSize]; decide)
  obtain ⟨outside', h', done, kept⟩ := succeeds ready.registered collectable ready.closed
    (by omega) (by omega)
  obtain ⟨-, notMore, -, taken⟩ := sized outside' h' done
  rw [maxSize] at notMore taken
  exact ⟨m, outside', h', created, done, maxSize, notMore, taken (by omega) _⟩

end ObjectMachine
