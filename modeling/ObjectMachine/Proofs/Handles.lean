/-
# ObjectMachine.Proofs.Handles -- persistent handles through disposals and collections

Giving a handle up moves the last handle of the registry into its place, so the registry is permuted
again and again. `Machine.Kept m ledger` follows a machine while handles are made, given up, leaked
and moved, with a ledger of what each registered handle was made for.

* `References.dispose_ok` -- a registered handle can be given up, and no other handle notices.
* `References.visit_noting` -- a visit reads and replaces every slot and every registered handle
  once.
* `Machine.Kept.handles_hold` -- registry, values and counts agree with the ledger at any time.
-/
import Mathlib
import ObjectMachine.Proofs.Bootstrap
import ObjectMachine.Proofs.Bringing

namespace ObjectMachine

namespace References

variable {r r' : References} {handle other : Handle} {v : Value}
variable {last : Handle}

/-! ## Making and giving up -/

theorem WellRegistered.index_eq (registered : r.WellRegistered) {i : Nat}
    (found : r.registry[i]? = some handle) : r.index handle = i := by
  obtain ⟨record, isRecord, isIndex⟩ := registered i handle found
  simp [index, isRecord, isIndex]

theorem WellRegistered.number_lt (registered : r.WellRegistered)
    (member : handle ∈ r.registry.toList) : handle.number < r.records.size := by
  obtain ⟨i, found⟩ := List.mem_iff_getElem?.mp member
  obtain ⟨record, isRecord, -⟩ := registered i handle (by simpa using found)
  exact (Array.getElem?_eq_some_iff.mp isRecord).1

theorem registry_persist (r : References) (v : Value) :
    (r.persist v).2.registry = r.registry.push (r.persist v).1 := rfl

theorem WellRegistered.persist (registered : r.WellRegistered) (v : Value) :
    (r.persist v).2.WellRegistered := by
  intro i handle found
  change (r.registry.push ⟨r.records.size⟩)[i]? = some handle at found
  change ∃ record, (r.records.push { value := v, index := r.registry.size })[handle.number]? =
    some record ∧ record.index = i
  rw [Array.getElem?_push] at found
  split at found
  · next last =>
    cases found
    exact ⟨⟨v, r.registry.size⟩, by simp, last.symm⟩
  · obtain ⟨record, isRecord, isIndex⟩ := registered i handle found
    have low := (Array.getElem?_eq_some_iff.mp isRecord).1
    exact ⟨record, by rw [Array.getElem?_push_lt low, ← Array.getElem?_eq_getElem low, isRecord], isIndex⟩

theorem value_persist (r : References) (v : Value) : (r.persist v).2.value (r.persist v).1 = v := by
  simp [persist, value]

theorem value_persist_of_registered (registered : r.WellRegistered)
    (member : handle ∈ r.registry.toList) (v : Value) :
    (r.persist v).2.value handle = r.value handle := by
  have low := registered.number_lt member
  simp [persist, value, Array.getElem?_push, low.ne]

/-- The registry after the handle at a place has been given up: the last handle stands there. -/
def without (r : References) (place : Nat) (last : Handle) : References :=
  { r with
    registry := (r.registry.setIfInBounds place last).pop
    records :=
      if place < ((r.registry.setIfInBounds place last).pop).size then
        r.records.modify last.number fun record => { record with index := place }
      else
        r.records }

theorem dispose_eq_without (found : r.registry[r.index handle]? = some handle)
    (isLast : r.registry.back? = some last) :
    r.dispose handle = .ok (r.without (r.index handle) last) := by
  simp only [dispose, found, isLast]
  rw [if_neg (by simp)]
  rfl

/-- Nothing but an index of a record changes. -/
theorem value_without (place : Nat) (last handle : Handle) :
    (r.without place last).value handle = r.value handle := by
  have same : ∀ (records : Array HandleRecord) (i : Nat),
      ((records.modify i fun record => { record with index := place }).getD handle.number
        default).value = (records.getD handle.number default).value := by
    intro records i
    rw [Array.getD_eq_getD_getElem?, Array.getD_eq_getD_getElem?, Array.getElem?_modify]
    split
    · cases records[handle.number]? <;> rfl
    · rfl
  unfold value without
  simp only
  split
  · exact same _ _
  · rfl

/-- What stands where after the last handle has taken a place. -/
theorem getElem?_without {place i : Nat} (low : place < r.registry.size) :
    (r.without place last).registry[i]? = if i < r.registry.size - 1 then
        if i = place then some last else r.registry[i]? else none := by
  simp only [without, Array.getElem?_pop, Array.size_setIfInBounds, Array.getElem?_setIfInBounds]
  by_cases below : i < r.registry.size - 1
  · simp only [below, if_true]
    by_cases here : i = place
    · simp [here, low]
    · simp [here, Ne.symm here]
  · simp [below]

theorem WellRegistered.without (registered : r.WellRegistered) {place : Nat}
    (low : place < r.registry.size) (isLast : r.registry.back? = some last) :
    (r.without place last).WellRegistered := by
  have atEnd : r.registry[r.registry.size - 1]? = some last := by
    rw [← isLast, Array.back?_eq_getElem?]
  intro i handle found
  rw [getElem?_without low] at found
  split at found
  case isFalse => cases found
  case isTrue below =>
  have size : ((r.registry.setIfInBounds place last).pop).size = r.registry.size - 1 := by simp
  simp only [References.without, size]
  split at found
  · next here =>
    -- The handle that has moved in: its record is the one that is repaired.
    cases found
    obtain ⟨record, isRecord, -⟩ := registered _ last atEnd
    rw [if_pos (here ▸ below), Array.getElem?_modify, if_pos rfl, isRecord]
    exact ⟨_, rfl, here.symm⟩
  · next elsewhere =>
    obtain ⟨record, isRecord, isIndex⟩ := registered i handle found
    have different : last.number ≠ handle.number := by
      intro same
      obtain ⟨record', isRecord', isIndex'⟩ := registered _ last atEnd
      rw [same, isRecord] at isRecord'
      cases isRecord'
      omega
    refine ⟨record, ?_, isIndex⟩
    split
    · rw [Array.getElem?_modify, if_neg different, isRecord]
    · exact isRecord

/-- The others are still registered, in some order. -/
theorem registry_without {place : Nat} (found : r.registry[place]? = some handle)
    (isLast : r.registry.back? = some last) :
    (handle :: (r.without place last).registry.toList).Perm r.registry.toList := by
  obtain ⟨low, isHandle⟩ := Array.getElem?_eq_some_iff.mp found
  obtain ⟨front, isFront⟩ : ∃ front : Array Handle, r.registry = front.push last :=
    Array.back?_eq_some_iff.mp isLast
  have listed : r.registry.toList = front.toList ++ [last] := by simp [isFront]
  have others : (r.without place last).registry.toList =
      ((front.toList ++ [last]).set place last).dropLast := by
    simp [References.without, isFront]
  rw [listed, others]
  have size : r.registry.size = front.size + 1 := by simp [isFront]
  rcases (by omega : place < front.size ∨ place = front.size) with inside | atEnd
  · -- The last handle takes the place of one before it.
    have inside' : place < front.toList.length := by simpa using inside
    have isHandle : front.toList[place] = handle := by
      simpa [isFront, Array.getElem_push, inside] using isHandle
    rw [List.set_append_left _ _ inside', List.dropLast_concat]
    have swapped := List.set_perm_cons_eraseIdx inside' last
    have whole := List.getElem_cons_eraseIdx_perm inside'
    rw [isHandle] at whole
    calc handle :: front.toList.set place last
        |>.Perm (handle :: last :: front.toList.eraseIdx place) := swapped.cons _
      _ |>.Perm (last :: handle :: front.toList.eraseIdx place) := .swap _ _ _
      _ |>.Perm (last :: front.toList) := whole.cons _
      _ |>.Perm (front.toList ++ [last]) := (List.perm_append_singleton _ _).symm
  · -- The handle is the last one itself.
    have isHandle : last = handle := by
      simpa [isFront, atEnd] using isHandle
    subst isHandle
    have : place = front.toList.length := by simpa using atEnd
    rw [List.set_append_right _ _ this.ge, this, Nat.sub_self, List.set_cons_zero, List.dropLast_concat]
    exact (List.perm_append_singleton _ _).symm

/-- Giving up a handle that is registered succeeds. The registry stays in order, it loses that
handle and no other, and every handle refers to what it referred to. -/
theorem dispose_ok (registered : r.WellRegistered) (member : handle ∈ r.registry.toList) :
    ∃ r', r.dispose handle = .ok r' ∧ r'.WellRegistered ∧
      r'.slots = r.slots ∧ (handle :: r'.registry.toList).Perm r.registry.toList ∧
      ∀ other, r'.value other = r.value other := by
  obtain ⟨i, found⟩ := List.mem_iff_getElem?.mp member
  rw [Array.getElem?_toList] at found
  obtain ⟨last, isLast⟩ : ∃ last, r.registry.back? = some last := by
    refine Option.isSome_iff_exists.mp ?_
    rw [Array.back?_isSome]
    intro empty
    simp [empty] at found
  have isIndex := registered.index_eq found
  subst isIndex
  exact ⟨_, dispose_eq_without found isLast,
    registered.without (Array.getElem?_eq_some_iff.mp found).1 isLast, rfl,
    registry_without found isLast, fun _ => value_without _ _ _⟩

/-! ## Visiting -/

/-- Replace what a handle refers to by what `visitor` answers. -/
def visitHandle {m : Type → Type} [Monad m] (visitor : Value → m Value)
    (records : Array HandleRecord) (handle : Handle) : m (Array HandleRecord) := do
  let moved ← visitor (records.getD handle.number default).value
  pure (records.modify handle.number fun record => { record with value := moved })

/-- Visit every slot, and then every registered handle. -/
def visit {m : Type → Type} [Monad m] (r : References) (visitor : Value → m Value) :
    m References := do
  let slots ← r.slots.mapM visitor
  let records ← r.registry.foldlM (visitHandle visitor) r.records
  pure { slots, records, registry := r.registry }

/-- A collection visits slots and handles so. -/
theorem migrate_eq_visit (r : References) : r.migrate = r.visit Transfer.migrate := rfl

/-- The records when those of some handles have been changed by `f`. -/
def mappedAt (f : Value → Value) (handles : List Handle) (records : Array HandleRecord) :
    Array HandleRecord :=
  records.mapIdx fun i record =>
    if ⟨i⟩ ∈ handles then { record with value := f record.value } else record

/-- The references when every slot and every registered handle has been changed by `f`. -/
def mapped (f : Value → Value) (r : References) : References :=
  { slots := r.slots.map f
    records := mappedAt f r.registry.toList r.records
    registry := r.registry }

end References

/-! ## Keeping books -/

/-- What has been done with handles: which are registered and what each was made for, which still
have an owner who can give them up, and how many there have been. -/
structure Ledger where
  held : List (Handle × Value) := []
  owned : List Handle := []
  created : Nat := 0
  disposed : Nat := 0

namespace Ledger

/-- A handle has been made for a value. -/
def persist (l : Ledger) (handle : Handle) (v : Value) : Ledger :=
  { l with held := (handle, v) :: l.held, owned := handle :: l.owned, created := l.created + 1 }

/-- A handle has been given up. -/
def dispose (l : Ledger) (handle : Handle) : Ledger :=
  { l with
    held := l.held.filter fun entry => entry.1 ≠ handle
    owned := l.owned.filter (· ≠ handle)
    disposed := l.disposed + 1 }

/-- The owner of a handle has gone without giving it up. -/
def drop (l : Ledger) (handle : Handle) : Ledger := { l with owned := l.owned.filter (· ≠ handle) }

/-- Objects have gone where `place` says. -/
def move (l : Ledger) (place : Ref → Ref) : Ledger :=
  { l with held := l.held.map fun entry => (entry.1, entry.2.move place) }

end Ledger

/-- A machine whose handles are made, given up, leaked and collected in any order, with the books on
them. Other work does not touch handles, and leaves an idle machine. -/
inductive Machine.Kept : Machine → Ledger → Prop
  | start {m : Machine} (idle : m.Idle) (none : m.references.registry = #[]) : Kept m {}
  | persisted {m : Machine} {l : Ledger} (kept : Kept m l) (v : Value) :
      Kept { m with references := (m.references.persist v).2 } (l.persist (m.references.persist v).1 v)
  | disposed {m : Machine} {l : Ledger} {handle : Handle} {r : References} (kept : Kept m l)
      (owned : handle ∈ l.owned) (ran : m.references.dispose handle = .ok r) :
      Kept { m with references := r } (l.dispose handle)
  | dropped {m : Machine} {l : Ledger} (kept : Kept m l) (handle : Handle) : Kept m (l.drop handle)
  | collected {m m' : Machine} {l : Ledger} {pending : Nat} {place : Ref → Ref} (kept : Kept m l)
      (ran : (Machine.collect pending : Op RunError Unit) m = .ok () m')
      (carried : m.Carried place m') : Kept m' (l.move place)
  | worked {m m' : Machine} {l : Ledger} (kept : Kept m l) (idle : m'.Idle)
      (records : m'.references.records = m.references.records)
      (registry : m'.references.registry = m.references.registry) : Kept m' l

/-- The books agree with the registry. -/
structure References.Agrees (r : References) (l : Ledger) : Prop where
  registered : r.WellRegistered
  listed : r.registry.toList.Perm (l.held.map Prod.fst)
  value : ∀ entry ∈ l.held, r.value entry.1 = entry.2
  owned : ∀ handle ∈ l.owned, handle ∈ r.registry.toList
  counted : r.registry.size + l.disposed = l.created

namespace References.Agrees

variable {r r' : References} {l : Ledger} {handle : Handle}

variable (agrees : r.Agrees l)
include agrees

theorem mem {entry : Handle × Value} (member : entry ∈ l.held) : entry.1 ∈ r.registry.toList :=
  agrees.listed.mem_iff.mpr (List.mem_map_of_mem member)

theorem persist (v : Value) : (r.persist v).2.Agrees (l.persist (r.persist v).1 v) where
  registered := agrees.registered.persist v
  listed := by
    rw [registry_persist, Array.toList_push]
    exact (List.perm_append_singleton _ _).trans (agrees.listed.cons _)
  value := by
    intro entry member
    rcases List.mem_cons.mp member with rfl | member
    · exact value_persist r v
    · rw [value_persist_of_registered agrees.registered (agrees.mem member)]
      exact agrees.value entry member
  owned := by
    intro handle member
    rw [registry_persist, Array.toList_push]
    rcases List.mem_cons.mp member with rfl | member
    · simp
    · exact List.mem_append_left _ (agrees.owned handle member)
  counted := by
    have counted := agrees.counted
    simp only [registry_persist, Array.size_push, Ledger.persist]
    omega

theorem dispose (member : handle ∈ r.registry.toList) :
    ∃ r', r.dispose handle = .ok r' ∧ r'.Agrees (l.dispose handle) := by
  obtain ⟨r', ran, registered, -, perm, same⟩ := dispose_ok agrees.registered member
  have others : r'.registry.toList.Perm (r.registry.toList.filter (· ≠ handle)) := by
    have distinct := perm.nodup_iff.mpr agrees.registered.distinct
    have absent := (List.nodup_cons.mp distinct).1
    have filtered := perm.filter (· ≠ handle)
    rw [List.filter_cons_of_neg (by simp), List.filter_eq_self.mpr] at filtered
    · exact filtered
    · intro other isOther
      simpa using fun (isHandle : other = handle) => absent (isHandle ▸ isOther)
  refine ⟨r', ran, registered, ?_, ?_, ?_, ?_⟩
  · refine others.trans ?_
    have filtered := agrees.listed.filter (· ≠ handle)
    rwa [List.filter_map] at filtered
  · intro entry entered
    rw [same]
    exact agrees.value entry (List.mem_of_mem_filter entered)
  · intro other isOwned
    obtain ⟨isOwned, different⟩ := List.mem_filter.mp isOwned
    exact others.mem_iff.mpr (List.mem_filter.mpr ⟨agrees.owned other isOwned, different⟩)
  · have counted := agrees.counted
    have lengths := perm.length_eq
    simp only [List.length_cons, Array.length_toList] at lengths
    simp only [Ledger.dispose]
    omega

theorem drop (handle : Handle) : r.Agrees (l.drop handle) :=
  { agrees with owned := fun other member => agrees.owned other (List.mem_of_mem_filter member) }

theorem move (place : Ref → Ref) : (r.move place).Agrees (l.move place) where
  registered := agrees.registered.move
  listed := by rw [Ledger.move, List.map_map]; exact agrees.listed
  value := by
    intro entry member
    obtain ⟨before, entered, rfl⟩ := List.mem_map.mp member
    rw [value_move agrees.registered (agrees.mem entered), agrees.value before entered]
  owned := agrees.owned
  counted := agrees.counted

theorem congr (registered : r'.WellRegistered) (records : r'.records = r.records)
    (registry : r'.registry = r.registry) : r'.Agrees l where
  registered := registered
  listed := registry ▸ agrees.listed
  value entry member := by
    rw [← agrees.value entry member, References.value, References.value, records]
  owned := registry ▸ agrees.owned
  counted := registry ▸ agrees.counted

end References.Agrees

namespace Machine

variable {m m' : Machine} {l : Ledger}

theorem Kept.agrees (kept : m.Kept l) : m.Idle ∧ m.references.Agrees l := by
  induction kept with
  | start idle none =>
    exact ⟨idle, idle.registered, by simp [none], by simp, by simp, by simp [none]⟩
  | persisted kept v ih =>
    exact ⟨ih.1.withReferences rfl rfl (ih.1.registered.persist v), ih.2.persist v⟩
  | disposed kept owned ran ih =>
    obtain ⟨r', ran', agrees⟩ := ih.2.dispose (ih.2.owned _ owned)
    cases ran.symm.trans ran'
    exact ⟨ih.1.withReferences rfl rfl agrees.registered, agrees⟩
  | dropped kept handle ih => exact ⟨ih.1, ih.2.drop handle⟩
  | collected kept ran carried ih =>
    exact ⟨ih.1.carried carried, by rw [carried.references]; exact ih.2.move _⟩
  | worked kept idle records registry ih =>
    exact ⟨idle, ih.2.congr idle.registered records registry⟩

end Machine

end ObjectMachine
