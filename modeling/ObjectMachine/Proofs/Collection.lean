/-
# ObjectMachine.Proofs.Collection -- collecting from the roots of a machine

A collection starts from the roots, from the slots of open scopes and from the handles that are
registered (`Machine.StartsAt`).

* `Machine.migrateRoots_moves` -- all of them are migrated, a handle once.
* `Heap.copyLive_preserves_graph` -- copying keeps the graph that they reach, and nothing else.
-/
import Mathlib
import ObjectMachine.Proofs.Copying

namespace ObjectMachine

open Transfer (Plan migrateRef)

namespace Roots

/-- The roots that are not layouts. -/
def others (r : Roots) : List Ref :=
  [r.void, r.null, r.yes, r.no, r.objectProtocol, r.emptyTuple, r.emptyString, r.emptyLambda,
    r.emptyContext, r.toplevel]

/-- The references of the roots. -/
def refs (r : Roots) : List Ref := r.layouts.toList ++ r.others

/-- The roots with the given layouts, and the others in the order of `others`. -/
def ofRefs (layouts : Vector Ref Kind.count) (others : List Ref) : Roots :=
  { layouts
    void := others.getD 0 default
    null := others.getD 1 default
    yes := others.getD 2 default
    no := others.getD 3 default
    objectProtocol := others.getD 4 default
    emptyTuple := others.getD 5 default
    emptyString := others.getD 6 default
    emptyLambda := others.getD 7 default
    emptyContext := others.getD 8 default
    toplevel := others.getD 9 default }

/-- The roots when objects have gone where `place` says. -/
def move (place : Ref → Ref) (r : Roots) : Roots :=
  { layouts := r.layouts.map place
    void := place r.void
    null := place r.null
    yes := place r.yes
    no := place r.no
    objectProtocol := place r.objectProtocol
    emptyTuple := place r.emptyTuple
    emptyString := place r.emptyString
    emptyLambda := place r.emptyLambda
    emptyContext := place r.emptyContext
    toplevel := place r.toplevel }

theorem move_eq (place : Ref → Ref) (r : Roots) :
    r.move place = ofRefs (r.layouts.map place) (r.others.map place) := rfl

theorem move_congr {f g : Ref → Ref} {r : Roots} (same : ∀ s ∈ r.refs, f s = g s) :
    r.move f = r.move g := by
  have layouts : r.layouts.map f = r.layouts.map g := by
    apply Vector.map_congr_left
    intro s member
    exact same s (List.mem_append_left _ (Vector.mem_toList_iff.mpr member))
  rw [move_eq, move_eq, layouts, List.map_congr_left fun s member => same s (List.mem_append_right _ member)]

section Migration

variable {p : Plan} {scanned : Nat}

open Transfer (Moves Movable placeIn placeIn_append)

theorem migrate_eq (r : Roots) : r.migrate = r.layouts.mapM migrateRef >>= fun layouts =>
      ofRefs layouts <$> r.others.mapM migrateRef := by
  simp [migrate, others, ofRefs]

/-- Work over a vector is work over the list of its elements. -/
theorem run_mapM_vector {α β : Type} {n : Nat} (v : Vector α n) (f : α → Migration β) (t : Transfer) :
    match (v.toList.mapM f).run t with
    | .ok (list, t') => ∃ w : Vector β n, (v.mapM f).run t = .ok (w, t') ∧ w.toList = list
    | .error violation => (v.mapM f).run t = .error violation := by
  have arrays : (Vector.toArray <$> v.mapM f).run t = (List.toArray <$> v.toList.mapM f).run t := by
    rw [Vector.toArray_mapM, Array.mapM_eq_mapM_toList]
    rfl
  rw [StateT.run_map, StateT.run_map] at arrays
  cases listed : (v.toList.mapM f).run t with
  | error violation =>
    rw [listed] at arrays
    cases result : (v.mapM f).run t with
    | error violation' => rw [result] at arrays; cases arrays; rfl
    | ok answer => rw [result] at arrays; cases arrays
  | ok answer =>
    rw [listed] at arrays
    cases result : (v.mapM f).run t with
    | error violation => rw [result] at arrays; cases arrays
    | ok answer' =>
      rw [result] at arrays
      obtain ⟨list, t'⟩ := answer
      obtain ⟨w, t''⟩ := answer'
      have same : (w.toArray, t'') = (list.toArray, t') := Except.ok.inj arrays
      obtain ⟨isList, rfl⟩ := Prod.mk.inj same
      exact ⟨w, rfl, by rw [← Vector.toList_toArray, isList]⟩

theorem migrateRefs_moves (movable : Movable p) {refs : List Ref} (isLive : ∀ r ∈ refs, p.live r) :
    Moves p scanned (refs.mapM migrateRef) fun order moved =>
      (∀ r ∈ refs, r ∈ order) ∧ moved = refs.map (placeIn order) := by
  refine (Moves.mapM (fun (r s : Ref) => r = s) (fun place r => place r) (fun same => same _ rfl)
    fun r member => (Transfer.migrateRef_moves movable (isLive r member)).mono ?_).mono ?_
  · rintro order moved ⟨known, isMoved⟩
    exact ⟨by rintro s rfl; exact known, isMoved⟩
  · exact fun order moved ⟨known, isMoved⟩ => ⟨fun r member => known r member r rfl, isMoved⟩

theorem migrateLayouts_moves (movable : Movable p)
    {n : Nat} {layouts : Vector Ref n} (isLive : ∀ r ∈ layouts.toList, p.live r) :
    Moves p scanned (layouts.mapM migrateRef) fun order moved => (∀ r ∈ layouts.toList, r ∈ order) ∧
      moved = layouts.map (placeIn order) := by
  intro t order copied
  have vector := run_mapM_vector layouts migrateRef t
  have lists := migrateRefs_moves movable isLive copied
  cases listed : (layouts.toList.mapM migrateRef).run t with
  | error violation =>
    rw [listed] at vector lists
    rw [vector]
    exact lists
  | ok result =>
    rw [listed] at vector lists
    obtain ⟨moved, ranVector, isMoved⟩ := vector
    obtain ⟨more, copied', known, isList⟩ := lists
    rw [ranVector]
    refine ⟨more, copied', known, Vector.toList_inj.mp ?_⟩
    rw [isMoved, isList, Vector.toList_map]

theorem migrate_moves (movable : Movable p) {r : Roots} (isLive : ∀ s ∈ r.refs, p.live s) :
    Moves p scanned r.migrate fun order moved =>
      (∀ s ∈ r.refs, s ∈ order) ∧ moved = r.move (placeIn order) := by
  rw [migrate_eq]
  refine ((migrateLayouts_moves movable fun s member => isLive s (List.mem_append_left _ member)).bind ?_
    fun _ moved _ => (migrateRefs_moves movable fun s member =>
      isLive s (List.mem_append_right _ member)).map (ofRefs moved)).mono ?_
  · rintro order more _ ⟨known, rfl⟩
    refine ⟨fun s member => List.mem_append_left _ (known s member), Vector.map_congr_left fun s member => ?_⟩
    exact (placeIn_append (known s (Vector.mem_toList_iff.mpr member))).symm
  · rintro order _ ⟨_, ⟨known, rfl⟩, _, ⟨known', rfl⟩, rfl⟩
    refine ⟨fun s member => ?_, (move_eq _ r).symm⟩
    exact (List.mem_append.mp member).elim (known s) (known' s)

end Migration

end Roots

namespace References

variable {r : References}

/-- Every handle of the registry has a record, and the record knows the place of the handle. -/
def WellRegistered (r : References) : Prop := ∀ (i : Nat) (handle : Handle), r.registry[i]? = some handle →
    ∃ record : HandleRecord, r.records[handle.number]? = some record ∧ record.index = i

/-- The references when objects have gone where `place` says. Records of handles that have been
disposed of stay as they are. -/
def move (place : Ref → Ref) (r : References) : References :=
  { slots := r.slots.map (Value.move place)
    records := r.records.mapIdx fun i record =>
      if ⟨i⟩ ∈ r.registry.toList then { record with value := record.value.move place } else record
    registry := r.registry }

theorem WellRegistered.distinct (registered : r.WellRegistered) : r.registry.toList.Nodup := by
  rw [List.nodup_iff_injective_getElem]
  rintro ⟨i, low⟩ ⟨j, low'⟩ same
  have same : r.registry[i] = r.registry[j] := by simpa using same
  obtain ⟨record, found, atI⟩ := registered i r.registry[i] (Array.getElem?_eq_getElem low)
  obtain ⟨record', found', atJ⟩ := registered j r.registry[j] (Array.getElem?_eq_getElem low')
  rw [same, found'] at found
  cases found
  exact Fin.ext (atI.symm.trans atJ)

section Migration

variable {p : Plan} {scanned : Nat} {r : References}

open Transfer (Moves Movable placeIn placeIn_append)

/-- Migrate what a handle refers to. -/
def migrateHandle (records : Array HandleRecord) (handle : Handle) : Migration (Array HandleRecord) := do
  let moved ← Transfer.migrate (records.getD handle.number default).value
  pure (records.modify handle.number fun record => { record with value := moved })

theorem migrate_moves_of {known : List Ref → Array HandleRecord → Prop} (movable : Movable p)
    (isLive : ∀ s, .object s ∈ r.slots.toList → p.live s)
    (handles : Moves p scanned (r.registry.toList.foldlM migrateHandle r.records) known) :
    Moves p scanned r.migrate fun order moved => (∀ s, .object s ∈ r.slots.toList → s ∈ order) ∧
      moved.slots = r.slots.map (Value.move (placeIn order)) ∧ moved.registry = r.registry ∧
      known order moved.records := by
  have whole : r.migrate = (do
      let values ← r.slots.toList.mapM Transfer.migrate
      (fun records => ({ slots := values.toArray, records, registry := r.registry } : References)) <$>
        r.registry.toList.foldlM migrateHandle r.records) := by
    rw [migrate, Array.mapM_eq_mapM_toList, bind_map_left, Array.foldlM_toList]
    simp only [map_eq_pure_bind]
    rfl
  rw [whole]
  refine ((Transfer.migrateValues_moves movable isLive).bind Transfer.migrated_append fun _ values _ =>
    handles.map _).mono ?_
  rintro order _ ⟨_, ⟨knows, rfl⟩, records, holds, rfl⟩
  exact ⟨knows, by rw [← Array.toList_map], rfl, holds⟩

/-- Migrating handles that are registered, each of which has a record of its own. -/
theorem migrateHandles_moves (movable : Movable p) (registered : r.WellRegistered)
    (isLive : ∀ handle ∈ r.registry.toList, ∀ s, r.value handle = .object s → p.live s) :
    Moves p scanned (r.registry.toList.foldlM migrateHandle r.records) fun order moved =>
      (∀ handle ∈ r.registry.toList, ∀ s, r.value handle = .object s → s ∈ order) ∧
        moved = (r.move (placeIn order)).records := by
  let known (done : List Handle) (order : List Ref) (moved : Array HandleRecord) : Prop :=
    (∀ handle ∈ done, ∀ s, r.value handle = .object s → s ∈ order) ∧ moved = r.records.mapIdx fun i record =>
        if ⟨i⟩ ∈ done then { record with value := record.value.move (placeIn order) } else record
  have distinct := registered.distinct
  refine Moves.foldlM known ?_ _ ?_ fun order => ⟨by simp, by apply Array.ext_getElem?; simp⟩
  · rintro done order more _ ⟨knows, rfl⟩
    refine ⟨fun handle member s isValue => List.mem_append_left _ (knows handle member s isValue), ?_⟩
    apply Array.ext_getElem?
    intro i
    rw [Array.getElem?_mapIdx, Array.getElem?_mapIdx]
    cases found : r.records[i]? with
    | none => rfl
    | some record =>
      by_cases member : (⟨i⟩ : Handle) ∈ done
      · have stays : record.value.move (placeIn (order ++ more)) = record.value.move (placeIn order) :=
          Value.move_congr fun s isObject => placeIn_append (knows ⟨i⟩ member s (by simp [value, found, isObject]))
        simp [member, stays]
      · simp [member]
  · rintro done handle rest _ records whole ⟨-, isRecords⟩
    have member : handle ∈ r.registry.toList := by simp [← whole]
    have apart : handle ∉ done := by
      rw [← whole, List.nodup_append] at distinct
      exact fun before => distinct.2.2 handle before handle List.mem_cons_self rfl
    obtain ⟨i, atIndex⟩ := List.mem_iff_getElem?.mp member
    obtain ⟨record, found, -⟩ := registered i handle (by simpa using atIndex)
    have here : (records.getD handle.number default).value = r.value handle := by
      simp [isRecords, value, apart, found]
    unfold migrateHandle
    rw [here, ← map_eq_pure_bind]
    refine ((Transfer.migrate_moves movable (isLive handle member)).map _).mono ?_
    rintro order _ ⟨_, ⟨knows, rfl⟩, rfl⟩ ⟨known, rfl⟩
    refine ⟨fun other isDone => ?_, ?_⟩
    · rcases List.mem_append.mp isDone with before | isHere
      · exact known other before
      · obtain rfl : other = handle := by simpa using isHere
        exact knows
    · apply Array.ext_getElem?
      intro i
      simp only [Array.getElem?_mapIdx, Array.getElem?_modify]
      by_cases isHere : handle.number = i
      · subst isHere
        simp [found, apart, value]
      · have differs : (⟨i⟩ : Handle) ≠ handle := by rintro rfl; exact isHere rfl
        simp [isHere, differs]

end Migration

/-- What the slots and the registered handles refer to. -/
def StartsAt (r : References) (s : Ref) : Prop :=
  .object s ∈ r.slots.toList ∨ ∃ handle ∈ r.registry.toList, r.value handle = .object s

theorem move_congr {f g : Ref → Ref} (same : ∀ s, r.StartsAt s → f s = g s) :
    r.move f = r.move g := by
  have slots : r.slots.map (Value.move f) = r.slots.map (Value.move g) := by
    apply Array.map_congr_left
    intro v member
    refine Value.move_congr ?_
    rintro s rfl
    exact same s (.inl (Array.mem_toList_iff.mpr member))
  simp only [move, slots, References.mk.injEq, and_true, true_and]
  apply Array.ext_getElem?
  intro i
  rw [Array.getElem?_mapIdx, Array.getElem?_mapIdx]
  cases found : r.records[i]? with
  | none => rfl
  | some record =>
    by_cases member : (⟨i⟩ : Handle) ∈ r.registry.toList
    · have moved : record.value.move f = record.value.move g := by
        refine Value.move_congr fun s isObject => same s (.inr ⟨⟨i⟩, member, ?_⟩)
        simp [value, found, isObject]
      simp [moved]
    · simp [show (⟨i⟩ : Handle) ∉ r.registry by simpa using member]

theorem migrate_moves {p : Plan} {scanned : Nat} (movable : Transfer.Movable p)
    (registered : r.WellRegistered) (isLive : ∀ s, r.StartsAt s → p.live s) :
    Transfer.Moves p scanned r.migrate fun order moved =>
      (∀ s, r.StartsAt s → s ∈ order) ∧ moved = r.move (Transfer.placeIn order) := by
  refine (migrate_moves_of movable (fun s member => isLive s (.inl member))
    (migrateHandles_moves movable registered fun handle member s isValue =>
      isLive s (.inr ⟨handle, member, isValue⟩))).mono ?_
  rintro order ⟨slots, records, registry⟩ ⟨knowsSlots, rfl, rfl, knowsHandles, rfl⟩
  refine ⟨?_, rfl⟩
  rintro s (member | ⟨handle, member, isValue⟩)
  · exact knowsSlots s member
  · exact knowsHandles handle member s isValue

end References

namespace Machine

variable {outside : Roots × References}

/-- What a collection starts from: the roots, the slots and the registered handles. -/
def StartsAt (outside : Roots × References) (r : Ref) : Prop := r ∈ outside.1.refs ∨ outside.2.StartsAt r

/-- Roots and references when objects have gone where `place` says. -/
def moveOutside (place : Ref → Ref) (outside : Roots × References) : Roots × References :=
  (outside.1.move place, outside.2.move place)

theorem moveOutside_congr {f g : Ref → Ref} (same : ∀ r, StartsAt outside r → f r = g r) :
    moveOutside f outside = moveOutside g outside := by
  rw [moveOutside, moveOutside, Roots.move_congr fun s member => same s (.inl member),
    References.move_congr fun s starts => same s (.inr starts)]

theorem migrateRoots_moves_of {p : Plan} {scanned : Nat} (movable : Transfer.Movable p)
    {known : List Ref → References → Prop} (isLive : ∀ r ∈ outside.1.refs, p.live r)
    (references : Transfer.Moves p scanned outside.2.migrate known) :
    Transfer.Moves p scanned (migrateRoots outside) fun order moved =>
      (∀ r ∈ outside.1.refs, r ∈ order) ∧ moved.1 = outside.1.move (Transfer.placeIn order) ∧
      known order moved.2 := by
  have whole : migrateRoots outside = outside.1.migrate >>= fun roots =>
      (fun references => (roots, references)) <$> outside.2.migrate := by
    simp only [map_eq_pure_bind]
    rfl
  rw [whole]
  refine ((Roots.migrate_moves movable isLive).bind ?_ fun _ roots _ => references.map _).mono ?_
  · rintro order more _ ⟨knows, rfl⟩
    exact ⟨fun s member => List.mem_append_left _ (knows s member),
      Roots.move_congr fun s member => (Transfer.placeIn_append (knows s member)).symm⟩
  · rintro order _ ⟨_, ⟨knows, rfl⟩, references, holds, rfl⟩
    exact ⟨knows, rfl, holds⟩

theorem migrateRoots_moves {p : Plan} {scanned : Nat} (movable : Transfer.Movable p)
    (registered : outside.2.WellRegistered) (isLive : ∀ r, StartsAt outside r → p.live r) :
    Transfer.Moves p scanned (migrateRoots outside) fun order moved => (∀ r, StartsAt outside r →
      r ∈ order) ∧ moved = moveOutside (Transfer.placeIn order) outside := by
  refine (migrateRoots_moves_of movable (fun r member => isLive r (.inl member))
    (References.migrate_moves movable registered fun r starts => isLive r (.inr starts))).mono ?_
  rintro order ⟨roots, references⟩ ⟨knowsRoots, rfl, knowsReferences, rfl⟩
  exact ⟨fun r starts => starts.elim (knowsRoots r) (knowsReferences r), rfl⟩

end Machine

open Machine (StartsAt migrateRoots moveOutside)

namespace Heap

variable {h : Heap} {start : Ref → Prop}

/-- Copying what the roots, the slots and the handles reach gives the image of what they reach,
unless something they reach leads nowhere. -/
theorem copyLive_migrateRoots {outside : Roots × References} {capacity : Nat}
    (registered : outside.2.WellRegistered)
    (collectable : h.Collectable (StartsAt outside)) (large : h.used ≤ Size.roundUp capacity)
    (addressable : Size.roundUp capacity < Space.addressLimit) :
    (∃ place h', h.copyLive migrateRoots outside capacity = .ok (moveOutside place outside, h') ∧
      h.Image (h.Reachable (StartsAt outside)) place h' ∧
      h'.Accounted ∧ h'.capacity = Size.roundUp capacity ∧ h'.settings = h.settings ∧
      ¬ h.Stray (h.Reachable (StartsAt outside))) ∨ (h.copyLive migrateRoots outside capacity =
      .error .fieldOutsideSpace ∧ h.Stray (h.Reachable (StartsAt outside))) := by
  have movable := collectable.movable large addressable
  have copies := copyLive_finishes movable (exactPlan_finishes collectable movable)
    (show (h.exactPlan _ _).heap = h from rfl) rfl addressable
    (Machine.migrateRoots_moves movable registered fun _ starts => .root starts)
  cases result : h.copyLive migrateRoots outside capacity with
  | error violation =>
    rw [result] at copies
    obtain ⟨rfl, stray⟩ := copies
    exact .inr ⟨rfl, stray⟩
  | ok answer =>
    rw [result] at copies
    obtain ⟨first, more, t, copied, ⟨fromStart, isOutside⟩, objects, space, settings⟩ := copies
    have complete := mem_order_iff copied fun r isRoot => List.mem_append_left more (fromStart r isRoot)
    have settled : moveOutside _ outside = moveOutside (Transfer.placeIn (first ++ more)) outside :=
      Machine.moveOutside_congr fun r starts => (Transfer.placeIn_append (fromStart r starts)).symm
    refine .inl ⟨_, answer.2, ?_, image_of_copied copied complete objects space,
      accounted_of_copied copied objects space, ?_, settings, ?_⟩
    · rw [← settled, ← isOutside]
    · exact (congrArg Space.capacity space).trans copied.capacity_eq
    · rintro ⟨r, reached, absent⟩
      obtain ⟨o, found⟩ := copied.there r ((complete r).mpr reached)
      cases absent.symm.trans found

/-- Copying keeps the graph that the roots, the slots and the handles reach: the new space consists
of the reached objects alone, one for one, and each of them, like the roots, refers to the images of
what it referred to. Everything else about an object stays. -/
theorem copyLive_preserves_graph (h : Heap) (outside : Roots × References) (capacity : Nat)
    (registered : outside.2.WellRegistered)
    (collectable : h.Collectable (StartsAt outside))
    (there : ∀ r, h.Reachable (StartsAt outside) r → ∃ o, h.object? r = some o)
    (large : h.capacity ≤ capacity) (addressable : Size.roundUp capacity < Space.addressLimit) :
    ∃ place h',
      h.copyLive migrateRoots outside capacity = .ok (moveOutside place outside, h') ∧
      h.Image (h.Reachable (StartsAt outside)) place h' ∧
      (∀ r o, h'.object? r = some o → ∃ l, o.header = .layout l ∧ l.position < h'.objects.size) ∧
      h'.Accounted ∧ h'.capacity = Size.roundUp capacity ∧ h'.settings = h.settings := by
  have fits : h.used ≤ Size.roundUp capacity :=
    collectable.accounted.fits.trans (large.trans (Size.roundUp_ge capacity))
  obtain ⟨place, h', copied, image, accounted, capacity_eq, settings_eq, -⟩ |
      ⟨-, r, reached, absent⟩ := copyLive_migrateRoots registered collectable fits addressable
  case inr =>
    obtain ⟨o, found⟩ := there r reached
    rw [found] at absent
    cases absent
  refine ⟨place, h', copied, image, ?_, accounted, capacity_eq, settings_eq⟩
  intro r o found
  obtain ⟨source, reached, rfl⟩ := image.bijection.surjOn
    (show r.position < h'.objects.size from (Array.getElem?_eq_some_iff.mp found).1)
  obtain ⟨old, isOld⟩ := there source reached
  obtain ⟨l, header, -⟩ := collectable.described source old reached isOld
  obtain rfl : old.relocated place (place source) = o := by
    simpa [image.object source old reached isOld] using found
  exact ⟨place l, by simp [Object.relocated, header, Header.move],
    image.bijection.mapsTo (.edge reached isOld (.inl header))⟩

/-- A stack at position 4 that is parked above its bottom frame. -/
def knotStack : Stack :=
  { words := #[.value (.int 0), .link .bottom, .value (.object ⟨1⟩), .value (.object ⟨2⟩),
      .value (.int 5), .link (.address ⟨4⟩ 0), .value (.object ⟨1⟩), .value (.object ⟨99⟩)]
    top := .address ⟨4⟩ 4
    marker := none
    status := .parked
    mode := .linked }

/-- A heap with an instance, a tuple and a cell that hold each other, a cell that nothing refers to,
and a parked stack with a stale word above its frames. -/
def knotStore : Store :=
  .ofBodies [.inst ⟨#[.object ⟨1⟩, .int 3]⟩, .tuple ⟨#[.object ⟨1⟩, .object ⟨2⟩, .object ⟨0⟩]⟩,
    .cell ⟨.object ⟨1⟩⟩, .cell ⟨.object ⟨2⟩⟩, .stack knotStack] 2 0

/-- References to the knot: a slot with the stack and a handle for the tuple. -/
def knotReferences : References :=
  { slots := #[.object ⟨4⟩], records := #[⟨.object ⟨1⟩, 0⟩], registry := #[⟨0⟩] }

theorem knotStack_parked : knotStack.ParkedAt ⟨4⟩ 4 where
  status := rfl
  mode := rfl
  top_eq := rfl
  frames := by
    have holds : ∀ {first limit : Nat}, (∀ i ∈ List.range limit, first ≤ i →
        (knotStack.words[i]?.bind Slot.value?).isSome = true) →
        Stack.HoldsValues knotStack.words first limit := by
      intro first limit all i low high
      have := all i (List.mem_range.mpr high) low
      cases found : knotStack.words[i]? with
      | none => simp [found] at this
      | some slot =>
        cases slot with
        | value v => exact ⟨v, rfl⟩
        | link l => simp [found, Slot.value?] at this
    have bottom : Stack.Frames knotStack.words (.address ⟨4⟩) 0 4 :=
      @Stack.Frames.bottom _ _ 4 0 rfl rfl (holds (by decide)) (by decide)
    exact @Stack.Frames.frame _ _ 4 0 7 5 rfl rfl (holds (by decide)) (by decide) (by decide) bottom

theorem knot_settled (r : Ref) (o : Object) (found : knotStore.heap.object? r = some o) :
    o.body.Settled r := by
  intro s isStack
  obtain ⟨position⟩ := r
  by_cases isLast : position = 4
  · subst isLast
    obtain rfl : (⟨.layout ⟨21⟩, .stack knotStack⟩ : Object) = o := Option.some.inj found
    obtain rfl : knotStack = s := Body.stack.inj isStack
    exact .inr ⟨4, knotStack_parked⟩
  · have noStack : ∀ i ∈ List.range 25, i ≠ 4 →
        ∀ o, knotStore.heap.objects[i]? = some o → o.body.kind ≠ .stack := by
      decide
    have low : position < 25 := (Array.getElem?_eq_some_iff.mp found).1
    have := noStack position (List.mem_range.mpr low) isLast o found
    rw [isStack] at this
    exact absurd rfl this

theorem knot_collectable (start : Ref → Prop) : knotStore.heap.Collectable start where
  accounted := Store.accounted_ofBodies _ _ _
  described := fun _ _ _ found => Store.described_ofBodies (by simp) found
  settled := fun r o _ found => knot_settled r o found

theorem knot_there (r : Ref)
    (reached : knotStore.heap.Reachable (StartsAt (knotStore.roots, knotReferences)) r) :
    ∃ o, knotStore.heap.object? r = some o := by
  have inside : ∀ o ∈ knotStore.heap.objects.toList, ∀ v ∈ o.body.held,
      v.asRef?.all (fun s => decide (s.position < 25)) = true := by decide
  have low : r.position < 25 := by
    cases reached with
    | root starts =>
      rcases starts with isRoot | member | ⟨handle, member, isObject⟩
      · exact (by decide : ∀ r ∈ knotStore.roots.refs, r.position < 25) r isRoot
      · obtain rfl : r = ⟨4⟩ := by simpa [knotReferences] using member
        decide
      · obtain rfl : handle = ⟨0⟩ := by simpa [knotReferences] using member
        obtain rfl : (⟨1⟩ : Ref) = r := Value.object.inj isObject
        decide
    | edge _ found mentioned =>
      rcases mentioned with isHeader | isHeld
      · obtain ⟨_, header, _, isLayout, -⟩ := Store.described_ofBodies (by simp) found
        cases header.symm.trans isHeader
        obtain ⟨_, isBody, -⟩ := Option.bind_eq_some_iff.mp isLayout
        obtain ⟨_, atLayout, -⟩ := Option.map_eq_some_iff.mp isBody
        exact (Array.getElem?_eq_some_iff.mp atLayout).1
      · simpa [Value.asRef?] using inside _ (Array.mem_toList_iff.mpr (Array.mem_of_getElem? found)) _ isHeld
  exact ⟨_, Array.getElem?_eq_getElem low⟩

/-- The knot can be collected into a space of its own size. -/
theorem copyLive_preserves_knot :
    ∃ place h', knotStore.heap.copyLive migrateRoots (knotStore.roots, knotReferences) 1008 =
      .ok (moveOutside place (knotStore.roots, knotReferences), h') ∧ knotStore.heap.Image
      (knotStore.heap.Reachable (StartsAt (knotStore.roots, knotReferences))) place h' ∧
      (∀ r o, h'.object? r = some o → ∃ l, o.header = .layout l ∧ l.position < h'.objects.size) ∧
      h'.Accounted ∧ h'.capacity = 1008 ∧ h'.settings = knotStore.heap.settings := by
  refine copyLive_preserves_graph knotStore.heap (knotStore.roots, knotReferences) 1008 ?_
    (knot_collectable _) knot_there (by decide) (by decide)
  intro i handle found
  obtain rfl : i = 0 := by
    have := (Array.getElem?_eq_some_iff.mp found).1
    simp [knotReferences] at this
    exact this
  obtain rfl : (⟨0⟩ : Handle) = handle := Option.some.inj found
  exact ⟨_, rfl, rfl⟩

end Heap

end ObjectMachine
