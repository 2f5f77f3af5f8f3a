/-
# ObjectMachine.Proofs.Bringing -- what is held from outside comes along

Between two calls a machine makes objects, takes slots and collects. Whoever holds a value from
outside, by a root, a slot or a handle, finds the same graph afterwards: `Machine.Brings m place m'`
says that everything `m` knows is in `m'`, at the place `place` gives it and with everything it
refers to moved along. New objects and new slots may be there besides.

A machine is `Machine.Ready` if nothing it knows leads nowhere, and if the four constants can be
told apart. A ready machine that does not use the better part of the address space
(`Machine.Affords`) can always be collected.

* `Machine.Brings.trans` -- work after work, with or without collections, brings everything along.
* `Heap.collectInto_ok` -- such a collection finds nothing broken, and keeps the bytes that are
  live.
* `Machine.lands_collect` -- the same for the machine, which is ready again.
-/
import Mathlib
import ObjectMachine.Proofs.Shortage

namespace ObjectMachine

open Size (roundUp)

namespace Size

theorem add_eq {a b : Nat} (fits : a + b < 2 ^ 64) : add a b = .ok (a + b) := if_pos fits

theorem mul_eq {a b : Nat} (fits : a * b < 2 ^ 64) : mul a b = .ok (a * b) := if_pos fits

theorem elements_eq {words width count : Nat} (fits : words * 8 + count * width < 2 ^ 64) :
    elements words width count = .ok (words * 8 + count * width) := by
  simp only [elements, mul_eq (a := count) (b := width) (by omega), bind, Except.bind]
  exact add_eq fits

theorem align_eq {n : Nat} (fits : n < 2 ^ 63) : align n = .ok (roundUp n) := by
  refine if_pos (show roundUp n < 2 ^ 64 from ?_)
  simp only [roundUp, word]
  omega

theorem shiftLeft_eq {n bits : Nat} (fits : n * 2 ^ bits < 2 ^ 64) :
    shiftLeft n bits = n * 2 ^ bits := by
  rw [shiftLeft, Nat.shiftLeft_eq]
  exact Nat.mod_eq_of_lt fits

theorem grow_eq {n : Nat} (low : n ≤ 2 ^ 60) : grow n = .ok (max (13 * n / 8) (n + 1)) := by
  have eight : shiftLeft n 3 = n * 2 ^ 3 := shiftLeft_eq (by omega)
  have four : shiftLeft n 2 = n * 2 ^ 2 := shiftLeft_eq (by omega)
  simp only [grow, eight, four, bind, Except.bind]
  rw [add_eq (by omega)]
  simp only
  rw [add_eq (by omega)]
  simp only
  rw [add_eq (by omega)]
  simp only [pure, Except.pure]
  congr 3
  omega

end Size

namespace Body

theorem relocated_id {b : Body} (noStack : b.kind ≠ .stack) (home : Ref) :
    b.relocated id home = b := by
  have same : Value.move id = id := funext Value.move_id
  cases b with
  | stack s => exact absurd rfl noStack
  | _ => simp [relocated, mapFields, refill, fields, same]

end Body

namespace Object

variable {p q place : Ref → Ref} {home target : Ref} {o o' o'' : Object}

theorem mentions_relocated {s : Ref} :
    (o.relocated place home).Mentions s ↔ ∃ r, o.Mentions r ∧ place r = s := by
  constructor
  · rintro (isHeader | held)
    · cases header : o.header with
      | layout l =>
        simp only [relocated, header, Header.move, Header.layout.injEq] at isHeader
        exact ⟨l, .inl header, isHeader⟩
      | forward target => simp [relocated, header, Header.move] at isHeader
    · rw [relocated, Body.held_relocated] at held
      obtain ⟨v, isHeld, moved⟩ := List.mem_map.mp held
      cases v with
      | object r =>
        cases moved
        exact ⟨r, .inr isHeld, rfl⟩
      | _ => cases moved
  · rintro ⟨r, mentioned, rfl⟩
    exact mentioned.relocated

/-- `o'` is `o` after a move to `home`, when objects have gone where `place` says. How the links of
a stack are written is of no account. -/
def Became (place : Ref → Ref) (home : Ref) (o o' : Object) : Prop :=
  o'.relocated id home = o.relocated place home

namespace Became

theorem stay (o : Object) (home : Ref) : o.Became id home o := rfl

theorem relocated (o : Object) (place : Ref → Ref) (home : Ref) :
    o.Became place home (o.relocated place home) := relocated_relocated place id home home o

theorem trans (first : o.Became p home o') (second : o'.Became q target o'') :
    o.Became (q ∘ p) target o'' := by
  have again : o'.relocated q target = o.relocated (q ∘ p) target :=
    calc o'.relocated q target
        _ = (o'.relocated id home).relocated q target := (relocated_relocated id q home target o').symm
        _ = (o.relocated p home).relocated q target := by rw [first]
        _ = o.relocated (q ∘ p) target := relocated_relocated p q home target o
  exact Eq.trans second again

variable (became : o.Became place home o')
include became

theorem mentions {s : Ref} : o'.Mentions s ↔ ∃ r, o.Mentions r ∧ place r = s := by
  have same : (o'.relocated id home).Mentions s ↔ (o.relocated place home).Mentions s := by rw [became]
  rw [mentions_relocated, mentions_relocated] at same
  simpa using same

theorem kind : o'.body.kind = o.body.kind := by
  have kinds := congrArg (fun o : Object => o.body.kind) became
  simpa [Object.relocated] using kinds

theorem body (noStack : o.body.kind ≠ .stack) : o'.body = o.body.relocated place home := by
  have bodies := congrArg Object.body became
  simp only [Object.relocated] at bodies
  rwa [Body.relocated_id (by rwa [became.kind])] at bodies

end Became

end Object

namespace Roots

theorem mem_refs_of_move {roots : Roots} {place : Ref → Ref} {s : Ref}
    (member : s ∈ (roots.move place).refs) : ∃ r ∈ roots.refs, place r = s := by
  have refs : (roots.move place).refs = roots.refs.map place := by
    simp [refs, others, move, Vector.toList_map]
  rw [refs] at member
  exact List.mem_map.mp member

end Roots

namespace References

variable {place : Ref → Ref} {r : References}

theorem value_move (registered : r.WellRegistered)
    {handle : Handle} (member : handle ∈ r.registry.toList) :
    (r.move place).value handle = (r.value handle).move place := by
  obtain ⟨i, atIndex⟩ := List.mem_iff_getElem?.mp member
  obtain ⟨record, isRecord, -⟩ := registered i handle (by simpa using atIndex)
  have isRegistered : (⟨handle.number⟩ : Handle) ∈ r.registry := Array.mem_toList_iff.mp member
  simp [value, References.move, isRecord, isRegistered]

theorem startsAt_of_move (registered : r.WellRegistered) {s : Ref}
    (starts : (r.move place).StartsAt s) : ∃ t, r.StartsAt t ∧ place t = s := by
  have back : ∀ {v : Value}, v.move place = .object s → ∃ t, v = .object t ∧ place t = s := by
    intro v moved
    cases v with
    | object t => exact ⟨t, rfl, Value.object.inj moved⟩
    | _ => cases moved
  rcases starts with member | ⟨handle, member, isValue⟩
  · simp only [References.move, Array.toList_map, List.mem_map] at member
    obtain ⟨v, member, moved⟩ := member
    obtain ⟨t, rfl, isPlace⟩ := back moved
    exact ⟨t, .inl member, isPlace⟩
  · rw [value_move registered member] at isValue
    obtain ⟨t, isValue, isPlace⟩ := back isValue
    exact ⟨t, .inr ⟨handle, member, isValue⟩, isPlace⟩

end References

namespace Heap

variable {h h' : Heap} {outside : Roots × References} {place : Ref → Ref}

/-- What can be reached after a move has been reached before. -/
theorem Carried.reach_back (carried : h.Carried outside place h')
    (registered : outside.2.WellRegistered)
    {s : Ref} (reached : h'.Reachable (Machine.StartsAt (Machine.moveOutside place outside)) s) :
    ∃ r, h.Reachable (Machine.StartsAt outside) r ∧ place r = s := by
  induction reached with
  | root starts =>
    rcases starts with isRoot | isReference
    · obtain ⟨r, isRoot, isPlace⟩ := Roots.mem_refs_of_move isRoot
      exact ⟨r, .root (.inl isRoot), isPlace⟩
    · obtain ⟨r, starts, isPlace⟩ := References.startsAt_of_move registered isReference
      exact ⟨r, .root (.inr starts), isPlace⟩
  | edge _ found mentioned ih =>
    obtain ⟨r, reached, rfl⟩ := ih
    obtain ⟨o, isOld⟩ := carried.there r reached
    cases (carried.object r o reached isOld).symm.trans found
    obtain ⟨q, mentioned, isPlace⟩ := Object.mentions_relocated.mp mentioned
    exact ⟨q, .edge reached isOld mentioned, isPlace⟩

theorem Carried.closed (carried : h.Carried outside place h')
    (registered : outside.2.WellRegistered)
    {s : Ref} (after : h'.Reachable (Machine.StartsAt (Machine.moveOutside place outside)) s) :
    ∃ o, h'.object? s = some o := by
  obtain ⟨r, reached, rfl⟩ := carried.reach_back registered after
  obtain ⟨o, found⟩ := carried.there r reached
  exact ⟨_, carried.object r o reached found⟩

open Classical in
/-- Bytes of the objects that are live. -/
noncomputable def liveBytes (h : Heap) (live : Ref → Prop) : Nat :=
  ∑ i ∈ Finset.range h.objects.size with live ⟨i⟩, h.sizeAt ⟨i⟩

theorem Accounted.used_eq_sum (accounted : h.Accounted) :
    h.used = ∑ i ∈ Finset.range h.objects.size, h.sizeAt ⟨i⟩ := by
  rw [accounted.used, Finset.sum_range, ← List.sum_ofFn]
  congr 1
  apply List.ext_getElem
  · simp
  · intro i low low'
    simp [sizeAt, object?]

theorem Accounted.liveBytes_le (accounted : h.Accounted) (live : Ref → Prop) :
    h.liveBytes live ≤ h.used := by
  classical
  rw [accounted.used_eq_sum]
  exact Finset.sum_le_sum_of_subset (Finset.filter_subset _ _)

theorem Accounted.liveBytes_eq (accounted : h.Accounted) {live : Ref → Prop}
    (all : ∀ r : Ref, r.position < h.objects.size → live r) : h.liveBytes live = h.used := by
  classical
  rw [accounted.used_eq_sum, liveBytes, Finset.filter_true_of_mem]
  exact fun i member => all ⟨i⟩ (Finset.mem_range.mp member)

theorem Image.used_eq {live : Ref → Prop} (image : h.Image live place h')
    (there : ∀ r, live r → ∃ o, h.object? r = some o) : h'.used = h.liveBytes live := by
  classical
  obtain ⟨order, distinct, isOrder, used⟩ := image.used
  have positions : (order.map Ref.position).Nodup :=
    distinct.map fun r s same => by cases r; cases s; simp_all
  have whole : (order.map Ref.position).toFinset = {i ∈ Finset.range h.objects.size | live ⟨i⟩} := by
    ext i
    simp only [List.mem_toFinset, List.mem_map, Finset.mem_filter, Finset.mem_range]
    constructor
    · rintro ⟨r, member, rfl⟩
      obtain ⟨o, found⟩ := there r ((isOrder r).mp member)
      exact ⟨(Array.getElem?_eq_some_iff.mp found).1, (isOrder r).mp member⟩
    · rintro ⟨-, isLive⟩
      exact ⟨⟨i⟩, (isOrder _).mpr isLive, rfl⟩
  rw [used, liveBytes, ← whole, List.sum_toFinset _ positions, List.map_map]
  rfl

section Sizes

variable {pending maxSize capacity : Nat}

theorem wantsRoom_ok (few : h.used ≤ 2 ^ 52)
    (threshold : capacity * h.settings.growthPercent ≤ 2 ^ 60) :
    ∃ small, h.wantsRoom capacity pending = .ok small ∧
      (small = true → h.free < pending ∨ capacity * h.settings.growthPercent < h.used * 100) := by
  have filled : Size.mul h.used 100 = .ok (h.used * 100) := Size.mul_eq (by omega)
  have allowed : Size.mul capacity h.settings.growthPercent =
      .ok (capacity * h.settings.growthPercent) := Size.mul_eq (by omega)
  refine ⟨_, by simp only [wantsRoom, filled, allowed, bind, Except.bind]; rfl, fun isSmall => ?_⟩
  simpa using isSmall

/-- A larger capacity can be computed as long as the old one is far from the end of the range, and
it does not outgrow the old one by much. -/
theorem nextCapacity_ok {live : Nat} (few : live + pending ≤ 2 ^ 52) (low : capacity ≤ 2 ^ 60) :
    ∃ next, nextCapacity live pending capacity maxSize = .ok next ∧
      (8 * roundUp next ≤ 13 * capacity + 64 ∨ roundUp next ≤ live + pending + 8) := by
  have wanted : Size.add live pending = .ok (live + pending) := Size.add_eq (by omega)
  have aligned := Size.align_eq
    (show max (max (13 * capacity / 8) (capacity + 1)) (live + pending) < 2 ^ 63 by omega)
  refine ⟨_, by simp only [nextCapacity, Size.grow_eq low, wanted, aligned, bind, Except.bind]; rfl, ?_⟩
  simp only [roundUp, Size.word]
  omega

/-- A capacity that is found too small is far from the end of the range, and so is the next one. -/
theorem nextCapacity_modest {live percent : Nat}
    (few : live + pending ≤ 2 ^ 52) (positive : 1 ≤ percent)
    (atMost : percent ≤ 100) (small : capacity < live + pending ∨ capacity * percent < live * 100) :
    ∃ next, nextCapacity live pending capacity maxSize = .ok next ∧
      roundUp next * percent ≤ 2 ^ 60 := by
  have bounded : capacity * percent ≤ 2 ^ 52 * 100 := by
    rcases small with tight | crowded
    · exact Nat.mul_le_mul (by omega) atMost
    · omega
  have wanted : (live + pending) * percent ≤ 2 ^ 52 * 100 := Nat.mul_le_mul few atMost
  have low : capacity ≤ capacity * percent := Nat.le_mul_of_pos_right _ positive
  obtain ⟨next, isNext, near⟩ := @nextCapacity_ok pending maxSize capacity live few (by omega)
  refine ⟨next, isNext, ?_⟩
  rcases near with near | near
  · have scaled := Nat.mul_le_mul_right percent near
    rw [Nat.add_mul, Nat.mul_assoc, Nat.mul_assoc] at scaled
    omega
  · have scaled := Nat.mul_le_mul_right percent near
    rw [Nat.add_mul _ 8] at scaled
    omega

/-- A collection in which nothing leads nowhere and no size comes near the end of the range finds
nothing broken, and what it keeps is what is live. -/
theorem collectInto_ok (h : Heap) (outside : Roots × References) (pending maxSize capacity : Nat)
    (registered : outside.2.WellRegistered) (collectable : h.Collectable (Machine.StartsAt outside))
    (closed : ∀ r, h.Reachable (Machine.StartsAt outside) r → ∃ o, h.object? r = some o)
    (large : h.used ≤ roundUp capacity)
    (few : h.liveBytes (h.Reachable (Machine.StartsAt outside)) + pending ≤ 2 ^ 52)
    (positive : 1 ≤ h.settings.growthPercent) (atMost : h.settings.growthPercent ≤ 100)
    (threshold : roundUp capacity * h.settings.growthPercent ≤ 2 ^ 60) :
    ∃ outside' h', (h.collectInto Machine.migrateRoots pending maxSize capacity outside).outcome =
        .ok (outside', h') ∧ h'.used = h.liveBytes (h.Reachable (Machine.StartsAt outside)) ∧
      h'.capacity * h.settings.growthPercent ≤ 2 ^ 60 := by
  have low := Nat.le_mul_of_pos_right (roundUp capacity) positive
  have rounded := Size.roundUp_ge capacity
  obtain ⟨place, h', copied, image, accounted, capacity_eq, settings, -⟩ | ⟨-, r, reached, absent⟩ :=
    copyLive_migrateRoots registered collectable large (show roundUp capacity < 2 ^ 63 by omega)
  case inr =>
    obtain ⟨o, found⟩ := closed r reached
    cases found.symm.trans absent
  have kept : h'.used = h.liveBytes (h.Reachable (Machine.StartsAt outside)) := image.used_eq closed
  rw [← kept] at few ⊢
  have carried : h.Carried outside place h' := ⟨closed, image.bijection, image.object⟩
  obtain ⟨small, wants, isSmall⟩ := @wantsRoom_ok h' pending capacity (by omega)
    (settings ▸ (Nat.mul_le_mul_right _ rounded).trans threshold)
  unfold collectInto
  rw [copied]
  simp only [wants]
  split
  · rename_i room
    have tight : h'.free < pending → capacity < h'.used + pending := by
      intro tight
      have free : h'.free = h'.capacity - h'.used := rfl
      omega
    obtain ⟨next, isNext, threshold'⟩ := @nextCapacity_modest pending maxSize capacity h'.used
      h.settings.growthPercent few positive atMost
      ((isSmall room.2).imp tight fun crowded => settings ▸ crowded)
    have grows := nextCapacity_gt room.1 isNext
    split
    · rename_i violation failed
      cases isNext.symm.trans failed
    · rename_i next' isNext'
      cases isNext.symm.trans isNext'
      have fits : h'.used ≤ roundUp next := by
        have := accounted.fits
        rw [capacity_eq] at this
        exact this.trans (Size.roundUp_mono grows.1.le)
      -- Whatever has been copied is live, so the next copy is no smaller.
      have same : h'.liveBytes (h'.Reachable (Machine.StartsAt (Machine.moveOutside place outside))) =
          h'.used := by
        refine accounted.liveBytes_eq fun r' inside => ?_
        obtain ⟨r, reached, rfl⟩ := image.bijection.surjOn inside
        exact carried.reach registered reached
      obtain ⟨outside'', h'', collected, kept', threshold''⟩ :=
        collectInto_ok h' (Machine.moveOutside place outside) pending maxSize next registered.move
          (carried.collectable collectable accounted _)
          (fun r reached => carried.closed registered reached) fits (same.symm ▸ few)
          (settings ▸ positive) (settings ▸ atMost) (settings ▸ threshold')
      exact ⟨outside'', h'', collected, kept'.trans same, settings ▸ threshold''⟩
  · exact ⟨_, h', rfl, rfl, capacity_eq ▸ threshold⟩
termination_by maxSize - capacity
decreasing_by omega

end Sizes

end Heap

namespace Action

variable {σ ε δ α β : Type}

/-- How work ends from a state. It finds nothing broken. -/
def Lands (work : Action σ ε α) (s : σ) (answered : α → σ → Prop) (raised : ε → σ → Prop) : Prop :=
  match work s with
  | .ok answer s => answered answer s
  | .error (.raised cause) s => raised cause s
  | .error _ _ => False

variable {s : σ} {answered answered' : α → σ → Prop} {raised raised' : ε → σ → Prop}
variable {work : Action σ ε α} {result : Except Violation α}

/-- What is known of the work besides is known of its end, too. -/
theorem Lands.and (lands : Lands work s answered raised) (leads : Leads work s answered' raised') :
    Lands work s (fun answer s' => answered answer s' ∧ answered' answer s')
      fun cause s' => raised cause s' ∧ raised' cause s' := by
  unfold Lands at lands ⊢
  unfold Leads at leads
  cases result : work s with
  | ok answer s' =>
    rw [result] at lands leads
    exact ⟨lands, leads⟩
  | error stop s' =>
    rw [result] at lands leads
    cases stop with
    | raised cause => exact ⟨lands, leads⟩
    | _ => exact lands

theorem Lands.mono (lands : Lands work s answered raised)
    (onAnswer : ∀ answer s', answered answer s' → answered' answer s')
    (onRaise : ∀ cause s', raised cause s' → raised' cause s') :
    Lands work s answered' raised' := by
  unfold Lands at *
  split at lands
  · exact onAnswer _ _ lands
  · exact onRaise _ _ lands
  · exact lands

theorem lands_bind {first : Action σ ε α} {next : α → Action σ ε β} {done : β → σ → Prop} :
    Lands (first >>= next) s done raised ↔
      Lands first s (fun answer s => Lands (next answer) s done raised) raised := by
  have sequence : (first >>= next) s = EStateM.bind first next s := rfl
  unfold Lands
  rw [sequence, EStateM.bind]
  cases first s with
  | ok answer s => rfl
  | error stop s => cases stop <;> rfl

theorem lands_mapError {f : ε → δ} {refused : δ → σ → Prop} :
    Lands (mapError f work) s answered refused ↔
      Lands work s answered fun cause s => refused (f cause) s := by
  unfold Lands mapError
  cases work s with
  | ok answer s => rfl
  | error stop s => cases stop <;> rfl

theorem lands_check {answer : α} (isAnswer : result = .ok answer)
    (holds : answered answer s) : Lands (check result : Action σ ε α) s answered raised := by
  subst isAnswer
  exact holds

theorem lands_lift {answer : α} (isAnswer : result = .ok answer)
    (holds : answered answer s) : Lands (liftM result : EStateM (Stop ε) σ α) s answered raised :=
  lands_check isAnswer holds

end Action

open ObjectMachine.Action (Lands lands_bind)

namespace Machine

variable {ε α : Type} {m m' m'' : Machine} {p q place : Ref → Ref}
variable {raised : ε → Machine → Prop} {r : Ref}

/-- What can be reached from the roots, the slots and the handles of a machine. -/
def Knows (m : Machine) (r : Ref) : Prop := m.store.heap.Reachable (StartsAt m.outside) r

/-- Everything `m` knows is in `m'`: each object where `place` says and with everything it refers to
moved along, and every root, slot and handle leads where it led. -/
structure Brings (m : Machine) (place : Ref → Ref) (m' : Machine) : Prop where
  object : ∀ r o, m.Knows r → m.store.heap.object? r = some o →
    ∃ o', m'.store.heap.object? (place r) = some o' ∧ o.Became place (place r) o'
  injective : ∀ r s, m.Knows r → m.Knows s → place r = place s → r = s
  roots : m'.store.roots = m.store.roots.move place
  slots : ∀ i < m.references.scopedCount, m'.references.slot i = (m.references.slot i).move place
  count : m.references.scopedCount ≤ m'.references.scopedCount
  registry : m'.references.registry = m.references.registry
  handles : ∀ handle ∈ m.references.registry.toList,
    m'.references.value handle = (m.references.value handle).move place
  heapSettings : m'.store.heap.settings = m.store.heap.settings
  settings : m'.settings = m.settings
  compiler : m'.compiler = m.compiler
  output : m'.output = m.output

theorem knows_root (isRoot : r ∈ m.store.roots.refs) : m.Knows r := .root (.inl isRoot)

theorem knows_slot {index : Nat} (isSlot : m.references.slot index = .object r) :
    m.Knows r := .root (.inr (References.startsAt_slot isSlot))

namespace Brings

theorem refl (m : Machine) : m.Brings id m where
  object _ o _ found := ⟨o, found, .stay o _⟩
  injective _ _ _ _ same := same
  roots := (Roots.move_id _).symm
  slots _ _ := (Value.move_id _).symm
  count := le_rfl
  registry := rfl
  handles _ _ := (Value.move_id _).symm
  heapSettings := rfl
  settings := rfl
  compiler := rfl
  output := rfl

theorem starts (brings : m.Brings place m') (starts : StartsAt m.outside r) :
    StartsAt m'.outside (place r) := by
  rcases starts with isRoot | member | ⟨handle, member, isValue⟩
  · refine .inl ?_
    simp only [outside, brings.roots]
    exact Roots.mem_refs_move isRoot
  · obtain ⟨i, atIndex⟩ := List.mem_iff_getElem?.mp member
    replace atIndex : m.references.slots[i]? = some (.object r) := by
      simpa [outside] using atIndex
    have low : i < m.references.scopedCount := (Array.getElem?_eq_some_iff.mp atIndex).1
    have isSlot : m.references.slot i = .object r := by simp [References.slot, atIndex]
    refine .inr (@References.startsAt_slot _ i _ ?_)
    rw [show m'.outside.2 = m'.references from rfl, brings.slots i low, isSlot]
    rfl
  · refine .inr (.inr ⟨handle, ?_, ?_⟩)
    · rw [show m'.outside.2 = m'.references from rfl, brings.registry]
      exact member
    · rw [show m'.outside.2 = m'.references from rfl, brings.handles handle member]
      rw [show m.references.value handle = _ from isValue]
      rfl

theorem knows (brings : m.Brings place m') (known : m.Knows r) : m'.Knows (place r) := by
  induction known with
  | root starts => exact .root (brings.starts starts)
  | edge known found mentioned ih =>
    obtain ⟨o', found', became⟩ := brings.object _ _ known found
    exact .edge ih found' (became.mentions.mpr ⟨_, mentioned, rfl⟩)

theorem trans (first : m.Brings p m') (second : m'.Brings q m'') : m.Brings (q ∘ p) m'' where
  object r o known found := by
    obtain ⟨o', found', became⟩ := first.object r o known found
    obtain ⟨o'', found'', became'⟩ := second.object _ o' (first.knows known) found'
    exact ⟨o'', found'', became.trans became'⟩
  injective r s known known' same :=
    first.injective r s known known' (second.injective _ _ (first.knows known) (first.knows known') same)
  roots := by rw [second.roots, first.roots, Roots.move_move]
  slots i low := by
    rw [second.slots i (low.trans_le first.count), first.slots i low, Value.move_move]
  count := first.count.trans second.count
  registry := second.registry.trans first.registry
  handles handle member := by
    rw [second.handles handle (first.registry ▸ member), first.handles handle member, Value.move_move]
  heapSettings := second.heapSettings.trans first.heapSettings
  settings := second.settings.trans first.settings
  compiler := second.compiler.trans first.compiler
  output := second.output.trans first.output

theorem withLog (brings : m.Brings place m') (log : Log) : m.Brings place { m' with log } := { brings with }

theorem push (brings : m.Brings place m') (v : Value) :
    m.Brings place { m' with references := m'.references.push v } :=
  { brings with
    slots i low := by
      rw [← brings.slots i low]
      have below : i < m'.references.slots.size := low.trans_le brings.count
      simp [References.slot, References.push, Array.getElem?_push, below.ne, below]
    count := by
      have := brings.count
      simp only [References.scopedCount, References.push, Array.size_push] at *
      omega }

theorem takes (brings : m.Brings place m') : m.store.Takes m.Knows place m'.store where
  body v b known found noStack := by
    obtain ⟨r, o, rfl, isObject, rfl⟩ := Heap.bodyOf?_eq_some.mp found
    obtain ⟨o', isObject', became⟩ := brings.object r o (known r rfl) isObject
    refine ⟨Heap.bodyOf?_eq_some.mpr ⟨_, o', rfl, isObject', ?_⟩, ?_⟩
    · rw [became.body noStack, Body.relocated_of_ne noStack]
    · rintro _ member q rfl
      exact .edge (known r rfl) isObject (.inr (by rwa [Body.held_of_ne noStack]))
  roots := brings.roots

theorem named (brings : m.Brings place m') (named : m.store.Named) : m'.store.Named :=
  brings.takes.named (fun _ => knows_root) named

end Brings

theorem Carried.brings (carried : m.Carried place m') (registered : m.references.WellRegistered) :
    m.Brings place m' where
  object r o known found := ⟨_, carried.heap.object r o known found, .relocated o place _⟩
  injective r s known known' same := carried.heap.bijection.injOn known known' same
  roots := carried.roots
  slots i _ := carried.slot i
  count := by simp [carried.references, References.scopedCount, References.move]
  registry := by rw [carried.references]; rfl
  handles handle member := by rw [carried.references, References.value_move registered member]
  heapSettings := carried.heapSettings
  settings := carried.settings
  compiler := carried.compiler
  output := carried.output

/-- A machine whose heap is well formed and whose constants have their names. -/
structure Legible (m : Machine) : Prop where
  formed : m.store.Formed
  named : m.store.Named

/-- A machine that can be collected at any time: also, every stack that it knows has nothing to run
or is parked, and nothing leads nowhere. Of the code that it holds and of its compiler nothing is
asked. -/
structure Ready (m : Machine) : Prop extends m.Legible where
  registered : m.references.WellRegistered
  settled : ∀ r o, m.Knows r → m.store.heap.object? r = some o → o.body.Settled r
  closed : ∀ r, m.Knows r → ∃ o, m.store.heap.object? r = some o

/-- With `bytes` more the machine still uses at most a pebibyte. -/
structure Affords (m : Machine) (bytes : Nat) : Prop where
  used : m.store.heap.used + bytes ≤ 2 ^ 50
  positive : 1 ≤ m.store.heap.settings.growthPercent
  atMost : m.store.heap.settings.growthPercent ≤ 100
  threshold : roundUp m.store.heap.capacity * m.store.heap.settings.growthPercent ≤ 2 ^ 60

theorem Affords.mono {bytes fewer : Nat} (affords : m.Affords bytes) (le : fewer ≤ bytes) :
    m.Affords fewer := { affords with used := by have := affords.used; omega }

theorem Ready.collectable (ready : m.Ready) : m.store.heap.Collectable (StartsAt m.outside) :=
  ⟨ready.formed.heap.accounted, fun r o _ found => ready.formed.heap.described r o found, ready.settled⟩

theorem Ready.withLog (ready : m.Ready) (log : Log) : Ready { m with log } := { ready with }

theorem Ready.carried (ready : m.Ready) (carried : m.Carried place m') : m'.Ready := by
  have moved := carried.heap.collectable ready.collectable carried.accounted fun _ => True
  refine ⟨⟨⟨⟨carried.accounted, carried.addressable, fun r o found => moved.described r o (.root trivial) found⟩,
    fun kind => carried.layouts (ready.formed.layouts kind)⟩, (carried.brings ready.registered).named ready.named⟩,
    ?_, fun r o _ found => moved.settled r o (.root trivial) found, fun s known => ?_⟩
  · rw [carried.references]
    exact ready.registered.move
  · unfold Knows at known
    rw [carried.outside] at known
    exact carried.heap.closed ready.registered known

theorem lands_ask {f : Machine → α} {answered : α → Machine → Prop} :
    Lands (ask f) m answered raised ↔ answered (f m) m := Iff.rfl

theorem lands_report {level : LogLevel} {message : Unit → String} {done : Unit → Machine → Prop} :
    Lands (report level message) m done raised ↔ done () { m with log := m.log.add level message } := Iff.rfl

theorem lands_reports {level : LogLevel} {message : Nat → String} (list : List Nat) :
    Lands (list.forM fun n => report level fun _ => message n : Op ε Unit) m
      (fun _ m' => ∃ log, m' = { m with log }) fun _ _ => False := by
  obtain ⟨log, done⟩ := reports_ok list m
  unfold Lands
  rw [done]
  exact ⟨log, rfl⟩

theorem lands_collect_of_ok {pending : Nat} {found : (Roots × References) × Heap}
    (collected : (m.store.heap.collect migrateRoots pending m.outside).outcome = .ok found) :
    Lands (collect pending : Op ε Unit) m (fun _ _ => True) fun _ _ => False := by
  unfold collect
  rw [lands_bind, lands_ask]
  simp only
  rw [lands_bind, lands_report, lands_bind, lands_ask]
  simp only
  rw [lands_bind]
  refine (lands_reports _).mono ?_ fun _ _ absurd => absurd
  rintro - _ ⟨log, rfl⟩
  rw [lands_bind]
  exact Action.lands_check collected trivial

theorem lands_collect {pending bytes : Nat} (ready : m.Ready) (affords : m.Affords bytes)
    (modest : pending ≤ 2 ^ 50) : Lands (collect pending : Op ε Unit) m
      (fun _ m' => (∃ place, m.Carried place m') ∧ m'.Affords bytes) fun _ _ => False := by
  have collectable := ready.collectable
  have fewer := collectable.accounted.liveBytes_le (m.store.heap.Reachable (StartsAt m.outside))
  obtain ⟨outside', h', collected, kept, threshold⟩ := m.store.heap.collectInto_ok m.outside pending
    m.store.heap.settings.maxSize m.store.heap.capacity ready.registered collectable ready.closed
    (collectable.accounted.fits.trans (Size.roundUp_ge _)) (by have := affords.used; omega)
    affords.positive affords.atMost affords.threshold
  refine (((lands_collect_of_ok collected).and
    (ends_collect pending ready.registered collectable).leads).and (leads_collect pending)).mono
    ?_ fun _ _ ⟨⟨absurd, _⟩, _⟩ => absurd
  rintro - m' ⟨⟨-, place, carried⟩, found, -, -⟩
  obtain ⟨-, rfl⟩ : outside' = m'.outside ∧ h' = m'.store.heap :=
    Prod.mk.inj (Except.ok.inj (collected.symm.trans found))
  have inWords := (Heap.collectInto_room found).1
  refine ⟨⟨place, carried⟩, ?_, ?_, ?_, ?_⟩
  · have := affords.used
    omega
  · rw [carried.heapSettings]
    exact affords.positive
  · rw [carried.heapSettings]
    exact affords.atMost
  · have whole : roundUp m'.store.heap.capacity = m'.store.heap.capacity :=
      Size.roundUp_eq_of_mod inWords.1
    rw [carried.heapSettings, whole]
    exact threshold

end Machine

end ObjectMachine
