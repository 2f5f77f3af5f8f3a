/-
# ObjectMachine.Proofs.Building -- objects made of known ones

Constructors put new objects behind the old ones, and a new object leads to what its maker had seen:
`Store.Builds seen s s'`. `Store.Constructs` says so of allocating work and bounds the bytes it
takes; if there is no room it fails without having changed anything that is known. So a ready
machine is ready afterwards, and the new object may be held in a slot (`Machine.Ready.push_built`).

* `Make.constructs_place`, `Make.constructs_string`, `Make.constructs_tuple` -- what is made takes its
  own bytes and nothing else.
* `Machine.lands_retrying` -- work that is done again after a collection ends in an answer or lacks
  memory, and brings everything along either way.
* `Machine.ready_of_create` -- a machine that has just been made is ready, whatever its settings.
-/
import Mathlib
import ObjectMachine.Proofs.Bootstrap
import ObjectMachine.Proofs.Bringing

namespace ObjectMachine

open ObjectMachine.Action (Lands lands_bind)

namespace Store

variable {α β : Type} {seen : Ref → Prop} {s s' s'' : Store} {bytes more : Nat}

/-- What had been seen before, and what is new. -/
def Offers (seen : Ref → Prop) (s s' : Store) (r : Ref) : Prop :=
  seen r ∨ s.heap.object? r = none ∧ ∃ o, s'.heap.object? r = some o

/-- The store has new objects, which lead to each other and to what had been seen. No stack among
them has anything to run. -/
structure Builds (seen : Ref → Prop) (s s' : Store) : Prop where
  old : s.Extends s'
  new : ∀ r o, s'.heap.object? r = some o → s.heap.object? r = none → ∀ q, o.Mentions q → Offers seen s s' q
  settled : ∀ r o, s'.heap.object? r = some o → s.heap.object? r = none → o.body.Settled r

namespace Builds

theorem refl (seen : Ref → Prop) (s : Store) : s.Builds seen s where
  old := ⟨.refl s.heap, rfl⟩
  new r o found absent := by cases absent.symm.trans found
  settled r o found absent := by cases absent.symm.trans found

theorem trans (first : s.Builds seen s') (second : s'.Builds (Offers seen s s') s'') :
    s.Builds seen s'' where
  old := Trans.trans first.old second.old
  new r o found absent q mentioned := by
    have onward : Offers seen s s' q → Offers seen s s'' q := by
      rintro (isSeen | ⟨isNew, o', found'⟩)
      · exact .inl isSeen
      · exact .inr ⟨isNew, o', second.old.heap.object q o' found'⟩
    cases before : s'.heap.object? r with
    | some o' =>
      cases (second.old.heap.object r o' before).symm.trans found
      exact onward (first.new r o before absent q mentioned)
    | none =>
      rcases second.new r o found before q mentioned with offered | ⟨isNew, o', found'⟩
      · exact onward offered
      · refine .inr ⟨?_, o', found'⟩
        cases older : s.heap.object? q with
        | none => rfl
        | some o'' => cases isNew.symm.trans (first.old.heap.object q o'' older)
  settled r o found absent := by
    cases before : s'.heap.object? r with
    | some o' =>
      cases (second.old.heap.object r o' before).symm.trans found
      exact first.settled r o before absent
    | none => exact second.settled r o found before

/-- What new objects and seen ones lead to is new or has been seen, if what had been seen is
closed. -/
theorem offers_of_reachable (builds : s.Builds seen s')
    {start : Ref → Prop} (starts : ∀ r, start r → Offers seen s s' r)
    (there : ∀ r, seen r → ∃ o, s.heap.object? r = some o)
    (closed : ∀ r o q, seen r → s.heap.object? r = some o → o.Mentions q → seen q) {r : Ref}
    (reached : s'.heap.Reachable start r) : Offers seen s s' r := by
  induction reached with
  | root isRoot => exact starts _ isRoot
  | edge _ found mentioned ih =>
    rcases ih with isSeen | ⟨isNew, -⟩
    · obtain ⟨o, isOld⟩ := there _ isSeen
      cases (builds.old.heap.object _ o isOld).symm.trans found
      exact .inl (closed _ _ _ isSeen isOld mentioned)
    · exact builds.new _ _ found isNew _ mentioned

theorem there (builds : s.Builds seen s') (inStore : ∀ r, seen r → ∃ o, s.heap.object? r = some o)
    {r : Ref} (offered : Offers seen s s' r) : ∃ o, s'.heap.object? r = some o := by
  rcases offered with isSeen | ⟨-, found⟩
  · obtain ⟨o, isOld⟩ := inStore r isSeen
    exact ⟨o, builds.old.heap.object r o isOld⟩
  · exact found

end Builds

/-- Work that makes objects of what has been seen and takes at most `bytes` for them. If there is no
room, that is because of one block. -/
def Constructs (seen : Ref → Prop) (work : Alloc α) (s : Store) (bytes : Nat)
    (post : α → Store → Prop) : Prop :=
  Lands work s (fun answer s' => s.Builds seen s' ∧ s'.heap.used ≤ s.heap.used + bytes ∧ post answer s')
    fun signal s' => s.Builds seen s' ∧ s'.heap.used ≤ s.heap.used + bytes ∧
      ∃ size ≤ bytes, signal = .allocationFailed size

variable {work first : Alloc α} {next : α → Alloc β} {post post' : α → Store → Prop}
  {after : β → Store → Prop}

theorem Constructs.bind (constructs : Constructs seen first s bytes post)
    (rest : ∀ answer s', s.Builds seen s' → post answer s' →
      Constructs (Offers seen s s') (next answer) s' more after) :
    Constructs seen (first >>= next) s (bytes + more) after := by
  refine lands_bind.mpr (Lands.mono constructs ?_ ?_)
  · rintro answer s₁ ⟨builds, fits, holds⟩
    refine Lands.mono (rest answer s₁ builds holds) ?_ ?_
    · rintro last s₂ ⟨builds', fits', holds'⟩
      exact ⟨builds.trans builds', by omega, holds'⟩
    · rintro signal s₂ ⟨builds', fits', size, small, isShort⟩
      exact ⟨builds.trans builds', by omega, size, by omega, isShort⟩
  · rintro signal s₁ ⟨builds, fits, size, small, isShort⟩
    exact ⟨builds, by omega, size, by omega, isShort⟩

theorem constructs_pure {answer : α} (holds : post answer s) :
    Constructs seen (pure answer) s 0 post :=
  ⟨.refl seen s, le_rfl, holds⟩

theorem Constructs.lift_bind {result : Except Violation α} {answer : α}
    (isAnswer : result = .ok answer) (rest : Constructs seen (next answer) s bytes after) :
    Constructs seen ((liftM result : EStateM (Stop Signal) Store α) >>= next) s bytes after :=
  lands_bind.mpr (Action.lands_lift isAnswer rest)

end Store

namespace Make

open Store (Constructs Made Offers)

variable {seen : Ref → Prop} {s : Store}

/-- An object can be placed if its layout and what it holds have been seen. -/
theorem constructs_place {size : Nat}
    {body : Body} (modest : size ≤ 2 ^ 50) (noStack : body.kind ≠ .stack)
    (layout : seen (s.roots.layout body.kind)) (holds : ∀ r, .object r ∈ body.held → seen r) :
    Constructs seen (place size body) s (Size.roundUp size) fun v s' => s.Made v body s' := by
  refine lands_bind.mpr ?_
  unfold placeAs
  refine lands_bind.mpr ?_
  have aligned : Size.align size = .ok (Size.roundUp size) := Size.align_eq (by omega)
  have rounded := Size.roundUp_ge size
  let o : Object := { header := .layout (s.roots.layout body.kind), body }
  by_cases fits : s.heap.space.free < Size.roundUp size
  · have full : Store.onHeap (Heap.allocate size fun _ => o) s =
        .error (.raised (.allocationFailed size)) s := by
      simp [Store.onHeap, Heap.allocate, Heap.reserve, Space.allocate, aligned, fits, bind, Except.bind,
        pure, Except.pure]
    unfold Lands
    rw [full]
    exact ⟨.refl seen s, by omega, size, rounded, rfl⟩
  · obtain ⟨stop, failed⟩ | ⟨-, made⟩ := onHeap_allocate_cases size (fun _ => o) s
    · simp [Store.onHeap, Heap.allocate, Heap.reserve, Space.allocate, aligned, fits, bind, Except.bind,
        pure, Except.pure] at failed
    · unfold Lands
      rw [made]
      have absent : s.heap.object? ⟨s.heap.objects.size⟩ = none := by simp [Heap.object?]
      have found : (s.heap.extended o size).object? ⟨s.heap.objects.size⟩ = some o := by
        simp [Heap.object?_extended]
      have isNew : ∀ r o', (s.heap.extended o size).object? r = some o' → s.heap.object? r = none → o' = o := by
        intro r o' found' wasAbsent
        rw [Heap.object?_extended] at found'
        split at found'
        · exact (Option.some.inj found').symm
        · cases wasAbsent.symm.trans found'
      refine ⟨⟨⟨.extended _ _ _, rfl⟩, fun r o' found' wasAbsent q mentioned => ?_, fun r o' found' wasAbsent => ?_⟩,
        le_rfl, _, rfl, absent, Heap.bodyOf?_eq_some.mpr ⟨_, o, rfl, found, rfl⟩⟩
      · cases isNew r o' found' wasAbsent
        rcases mentioned with isLayout | held
        · cases isLayout
          exact .inl layout
        · exact .inl (holds q held)
      · cases isNew r o' found' wasAbsent
        rintro st rfl
        exact absurd rfl noStack

theorem constructs_string (content : String) (modest : (Body.string ⟨content⟩).size ≤ 2 ^ 50)
    (layout : seen (s.roots.layout .string)) :
    Constructs seen (string content) s (Body.string ⟨content⟩).size fun v s' =>
      s.Made v (.string ⟨content⟩) s' := by
  simp only [Body.size] at modest ⊢
  have rounded := Size.roundUp_ge (16 + 4 * content.length)
  have isSize : Size.text content.length = .ok (Size.roundUp (16 + 4 * content.length)) := by
    have words : Size.elements 2 4 content.length = .ok (2 * 8 + content.length * 4) :=
      Size.elements_eq (by omega)
    simp only [Size.text, words, bind, Except.bind]
    rw [Size.align_eq (by omega), Nat.mul_comm content.length]
  refine .lift_bind isSize ?_
  have placed : Constructs seen (place _ (.string ⟨content⟩)) s _ _ :=
    constructs_place modest (by simp [Body.kind]) layout (by rintro _ ⟨⟩)
  rwa [Size.roundUp_roundUp] at placed

theorem constructs_tuple (elements : Array Value) (modest : (Body.tuple ⟨elements⟩).size ≤ 2 ^ 50)
    (layout : seen (s.roots.layout .tuple)) (holds : ∀ r, .object r ∈ elements.toList → seen r)
    (noSignal : ∀ v ∈ elements, v.isSignal = false) :
    Constructs seen (tuple elements) s (Body.tuple ⟨elements⟩).size fun v s' =>
      s.Made v (.tuple ⟨elements⟩) s' := by
  simp only [Body.size] at modest ⊢
  have isSize : Size.sequence elements.size = .ok (16 + 8 * elements.size) := by
    rw [Size.sequence, Size.elements_eq (by omega), Nat.mul_comm elements.size]
  have placed : Constructs seen (place _ (.tuple ⟨elements⟩)) s _ _ :=
    constructs_place modest (by simp [Body.kind]) layout holds
  have whole : Size.roundUp (16 + 8 * elements.size) = 16 + 8 * elements.size :=
    Size.roundUp_eq_of_mod (by simp only [Size.word]; omega)
  rw [whole] at placed
  refine .lift_bind isSize (show Constructs _ _ _ (_ + 0) _ from placed.bind fun v s' _ made => ?_)
  have quiet : elements.any Value.isSignal = false := by
    rw [Array.any_eq_false']
    simpa using noSignal
  rw [quiet]
  exact Store.constructs_pure made

end Make

namespace Machine

variable {ε α : Type} {m m' : Machine} {bytes rest : Nat}

theorem Knows.mentions {r q : Ref} {o : Object} (known : m.Knows r)
    (found : m.store.heap.object? r = some o) (mentioned : o.Mentions q) : m.Knows q :=
  .edge known found mentioned

theorem knows_layout (m : Machine) (kind : Kind) : m.Knows (m.store.roots.layout kind) :=
  knows_root (Roots.layout_mem_refs _ kind)

theorem Undisturbed.brings (undisturbed : m.Undisturbed m') : m.Brings id m' where
  object r o _ found := ⟨o, undisturbed.store.heap.object r o found, .stay o r⟩
  injective _ _ _ _ same := same
  roots := by rw [undisturbed.store.roots, Roots.move_id]
  slots i _ := by rw [undisturbed.references, Value.move_id]
  count := by rw [undisturbed.references]
  registry := by rw [undisturbed.references]
  handles handle _ := by rw [undisturbed.references, Value.move_id]
  heapSettings := undisturbed.store.heap.settings
  settings := undisturbed.settings
  compiler := undisturbed.compiler
  output := undisturbed.output

theorem startsAt_push {v : Value} {r : Ref}
    (starts : StartsAt (outside { m with references := m.references.push v }) r) :
    StartsAt m.outside r ∨ v = .object r := by
  rcases starts with isRoot | member | registered
  · exact .inl (.inl isRoot)
  · simp only [outside, References.push, Array.toList_push, List.mem_append, List.mem_singleton] at member
    rcases member with member | same
    · exact .inl (.inr (.inl member))
    · exact .inr same.symm
  · exact .inl (.inr (.inr registered))

/-- Where what is new leads to what was known, the machine is ready as before. -/
theorem Ready.builds (ready : m.Ready) (builds : m.store.Builds m.Knows m'.store)
    (brings : m.Brings id m') (formed : m'.store.Formed) (registered : m'.references.WellRegistered)
    (starts : ∀ r, StartsAt m'.outside r → m.store.Offers m.Knows m'.store r) : m'.Ready := by
  have offers : ∀ r, m'.Knows r → m.store.Offers m.Knows m'.store r := fun _ known =>
    builds.offers_of_reachable starts ready.closed (fun _ _ _ known found mentioned => known.mentions found mentioned)
      known
  refine ⟨⟨formed, brings.named ready.named⟩, registered, fun r o known found => ?_,
    fun r known => builds.there ready.closed (offers r known)⟩
  rcases offers r known with isOld | ⟨isNew, -⟩
  · obtain ⟨o', found'⟩ := ready.closed r isOld
    cases found.symm.trans (builds.old.heap.object r o' found')
    exact ready.settled r o isOld found'
  · exact builds.settled r o found isNew

/-- A value that has just been made of what is known may be held in a slot. -/
theorem Ready.push_built (ready : m.Ready) (builds : m.store.Builds m.Knows m'.store)
    (undisturbed : m.Undisturbed m') (formed : m'.store.Formed) {v : Value}
    (offered : ∀ r, v = .object r → m.store.Offers m.Knows m'.store r) :
    Ready { m' with references := m'.references.push v } := by
  refine ready.builds builds (undisturbed.brings.push v) formed (undisturbed.references ▸ ready.registered)
    fun r starts => ?_
  rcases startsAt_push starts with starts | isNew
  · refine .inl (.root ?_)
    rwa [outside, undisturbed.store.roots, undisturbed.references] at starts
  · exact offered r isNew

theorem Ready.built (ready : m.Ready) (builds : m.store.Builds m.Knows m'.store)
    (undisturbed : m.Undisturbed m') (formed : m'.store.Formed) : m'.Ready :=
  ready.builds builds undisturbed.brings formed (undisturbed.references ▸ ready.registered) fun r starts =>
    .inl (.root (by rwa [outside, undisturbed.store.roots, undisturbed.references] at starts))

theorem Ready.push (ready : m.Ready) {v : Value} (known : ∀ r, v = .object r → m.Knows r) :
    Ready { m with references := m.references.push v } :=
  ready.push_built (.refl _ _) (refl m) ready.formed fun r isValue => .inl (known r isValue)

/-- What is known of allocating work on the store of a ready machine. -/
structure Constructed (m : Machine) (bytes : Nat) (m' : Machine) : Prop where
  ready : m'.Ready
  undisturbed : m.Undisturbed m'
  builds : m.store.Builds m.Knows m'.store
  used : m'.store.heap.used ≤ m.store.heap.used + bytes

theorem Constructed.brings (constructed : m.Constructed bytes m') : m.Brings id m' :=
  constructed.undisturbed.brings

theorem Constructed.affords (constructed : m.Constructed bytes m')
    (affords : m.Affords (bytes + rest)) : m'.Affords rest where
  used := by
    have := affords.used
    have := constructed.used
    omega
  positive := constructed.brings.heapSettings ▸ affords.positive
  atMost := constructed.brings.heapSettings ▸ affords.atMost
  threshold := by
    rw [constructed.brings.heapSettings, constructed.undisturbed.store.heap.capacity]
    exact affords.threshold

theorem lands_onStore_iff {work : EStateM (Stop ε) Store α} {answered : α → Machine → Prop}
    {raised : ε → Machine → Prop} : Lands (onStore work) m answered raised ↔
      Lands work m.store (fun answer store => answered answer { m with store })
        fun cause store => raised cause { m with store } := by
  obtain ⟨store, references, settings, compiler, output, log⟩ := m
  simp only [Lands, onStore]
  cases work store with
  | ok answer store => rfl
  | error stop store => cases stop <;> rfl

/-- Allocating work, if it is known to keep a well-formed store so. -/
theorem lands_onStore {work : Alloc α} {post : α → Store → Prop} (ready : m.Ready)
    (constructs : Store.Constructs m.Knows work m.store bytes post) (tended : Store.Tended work) :
    Lands (onStore work) m (fun answer m' => m.Constructed bytes m' ∧
      post answer m'.store) fun signal m' => m.Constructed bytes m' ∧
      ∃ size ≤ bytes, signal = .allocationFailed size := by
  have constructed : ∀ store, m.store.Builds m.Knows store → m.store.Tends store →
      store.heap.used ≤ m.store.heap.used + bytes → m.Constructed bytes { m with store } := by
    intro store builds tends fits
    have undisturbed : m.Undisturbed { m with store } := ⟨builds.old, rfl, rfl, rfl, rfl⟩
    exact ⟨ready.built builds undisturbed (tends.formed ready.formed), undisturbed, builds, fits⟩
  refine lands_onStore_iff.mpr ((Lands.and constructs (tended.within m.store)).mono ?_ ?_)
  · rintro answer store ⟨⟨builds, fits, holds⟩, tends, -⟩
    exact ⟨constructed store builds tends fits, holds⟩
  · rintro signal store ⟨⟨builds, fits, short⟩, tends⟩
    exact ⟨constructed store builds tends fits, short⟩

/-- Work that is done again after a collection. It has to be possible wherever everything has come
along, and to fail for want of one block only. -/
theorem lands_retrying {work : Op Signal α} {done : α → Machine → Prop} (ready : m.Ready)
    (affords : m.Affords (2 * bytes + rest))
    (works : ∀ place m₁, m.Brings place m₁ → m₁.Ready → m₁.Affords (bytes + rest) →
      Lands work m₁ done fun signal m₂ =>
        m₁.Constructed bytes m₂ ∧ ∃ size ≤ bytes, signal = .allocationFailed size) :
    Lands (retrying work) m done fun error m' =>
      (∃ place, m.Brings place m') ∧ m'.Ready ∧ ∃ size, error = .outOfMemory size := by
  have first := works id m (.refl m) ready (affords.mono (by omega))
  unfold Lands at first ⊢
  unfold retrying
  cases attempt : work m with
  | ok answer m₁ =>
    rw [attempt] at first
    exact first
  | error stop m₁ =>
    rw [attempt] at first
    cases stop with
    | broken violation => exact first
    | unfinished => exact first
    | raised signal =>
      obtain ⟨constructed, size, small, rfl⟩ := first
      -- there is no room, so the machine collects and the work is done again
      change Lands (report .debug _ >>= fun _ => collect size >>= fun _ => _) m₁ _ _
      rw [lands_bind, lands_report, lands_bind]
      generalize m₁.log.add .debug _ = log
      have affords₁ : Affords { m₁ with log } (bytes + rest) := by
        have affords₁ : m₁.Affords (bytes + rest) := constructed.affords (affords.mono (by omega))
        exact { affords₁ with }
      have ready₁ := constructed.ready.withLog log
      have modest : size ≤ 2 ^ 50 := by
        have := affords.used
        omega
      refine (lands_collect ready₁ affords₁ modest).mono ?_ fun _ _ absurd => absurd.elim
      rintro - m₂ ⟨⟨place, carried⟩, affords₂⟩
      have brings := (constructed.brings.withLog log).trans (carried.brings ready₁.registered)
      rw [Action.lands_mapError]
      refine (works _ m₂ brings (ready₁.carried carried) affords₂).mono (fun _ _ holds => holds) ?_
      rintro _ m₃ ⟨constructed', size', -, rfl⟩
      exact ⟨⟨_, brings.trans constructed'.brings⟩, constructed'.ready, size', rfl⟩

end Machine

namespace Store

variable {α β : Type}

theorem Tidy.there {s : Store} (tidy : s.Tidy)
    {start : Ref → Prop} (starts : ∀ r, start r → r.position < s.heap.objects.size) {r : Ref}
    (reached : s.heap.Reachable start r) : ∃ o, s.heap.object? r = some o := by
  obtain ⟨-, objects, -⟩ := tidy
  have inside : r.position < s.heap.objects.size → ∃ o, s.heap.object? r = some o :=
    fun low => ⟨_, Array.getElem?_eq_getElem low⟩
  cases reached with
  | root isStart => exact inside (starts r isStart)
  | edge _ found mentioned =>
    obtain ⟨still, held⟩ := objects _ (Array.mem_toList_iff.mpr (Array.mem_of_getElem? found))
    rcases mentioned with isHeader | isHeld
    · obtain ⟨_, header, l, isLayout, -⟩ := (Heap.described_of_isStill still).1
      cases isHeader.symm.trans header
      obtain ⟨_, o, ⟨⟩, isObject, -⟩ := Heap.view?_iff.mp isLayout
      exact ⟨o, isObject⟩
    · exact inside (held _ isHeld r rfl)

end Store

namespace Machine

variable {m : Machine}

/-- What can be seen of a machine without instances, stacks and handles: its store is tidy, its
bytes are counted, and its slots lead to objects. -/
def Tidy (m : Machine) : Prop :=
  m.store.Tidy ∧
  (m.store.heap.used = (m.store.heap.objects.toList.map fun o => Size.roundUp o.body.size).sum ∧
    m.store.heap.used ≤ m.store.heap.capacity ∧ m.store.heap.capacity < Space.addressLimit) ∧
  m.references.registry.toList = [] ∧
  ∀ v ∈ m.references.slots.toList, ∀ r ∈ v.asRef?, r.position < m.store.heap.objects.size

instance : DecidablePred Tidy := fun _ => inferInstanceAs (Decidable (_ ∧ _))

theorem Tidy.ready (tidy : m.Tidy) : m.Ready := by
  obtain ⟨store, ⟨used, fits, addressable⟩, noHandles, slots⟩ := tidy
  have still : ∀ r o, m.store.heap.object? r = some o → m.store.heap.isStill o = true := fun r o found =>
    (store.2.1 o (Array.mem_toList_iff.mpr (Array.mem_of_getElem? found))).1
  refine ⟨⟨⟨⟨⟨used, fits⟩, addressable, fun r o found => (Heap.described_of_isStill (still r o found)).1⟩,
    fun kind => Heap.view_of_isLayout (store.2.2.1 kind kind.mem_all)⟩, store.2.2.2.2⟩, fun i handle atIndex => ?_,
    fun r o _ found s isStack => absurd isStack ((Heap.described_of_isStill (still r o found)).2 s),
    fun r known => store.there (fun q starts => ?_) known⟩
  · rw [← Array.getElem?_toList, noHandles] at atIndex
    cases atIndex
  · rcases starts with isRoot | member | ⟨handle, member, -⟩
    · exact store.1 q isRoot
    · exact slots _ member q rfl
    · rw [show m.outside.2 = m.references from rfl, noHandles] at member
      cases member

theorem ready_of_create {settings : Settings} {log : Log} (created : create settings log = .ok m) :
    m.Ready := by
  unfold create at created
  split at created
  · cases created
  · split at created
    · cases created
    · rename_i isStore
      cases created
      have alike := Store.alike_of_create isStore isStore
      exact Tidy.ready ⟨(Store.tidy_of_create isStore).1,
        ⟨alike.accounted.used, alike.accounted.fits, alike.addressable⟩, rfl, by simp⟩

end Machine

end ObjectMachine
