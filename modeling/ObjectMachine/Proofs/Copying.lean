/-
# ObjectMachine.Proofs.Copying -- copying objects one by one

The copies lie in the new space in the order they were made. The proof follows that order: `order`
lists the old references of the copies, so the copy of `r` is at the position of `r` in `order`, and
what has been said about a copy stays true when the list grows at its end. `Transfer.Copied` is the
invariant: the old space is as it was but for the forward headers of `order`, the copies before the
scanned position are finished, and those after it are still detached.

What a finished copy is like and what may stop the work depends on what is known of the heap, so it
is left open (`Transfer.Plan`). If the stacks of the heap are settled, copies are moved objects, and
the work stops only at a reference that leads nowhere (`Heap.exactPlan`).

* `Transfer.migrateRef_moves` -- migrating a reference copies its object at most once.
* `Transfer.scanFrom_finishes` -- scanning finishes the copies one after the other.
* `Heap.copyLive_finishes` -- so does copying what the roots reach.
* `Heap.exactPlan_finishes` -- a settled object is finished as it is expected.
-/
import Mathlib
import ObjectMachine.Machine.Basic
import ObjectMachine.Proofs.Image

namespace ObjectMachine

open Size (roundUp)

theorem Space.eq_of_allocate {s t : Space} {size : Nat} (allocated : s.allocate size = .ok (some t)) :
    t = { s with used := s.used + roundUp size } ∧ roundUp size ≤ s.free := by
  obtain ⟨used, capacity, free⟩ := allocate_used allocated
  exact ⟨by cases t; simp_all, free⟩

namespace Stack

variable {s s' : Stack} {self : Ref}

theorem relink_size {convert : Slot → Except Violation (Option (Link × Nat))} {fuel frame : Nat}
    {words words' : Array Slot} (done : relink convert fuel frame words = .ok words') :
    words'.size = words.size := by
  induction fuel generalizing frame words with
  | zero => cases done
  | succ fuel ih =>
    unfold relink at done
    split at done
    · cases done
    · obtain ⟨converted, -, done⟩ := ok_of_bind done
      cases converted with
      | none => cases done; rfl
      | some next => simpa using ih done

theorem relinked_ok (done : s.uncook self = .ok s' ∨ s.recook self = .ok s') :
    s'.status = s.status ∧ s'.height = s.height := by
  unfold uncook recook at done
  rcases done with done | done
  all_goals
    split at done
    · cases done
      exact ⟨rfl, rfl⟩
    · cases done
    · split at done
      · cases done
      · obtain ⟨converted, -, done⟩ := ok_of_bind done
        cases converted with
        | none => cases done
        | some next =>
          obtain ⟨words, relinked, done⟩ := ok_of_bind done
          cases done
          exact ⟨rfl, relink_size relinked⟩

end Stack

namespace Transfer

/-- Where the copy of `r` lies when objects are copied in the given order. -/
def placeIn (order : List Ref) (r : Ref) : Ref := ⟨order.idxOf r⟩

theorem placeIn_append {order more : List Ref} {r : Ref} (member : r ∈ order) :
    placeIn (order ++ more) r = placeIn order r := by
  rw [placeIn, placeIn, List.idxOf_append_of_mem member]

theorem placeIn_concat {order : List Ref} {r : Ref} (fresh : r ∉ order) :
    placeIn (order ++ [r]) r = ⟨order.length⟩ := by
  simp [placeIn, List.idxOf_append_of_notMem fresh]

/-- A collection to be made: what may be copied and into how many bytes, what the copy of a body is
like and has to refer to, and what may stop the work. -/
structure Plan where
  heap : Heap
  live : Ref → Prop
  capacity : Nat
  copies : (Ref → Ref) → Ref → Body → Body → Prop
  kept : Body → List Value
  stops : Violation → Prop
  congr : ∀ {place place' home b b'}, (∀ r, .object r ∈ kept b → place r = place' r) →
    copies place home b b' → copies place' home b b'
  size : ∀ {place home b b'}, copies place home b b' → b'.size = b.size
  layout : ∀ {place home l b'}, copies place home (.layout l) b' →
    ∃ l' : Layout, b' = .layout l' ∧ l'.kind = l.kind ∧ l'.fieldCount = l.fieldCount

variable {p : Plan}

/-- The copy of an object once everything that it has to refer to has been copied. -/
structure Finished (p : Plan) (order : List Ref) (home : Ref) (o o' : Object) : Prop where
  header : o'.header = o.header.move (placeIn order)
  body : p.copies (placeIn order) home o.body o'.body
  layout : ∀ l, o.header = .layout l → l ∈ order
  kept : ∀ s, .object s ∈ p.kept o.body → s ∈ order

theorem Finished.append {order : List Ref}
    {home : Ref} {o o' : Object} (finished : Finished p order home o o') (more : List Ref) :
    Finished p (order ++ more) home o o' where
  header := by
    rw [finished.header]
    cases isHeader : o.header with
    | layout l => simp [Header.move, placeIn_append (finished.layout l isHeader)]
    | forward target => rfl
  body := p.congr (fun s held => (placeIn_append (finished.kept s held)).symm) finished.body
  layout l isHeader := List.mem_append_left _ (finished.layout l isHeader)
  kept s held := List.mem_append_left _ (finished.kept s held)

/-- The objects of `order` have been copied, and the first `scanned` copies are finished. -/
structure Copied (p : Plan) (order : List Ref) (scanned : Nat) (t : Transfer) : Prop where
  distinct : order.Nodup
  isLive : ∀ r ∈ order, p.live r
  there : ∀ r ∈ order, ∃ o, p.heap.object? r = some o
  source : ∀ r : Ref, t.source[r.position]? = (p.heap.object? r).map fun o =>
    if r ∈ order then { o with header := .forward (placeIn order r) } else o
  size : t.target.size = order.length
  scanned_le : scanned ≤ order.length
  fresh : ∀ i r o, order[i]? = some r → scanned ≤ i → p.heap.object? r = some o →
    ∃ body, detach r o.body = .ok body ∧ t.target[i]? = some { header := o.header, body }
  done : ∀ i r o, order[i]? = some r → i < scanned → p.heap.object? r = some o →
    ∃ o', t.target[i]? = some o' ∧ Finished p order ⟨i⟩ o o'
  used : t.space.used = (order.map p.heap.sizeAt).sum
  capacity_eq : t.space.capacity = p.capacity
  fits : t.space.used ≤ p.capacity

/-- What is live can be copied as far as it is there. There is room for the whole heap, unless
anything may stop the work. -/
structure Movable (p : Plan) : Prop where
  layout : ∀ r o, p.live r → p.heap.object? r = some o → ∃ l, o.header = .layout l ∧ p.live l
  absent : ∀ r, p.live r → p.heap.object? r = none → p.stops .fieldOutsideSpace
  reads : ∀ r o violation, p.live r → p.heap.object? r = some o →
    o.read p.heap.objects = .error violation → p.stops violation
  detaches : ∀ r o violation, p.live r → p.heap.object? r = some o →
    detach r o.body = .error violation → p.stops violation
  room : (∀ violation, p.stops violation) ∨ p.capacity < Size.limit ∧
    (p.heap.objects.toList.map fun o => roundUp o.body.size).sum ≤ p.capacity

section Work

variable {scanned : Nat} {α β : Type}

/-- A part of a collection has ended with `post`, or for a reason that is `fine`. -/
def Leaves (fine : Violation → Prop) (post : α → Transfer → Prop) : Except Violation (α × Transfer) → Prop
  | .ok (answer, t) => post answer t
  | .error violation => fine violation

variable {fine : Violation → Prop} {post post' : α → Transfer → Prop} {after : β → Transfer → Prop}
variable {order : List Ref} {t : Transfer} {c : Migration α} {f : α → Migration β} {r : Ref} {o : Object}

theorem Leaves.mono {result : Except Violation (α × Transfer)} (leaves : Leaves fine post result)
    (weaker : ∀ answer t, post answer t → post' answer t) : Leaves fine post' result := by
  cases result with
  | error violation => exact leaves
  | ok result => exact weaker _ _ leaves

theorem Leaves.bind (first : Leaves fine post (c.run t))
    (rest : ∀ answer t', post answer t' → Leaves fine after ((f answer).run t')) :
    Leaves fine after ((c >>= f).run t) := by
  rw [StateT.run_bind]
  cases ran : c.run t with
  | error violation =>
    rw [ran] at first
    exact first
  | ok result =>
    rw [ran] at first
    exact rest _ _ first

theorem Leaves.lift {result : Except Violation α}
    (stops : ∀ violation, result = .error violation → fine violation)
    (rest : ∀ answer, result = .ok answer → Leaves fine after ((f answer).run t)) :
    Leaves fine after (((liftM result : Migration α) >>= f).run t) := by
  cases result with
  | error violation => exact stops violation rfl
  | ok answer => exact rest answer rfl

/-- Whatever has been copied before, the work `c` copies more and leaves `post`, unless something
stops it. -/
def Moves (p : Plan) (scanned : Nat) (c : Migration α) (post : List Ref → α → Prop) : Prop :=
  ∀ ⦃t order⦄, Copied p order scanned t → Leaves p.stops (fun answer t' =>
    ∃ more, Copied p (order ++ more) scanned t' ∧ post (order ++ more) answer) (c.run t)

theorem Moves.mono {post post' : List Ref → α → Prop} (moves : Moves p scanned c post)
    (weaker : ∀ order answer, post order answer → post' order answer) : Moves p scanned c post' :=
  fun _ _ copied => (moves copied).mono fun _ _ ⟨more, copied', holds⟩ => ⟨more, copied', weaker _ _ holds⟩

theorem moves_pure {answer : α} {post : List Ref → α → Prop} (holds : ∀ order, post order answer) :
    Moves p scanned (pure answer) post :=
  fun _ order copied => ⟨[], by simpa using copied, by simpa using holds order⟩

theorem moves_lift {result : Except Violation α} {post : List Ref → α → Prop}
    (stops : ∀ violation, result = .error violation → p.stops violation)
    (holds : ∀ order answer, result = .ok answer → post order answer) :
    Moves p scanned (liftM result : Migration α) post := by
  cases result with
  | error violation => exact fun _ _ _ => stops violation rfl
  | ok answer => exact moves_pure fun order => holds order answer rfl

/-- Work after other work. What the first leaves has to outlive further copies. -/
theorem Moves.bind {post : List Ref → α → Prop}
    {post' : α → List Ref → β → Prop} (first : Moves p scanned c post)
    (lasts : ∀ order more answer, post order answer → post (order ++ more) answer)
    (rest : ∀ order answer, post order answer → Moves p scanned (f answer) (post' answer)) :
    Moves p scanned (c >>= f) fun order answer =>
      ∃ middle, post order middle ∧ post' middle order answer := by
  intro t order copied
  refine (first copied).bind fun middle t₁ ⟨more, copied₁, holds⟩ =>
    (rest _ middle holds copied₁).mono fun answer t₂ ⟨more', copied₂, holds'⟩ => ?_
  have outlives := lasts _ more' middle holds
  rw [List.append_assoc] at copied₂ holds' outlives
  exact ⟨more ++ more', copied₂, middle, outlives, holds'⟩

/-- Work after other work, of whose answer something is known. -/
theorem Moves.next {post : List Ref → β → Prop}
    (known : α → Prop) (first : Moves p scanned c fun _ answer => known answer)
    (rest : ∀ answer, known answer → Moves p scanned (f answer) post) :
    Moves p scanned (c >>= f) post :=
  (first.bind (fun _ _ _ holds => holds) fun _ answer holds => rest answer holds).mono
    fun _ _ ⟨_, _, holds⟩ => holds

theorem Moves.map {post : List Ref → α → Prop} (moves : Moves p scanned c post) (g : α → β) :
    Moves p scanned (g <$> c) fun order answer => ∃ middle, post order middle ∧
      answer = g middle := by
  intro t order copied
  rw [map_eq_pure_bind]
  exact (moves copied).bind fun middle _ ⟨more, copied', holds⟩ => ⟨more, copied', middle, holds, rfl⟩

/-- Work on a list that leaves something of every element: `known done order b` is what is left once
the elements of `done` are dealt with. -/
theorem Moves.foldlM {f : β → α → Migration β} (known : List α → List Ref → β → Prop)
    (lasts : ∀ done order more b, known done order b → known done (order ++ more) b)
    (list : List α) (each : ∀ done a rest order b, done ++ a :: rest = list → known done order b →
      Moves p scanned (f b a) fun order b' => known done order b → known (done ++ [a]) order b')
    {b : β} (start : ∀ order, known [] order b) :
    Moves p scanned (list.foldlM f b) fun order b' => known list order b' := by
  suffices all : ∀ rest done (b : β), done ++ rest = list →
      ∀ ⦃t order⦄, Copied p order scanned t → known done order b → Leaves p.stops (fun b' t' =>
        ∃ more, Copied p (order ++ more) scanned t' ∧ known list (order ++ more) b')
        ((rest.foldlM f b).run t) from
    fun t order copied => all list [] b rfl copied (start order)
  intro rest
  induction rest with
  | nil =>
    rintro done b rfl t order copied holds
    exact ⟨[], by simpa using copied, by simpa using holds⟩
  | cons a rest ih =>
    intro done b whole t order copied holds
    rw [List.foldlM_cons]
    refine (each done a rest order b whole holds copied).bind fun b₁ t₁ ⟨more, copied₁, next⟩ =>
      (ih (done ++ [a]) b₁ (by simpa using whole) copied₁ (next (lasts done order more b holds))).mono
        fun b' t' ⟨more', copied₂, holds'⟩ => ?_
    rw [List.append_assoc] at copied₂ holds'
    exact ⟨more ++ more', copied₂, holds'⟩

/-- Migrating a list one by one: what an element refers to has been copied in the end, and the
element is what it becomes by the order at the end. -/
theorem Moves.mapM (refers : α → Ref → Prop) (image : (Ref → Ref) → α → β)
    (local_ : ∀ {x place place'}, (∀ r, refers x r → place r = place' r) →
      image place x = image place' x) {xs : List α}
    (each : ∀ x ∈ xs, Moves p scanned (f x) fun order y => (∀ r, refers x r → r ∈ order) ∧
      y = image (placeIn order) x) :
    Moves p scanned (xs.mapM f) fun order ys => (∀ x ∈ xs, ∀ r, refers x r → r ∈ order) ∧
      ys = xs.map (image (placeIn order)) := by
  induction xs with
  | nil => exact moves_pure fun order => ⟨by simp, rfl⟩
  | cons x xs ih =>
    rw [List.mapM_cons]
    have conses : ∀ y ys, Moves p scanned (pure (y :: ys) : Migration (List β)) fun _ zs =>
        zs = y :: ys := fun y ys => moves_pure fun _ => rfl
    refine ((each x List.mem_cons_self).bind ?_ fun _ y _ =>
      (ih fun x member => each x (List.mem_cons_of_mem _ member)).bind ?_ fun _ ys _ => conses y ys).mono ?_
    · rintro order more y ⟨known, rfl⟩
      exact ⟨fun r refers => List.mem_append_left _ (known r refers),
        local_ fun r refers => (placeIn_append (known r refers)).symm⟩
    · rintro order more ys ⟨known, rfl⟩
      exact ⟨fun z member r refers => List.mem_append_left _ (known z member r refers),
        List.map_congr_left fun z member => local_ fun r refers =>
          (placeIn_append (known z member r refers)).symm⟩
    · rintro order _ ⟨y, ⟨known, rfl⟩, ys, ⟨knownRest, rfl⟩, rfl⟩
      refine ⟨fun z member => ?_, rfl⟩
      rcases List.mem_cons.mp member with rfl | later
      · exact known
      · exact knownRest z later

theorem Copied.inSpace (copied : Copied p order scanned t)
    (member : r ∈ order) : r.position < p.heap.objects.size := by
  obtain ⟨o, found⟩ := copied.there r member
  exact (Array.getElem?_eq_some_iff.mp found).1

/-- The sizes of distinct objects add up to at most the size of the heap. -/
theorem sum_sizeAt_le {h : Heap}
    (distinct : order.Nodup) (there : ∀ r ∈ order, r.position < h.objects.size) :
    (order.map h.sizeAt).sum ≤ (h.objects.toList.map fun o => roundUp o.body.size).sum := by
  have all : h.objects.toList.map (fun o => roundUp o.body.size) =
      ((List.range h.objects.size).map Ref.mk).map h.sizeAt := by
    apply List.ext_getElem
    · simp
    · intro i low _
      simp [Heap.sizeAt, Heap.object?, show i < h.objects.size by simpa using low]
  obtain ⟨inner, perm, sub⟩ : order.Subperm ((List.range h.objects.size).map Ref.mk) := by
    apply List.subperm_of_subset distinct
    intro r member
    exact List.mem_map.mpr ⟨r.position, List.mem_range.mpr (there r member), rfl⟩
  rw [all, ← (perm.map h.sizeAt).sum_eq]
  exact (sub.map h.sizeAt).sum_le_sum (fun _ _ => Nat.zero_le _)

/-- There is room for one more object, unless anything may stop the work. -/
theorem Copied.allocate (movable : Movable p) (copied : Copied p order scanned t) (new : r ∉ order)
    (found : p.heap.object? r = some o) : (∀ violation, p.stops violation) ∨ t.space.allocate o.body.size =
      .ok (some { t.space with used := t.space.used + roundUp o.body.size }) := by
  refine movable.room.imp id fun ⟨addressable, fits⟩ => ?_
  have total : ((order ++ [r]).map p.heap.sizeAt).sum ≤ _ := sum_sizeAt_le
    (List.nodup_append.mpr ⟨copied.distinct, List.nodup_singleton r, by grind⟩) (by
      intro s member
      rcases List.mem_append.mp member with old | isNew
      · exact copied.inSpace old
      · obtain rfl : s = r := by simpa using isNew
        exact (Array.getElem?_eq_some_iff.mp found).1)
  have here : p.heap.sizeAt r = roundUp o.body.size := by simp [Heap.sizeAt, found]
  simp only [List.map_append, List.sum_append, List.map_cons, List.map_nil, List.sum_cons,
    List.sum_nil, ← copied.used, here] at total
  have small : roundUp o.body.size < Size.limit := by omega
  have room : ¬ t.space.free < roundUp o.body.size := by
    simp only [Space.free, copied.capacity_eq]
    omega
  simp only [Space.allocate, Size.align, small, if_true]
  exact if_neg room

theorem Copied.push (copied : Copied p order scanned t)
    {loose : Body} (isLive : p.live r) (new : r ∉ order) (found : p.heap.object? r = some o)
    (detached : detach r o.body = .ok loose) (room : t.space.used + roundUp o.body.size ≤ p.capacity) :
    Copied p (order ++ [r]) scanned
      { source := t.source.setIfInBounds r.position { o with header := .forward ⟨t.target.size⟩ }
        target := t.target.push ⟨o.header, loose⟩
        space := { t.space with used := t.space.used + roundUp o.body.size } } where
  distinct := List.nodup_append.mpr ⟨copied.distinct, List.nodup_singleton r, by grind⟩
  isLive := by
    intro s member
    rcases List.mem_append.mp member with old | isNew
    · exact copied.isLive s old
    · obtain rfl : s = r := by simpa using isNew
      exact isLive
  there := by
    intro s member
    rcases List.mem_append.mp member with old | isNew
    · exact copied.there s old
    · obtain rfl : s = r := by simpa using isNew
      exact ⟨o, found⟩
  source := by
    intro s
    by_cases here : s = r
    · subst here
      have inside : s.position < t.source.size := by
        have := copied.source s
        rw [found] at this
        exact (Array.getElem?_eq_some_iff.mp this).1
      simp [inside, found, placeIn_concat new, copied.size]
    · have apart : r.position ≠ s.position := fun same => here (by cases s; cases r; simp_all)
      rw [Array.getElem?_setIfInBounds_ne apart, copied.source s]
      congr 1
      funext o
      by_cases old : s ∈ order
      · simp [old, placeIn_append old]
      · simp [old, here]
  size := by simp [copied.size]
  fresh := by
    intro i s o' atIndex unscanned found'
    by_cases last : i = order.length
    · subst last
      obtain rfl : r = s := by simpa using atIndex
      obtain rfl : o = o' := by simpa [found] using found'
      exact ⟨loose, detached, by simp [← copied.size]⟩
    · obtain ⟨low, atOld⟩ : i < order.length ∧ order[i]? = some s := by grind
      obtain ⟨body, detached', copy⟩ := copied.fresh i s o' atOld unscanned found'
      exact ⟨body, detached', by rwa [Array.getElem?_push, if_neg (by rw [copied.size]; omega)]⟩
  scanned_le := by simpa using Nat.le_succ_of_le copied.scanned_le
  done := by
    intro i s o' atIndex isScanned found'
    have low : i < order.length := Nat.lt_of_lt_of_le isScanned copied.scanned_le
    rw [List.getElem?_append_left low] at atIndex
    obtain ⟨copy, atTarget, finished⟩ := copied.done i s o' atIndex isScanned found'
    exact ⟨copy, by rwa [Array.getElem?_push, if_neg (by rw [copied.size]; omega)], finished.append [r]⟩
  used := by simp [copied.used, Heap.sizeAt, found]
  capacity_eq := copied.capacity_eq
  fits := room

theorem detach_size {b loose : Body} (detached : detach r b = .ok loose) : loose.size = b.size := by
  cases b with
  | stack s =>
    obtain ⟨s', uncooked, detached⟩ := ok_of_bind detached
    cases detached
    simp [Body.size, (Stack.relinked_ok (.inl uncooked)).2]
  | _ =>
    cases detached
    rfl

/-- What layouts say can be read in the old space at any time. -/
theorem Copied.read_source (copied : Copied p order scanned t) (o : Object) :
    o.read t.source = o.read p.heap.objects := by
  unfold Object.read
  cases o.header with
  | forward target => rfl
  | layout r =>
    dsimp only
    rw [copied.source r]
    rcases found : p.heap.object? r with _ | ⟨header, body⟩
    · rw [Option.map_none, show p.heap.objects[r.position]? = none from found]
    · rw [Option.map_some, show p.heap.objects[r.position]? = some ⟨header, body⟩ from found]
      by_cases member : r ∈ order
      · rw [if_pos member]
        cases body <;> rfl
      · rw [if_neg member]

/-- A body is described as well once it has been detached. -/
theorem detach_describes {b loose : Body} (detached : detach r b = .ok loose) (l : Layout) :
    l.describes loose = l.describes b := by
  cases b with
  | stack s =>
    obtain ⟨s', -, detached⟩ := ok_of_bind detached
    cases detached
    rfl
  | _ =>
    cases detached
    rfl

theorem read_detached {objects : Array Object} {loose : Body}
    (detached : detach r o.body = .ok loose) :
    Object.read objects ⟨o.header, loose⟩ = (fun _ => loose) <$> o.read objects := by
  unfold Object.read
  simp only [detach_describes detached]
  split
  · rfl
  · split
    · rfl
    · split <;> rfl
    · rfl

/-- What layouts say can be read from their copies, be they finished or not. -/
theorem Copied.read_target (copied : Copied p order scanned t) {l : Ref} (member : l ∈ order)
    {b b' : Body} (isRead : Object.read p.heap.objects ⟨.layout l, b⟩ = .ok b') :
    Object.read t.target ⟨.layout (placeIn order l), b⟩ = .ok b := by
  obtain ⟨-, _, header, y, ⟨⟩, found, fits⟩ := Object.read_eq_ok.mp isRead
  suffices copy : ∃ header' y', t.target[order.idxOf l]? = some ⟨header', .layout y'⟩ ∧
      y'.kind = y.kind ∧ y'.fieldCount = y.fieldCount by
    obtain ⟨header', y', atPlace, kind, count⟩ := copy
    rw [Layout.describes_iff, ← kind, ← count, ← Layout.describes_iff] at fits
    exact Object.read_eq_ok.mpr ⟨rfl, _, header', y', rfl, atPlace, fits⟩
  have atIndex := List.getElem?_idxOf member
  by_cases isDone : order.idxOf l < scanned
  · obtain ⟨⟨header', _⟩, atPlace, finished⟩ := copied.done _ l _ atIndex isDone found
    obtain ⟨y', rfl, same⟩ := p.layout finished.body
    exact ⟨header', y', atPlace, same⟩
  · obtain ⟨_, ⟨⟩, atPlace⟩ := copied.fresh _ l _ atIndex (Nat.le_of_not_lt isDone) found
    exact ⟨header, y, atPlace, rfl, rfl⟩

/-- An object is copied if its layout describes it, it can be detached and there is room for it. -/
theorem leaves_copy {post : Ref → Transfer → Prop}
    (unread : ∀ violation, o.read t.source = .error violation → fine violation)
    (stuck : ∀ violation, detach r o.body = .error violation → fine violation)
    (refused : ∀ violation, t.space.allocate o.body.size = .error violation → fine violation)
    (full : t.space.allocate o.body.size = .ok none → fine (.toSpaceExhausted o.body.size))
    (moved : ∀ loose, detach r o.body = .ok loose → roundUp o.body.size ≤ t.space.free →
      post ⟨t.target.size⟩
        { source := t.source.setIfInBounds r.position { o with header := .forward ⟨t.target.size⟩ }
          target := t.target.push ⟨o.header, loose⟩
          space := { t.space with used := t.space.used + roundUp o.body.size } }) :
    Leaves fine post ((copy r o).run t) := by
  unfold copy
  rw [StateT.run_bind, StateT.run_get, pure_bind]
  refine Leaves.lift unread fun b isRead => ?_
  obtain rfl := (Object.read_eq_ok.mp isRead).1
  refine Leaves.lift stuck fun loose detached => ?_
  rw [← detach_size detached] at refused full moved
  refine Leaves.lift refused fun space allocated => ?_
  cases space with
  | none => exact full allocated
  | some space =>
    obtain ⟨rfl, free⟩ := Space.eq_of_allocate allocated
    exact moved loose detached free

theorem Copied.copy (movable : Movable p) {t : Transfer} {order : List Ref}
    (copied : Copied p order scanned t) {r : Ref} {o : Object} (isLive : p.live r) (new : r ∉ order)
    (found : p.heap.object? r = some o) :
    Leaves p.stops (fun moved t' => moved = ⟨order.length⟩ ∧ Copied p (order ++ [r]) scanned t')
      ((copy r o).run t) := by
  have room := copied.allocate movable new found
  refine leaves_copy (fun violation unread => ?_) (fun violation => movable.detaches r o violation isLive found)
    (fun violation refused => ?_) (fun full => ?_) fun loose detached free => ?_
  · exact movable.reads r o violation isLive found (copied.read_source o ▸ unread)
  · exact room.elim (fun all => all _) fun same => by cases refused.symm.trans same
  · exact room.elim (fun all => all _) fun same => by cases full.symm.trans same
  · have fits := copied.fits
    rw [Space.free, copied.capacity_eq] at free
    exact ⟨by rw [copied.size], copied.push isLive new found detached (by omega)⟩

theorem migrateRef_moves (movable : Movable p) (isLive : p.live r) :
    Moves p scanned (migrateRef r) fun order moved => r ∈ order ∧ moved = placeIn order r := by
  intro t order copied
  have source := copied.source r
  simp only [migrateRef, StateT.run_bind, StateT.run_get, pure_bind]
  cases found : p.heap.object? r with
  | none =>
    rw [found, Option.map_none] at source
    rw [source]
    exact movable.absent r isLive found
  | some o =>
    rw [found, Option.map_some] at source
    by_cases old : r ∈ order
    · rw [if_pos old] at source
      rw [source]
      exact ⟨[], by simpa using copied, by simpa using old, by simp⟩
    · rw [if_neg old] at source
      rw [source]
      obtain ⟨l, header, -⟩ := movable.layout r o isLive found
      obtain ⟨header', body⟩ := o
      obtain rfl : header' = .layout l := header
      refine (copied.copy movable isLive old found).mono ?_
      rintro _ t' ⟨rfl, copied'⟩
      exact ⟨[r], copied', by simp, by rw [placeIn_concat old]⟩

theorem migrate_moves (movable : Movable p) {v : Value} (isLive : ∀ r, v = .object r → p.live r) :
    Moves p scanned (migrate v) fun order moved =>
      (∀ r, v = .object r → r ∈ order) ∧ moved = v.move (placeIn order) := by
  cases v with
  | object r =>
    refine ((migrateRef_moves movable (isLive r rfl)).map Value.object).mono ?_
    rintro order _ ⟨_, ⟨known, rfl⟩, rfl⟩
    exact ⟨by simpa using known, rfl⟩
  | _ => exact moves_pure fun order => ⟨by simp, rfl⟩

theorem migrateValues_moves (movable : Movable p)
    {values : List Value} (isLive : ∀ r, .object r ∈ values → p.live r) :
    Moves p scanned (values.mapM migrate) fun order moved => (∀ r, .object r ∈ values → r ∈ order) ∧
      moved = values.map (Value.move (placeIn order)) := by
  refine (Moves.mapM (fun v r => v = Value.object r) Value.move Value.move_congr fun v member =>
    migrate_moves movable ?_).mono ?_
  · rintro r rfl
    exact isLive r member
  · exact fun order moved ⟨known, isMoved⟩ => ⟨fun r member => known _ member r rfl, isMoved⟩

/-- What has been said of migrated values stays true. -/
theorem migrated_append {values : List Value} (order more : List Ref)
    (moved : List Value) (holds : (∀ r, .object r ∈ values → r ∈ order) ∧
      moved = values.map (Value.move (placeIn order))) :
    (∀ r, .object r ∈ values → r ∈ order ++ more) ∧
      moved = values.map (Value.move (placeIn (order ++ more))) := by
  obtain ⟨known, rfl⟩ := holds
  refine ⟨fun s member => List.mem_append_left _ (known s member),
    List.map_congr_left fun v member => Value.move_congr ?_⟩
  rintro s rfl
  exact (placeIn_append (known s member)).symm

/-- A body that has been detached is visited and attached as a whole. -/
theorem finishLoose_moves (movable : Movable p) {home : Ref} {b loose : Body} (isLoose : b.Loose loose)
    (isLive : ∀ s, .object s ∈ b.held → p.live s) :
    Moves p scanned (do attach home (← loose.traverse migrate) : Migration Body) fun order body =>
      body = b.relocated (placeIn order) home ∧ ∀ s, .object s ∈ b.held → s ∈ order := by
  rw [Body.traverse_eq migrate isLoose.visitable, bind_map_left]
  have migrates : Moves p scanned (loose.fields.mapM migrate) _ :=
    migrateValues_moves movable fun s member => isLive s ((isLoose.holds s).mp member)
  have attaches : ∀ order values, ((∀ r, .object r ∈ loose.fields → r ∈ order) ∧
      values = loose.fields.map (Value.move (placeIn order))) →
      Moves p scanned (liftM (attach home (loose.refill values)) : Migration Body) fun _ body =>
        attach home (loose.refill values) = .ok body := by
    rintro order _ ⟨-, rfl⟩
    refine moves_lift (fun _ failed => ?_) fun _ _ attached => attached
    cases failed.symm.trans (isLoose.attach (placeIn order) home)
  refine (migrates.bind migrated_append attaches).mono ?_
  rintro order body ⟨_, ⟨known, rfl⟩, attached⟩
  exact ⟨Except.ok.inj (attached.symm.trans (isLoose.attach (placeIn order) home)),
    fun s held => known s ((isLoose.holds s).mpr held)⟩

theorem Copied.finish (copied : Copied p order scanned t)
    {o o' : Object} (atIndex : order[scanned]? = some r) (found : p.heap.object? r = some o)
    (finished : Finished p order ⟨scanned⟩ o o') :
    Copied p order (scanned + 1) { t with target := t.target.setIfInBounds scanned o' } :=
  { copied with
    size := by simp [copied.size]
    scanned_le := (List.getElem?_eq_some_iff.mp atIndex).1
    fresh := by
      intro i s o' atI unscanned found'
      rw [Array.getElem?_setIfInBounds_ne (by omega)]
      exact copied.fresh i s o' atI (by omega) found'
    done := by
      intro i s o'' atI isScanned found'
      by_cases here : i = scanned
      · subst here
        obtain rfl : r = s := by simpa [atIndex] using atI
        obtain rfl : o = o'' := by simpa [found] using found'
        have inside : i < t.target.size := by
          rw [copied.size]
          exact (List.getElem?_eq_some_iff.mp atIndex).1
        exact ⟨o', Array.getElem?_setIfInBounds_self_of_lt inside, finished⟩
      · rw [Array.getElem?_setIfInBounds_ne (by omega)]
        exact copied.done i s o'' atI (by omega) found' }

/-- What is copied comes out as it is expected once it has been visited. -/
def Finishes (p : Plan) : Prop :=
  ∀ ⦃scanned r o loose⦄ home, p.live r → p.heap.object? r = some o → detach r o.body = .ok loose →
    Moves p scanned (do attach home (← loose.traverse migrate) : Migration Body) fun order body =>
      p.copies (placeIn order) home o.body body ∧ ∀ s, .object s ∈ p.kept o.body → s ∈ order

theorem scanAt_finishes (movable : Movable p) (finishes : Finishes p)
    (copied : Copied p order scanned t) {new : Object} (atTarget : t.target[scanned]? = some new) :
    Leaves p.stops (fun _ t' => ∃ more, Copied p (order ++ more) (scanned + 1) t')
      ((scanAt scanned new).run t) := by
  obtain ⟨r, atIndex⟩ : ∃ r, order[scanned]? = some r := by
    have inside := (Array.getElem?_eq_some_iff.mp atTarget).1
    rw [copied.size] at inside
    exact ⟨_, List.getElem?_eq_getElem inside⟩
  have member := List.mem_of_getElem? atIndex
  obtain ⟨o, found⟩ := copied.there r member
  obtain ⟨l, header, isLive⟩ := movable.layout r o (copied.isLive r member) found
  obtain ⟨loose, detached, copy⟩ := copied.fresh scanned r o atIndex le_rfl found
  cases copy.symm.trans atTarget
  simp only [scanAt, header, migrateHeader, bind_assoc, pure_bind]
  rw [StateT.run_bind, StateT.run_get, pure_bind]
  refine Leaves.lift (fun violation unread => ?_) fun body isRead => ?_
  · rw [copied.read_source, ← header, read_detached detached] at unread
    cases isRead : o.read p.heap.objects with
    | ok b => rw [isRead] at unread; cases unread
    | error violation' =>
      rw [isRead] at unread
      cases unread
      exact movable.reads r o _ (copied.isLive r member) found isRead
  obtain rfl : body = loose := (Object.read_eq_ok.mp isRead).1
  rw [copied.read_source] at isRead
  refine (migrateRef_moves movable isLive copied).bind fun l' t₁ ⟨more, copied₁, known, isPlace⟩ => ?_
  subst isPlace
  rw [StateT.run_bind, StateT.run_get, pure_bind]
  refine Leaves.lift (fun violation unread => ?_) fun body' isRead' => ?_
  · cases unread.symm.trans (copied₁.read_target known isRead)
  obtain rfl : body' = body := (Object.read_eq_ok.mp isRead').1
  rw [← bind_assoc]
  refine (finishes ⟨scanned⟩ (copied.isLive r member) found detached copied₁).bind
    fun new t₂ ⟨more', copied₂, copies, kept⟩ => ?_
  rw [List.append_assoc] at copied₂ copies kept
  refine ⟨more ++ more', copied₂.finish ?_ found ⟨?_, copies, ?_, kept⟩⟩
  · rw [List.getElem?_append_left (List.getElem?_eq_some_iff.mp atIndex).1, atIndex]
  · rw [header, Header.move, ← List.append_assoc, placeIn_append known]
  · intro s isHeader
    cases header.symm.trans isHeader
    exact List.append_assoc order more more' ▸ List.mem_append_left more' known

theorem Copied.length_le (copied : Copied p order scanned t) :
    order.length ≤ p.heap.objects.size := by
  have inside : order ⊆ (List.range p.heap.objects.size).map Ref.mk := by
    intro r member
    exact List.mem_map.mpr ⟨r.position, List.mem_range.mpr (copied.inSpace member), rfl⟩
  simpa using (List.subperm_of_subset copied.distinct inside).length_le

/-- Scanning goes on until every copy is finished. Each step finishes one copy, and there are no
more copies than objects, so the fuel is enough. -/
theorem scanFrom_finishes (movable : Movable p)
    (finishes : Finishes p) (copied : Copied p order scanned t) {fuel : Nat}
    (enough : p.heap.objects.size < scanned + fuel) :
    Leaves p.stops (fun _ t' => ∃ more, Copied p (order ++ more) (order ++ more).length t')
      ((scanFrom fuel scanned).run t) := by
  induction fuel generalizing scanned t order with
  | zero =>
    have := copied.length_le
    have := copied.scanned_le
    omega
  | succ fuel ih =>
    rw [scanFrom, StateT.run_bind, StateT.run_get, pure_bind]
    cases atTarget : t.target[scanned]? with
    | none =>
      have all : scanned = order.length :=
        le_antisymm copied.scanned_le (copied.size ▸ Array.getElem?_eq_none_iff.mp atTarget)
      subst all
      exact ⟨[], by simpa using copied⟩
    | some new =>
      refine (scanAt_finishes movable finishes copied atTarget).bind fun _ t₁ ⟨more, copied₁⟩ =>
        (ih copied₁ (by omega)).mono fun _ t₂ ⟨more', copied₂⟩ => ?_
      rw [List.append_assoc] at copied₂
      exact ⟨more ++ more', copied₂⟩

end Work

end Transfer

open Transfer (Copied Finishes Movable Plan)

namespace Heap

variable {ρ : Type} {h : Heap} {start : Ref → Prop} {capacity : Nat} {p : Plan}
variable {order : List Ref} {t : Transfer}

open Transfer (placeIn)

/-- Copying what the roots reach, if `walk` migrates the roots, leaves finished copies unless
something stops it. -/
theorem copyLive_finishes (movable : Movable p) (finishes : Finishes p)
    (isHeap : p.heap = h) (isCapacity : p.capacity = roundUp capacity)
    (addressable : roundUp capacity < Space.addressLimit) {walk : ρ → Migration ρ} {roots : ρ}
    {post : List Ref → ρ → Prop} (walks : Transfer.Moves p 0 (walk roots) post) :
    match h.copyLive walk roots capacity with
    | .ok (roots', h') => ∃ first more t, Copied p (first ++ more) (first ++ more).length t ∧
        post first roots' ∧ h'.objects = t.target ∧ h'.space = t.space ∧ h'.settings = h.settings
    | .error violation => p.stops violation := by
  subst isHeap
  have begun : Copied p [] 0 { source := p.heap.objects, target := #[], space := Space.fresh capacity } :=
    { distinct := List.nodup_nil
      isLive := by simp
      there := by simp
      source := by intro r; simp [object?]
      size := rfl
      scanned_le := le_rfl
      fresh := by simp
      done := by simp
      used := rfl
      capacity_eq := isCapacity.symm
      fits := Nat.zero_le _ }
  have walks := walks begun
  simp only [copyLive, Space.create, addressable, if_true, bind, Except.bind]
  cases walked : (walk roots).run _ with
  | error violation =>
    rw [walked] at walks
    exact walks
  | ok result =>
    rw [walked] at walks
    obtain ⟨first, copied, holds⟩ := walks
    have scans := Transfer.scanFrom_finishes movable finishes copied
      (show p.heap.objects.size < 0 + (p.heap.objects.size + 1) by omega)
    dsimp only
    cases scanned : (Transfer.scanFrom (p.heap.objects.size + 1) 0).run result.2 with
    | error violation =>
      rw [scanned] at scans
      exact scans
    | ok last =>
      rw [scanned] at scans
      obtain ⟨more, copied⟩ := scans
      exact ⟨first, more, last.2, copied, holds, rfl, rfl, rfl⟩

/-- Finished copies take the bytes of what has been copied. -/
theorem accounted_of_copied (copied : Copied p order order.length t)
    {h' : Heap} (objects : h'.objects = t.target) (space : h'.space = t.space) : h'.Accounted where
  used := by
    have sizes : h'.objects.toList.map (fun o => roundUp o.body.size) = order.map p.heap.sizeAt := by
      apply List.ext_getElem
      · simp [objects, copied.size]
      · intro i low low'
        have low : i < order.length := by simpa using low'
        obtain ⟨o, found⟩ := copied.there _ (List.getElem_mem low)
        obtain ⟨o', copy, finished⟩ := copied.done i _ o (List.getElem?_eq_getElem low) low found
        rw [← objects] at copy
        have copy := (Array.getElem?_eq_some_iff.mp copy).2
        simp [copy, sizeAt, found, p.size finished.body]
    rw [sizes, Heap.used, space, copied.used]
  fits := by
    rw [Heap.used, Heap.capacity, space, copied.capacity_eq]
    exact copied.fits

/-- Settled objects are moved as they are, and only a reference that leads nowhere stops the
work. -/
def exactPlan (h : Heap) (start : Ref → Prop) (capacity : Nat) : Plan where
  heap := h
  live := h.Reachable start
  capacity := capacity
  copies place home b b' := b' = b.relocated place home
  kept := Body.held
  stops violation := violation = .fieldOutsideSpace ∧ h.Stray (h.Reachable start)
  congr same isCopy := isCopy.trans (Body.relocated_congr same _)
  size := by
    rintro _ _ _ _ rfl
    exact Body.size_relocated _ _ _
  layout := by
    rintro _ _ l _ rfl
    exact ⟨_, rfl, rfl, rfl⟩

theorem Collectable.movable (collectable : h.Collectable start) (large : h.used ≤ roundUp capacity)
    (addressable : roundUp capacity < Space.addressLimit) :
    Movable (h.exactPlan start (roundUp capacity)) where
  layout r o reached found := by
    obtain ⟨l, header, -⟩ := collectable.described r o reached found
    exact ⟨l, header, .edge reached found (.inl header)⟩
  reads r o violation reached found failed := by
    obtain ⟨l, header, described⟩ := collectable.described r o reached found
    cases failed.symm.trans (described.read header)
  absent r reached absent := ⟨rfl, r, reached, absent⟩
  detaches r o violation reached found failed := by
    obtain ⟨_, detached, -⟩ := Body.detach_settled (collectable.settled r o reached found)
    cases failed.symm.trans detached
  room := by
    refine .inr ⟨?_, collectable.accounted.used ▸ large⟩
    simp only [exactPlan, Space.addressLimit, Size.limit] at *
    omega

theorem exactPlan_finishes (collectable : h.Collectable start)
    (movable : Movable (h.exactPlan start capacity)) : Finishes (h.exactPlan start capacity) := by
  intro scanned r o loose home reached found detached
  obtain ⟨_, detached', isLoose⟩ := Body.detach_settled (collectable.settled r o reached found)
  cases detached.symm.trans detached'
  exact Transfer.finishLoose_moves movable isLoose fun s held => .edge reached found (.inr held)

/-- Once every copy is finished, and the roots have been copied, what has been copied is what the
roots reach. -/
theorem mem_order_iff (copied : Copied (h.exactPlan start capacity) order order.length t)
    (fromStart : ∀ r, start r → r ∈ order) (r : Ref) : r ∈ order ↔ h.Reachable start r := by
  refine ⟨copied.isLive r, fun reached => ?_⟩
  induction reached with
  | root isRoot => exact fromStart _ isRoot
  | @edge r s o reached found mentioned ih =>
    obtain ⟨i, atIndex⟩ := List.mem_iff_getElem?.mp ih
    obtain ⟨_, -, finished⟩ := copied.done i r o atIndex (List.getElem?_eq_some_iff.mp atIndex).1 found
    exact mentioned.elim (finished.layout s) (finished.kept s)

/-- Finished copies are the image of what has been copied. -/
theorem image_of_copied (copied : Copied (h.exactPlan start capacity) order order.length t)
    (complete : ∀ r, r ∈ order ↔ h.Reachable start r) {h' : Heap} (objects : h'.objects = t.target)
    (space : h'.space = t.space) : h.Image (h.Reachable start) (placeIn order) h' where
  bijection := by
    have size : h'.objects.size = order.length := by rw [objects, copied.size]
    refine ⟨fun r isLive => ?_, fun r isLive s isLive' same => ?_, fun r inside => ?_⟩
    · show order.idxOf r < h'.objects.size
      rw [size]
      exact List.idxOf_lt_length_iff.mpr ((complete r).mpr isLive)
    · have same : order.idxOf r = order.idxOf s := congrArg Ref.position same
      exact (List.idxOf_inj ((complete r).mpr isLive)).mp same
    · have low : r.position < order.length := size ▸ inside
      exact ⟨order[r.position], (complete _).mp (List.getElem_mem low), by
        simp [placeIn, copied.distinct.idxOf_getElem]⟩
  object := by
    intro r o isLive found
    have member := (complete r).mpr isLive
    obtain ⟨⟨header, body⟩, copy, finished⟩ := copied.done _ r o (List.getElem?_idxOf member)
      (List.idxOf_lt_length_iff.mpr member) found
    rw [object?, objects]
    refine copy.trans (congrArg some ?_)
    rw [Object.relocated, ← finished.header]
    exact congrArg (Object.mk header) finished.body
  used := ⟨order, copied.distinct, complete, by rw [Heap.used, space, copied.used]; rfl⟩

end Heap

end ObjectMachine
