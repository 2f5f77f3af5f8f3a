/-
# ObjectMachine.Proofs.Tables -- a map is a finite map

A map is given a history: it is made with any capacity, keys are entered, some of them in vain for
lack of room, objects move, and other objects come and change meanwhile. `Table.Reached` follows the
history and keeps the last value that was entered for each key.

* `Table.tried_extend`, `Table.tried_set` -- entering a key does what it should, or nothing at all.
* `Heap.MapAt.carried` -- a collection takes a map along as it is.
* `Table.reached_refines` -- whatever the history, the map answers with those last values.
-/
import Mathlib
import ObjectMachine.Proofs.Interruption
import ObjectMachine.Proofs.Probing

namespace ObjectMachine

open Machine (onStore)
open Value (move)
open HeapKind (kind kind_wrap wrap)
open Entries (find_sought mem_toList)

/-- A key with its value. -/
def Entry.pair (entry : Entry) : Value × Value := (entry.key, entry.value)

theorem Value.eq_int_of_move {place : Ref → Ref} (v : Value) (n : Int)
    (same : v.move place = .int n) : v = .int n := by
  cases v with
  | int => exact same
  | _ => cases same

/-- Work has ended without any effect: there is no room, or a size leaves the range of sizes. -/
inductive Refusal : Stop Signal → Prop
  | noRoom (size : Nat) : Refusal (.raised (.allocationFailed size))
  | tooLarge (operation : Arithmetic) : Refusal (.broken (.overflow operation))

namespace Heap

variable {h h' : Heap} {map key value : Value} {t : Table} {e : Entries} {hash : UInt64}

/-- The value is a map with these entries. -/
structure MapAt (h : Heap) (map : Value) (t : Table) (e : Entries) : Prop where
  table : h.view? Table map = some t
  words : h.view? Sequence t.entries = some ⟨e.words⟩
  sound : e.Sound h
  size : t.size = e.toList.length

namespace MapAt

section

variable (mapAt : h.MapAt map t e)
include mapAt

theorem entries : h.entries t = .ok e := by
  simp only [Heap.entries, cast_eq_ok.mpr mapAt.words]
  rfl

theorem get (hashes : h.Hashes key hash) :
    ∃ found, h.tableGet? t key = .ok found ∧ ∀ value, found = some value ↔
      ∃ entry ∈ e.toList, entry.value = value ∧ h.Same entry.key key := by
  obtain ⟨i, isIndex, sought⟩ := find_sought mapAt.sound hashes
  refine ⟨(e.entry? i).map Entry.value, ?_, fun value => ?_⟩
  · simp only [tableGet?, hash_eq hashes, mapAt.entries, bind, Except.bind, isIndex]
    rfl
  · rw [Option.map_eq_some_iff]
    constructor
    · rintro ⟨entry, taken, isValue⟩
      exact ⟨entry, mem_toList.mpr ⟨i, taken⟩, isValue, sought.same taken⟩
    · rintro ⟨entry, member, isValue, same⟩
      obtain ⟨j, taken⟩ := mem_toList.mp member
      obtain rfl := sought.unique mapAt.sound hashes taken same
      exact ⟨entry, taken, isValue⟩

theorem spare (spares : h.Spares h') (table : h'.view? Table map = some t)
    (words : h'.view? Sequence t.entries = some ⟨e.words⟩) : h'.MapAt map t e := by
  refine ⟨table, words, ?_, mapAt.size⟩
  have mirrored := mapAt.sound.mirror (.ofSpares spares) (fun _ _ same => same) fun _ _ => trivial
  simpa using mirrored

theorem extended (o : Object) (size : Nat) : (h.extended o size).MapAt map t e :=
  mapAt.spare (spares_extended o size)
    (view?_eq_some.mpr (bodyOf?_extended_of_some (view?_eq_some.mp mapAt.table)))
    (view?_eq_some.mpr (bodyOf?_extended_of_some (view?_eq_some.mp mapAt.words)))

end

/-- A collection takes a map along, and its entries stay in their order. -/
theorem carried {outside : Roots × References} {place : Ref → Ref}
    (carried : h.Carried outside place h') (live : h.Live outside map) (mapAt : h.MapAt map t e) :
    h'.MapAt (map.move place) { t with entries := t.entries.move place } ⟨e.words.map (move place)⟩ := by
  have liveEntries : h.Live outside t.entries :=
    live.held (view?_eq_some.mp mapAt.table) (by simp [wrap, Body.held, Body.fields])
  have liveWords : ∀ w ∈ e.words, h.Live outside w := fun w member =>
    liveEntries.held (view?_eq_some.mp mapAt.words) (by simpa [wrap, Body.held, Body.fields] using member)
  obtain ⟨_, -, table⟩ := carried.body live (view?_eq_some.mp mapAt.table)
  obtain ⟨_, -, words⟩ := carried.body liveEntries (view?_eq_some.mp mapAt.words)
  refine ⟨view?_eq_some.mpr table, view?_eq_some.mpr (words.trans ?_), ?_, ?_⟩
  · simp [wrap, Body.relocated, Body.mapFields, Body.refill, Body.fields, ← Array.toList_map]
  · refine mapAt.sound.mirror (.ofCarried carried) Value.eq_int_of_move fun entry member => ?_
    obtain ⟨i, taken⟩ := mem_toList.mp member
    exact liveWords _ (Array.mem_of_getElem? (Entries.entry?_eq_some.mp taken).1)
  · rw [Entries.toList_map (fun _ => rfl) Value.eq_int_of_move, List.length_map]
    exact mapAt.size

end MapAt

section Writing

variable {α β : Type} [HeapKind α] [HeapKind β] {v w : Value} {data : α} {other : β}

theorem view?_put_same (data' : α) (found : h.view? α v = some data) :
    (h.put v data').view? α v = some data' := by
  rw [view?_eq_some, put, bodyOf?_adjust (view?_eq_some.mp found), if_pos rfl]

theorem view?_put_other (data' : α) (differs : v ≠ w) (found : h.view? β w = some other) :
    (h.put v data').view? β w = some other := by
  rw [view?_eq_some, put, bodyOf?_adjust (view?_eq_some.mp found), if_neg differs]

theorem spares_put (data' : α) (found : h.view? α v = some data) (noKey : (kind α).isKey = false) :
    h.Spares (h.put v data') := by
  refine spares_adjust fun b isBody => ?_
  cases isBody.symm.trans (view?_eq_some.mp found)
  exact ⟨(kind_wrap data').trans (kind_wrap data).symm, (kind_wrap data).symm ▸ noKey⟩

theorem ne_of_view (left : h.view? α v = some data) (right : h.view? β w = some other)
    (differs : kind α ≠ kind β) : v ≠ w := by
  rintro rfl
  exact differs (view?_kind left right)

theorem bodyOf?_extended_new {o : Object} {size : Nat} :
    (h.extended o size).bodyOf? (.object ⟨h.objects.size⟩) = some o.body := by
  rw [bodyOf?, object?_extended, if_pos rfl, Option.map_some]

end Writing

/-- A map whose entries are written anew, wherever they are kept. -/
theorem mapAt_of_writes {entries : Value} {old : Sequence} (table : h.view? Table map = some t)
    (words : h.view? Sequence entries = some old) (sound : e.Sound h) :
    ((h.put entries (⟨e.words⟩ : Sequence)).put map (⟨e.toList.length, entries⟩ : Table)).MapAt map
      ⟨e.toList.length, entries⟩ e ∧ h.Spares
      ((h.put entries (⟨e.words⟩ : Sequence)).put map (⟨e.toList.length, entries⟩ : Table)) := by
  have apart := ne_of_view words table (by decide)
  have table' := view?_put_other (⟨e.words⟩ : Sequence) apart table
  have words' := view?_put_same (⟨e.words⟩ : Sequence) words
  have spares := (spares_put (⟨e.words⟩ : Sequence) words rfl).trans
    (spares_put (⟨e.toList.length, entries⟩ : Table) table' rfl)
  refine ⟨⟨view?_put_same _ table', view?_put_other _ apart.symm words', ?_, rfl⟩, spares⟩
  simpa using sound.mirror (.ofSpares spares) (fun _ _ same => same) fun _ _ => trivial

theorem agree_of_mirrors {on : Value → Prop} {f : Value → Value} {a b : Value} {m n : UInt64}
    (mirrors : h.Mirrors on f h') (left : h.Hashes a m) (right : h.Hashes b n) (onA : on a)
    (onB : on b) : h'.agree (f a) (f b) = h.agree a b := by
  rw [Bool.eq_iff_iff, agree_iff left right, agree_iff (mirrors.hashes left onA) (mirrors.hashes right onB)]
  exact mirrors.same_iff left.comparable right.comparable onA onB

end Heap

/-- A check of sizes that passes, or finds one out of range. -/
def Size.Checks {α : Type} (result : Except Violation α) : Prop :=
  (∃ answer, result = .ok answer) ∨ ∃ operation, result = .error (.overflow operation)

namespace Size.Checks

variable {α β : Type}

theorem ok (answer : α) : Checks (.ok answer) := .inl ⟨answer, rfl⟩

theorem add (a b : Nat) : Checks (add a b) := by
  unfold Size.add
  split
  · exact .inl ⟨_, rfl⟩
  · exact .inr ⟨_, rfl⟩

theorem mul (a b : Nat) : Checks (mul a b) := by
  unfold Size.mul
  split
  · exact .inl ⟨_, rfl⟩
  · exact .inr ⟨_, rfl⟩

theorem align (n : Nat) : Checks (align n) := by
  unfold Size.align
  split
  · exact .inl ⟨_, rfl⟩
  · exact .inr ⟨_, rfl⟩

theorem bind {first : Except Violation α} {next : α → Except Violation β} (checks : Checks first)
    (rest : ∀ answer, Checks (next answer)) : Checks (first >>= next) := by
  obtain ⟨answer, rfl⟩ | ⟨operation, rfl⟩ := checks
  · exact rest answer
  · exact .inr ⟨operation, rfl⟩

theorem grow (n : Nat) : Checks (grow n) :=
  (add _ _).bind fun _ => (add _ _).bind fun _ => (add _ _).bind fun _ => ok _

theorem sequence (length : Nat) : Checks (sequence length) := (mul _ _).bind fun _ => add _ _

theorem isFull (size capacity : Nat) : Checks (Table.isFull size capacity) :=
  (mul _ _).bind fun _ => (mul _ _).bind fun _ => ok _

end Size.Checks

namespace Store

/-- Work that ends with an answer. -/
def Succeeds {α : Type} (work : Alloc α) (s : Store) (done : α → Store → Prop) : Prop :=
  ∃ answer s', work s = .ok answer s' ∧ done answer s'

/-- Work that ends with an answer or has no effect. -/
def Tried {α : Type} (work : Alloc α) (s : Store) (done : α → Store → Prop) : Prop :=
  (∃ stop, work s = .error stop s ∧ Refusal stop) ∨ Succeeds work s done

variable {α β : Type} {s : Store} {first : Alloc α} {next : α → Alloc β} {done : β → Store → Prop}
  {made : α → Store → Prop} {f : Store → Except Violation α} {answer : α}

theorem check_bind_eq (found : f s = .ok answer) : (check f >>= next) s = next answer s :=
  Action.bind_eq_of_ok (by simp only [check, found])

theorem Succeeds.check_bind (found : f s = .ok answer) (rest : Succeeds (next answer) s done) :
    Succeeds (check f >>= next) s done := by
  unfold Succeeds
  rw [check_bind_eq found]
  exact rest

theorem succeeds_modify {change : Heap → Heap} {done : Unit → Store → Prop}
    (holds : done () { s with heap := change s.heap }) : Succeeds (modifyHeap change) s done :=
  ⟨(), _, rfl, holds⟩

theorem Tried.check_bind (found : f s = .ok answer) (rest : Tried (next answer) s done) :
    Tried (check f >>= next) s done := by
  unfold Tried Succeeds
  rw [check_bind_eq found]
  exact rest

theorem Tried.ask_bind {question : Store → α} (rest : Tried (next (question s)) s done) :
    Tried (ask question >>= next) s done := rest

theorem Tried.size_bind {result : Except Violation α} (checks : Size.Checks result)
    (rest : ∀ answer, result = .ok answer → Tried (next answer) s done) :
    Tried ((liftM result : EStateM (Stop Signal) Store α) >>= next) s done := by
  obtain ⟨answer, rfl⟩ | ⟨operation, rfl⟩ := checks
  · exact rest answer rfl
  · exact .inl ⟨_, rfl, .tooLarge operation⟩

/-- Once something has been done, nothing may be refused any more. -/
theorem Tried.bind (tried : Tried first s made)
    (rest : ∀ answer s', made answer s' → Succeeds (next answer) s' done) :
    Tried (first >>= next) s done := by
  obtain ⟨stop, stopped, refusal⟩ | ⟨answer, s', run, holds⟩ := tried
  · exact .inl ⟨stop, Action.bind_eq_of_error stopped, refusal⟩
  · obtain ⟨last, s'', run', holds'⟩ := rest answer s' holds
    exact .inr ⟨last, s'', (Action.bind_eq_of_ok run).trans run', holds'⟩

end Store

open Store (check onHeap)

namespace Make

open Store (Tried)

theorem tried_placeLazy (kind : Kind) (size : Nat) (body : Unit → Body) (s : Store) :
    Tried (placeLazy kind size body) s fun v s' => v = .object ⟨s.heap.objects.size⟩ ∧
      s' = { s with heap := s.heap.extended ⟨.layout (s.roots.layout kind), body ()⟩ size } := by
  have placed : Tried (onHeap (Heap.allocate size fun _ =>
      ⟨.layout (s.roots.layout kind), body ()⟩)) s fun r s' => r = ⟨s.heap.objects.size⟩ ∧ s' = { s with
        heap := s.heap.extended ⟨.layout (s.roots.layout kind), body ()⟩ size } := by
    cases taken : s.heap.space.allocate size with
    | error violation =>
      have checks : Size.Checks (s.heap.space.allocate size) :=
        (Size.Checks.align size).bind fun _ => by split <;> exact .ok _
      obtain ⟨_, isOk⟩ | ⟨operation, isError⟩ := checks
      · cases taken.symm.trans isOk
      · cases taken.symm.trans isError
        exact .inl ⟨_, by simp only [onHeap, Heap.allocate, Heap.reserve, taken], .tooLarge operation⟩
    | ok space =>
      cases space with
      | none =>
        exact .inl ⟨_, by simp only [onHeap, Heap.allocate, Heap.reserve, taken], .noRoom size⟩
      | some space =>
        obtain ⟨used, capacity, -⟩ := Space.allocate_used taken
        obtain rfl : space = { s.heap.space with used := s.heap.space.used + Size.roundUp size } := by
          cases space
          simp_all
        refine .inr ⟨_, _, ?_, rfl, rfl⟩
        simp only [onHeap, Heap.allocate, Heap.reserve, taken]
        rfl
  refine .ask_bind (placed.bind ?_)
  rintro _ _ ⟨rfl, rfl⟩
  exact ⟨_, _, rfl, rfl, rfl⟩

/-- The store after a sequence of nulls has been placed behind everything else. -/
def withNulls (s : Store) (length size : Nat) : Store :=
  let nulls : Body := .array ⟨Array.replicate length s.roots.null⟩
  { s with heap := s.heap.extended ⟨.layout (s.roots.layout .array), nulls⟩ size }

theorem tried_sequence (length : Nat) (s : Store) : Tried (sequence length) s fun v s' =>
    v = .object ⟨s.heap.objects.size⟩ ∧ ∃ size, s' = withNulls s length size := by
  refine .size_bind (.sequence length) fun size _ => .ask_bind ?_
  obtain refused | ⟨v, s', run, isNew, isStore⟩ := tried_placeLazy .array size
    (fun _ => .array ⟨Array.replicate length s.roots.null⟩) s
  · exact .inl refused
  · exact .inr ⟨v, s', run, isNew, size, isStore⟩

theorem view_withNulls {s : Store} {length size : Nat} :
    (withNulls s length size).heap.view? Sequence (.object ⟨s.heap.objects.size⟩) =
      some ⟨Array.replicate length s.roots.null⟩ :=
  Heap.view?_eq_some.mpr Heap.bodyOf?_extended_new

end Make

namespace Table

variable {s : Store} {map key value : Value} {t : Table} {e : Entries} {hash : UInt64}
variable {pairs : List (Value × Value)}

open Heap (MapAt)
open Store (Succeeds Tried)

/-- A map grows by at least one entry and keeps what it holds. -/
theorem tried_extend (mapAt : s.heap.MapAt map t e) : Tried (extend map) s fun _ s' =>
    ∃ t' e', s'.heap.MapAt map t' e' ∧ s.heap.Spares s'.heap ∧ e'.toList.Perm e.toList ∧
      e.capacity < e'.capacity := by
  refine .check_bind (Heap.cast_eq_ok.mpr mapAt.table) (.check_bind mapAt.entries ?_)
  refine .size_bind (.grow e.capacity) fun capacity grown => .size_bind (.mul _ _) fun length isLength => ?_
  obtain rfl := Size.mul_ok isLength
  refine (Make.tried_sequence _ s).bind ?_
  rintro _ _ ⟨rfl, size, rfl⟩
  have grown := Size.grow_gt grown
  generalize isStore : Make.withNulls s (capacity * Make.entryWords) size = s₁
  have isFresh : s₁.heap.view? Sequence (.object ⟨s.heap.objects.size⟩) =
      some ⟨Array.replicate (capacity * Make.entryWords) s.roots.null⟩ := isStore ▸ Make.view_withNulls
  have spares : s.heap.Spares s₁.heap := isStore ▸ Heap.spares_extended _ _
  have mapAt₁ : s₁.heap.MapAt map t e := isStore ▸ mapAt.extended _ _
  have room := mapAt.sound.room
  obtain ⟨fresh, empty, wide⟩ := Entries.sound_fresh (h := s₁.heap) (v := .object s.roots.null)
    (by simp) (show 0 < capacity by omega)
  obtain ⟨e', filled, sound, capacity', perm⟩ := Entries.insertAll_perm fresh
    (fun a member => (mem_toList.mp member).elim fun i taken => mapAt₁.sound.hashed i a taken)
    mapAt₁.sound.pairwise (by simp [empty]) (by rw [empty, wide, List.length_nil]; omega)
  rw [empty, List.append_nil] at perm
  refine .check_bind (Heap.cast_eq_ok.mpr isFresh) (.check_bind filled (Store.succeeds_modify ?_))
  have size : t.size = e'.toList.length := mapAt.size.trans perm.length_eq.symm
  obtain ⟨mapAt', writes⟩ := Heap.mapAt_of_writes mapAt₁.table isFresh sound
  rw [size]
  exact ⟨_, e', mapAt', spares.trans writes, perm, by omega⟩

theorem succeeds_enter {value : Value} (mapAt : s.heap.MapAt map t e)
    (hashes : s.heap.Hashes key hash) (room : e.toList.length + 1 < e.capacity) :
    Succeeds (enter map key value) s fun _ s' => ∃ t' e', s'.heap.MapAt map t' e' ∧
      s.heap.Spares s'.heap ∧ e'.toList.Perm
      (⟨key, value, hash⟩ :: e.toList.filter fun old => !s.heap.agree old.key key) := by
  obtain ⟨i, isIndex, sought⟩ := find_sought mapAt.sound hashes
  refine .check_bind (Heap.cast_eq_ok.mpr mapAt.table) (.check_bind (Heap.hash_eq hashes) ?_)
  have found : (do
      let e ← s.heap.entries t
      let index ← e.find s.heap hash key
      pure (index, (e.entry? index).isSome) : Except Violation (Nat × Bool)) =
      .ok (i, (e.entry? i).isSome) := by
    simp only [mapAt.entries, bind, Except.bind, isIndex]
    rfl
  refine .check_bind found (Store.succeeds_modify ?_)
  generalize isEntry : (⟨key, value, hash⟩ : Entry) = entry
  have hashes' : s.heap.Hashes entry.key entry.hash := isEntry ▸ hashes
  have sought' : e.Sought s.heap entry.hash entry.key i := isEntry ▸ sought
  have entered := Entries.toList_set mapAt.sound hashes' sought'
  have length : (e.set i entry).toList.length = _ := Entries.length_toList_set mapAt.sound sought'
  have sound := Entries.sound_set mapAt.sound hashes' sought' (by split at length <;> omega)
  have isKey : entry.key = key := isEntry ▸ rfl
  rw [isKey] at entered
  have same : s.heap.adjust t.entries (written i entry) = s.heap.put t.entries (⟨(e.set i entry).words⟩ : Sequence) :=
    Heap.adjust_congr (Heap.view?_eq_some.mp mapAt.words) rfl
  obtain ⟨mapAt', spares⟩ := Heap.mapAt_of_writes mapAt.table mapAt.words sound
  -- if the key was there, the size is not written because it is the same
  have sized : (if (e.entry? i).isSome then s.heap.put t.entries (⟨(e.set i entry).words⟩ : Sequence) else
      (s.heap.put t.entries (⟨(e.set i entry).words⟩ : Sequence)).put map (⟨t.size + 1, t.entries⟩ : Table)) =
      (s.heap.put t.entries (⟨(e.set i entry).words⟩ : Sequence)).put map
        (⟨(e.set i entry).toList.length, t.entries⟩ : Table) := by
    rw [length, ← mapAt.size]
    split
    · refine (Heap.put_self (Heap.view?_eq_some.mp ?_)).symm
      exact Heap.view?_put_other _ (Heap.ne_of_view mapAt.words mapAt.table (by decide)) mapAt.table
    · rfl
  rw [← sized, ← same] at mapAt' spares
  exact ⟨_, e.set i entry, mapAt', spares, entered⟩

/-- A map takes a key with its value in the place of an equal key. -/
theorem tried_set (mapAt : s.heap.MapAt map t e) (hashes : s.heap.Hashes key hash)
    (plain : value.isSignal = false) : Tried (set map key value) s fun _ s' =>
      ∃ t' e', s'.heap.MapAt map t' e' ∧ s.heap.Spares s'.heap ∧ e'.toList.Perm
        (⟨key, value, hash⟩ :: e.toList.filter fun old => !s.heap.agree old.key key) := by
  refine .ask_bind ?_
  rw [hashes.isKey, plain]
  refine .check_bind (Heap.cast_eq_ok.mpr mapAt.table) (.check_bind mapAt.entries ?_)
  refine .size_bind (.isFull t.size e.capacity) fun full isFull => ?_
  have room := mapAt.sound.room
  cases full with
  | false =>
    obtain ⟨wanted, isWanted, isFull⟩ := ok_of_bind isFull
    obtain ⟨allowed, isAllowed, isFull⟩ := ok_of_bind isFull
    have below : ¬ allowed < wanted := of_decide_eq_false (Except.ok.inj isFull)
    rw [Size.mul_ok isWanted, Size.mul_ok isAllowed, loadPercent, mapAt.size] at below
    exact .inr (succeeds_enter mapAt hashes (by omega))
  | true =>
    refine (tried_extend mapAt).bind ?_
    rintro - s₁ ⟨t₁, e₁, mapAt₁, spares, perm, larger⟩
    have mirrors := Heap.Mirrors.ofSpares spares
    have length := perm.length_eq
    obtain ⟨⟨⟩, s', run, t', e', mapAt', spares', entered⟩ :=
      succeeds_enter mapAt₁ (mirrors.hashes hashes trivial) (by omega)
    refine ⟨(), s', run, t', e', mapAt', spares.trans spares', entered.trans (.cons _ ?_)⟩
    refine (perm.filter _).trans (.of_eq (List.filter_congr fun old member => ?_))
    obtain ⟨i, taken⟩ := mem_toList.mp member
    rw [← Heap.agree_of_mirrors mirrors (mapAt.sound.hashed i old taken) hashes trivial trivial]
    rfl

theorem mapAt_of_table {capacity : Nat} {s' : Store} (run : Make.table capacity s = .ok map s') :
    ∃ t e, s'.heap.MapAt map t e ∧ e.toList = [] := by
  obtain ⟨length, s₁, isLength, run⟩ := Action.bind_ok run
  obtain ⟨rfl, rfl⟩ : max capacity 1 * Make.entryWords = length ∧ s = s₁ := by
    obtain ⟨product, isProduct⟩ | ⟨operation, isOverflow⟩ := Size.Checks.mul (max capacity 1) Make.entryWords
    · rw [isProduct] at isLength
      cases isLength
      exact ⟨(Size.mul_ok isProduct).symm, rfl⟩
    · rw [isOverflow] at isLength
      cases isLength
  obtain ⟨entries, s₂, isEntries, run⟩ := Action.bind_ok run
  obtain ⟨stop, stopped, -⟩ | ⟨v, s₃, placed, rfl, size, rfl⟩ := Make.tried_sequence
    (max capacity 1 * Make.entryWords) s
  · cases stopped.symm.trans isEntries
  cases placed.symm.trans isEntries
  obtain ⟨stop, stopped, -⟩ | ⟨v, s₃, placed, rfl, rfl⟩ := Make.tried_placeLazy .hashMap 24
    (fun _ => .hashMap { size := 0, entries := .object ⟨s.heap.objects.size⟩ })
    (Make.withNulls s (max capacity 1 * Make.entryWords) size)
  · cases stopped.symm.trans run
  cases placed.symm.trans run
  obtain ⟨sound, empty, -⟩ := Entries.sound_fresh (v := .object s.roots.null) (by simp)
    (show 0 < max capacity 1 by omega)
  refine ⟨_, _, ⟨Heap.view?_eq_some.mpr Heap.bodyOf?_extended_new, ?_, sound, ?_⟩, empty⟩
  · exact Heap.view?_eq_some.mpr (Heap.bodyOf?_extended_of_some (Heap.view?_eq_some.mp Make.view_withNulls))
  · rw [empty]
    rfl

/-- The pairs after a key has been given a value: it stands in the place of an equal key. -/
def overwrite (h : Heap) (pairs : List (Value × Value)) (key value : Value) : List (Value × Value) :=
  (key, value) :: pairs.filter fun pair => !h.agree pair.1 key

/-- Other objects come and change, but nobody else writes to keys or to the map. -/
structure LeftAlone (map : Value) (h h' : Heap) : Prop where
  keys : h.Spares h'
  table : ∀ t, h.view? Table map = some t → h'.view? Table map = some t
  words : ∀ t s, h.view? Table map = some t → h.view? Sequence t.entries = some s →
    h'.view? Sequence t.entries = some s

/-- The histories of a map, and the last pair that was entered for each key, the latest first. -/
inductive Reached : Machine → Value → List (Value × Value) → Prop
  | made {m m' : Machine} {map : Value} (capacity : Nat)
      (run : onStore (Make.table capacity) m = .ok map m') : Reached m' map []
  | set {m m' : Machine} {map key value : Value} {hash : UInt64} {pairs : List (Value × Value)}
      (reached : Reached m map pairs) (hashable : m.store.heap.Hashes key hash)
      (plain : value.isSignal = false)
      (run : onStore (Table.set map key value) m = .ok () m') :
      Reached m' map (overwrite m.store.heap pairs key value)
  | failed {m m' : Machine} {map key value : Value} {hash : UInt64} {pairs : List (Value × Value)}
      {stop : Stop Signal} (reached : Reached m map pairs) (hashable : m.store.heap.Hashes key hash)
      (plain : value.isSignal = false)
      (run : onStore (Table.set map key value) m = .error stop m') : Reached m' map pairs
  | collected {m m' : Machine} {map : Value} {pairs : List (Value × Value)} {place : Ref → Ref}
      (reached : Reached m map pairs) (live : m.store.heap.Live m.outside map)
      (carried : m.Carried place m') :
      Reached m' (map.move place) (pairs.map (Prod.map (move place) (move place)))
  | other {m m' : Machine} {map : Value} {pairs : List (Value × Value)}
      (reached : Reached m map pairs) (alone : LeftAlone map m.store.heap m'.store.heap) :
      Reached m' map pairs

theorem onStore_set {m : Machine}
    (mapAt : m.store.heap.MapAt map t e) (perm : (e.toList.map Entry.pair).Perm pairs)
    (hashes : m.store.heap.Hashes key hash) (plain : value.isSignal = false) :
    (∃ stop, onStore (Table.set map key value) m = .error stop m ∧ Refusal stop) ∨ ∃ m',
      onStore (Table.set map key value) m = .ok () m' ∧ ∃ t' e', m'.store.heap.MapAt map t' e' ∧
      (e'.toList.map Entry.pair).Perm (overwrite m.store.heap pairs key value) := by
  obtain ⟨stop, stopped, refusal⟩ | ⟨⟨⟩, s', run, t', e', mapAt', -, entered⟩ := tried_set mapAt hashes plain
  · exact .inl ⟨stop, by simp only [onStore, stopped], refusal⟩
  · refine .inr ⟨{ m with store := s' }, by simp only [onStore, run], t', e', mapAt', ?_⟩
    refine (entered.map Entry.pair).trans (.cons _ ?_)
    refine .trans (.of_eq ?_) (perm.filter _)
    rw [List.filter_map]
    rfl

/-- What a history leaves behind. -/
theorem Reached.mapAt {m : Machine} (reached : Reached m map pairs) :
    ∃ t e, m.store.heap.MapAt map t e ∧ (e.toList.map Entry.pair).Perm pairs := by
  induction reached with
  | @made m m' map capacity run =>
    obtain ⟨_, run', rfl⟩ := Machine.onStore_ok run
    obtain ⟨t, e, mapAt, empty⟩ := mapAt_of_table run'
    exact ⟨t, e, mapAt, by simp [empty]⟩
  | set _ hashable plain run ih =>
    obtain ⟨t, e, mapAt, perm⟩ := ih
    obtain ⟨stop, stopped, -⟩ | ⟨_, run', entered⟩ := onStore_set mapAt perm hashable plain
    · cases run.symm.trans stopped
    · cases run.symm.trans run'
      exact entered
  | failed _ hashable plain run ih =>
    obtain ⟨t, e, mapAt, perm⟩ := ih
    obtain ⟨stop, stopped, -⟩ | ⟨_, run', -⟩ := onStore_set mapAt perm hashable plain
    · cases run.symm.trans stopped
      exact ⟨t, e, mapAt, perm⟩
    · cases run.symm.trans run'
  | @collected m m' map pairs place _ live carried ih =>
    obtain ⟨t, e, mapAt, perm⟩ := ih
    refine ⟨_, _, mapAt.carried carried.heap live, ?_⟩
    rw [Entries.toList_map (fun _ => rfl) Value.eq_int_of_move, List.map_map]
    refine .trans (.of_eq ?_) (perm.map (Prod.map (move place) (move place)))
    rw [List.map_map]
    rfl
  | other _ alone ih =>
    obtain ⟨t, e, mapAt, perm⟩ := ih
    exact ⟨t, e, mapAt.spare alone.keys (alone.table t mapAt.table)
      (alone.words t _ mapAt.table mapAt.words), perm⟩

/-- A map behaves as the finite map of some pairs does. -/
structure Refines (h : Heap) (t : Table) (e : Entries) (pairs : List (Value × Value)) : Prop where
  /-- A key has the value of the pair with an equal key, and none if there is no such pair. -/
  get : ∀ key hash, h.Hashes key hash → ∃ found, h.tableGet? t key = .ok found ∧
    ∀ value, found = some value ↔ ∃ k, (k, value) ∈ pairs ∧ h.keyEqual k key = .ok true
  /-- No two keys are equal. -/
  unequal : pairs.Pairwise fun a b => h.keyEqual a.1 b.1 = .ok false
  size : t.size = pairs.length
  /-- Every pair is come across once. -/
  each : (e.toList.map Entry.pair).Perm pairs
  /-- Some entry is free, so every search ends. -/
  free : ∃ i < e.capacity, e.entry? i = none
  search : ∀ key hash, h.Hashes key hash → ∃ i, e.find h hash key = .ok i

theorem refines_of_mapAt {h : Heap} (mapAt : h.MapAt map t e)
    (perm : (e.toList.map Entry.pair).Perm pairs) : Refines h t e pairs where
  get key hash hashes := by
    obtain ⟨found, isFound, agrees⟩ := mapAt.get hashes
    refine ⟨found, isFound, fun value => (agrees value).trans ?_⟩
    constructor
    · rintro ⟨entry, member, rfl, same⟩
      obtain ⟨i, taken⟩ := mem_toList.mp member
      exact ⟨entry.key, perm.mem_iff.mp (List.mem_map_of_mem member),
        ((mapAt.sound.hashed i entry taken).decides hashes).of_holds same⟩
    · rintro ⟨k, isPair, equal⟩
      obtain ⟨entry, member, same⟩ := List.mem_map.mp (perm.mem_iff.mpr isPair)
      cases same
      obtain ⟨i, taken⟩ := mem_toList.mp member
      exact ⟨entry, member, rfl, ((mapAt.sound.hashed i entry taken).decides hashes).holds equal⟩
  unequal := by
    have hashed : ∀ pair ∈ pairs, ∃ hash, h.Hashes pair.1 hash := by
      intro pair isPair
      obtain ⟨entry, member, rfl⟩ := List.mem_map.mp (perm.mem_iff.mpr isPair)
      obtain ⟨i, taken⟩ := mem_toList.mp member
      exact ⟨entry.hash, mapAt.sound.hashed i entry taken⟩
    have distinct : (e.toList.map Entry.pair).Pairwise fun a b => ¬ h.Same a.1 b.1 :=
      List.pairwise_map.mpr mapAt.sound.pairwise
    rw [perm.pairwise_iff fun differs same => differs same.symm] at distinct
    refine distinct.imp_of_mem fun {a b} isA isB differs => ?_
    obtain ⟨_, hashA⟩ := hashed a isA
    obtain ⟨_, hashB⟩ := hashed b isB
    exact (hashA.decides hashB).of_not differs
  size := by rw [mapAt.size, ← perm.length_eq, List.length_map]
  each := perm
  free := Entries.length_toList_lt.mp mapAt.sound.room
  search key hash hashes := by
    obtain ⟨i, found, -⟩ := find_sought mapAt.sound hashes
    exact ⟨i, found⟩

theorem Reached.collect {m m' : Machine} {pending : Nat} (reached : Reached m map pairs)
    (live : m.store.heap.Live m.outside map) (registered : m.references.WellRegistered)
    (collectable : m.store.heap.Collectable (Machine.StartsAt m.outside))
    (run : (Machine.collect pending : Op RunError Unit) m = .ok () m') :
    ∃ place, Reached m' (map.move place) (pairs.map (Prod.map (move place) (move place))) := by
  have ends := Machine.ends_collect (ε := RunError) pending registered collectable
  unfold Action.Ends at ends
  rw [run] at ends
  obtain ⟨place, carried⟩ := ends
  exact ⟨place, .collected reached live carried⟩

/-- Whatever the history of a map, it holds the last value that was entered for each key. Entering
one more key goes on with the history, or changes nothing at all; collections go on with it, too. -/
theorem reached_refines {m : Machine} (reached : Reached m map pairs) :
    ∃ t e, m.store.heap.view? Table map = some t ∧ m.store.heap.entries t = .ok e ∧
      Refines m.store.heap t e pairs ∧
      (∀ key hash value, m.store.heap.Hashes key hash → value.isSignal = false →
        (∃ m', onStore (Table.set map key value) m = .ok () m' ∧
          Reached m' map (overwrite m.store.heap pairs key value)) ∨
        ∃ stop, onStore (Table.set map key value) m = .error stop m ∧ Refusal stop) ∧
      ∀ pending m', m.store.heap.Live m.outside map → m.references.WellRegistered →
        m.store.heap.Collectable (Machine.StartsAt m.outside) →
        (Machine.collect pending : Op RunError Unit) m = .ok () m' →
        ∃ place, Reached m' (map.move place)
          (pairs.map (Prod.map (move place) (move place))) := by
  obtain ⟨t, e, mapAt, perm⟩ := reached.mapAt
  refine ⟨t, e, mapAt.table, mapAt.entries, refines_of_mapAt mapAt perm,
    fun key hash value hashes plain => ?_,
    fun pending m' live registered collectable run => reached.collect live registered collectable run⟩
  obtain refused | ⟨m', run, -⟩ := onStore_set mapAt perm hashes plain
  · exact .inr refused
  · exact .inl ⟨m', run, .set reached hashes plain run⟩

/-- Two strings with the same text and a pair that begins with one of them. -/
def keysOnly : Machine :=
  { store := .ofBodies [.string ⟨"a"⟩, .string ⟨"a"⟩, .tuple ⟨#[.object ⟨0⟩, .int 3]⟩] 0 304
    references := {}
    settings := {}
    compiler := none
    output := ""
    log := {} }

/-- The second string takes the place of the first, and there is no room for a third key. -/
theorem reached_refines_keysOnly :
    ∃ m t, Reached m (.object ⟨24⟩) [(.object ⟨2⟩, .int 30), (.object ⟨1⟩, .int 20)] ∧
      m.store.heap.view? Table (.object ⟨24⟩) = some t ∧ t.size = 2 ∧
      m.store.heap.tableGet? t (.object ⟨0⟩) = .ok (some (.int 20)) ∧
      onStore (Table.set (.object ⟨24⟩) (.int 7) (.int 70)) m =
        .error (.raised (.allocationFailed 112)) m := by
  have runs : ∃ m₁ m₂ m₃ m, onStore (Make.table 0) keysOnly = .ok (.object ⟨24⟩) m₁ ∧
      onStore (Table.set (.object ⟨24⟩) (.object ⟨0⟩) (.int 10)) m₁ = .ok () m₂ ∧
      onStore (Table.set (.object ⟨24⟩) (.object ⟨1⟩) (.int 20)) m₂ = .ok () m₃ ∧
      onStore (Table.set (.object ⟨24⟩) (.object ⟨2⟩) (.int 30)) m₃ = .ok () m ∧
      onStore (Table.set (.object ⟨24⟩) (.int 7) (.int 70)) m = .error (.raised (.allocationFailed 112)) m ∧
      m₁.store.heap.view? Text (.object ⟨0⟩) = some ⟨"a"⟩ ∧
      m₂.store.heap.view? Text (.object ⟨1⟩) = some ⟨"a"⟩ ∧
      m₃.store.heap.view? Tuple (.object ⟨2⟩) = some ⟨#[.object ⟨0⟩, .int 3]⟩ ∧
      m₃.store.heap.view? Text (.object ⟨0⟩) = some ⟨"a"⟩ ∧
      m.store.heap.view? Text (.object ⟨0⟩) = some ⟨"a"⟩ ∧
      m₂.store.heap.agree (.object ⟨0⟩) (.object ⟨1⟩) = true ∧
      m₃.store.heap.agree (.object ⟨1⟩) (.object ⟨2⟩) = false ∧
      m.store.heap.keyEqual (.object ⟨1⟩) (.object ⟨0⟩) = .ok true := by
    set_option maxRecDepth 4000 in
    exact ⟨_, _, _, _, rfl, rfl, rfl, rfl, rfl, rfl, rfl, rfl, rfl, rfl, rfl, rfl, rfl⟩
  obtain ⟨m₁, m₂, m₃, m, made, first, second, third, refused, text₁, text₂, pair, text, text', same,
    differs, equal⟩ := runs
  have reached := (((Reached.made 0 made).set (.string text₁) rfl first).set (.string text₂) rfl
    second).set (.ofPair pair (.string text) (.int 3)) rfl third
  simp only [overwrite, List.filter_cons, List.filter_nil, same, differs, Bool.not_true, Bool.not_false,
    Bool.false_eq_true, if_true, if_false] at reached
  obtain ⟨t, e, isTable, -, refines, -⟩ := reached_refines reached
  obtain ⟨found, isFound, agrees⟩ := refines.get _ _ (.string text')
  rw [(agrees (.int 20)).mpr ⟨_, by simp, equal⟩] at isFound
  exact ⟨m, t, reached, isTable, refines.size, isFound, refused⟩

end Table

end ObjectMachine
