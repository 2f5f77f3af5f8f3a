/-
# ObjectMachine.Proofs.Coherence -- equality and hashes agree

Whatever has happened to a heap since it was created, the contents of every value form a tree:
objects are made of what is there, and keys are not written to (`Heap.Founded`). So equality by
contents is decided for all values, it is an equivalence, and it respects hashes.

* `Heap.Event.founded` -- every event keeps contents trees.
* `Heap.hash_ok_iff` -- hashing answers what the hash of a key is, and nothing else.
* `Heap.equal_coherent` -- equality and hashing over every history.
-/
import Mathlib
import ObjectMachine.Proofs.Histories

namespace ObjectMachine

namespace Heap

variable {h h' : Heap} {kept : Ref → Prop} {place : Ref → Ref} {v a b : Value} {n : UInt64}

section Hashing

theorem foldlM_mix_ok {hash : Value → Except Violation UInt64} {values : List Value} {start sum : UInt64}
    (done : values.foldlM (fun sum v => do pure (mix sum (← hash v))) start = .ok sum) :
    ∃ hashes : List UInt64, hashes.length = values.length ∧ sum = hashes.foldl mix start ∧
      ∀ (i : Nat) v n, values[i]? = some v → hashes[i]? = some n → hash v = .ok n := by
  induction values generalizing start with
  | nil =>
    cases done
    exact ⟨[], rfl, rfl, by simp⟩
  | cons v values ih =>
    obtain ⟨next, isNext, rest⟩ := ok_of_bind done
    obtain ⟨n, isHash, isMixed⟩ := ok_of_bind isNext
    cases isMixed
    obtain ⟨hashes, length, rfl, each⟩ := ih rest
    refine ⟨n :: hashes, congrArg (· + 1) length, rfl, fun i w m isValue isMember => ?_⟩
    match i with
    | 0 =>
      cases isValue
      cases isMember
      exact isHash
    | i + 1 => exact each i w m isValue isMember

theorem hashes_of_hashWith {fuel : Nat} (comparable : h.Comparable v)
    (hashed : h.hashWith fuel v = .ok n) : h.Hashes v n := by
  induction fuel generalizing v n with
  | zero => cases hashed
  | succ fuel ih =>
    cases v with
    | int m =>
      cases hashed
      exact .int m
    | signal signal => cases hashed
    | object r =>
      simp only [hashWith] at hashed
      split at hashed
      · rename_i found
        cases hashed
        exact .string (view?_eq_some.mpr found)
      · rename_i t found
        have isTuple : h.view? Tuple (.object r) = some t := view?_eq_some.mpr found
        obtain ⟨sum, isSum, hashed⟩ := ok_of_bind hashed
        cases hashed
        rw [← Array.foldlM_toList] at isSum
        obtain ⟨hashes, length, rfl, each⟩ := foldlM_mix_ok isSum
        refine .tuple isTuple (by simpa using length) fun i e m isElement isHash => ?_
        exact ih (comparable.element isTuple (Array.mem_of_getElem? isElement))
          (each i e m (by simpa using isElement) isHash)
      · rename_i s found
        have isSelector : h.view? Selector (.object r) = some s := view?_eq_some.mpr found
        obtain ⟨named, listed, keywords⟩ := comparable.ofSelector isSelector
        obtain ⟨m, isName, hashed⟩ := ok_of_bind hashed
        cases hashed
        exact .selector isSelector ⟨named, listed, keywords⟩ (ih (comparable.part (.name isSelector)) isName)
      · rename_i found
        cases hashed
        exact .singleton (view?_eq_some.mpr found)
      · cases hashed
      · cases hashed

theorem hash_ok_iff (comparable : h.Comparable v) : h.hash v = .ok n ↔ h.Hashes v n :=
  ⟨hashes_of_hashWith comparable, hash_eq⟩

theorem Hashes.lt (hashes : h.Hashes v n) : n.toNat < 2 ^ 61 := by
  have masked : ∀ m : UInt64, (m &&& hashMask).toNat < 2 ^ 61 := fun m =>
    lt_of_le_of_lt Nat.and_le_right (by decide)
  cases hashes <;> exact masked _

/-- What has a hash later has had it. -/
theorem Mirrors.of_hashes {on : Value → Prop} {f : Value → Value} (mirrors : h.Mirrors on f h')
    (comparable : h.Comparable v) (isOn : on v) (hashes : h'.Hashes (f v) n) : h.Hashes v n := by
  generalize isV : f v = v' at hashes
  induction hashes generalizing v with
  | int m =>
    cases v with
    | object r =>
      obtain ⟨o, found⟩ := comparable.there r rfl
      obtain ⟨b', found', -⟩ := mirrors.body _ _ isOn (bodyOf?_eq_some.mpr ⟨r, o, rfl, found, rfl⟩)
      rw [isV] at found'
      cases found'
    | int k =>
      cases (mirrors.plain _ rfl).symm.trans isV
      exact .int m
    | signal signal => cases (mirrors.plain _ rfl).symm.trans isV
  | string found =>
    subst isV
    exact .string (mirrors.of_text isOn comparable.there found)
  | tuple found size each ih =>
    subst isV
    obtain ⟨t, isTuple, elements⟩ := mirrors.of_tuple isOn comparable.there found
    rw [elements] at size ih
    refine .tuple isTuple (by simpa using size) fun i e m isElement isHash => ?_
    have member := Array.mem_of_getElem? isElement
    refine ih i (f e) m ?_ isHash (comparable.element isTuple member) ((mirrors.tuple isOn isTuple).2 e member) rfl
    rw [Array.getElem?_map, isElement, Option.map_some]
  | selector found wellNamed name ih =>
    subst isV
    obtain ⟨s, isSelector, rfl⟩ := mirrors.of_selector isOn comparable.there found
    obtain ⟨named, listed, keywords⟩ := comparable.ofSelector isSelector
    have hashed := Hashes.selector isSelector ⟨named, listed, keywords⟩
      (ih (comparable.part (.name isSelector)) (mirrors.selector isOn isSelector).2.1 rfl)
    exact hashed
  | singleton found =>
    subst isV
    obtain ⟨b, isBody, kind⟩ := mirrors.of_view isOn comparable.there found
    cases b <;> cases kind
    have old := view?_eq_some (α := Singleton).mpr isBody
    cases (mirrors.singleton isOn old).symm.trans found
    exact .singleton old

end Hashing

section Founding

/-- The contents of every value that is there form a tree. -/
def Founded (h : Heap) : Prop := ∀ v, h.There v → h.Comparable v

theorem Event.founded (event : h.Event kept place h') (founded : h.Founded) : h'.Founded := by
  intro v there'
  cases v with
  | object r' =>
    obtain ⟨o', found'⟩ := there' r' rfl
    have isBody : h'.bodyOf? (.object r') = some o'.body := bodyOf?_eq_some.mpr ⟨r', o', rfl, found', rfl⟩
    obtain ⟨r, o, isKept, rfl, found, -⟩ | ⟨rfl, isKept, makes⟩ := event.back found'
    · refine event.mirrors.comparable (founded (.object r) ?_) ?_
      · rintro _ ⟨⟩
        exact ⟨o, found⟩
      · rintro _ ⟨⟩
        exact isKept
    · -- the new object is made of trees
      have mirrors := event.mirrors
      rw [show Value.move id = id from funext Value.move_id] at mirrors
      have all : ∀ w, Value.Kept kept w := fun _ r _ => isKept r
      have copied : ∀ {r}, h.object? r = some o' →
          h.bodyOf? (.object r) = some o'.body ∧ h.Comparable (.object r) := by
        intro r found
        refine ⟨bodyOf?_eq_some.mpr ⟨r, o', rfl, found, rfl⟩, founded _ ?_⟩
        rintro _ ⟨⟩
        exact ⟨o', found⟩
      cases isNew : o'.body with
      | tuple t =>
        refine .tuple (view?_eq_some.mpr (isBody.trans (congrArg some isNew))) fun e member => ?_
        refine mirrors.comparable ?_ (all e)
        obtain ⟨-, there, -⟩ | ⟨r, found⟩ := makes
        · exact founded e (there e (by rw [isNew]; simpa [Body.fields] using member))
        · obtain ⟨isOld, comparable⟩ := copied found
          exact comparable.element (view?_eq_some.mpr (isOld.trans (congrArg some isNew))) member
      | selector s =>
        have wellNamed : h.is Text s.name = true ∧ h.is Tuple s.keywords = true ∧ h.Comparable s.keywords := by
          obtain ⟨-, there, admits⟩ | ⟨r, found⟩ := makes
          · rw [isNew] at there admits
            exact ⟨admits.1, admits.2, founded _ (there _ (by simp [Body.fields]))⟩
          · obtain ⟨isOld, comparable⟩ := copied found
            exact comparable.ofSelector (view?_eq_some.mpr (isOld.trans (congrArg some isNew)))
        obtain ⟨named, listed, keywords⟩ := wellNamed
        obtain ⟨x, isText⟩ := is_iff.mp named
        obtain ⟨t, isTuple⟩ := is_iff.mp listed
        exact .selector (view?_eq_some.mpr (isBody.trans (congrArg some isNew)))
          (is_iff.mpr ⟨x, mirrors.text (all _) isText⟩)
          (is_iff.mpr ⟨_, (mirrors.tuple (all _) isTuple).1⟩) (mirrors.comparable keywords (all _))
      | _ =>
        refine .leaf there' ?_ ?_
        all_goals
          simp [view?, isBody, isNew, HeapKind.view?]
  | _ => exact .leaf there' rfl rfl

theorem founded_of_create {settings : HeapSettings} {s : Store}
    (created : Store.create settings = .ok s) : s.heap.Founded := by
  intro v there
  cases isTuple : s.heap.view? Tuple v with
  | some t =>
    have empty : t.elements = #[] := Array.isEmpty_iff.mp (plain_of_create created (view?_eq_some.mp isTuple))
    exact .tuple isTuple (by simp [empty])
  | none =>
    cases isSelector : s.heap.view? Selector v with
    | some sel => cases plain_of_create created (view?_eq_some.mp isSelector)
    | none => exact .leaf there isTuple isSelector

end Founding

/-- Over every history of a heap, equality by contents answers for all values, it is reflexive,
symmetric and transitive, and equal values have the same hash or none. A hash is below 2^61. A
collection changes neither what is equal nor a hash. -/
theorem equal_coherent {settings : HeapSettings}
    {s : Store} (created : Store.create settings = .ok s) (history : s.heap.History kept place h) :
    (∀ a b, h.There a → h.There b → ∃ answer, h.equal a b = .ok answer) ∧
      (∀ a, h.There a → h.equal a a = .ok true) ∧
      (∀ a b, h.There a → h.There b → h.equal a b = h.equal b a) ∧ (∀ a b c, h.There a → h.There b →
      h.There c → h.equal a b = .ok true → h.equal b c = .ok true → h.equal a c = .ok true) ∧
      (∀ a b, h.There a → h.There b →
      h.equal a b = .ok true → ∀ n, h.hash a = .ok n ↔ h.hash b = .ok n) ∧
      (∀ a n, h.There a → h.hash a = .ok n → n.toNat < 2 ^ 61) ∧ ∀ pending outside outside' h',
      (h.collect Machine.migrateRoots pending outside).outcome = .ok (outside', h') → ∃ kept place,
      h.Hauled kept place h' ∧ MovedAlong kept place outside outside' ∧ ∀ a b, h.There a →
      h.There b → a.Kept kept → b.Kept kept → h'.equal (a.move place) (b.move place) = h.equal a b ∧
      ∀ n, h'.hash (a.move place) = .ok n ↔ h.hash a = .ok n := by
  have founded : h.Founded := history.invariant Event.founded (founded_of_create created)
  have headed : h.Headed := history.invariant Event.headed (headed_of_create created)
  have decides : ∀ a b, h.There a → h.There b → Decides (h.equal a b) (h.Same a b) :=
    fun a b thereA thereB => equal_decides (founded a thereA) (founded b thereB)
  refine ⟨fun a b thereA thereB => ?_, fun a there => (decides a a there there).of_holds (.refl a),
    fun a b thereA thereB => ?_, fun a b c thereA thereB thereC first second => ?_,
    fun a b thereA thereB same n => ?_, fun a n there hashed => ?_, fun pending outside outside' h' done => ?_⟩
  · obtain ⟨answer, isAnswer, -⟩ := decides a b thereA thereB
    exact ⟨answer, isAnswer⟩
  · by_cases same : h.Same a b
    · rw [(decides a b thereA thereB).of_holds same, (decides b a thereB thereA).of_holds same.symm]
    · rw [(decides a b thereA thereB).of_not same,
        (decides b a thereB thereA).of_not fun same' => same same'.symm]
  · exact (decides a c thereA thereC).of_holds
      (((decides a b thereA thereB).holds first).trans ((decides b c thereB thereC).holds second))
  · have same := (decides a b thereA thereB).holds same
    rw [hash_ok_iff (founded a thereA), hash_ok_iff (founded b thereB)]
    exact ⟨fun hashes => hashes.of_same (founded b thereB) same,
      fun hashes => hashes.of_same (founded a thereA) same.symm⟩
  · exact ((hash_ok_iff (founded a there)).mp hashed).lt
  · obtain ⟨kept, place, hauled, along, -⟩ := collectInto_hauls headed done
    have mirrors := hauled.mirrors
    refine ⟨kept, place, hauled, along, fun a b thereA thereB keptA keptB => ⟨?_, fun n => ?_⟩⟩
    · have iff := mirrors.same_iff (founded a thereA) (founded b thereB) keptA keptB
      have decides' := equal_decides (mirrors.comparable (founded a thereA) keptA)
        (mirrors.comparable (founded b thereB) keptB)
      by_cases same : h.Same a b
      · rw [(decides a b thereA thereB).of_holds same, decides'.of_holds (iff.mpr same)]
      · rw [(decides a b thereA thereB).of_not same, decides'.of_not (mt iff.mp same)]
    · rw [hash_ok_iff (founded a thereA), hash_ok_iff (mirrors.comparable (founded a thereA) keptA)]
      exact ⟨mirrors.of_hashes (founded a thereA) keptA, fun hashes => mirrors.hashes hashes keptA⟩

/-- Two tuples of the same contents, made in a new heap. -/
theorem equal_coherent_twice : ∃ s : Store, ∃ h a b, Store.create {} = .ok s ∧
    s.heap.History (fun _ => (True ∧ True) ∧ True) id h ∧ a ≠ b ∧ h.There a ∧ h.There b ∧
    h.equal a b = .ok true ∧ h.equal b a = .ok true ∧
    ∃ n, h.hash a = .ok n ∧ h.hash b = .ok n ∧ n.toNat < 2 ^ 61 := by
  obtain ⟨s, created⟩ := Store.exists_create
  let o : Object := ⟨.layout (s.roots.layout .tuple), .tuple ⟨#[.int 1]⟩⟩
  have there : ∀ {h : Heap}, ∀ v ∈ o.body.fields, h.There v := by
    intro h v member
    obtain rfl : v = .int 1 := by simpa [o, Body.fields] using member
    exact fun _ isRef => by cases isRef
  have history : s.heap.History (fun _ => (True ∧ True) ∧ True) id ((s.heap.extended o 24).extended o 24) :=
    .next (.next .start (.made (.inl ⟨⟨_, rfl⟩, there, trivial⟩))) (.made (.inl ⟨⟨_, rfl⟩, there, trivial⟩))
  obtain ⟨-, -, symmetric, -, hashes, low, -⟩ := equal_coherent created history
  generalize isHeap : (s.heap.extended o 24).extended o 24 = h at *
  have isTuple : ∀ i < 2, h.view? Tuple (.object ⟨s.heap.objects.size + i⟩) = some ⟨#[.int 1]⟩ := by
    intro i low
    refine view?_iff.mpr ⟨_, o, rfl, ?_, rfl⟩
    subst isHeap
    rw [object?_extended, object?_extended]
    obtain rfl | rfl : i = 0 ∨ i = 1 := by omega
    · simp [extended]
    · simp [extended]
  have hashed : ∀ i < 2, h.Hashes (.object ⟨s.heap.objects.size + i⟩) _ := fun i low =>
    @Hashes.tuple h _ _ [mix hashBasis (UInt64.ofInt 1) &&& hashMask] (isTuple i low) rfl (by
      intro j e n isElement isHash
      cases j with
      | zero =>
        cases isElement
        cases isHash
        exact .int 1
      | succ j => cases isHash)
  have same : h.Same (.object ⟨s.heap.objects.size + 0⟩) (.object ⟨s.heap.objects.size + 1⟩) :=
    .tuple (isTuple 0 (by decide)) (isTuple 1 (by decide)) rfl fun j p q isP isQ => by
      cases isP.symm.trans isQ
      exact .refl p
  have thereA := there_of_view (isTuple 0 (by decide))
  have thereB := there_of_view (isTuple 1 (by decide))
  have isEqual := (equal_decides (hashed 0 (by decide)).comparable (hashed 1 (by decide)).comparable).of_holds same
  have isHash := hash_eq (hashed 0 (by decide))
  exact ⟨s, h, _, _, created, history, by simp, thereA, thereB, isEqual,
    (symmetric _ _ thereA thereB).symm.trans isEqual, _, isHash,
    (hashes _ _ thereA thereB isEqual _).mp isHash, low _ _ thereA isHash⟩

end Heap

end ObjectMachine
