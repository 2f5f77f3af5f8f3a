/-
# ObjectMachine.Proofs.Probing -- looking for a key

The entries of a map are looked through from the home of a hash, one after the other. Nothing is
ever taken out, so no free entry lies between the home of a key and the entry that holds it: this is
`Entries.Sound.linked`. A free entry therefore proves that a key is absent, and as some entry always
is free, every search ends.

* `Entries.find_sought` -- a search ends at the key, or at the first free entry if the key is
  absent.
* `Entries.sound_set`, `Entries.toList_set` -- what entering a key does.
* `Entries.insertAll_perm` -- a larger table takes all entries of a smaller one.
-/
import Mathlib
import ObjectMachine.Table
import ObjectMachine.Proofs.Hashing

namespace ObjectMachine

open Make (entryWords)

/-- Whether two values are equal keys. -/
def Heap.agree (h : Heap) (a b : Value) : Bool := (h.keyEqual a b).toOption == some true

theorem Heap.agree_iff {h : Heap} {a b : Value} {m n : UInt64} (left : h.Hashes a m)
    (right : h.Hashes b n) : h.agree a b = true ↔ h.Same a b := by
  obtain ⟨answer, isAnswer, agrees⟩ := left.decides right
  rw [← agrees, Heap.agree, isAnswer]
  simp [Except.toOption]

namespace Entries

variable {h h' : Heap} {e : Entries} {i j steps : Nat} {key : Value} {hash : UInt64} {entry : Entry}

/-- The index some steps after the home of a hash. -/
def after (e : Entries) (hash : UInt64) (steps : Nat) : Nat := (hash.toNat % e.capacity + steps) % e.capacity

/-- What holds of the entries of every map. -/
structure Sound (h : Heap) (e : Entries) : Prop where
  whole : e.words.size = e.capacity * entryWords
  hashed : ∀ i entry, e.entry? i = some entry → h.Hashes entry.key entry.hash
  distinct : ∀ i j a b, e.entry? i = some a → e.entry? j = some b → h.Same a.key b.key → i = j
  linked : ∀ i entry, e.entry? i = some entry → ∃ steps, e.after entry.hash steps = i ∧
    ∀ less < steps, (e.entry? (e.after entry.hash less)).isSome
  room : e.toList.length < e.capacity

section Indices

theorem after_succ : e.after hash (steps + 1) = (e.after hash steps + 1) % e.capacity := by
  simp [after, Nat.add_assoc]

theorem after_zero : e.after hash 0 = hash.toNat % e.capacity := by simp [after]

/-- Every entry comes up in one round. -/
theorem exists_after (hash : UInt64) (low : i < e.capacity) :
    ∃ steps < e.capacity, e.after hash steps = i := by
  have home : hash.toNat % e.capacity < e.capacity := Nat.mod_lt _ (by omega)
  by_cases ahead : hash.toNat % e.capacity ≤ i
  · refine ⟨i - hash.toNat % e.capacity, by omega, ?_⟩
    rw [after, Nat.add_sub_of_le ahead, Nat.mod_eq_of_lt low]
  · refine ⟨i + e.capacity - hash.toNat % e.capacity, by omega, ?_⟩
    rw [after, Nat.add_sub_of_le (by omega), Nat.add_mod_right, Nat.mod_eq_of_lt low]

theorem entry?_eq_some : e.entry? i = some entry ↔ e.words[i * 3]? = some entry.key ∧
    e.words[i * 3 + 1]? = some entry.value ∧
    ∃ n, e.words[i * 3 + 2]? = some (.int n) ∧ entry.hash = UInt64.ofInt n := by
  obtain ⟨key, value, hash⟩ := entry
  simp only [ entry?, entryWords]
  split
  · rename_i isKey isValue isHash
    simp [isKey, isValue, isHash, eq_comm]
  · rename_i noEntry
    simp only [reduceCtorEq, false_iff]
    rintro ⟨isKey, isValue, n, isHash, -⟩
    exact noEntry _ _ _ isKey isValue isHash

theorem lt_capacity (taken : e.entry? i = some entry) : i < e.capacity := by
  obtain ⟨-, -, n, isHash, -⟩ := entry?_eq_some.mp taken
  have low := (Array.getElem?_eq_some_iff.mp isHash).1
  simp only [capacity, entryWords]
  omega

theorem mem_toList : entry ∈ e.toList ↔ ∃ i, e.entry? i = some entry := by
  simp only [toList, List.mem_filterMap, List.mem_range]
  exact ⟨fun ⟨i, _, taken⟩ => ⟨i, taken⟩, fun ⟨i, taken⟩ => ⟨i, lt_capacity taken, taken⟩⟩

theorem length_toList_lt : e.toList.length < e.capacity ↔ ∃ i < e.capacity, e.entry? i = none := by
  have atMost : e.toList.length ≤ e.capacity := by
    simpa [toList] using List.length_filterMap_le e.entry? (List.range e.capacity)
  have full : e.toList.length = e.capacity ↔ ∀ i < e.capacity, (e.entry? i).isSome := by
    simpa [toList] using List.filterMap_length_eq_length (f := e.entry?) (l := List.range e.capacity)
  rw [Nat.lt_iff_le_and_ne, ne_eq, full]
  simp [atMost]

/-- No key is entered twice. -/
theorem Sound.pairwise (sound : e.Sound h) : e.toList.Pairwise fun a b => ¬ h.Same a.key b.key := by
  refine List.pairwise_filterMap.mpr (List.pairwise_lt_range.imp fun {i j} before a isA b isB same => ?_)
  have together := sound.distinct i j a b isA isB same
  omega

end Indices

section Search

/-- Where a search ends: at the entry of the key, or at the first free entry, all entries before
which hold other keys. -/
inductive Sought (h : Heap) (e : Entries) (hash : UInt64) (key : Value) : Nat → Prop
  | held {i : Nat} {entry : Entry} (taken : e.entry? i = some entry) (same : h.Same entry.key key) :
      Sought h e hash key i
  | free {steps : Nat} (isFree : e.entry? (e.after hash steps) = none)
      (others : ∀ less < steps, ∃ entry, e.entry? (e.after hash less) = some entry ∧
        ¬ h.Same entry.key key) : Sought h e hash key (e.after hash steps)

theorem probe_sought (sound : e.Sound h) (hashes : h.Hashes key hash)
    {goal fuel : Nat} (isFree : e.entry? (e.after hash goal) = none) (enough : goal < steps + fuel)
    (others : ∀ less < steps, ∃ entry, e.entry? (e.after hash less) = some entry ∧
      ¬ h.Same entry.key key) :
    ∃ i, e.probe h hash key fuel (e.after hash steps) = .ok i ∧ e.Sought h hash key i := by
  induction fuel generalizing steps with
  | zero =>
    -- the search has already passed the free entry
    obtain ⟨entry, taken, -⟩ := others goal (by omega)
    rw [isFree] at taken
    cases taken
  | succ fuel ih =>
    cases taken : e.entry? (e.after hash steps) with
    | none => exact ⟨_, by simp [probe, taken], .free taken others⟩
    | some entry =>
      have hashed := sound.hashed _ _ taken
      have decided := hashed.decides hashes
      have next (differs : ¬ h.Same entry.key key) :
          ∃ i, e.probe h hash key fuel ((e.after hash steps + 1) % e.capacity) = .ok i ∧
            e.Sought h hash key i := by
        rw [← after_succ]
        refine ih (by omega) fun less low => ?_
        obtain low | rfl := Nat.lt_succ_iff_lt_or_eq.mp low
        · exact others less low
        · exact ⟨entry, taken, differs⟩
      by_cases sameHash : entry.hash = hash
      · by_cases same : h.Same entry.key key
        · refine ⟨_, ?_, .held taken same⟩
          simp [probe, taken, sameHash, decided.of_holds same, bind, Except.bind, pure, Except.pure]
        · obtain ⟨i, found, sought⟩ := next same
          refine ⟨i, ?_, sought⟩
          simp [probe, taken, sameHash, decided.of_not same, found, bind, Except.bind]
      · have differs : ¬ h.Same entry.key key := fun same => sameHash (hashed.same hashes same)
        obtain ⟨i, found, sought⟩ := next differs
        exact ⟨i, by simp [probe, taken, sameHash, found], sought⟩

theorem find_sought (sound : e.Sound h) (hashes : h.Hashes key hash) :
    ∃ i, e.find h hash key = .ok i ∧ e.Sought h hash key i := by
  obtain ⟨i, low, isFree⟩ := length_toList_lt.mp sound.room
  obtain ⟨goal, atMost, rfl⟩ := exists_after hash low
  rw [find, ← after_zero]
  exact probe_sought sound hashes isFree (by omega) (by simp)

/-- A key that was not found is not there. -/
theorem Sought.absent (sought : e.Sought h hash key i) (sound : e.Sound h)
    (hashes : h.Hashes key hash) (isFree : e.entry? i = none) (member : entry ∈ e.toList) :
    ¬ h.Same entry.key key := by
  intro same
  cases sought with
  | held taken => exact absurd (isFree.symm.trans taken) (by simp)
  | @free steps _ others =>
    obtain ⟨j, taken⟩ := mem_toList.mp member
    obtain ⟨far, isAt, before⟩ := sound.linked j entry taken
    rw [(sound.hashed j entry taken).same hashes same] at isAt before
    obtain less | rfl | more := Nat.lt_trichotomy steps far
    · simpa [isFree] using before steps less
    · rw [isAt, taken] at isFree
      cases isFree
    · obtain ⟨other, taken', differs⟩ := others far more
      rw [isAt, taken] at taken'
      cases taken'
      exact differs same

end Search

section Entering

theorem capacity_set : (e.set i entry).capacity = e.capacity := by simp [set, capacity]

theorem after_set : (e.set i entry).after hash steps = e.after hash steps := by
  simp [after, capacity_set]

theorem ofInt_toNat (n : UInt64) : UInt64.ofInt (n.toNat : Int) = n := by
  have small : (n.toNat : Int) % 2 ^ 64 = n.toNat :=
    Int.emod_eq_of_lt (Int.natCast_nonneg _) (by exact_mod_cast n.toNat_lt)
  rw [UInt64.ofInt, small, Int.toNat_natCast, UInt64.ofNat_toNat]

theorem entry?_set (whole : e.words.size = e.capacity * entryWords) (low : i < e.capacity) :
    Entries.entry? (e.set i entry) j = if j = i then some entry else e.entry? j := by
  obtain rfl | differs := eq_or_ne j i
  · rw [if_pos rfl, entry?_eq_some]
    simp only [entryWords] at whole
    refine ⟨?_, ?_, entry.hash.toNat, ?_, (ofInt_toNat _).symm⟩ <;>
      simp only [set, entryWords, Array.getElem?_setIfInBounds, Array.size_setIfInBounds, Value.ofNat] <;>
      grind
  · have away : ∀ k < 3, (e.set i entry).words[j * 3 + k]? = e.words[j * 3 + k]? := by
      intro k isWord
      simp only [set, entryWords, Array.getElem?_setIfInBounds]
      grind
    rw [if_neg differs]
    simp only [ entry?, entryWords]
    rw [show j * 3 = j * 3 + 0 from rfl, away 0 (by omega), away 1 (by omega), away 2 (by omega)]

/-- The entry at an index, taken out of the others. -/
theorem toList_perm (low : i < e.capacity) :
    e.toList.Perm
      ((e.entry? i).toList ++ ((List.range e.capacity).erase i).filterMap e.entry?) := by
  have split := List.perm_cons_erase (List.mem_range.mpr low)
  refine (split.filterMap e.entry?).trans (.of_eq ?_)
  cases taken : e.entry? i <;> simp [taken]

/-- Entering something replaces what was there and nothing else. -/
theorem toList_set_perm (whole : e.words.size = e.capacity * entryWords) (low : i < e.capacity) :
    (e.set i entry).toList.Perm
      (entry :: ((List.range e.capacity).erase i).filterMap e.entry?) := by
  have split := toList_perm (e := e.set i entry) (capacity_set.symm ▸ low)
  rw [entry?_set whole low, if_pos rfl, capacity_set] at split
  refine split.trans (.cons _ (.of_eq (List.filterMap_congr fun j member => ?_)))
  have differs : j ≠ i := by
    rintro rfl
    exact (List.nodup_range.not_mem_erase) member
  rw [entry?_set whole low, if_neg differs]

namespace Sought

variable {old : Entry}

variable (sought : e.Sought h hash key i)
include sought

theorem lt (sound : e.Sound h) : i < e.capacity := by
  cases sought with
  | held taken => exact lt_capacity taken
  | free => exact Nat.mod_lt _ (Nat.zero_lt_of_lt sound.room)

theorem unique (sound : e.Sound h) (hashes : h.Hashes key hash) (taken : e.entry? j = some old)
    (same : h.Same old.key key) : j = i := by
  cases isAt : e.entry? i with
  | none => exact absurd same (sought.absent sound hashes isAt (mem_toList.mpr ⟨j, taken⟩))
  | some other =>
    cases sought with
    | held taken' same' => exact sound.distinct j i old _ taken taken' (same.trans same'.symm)
    | free isFree => exact absurd (isFree.symm.trans isAt) (by simp)

theorem same (taken : e.entry? i = some old) : h.Same old.key key := by
  cases sought with
  | held taken' same =>
    cases taken.symm.trans taken'
    exact same
  | free isFree => exact absurd (isFree.symm.trans taken) (by simp)

end Sought

variable (sound : e.Sound h)
include sound

/-- Entering a key replaces an equal one. -/
theorem toList_set (hashes : h.Hashes entry.key entry.hash)
    (sought : e.Sought h entry.hash entry.key i) :
    (e.set i entry).toList.Perm
      (entry :: e.toList.filter fun old => !h.agree old.key entry.key) := by
  have low := sought.lt sound
  refine (toList_set_perm sound.whole low).trans (.cons _ ?_)
  refine .trans (.of_eq ?_) ((toList_perm low).filter _).symm
  have itself : (e.entry? i).toList.filter (fun old => !h.agree old.key entry.key) = [] := by
    refine List.filter_eq_nil_iff.mpr fun old member => ?_
    have taken := Option.mem_toList.mp member
    simpa using (Heap.agree_iff (sound.hashed i old taken) hashes).mpr (sought.same taken)
  rw [List.filter_append, itself, List.nil_append]
  refine (List.filter_eq_self.mpr fun old member => ?_).symm
  obtain ⟨j, isOther, taken⟩ := List.mem_filterMap.mp member
  have differs : ¬ h.Same old.key entry.key := by
    intro same
    obtain rfl := sought.unique sound hashes taken same
    exact List.nodup_range.not_mem_erase isOther
  simpa using fun agrees => differs ((Heap.agree_iff (sound.hashed j old taken) hashes).mp agrees)

theorem length_toList_set (sought : e.Sought h hash key i) :
    (e.set i entry).toList.length = e.toList.length + if (e.entry? i).isSome then 0 else 1 := by
  have low := sought.lt sound
  rw [(toList_set_perm sound.whole low).length_eq, (toList_perm low).length_eq]
  cases e.entry? i <;> simp [Nat.add_comm]

theorem isSome_entry?_set (low : i < e.capacity) (taken : (e.entry? j).isSome) :
    (Entries.entry? (e.set i entry) j).isSome := by
  rw [entry?_set sound.whole low]
  split
  · rfl
  · exact taken

/-- Entering a key where it belongs, as long as another entry stays free. -/
theorem sound_set (hashes : h.Hashes entry.key entry.hash)
    (sought : e.Sought h entry.hash entry.key i)
    (room : (e.set i entry).toList.length < e.capacity) : (e.set i entry).Sound h := by
  have low := sought.lt sound
  have cases_entry? {j : Nat} {a : Entry} (taken : Entries.entry? (e.set i entry) j = some a) :
      j = i ∧ a = entry ∨ j ≠ i ∧ e.entry? j = some a := by
    rw [entry?_set sound.whole low] at taken
    split at taken
    · exact .inl ⟨‹_›, (Option.some.inj taken).symm⟩
    · exact .inr ⟨‹_›, taken⟩
  constructor
  case whole =>
    rw [capacity_set, ← sound.whole]
    simp [set]
  case hashed =>
    intro j a taken
    obtain ⟨rfl, rfl⟩ | ⟨-, taken⟩ := cases_entry? taken
    · exact hashes
    · exact sound.hashed j a taken
  case distinct =>
    intro j k a b isA isB same
    obtain ⟨atI, rfl⟩ | ⟨-, oldA⟩ := cases_entry? isA
    · obtain ⟨atI', -⟩ | ⟨-, oldB⟩ := cases_entry? isB
      · exact atI.trans atI'.symm
      · exact atI.trans (sought.unique sound hashes oldB same.symm).symm
    · obtain ⟨atI, rfl⟩ | ⟨-, oldB⟩ := cases_entry? isB
      · exact (sought.unique sound hashes oldA same).trans atI.symm
      · exact sound.distinct j k a b oldA oldB same
  case linked =>
    intro j a taken
    have chained : ∃ steps, e.after a.hash steps = j ∧
        ∀ less < steps, (e.entry? (e.after a.hash less)).isSome := by
      obtain ⟨rfl, rfl⟩ | ⟨-, taken⟩ := cases_entry? taken
      · cases sought with
        | held taken same =>
          have hash := (sound.hashed j _ taken).same hashes same
          exact hash ▸ sound.linked j _ taken
        | @free steps _ others =>
          refine ⟨steps, rfl, fun less isLess => ?_⟩
          obtain ⟨old, taken, -⟩ := others less isLess
          rw [taken]
          rfl
      · exact sound.linked j a taken
    obtain ⟨steps, isAt, before⟩ := chained
    refine ⟨steps, by rw [after_set, isAt], fun less isLess => ?_⟩
    rw [after_set]
    exact isSome_entry?_set sound low (before less isLess)
  case room => rwa [capacity_set]

end Entering

section Filling

theorem sound_fresh {v : Value} {count : Nat} (plain : ∀ n, v ≠ .int n) (pos : 0 < count) :
    (⟨Array.replicate (count * entryWords) v⟩ : Entries).Sound h ∧
      (⟨Array.replicate (count * entryWords) v⟩ : Entries).toList = [] ∧
      (⟨Array.replicate (count * entryWords) v⟩ : Entries).capacity = count := by
  set e : Entries := ⟨Array.replicate (count * entryWords) v⟩ with isE
  have capacity : e.capacity = count := by simp [isE, Entries.capacity, entryWords]
  have free (i : Nat) : e.entry? i = none := by
    cases taken : e.entry? i with
    | none => rfl
    | some entry =>
      obtain ⟨-, -, n, isHash, -⟩ := entry?_eq_some.mp taken
      obtain ⟨_, isHash⟩ := Array.getElem?_eq_some_iff.mp isHash
      exact absurd (by simpa [isE] using isHash) (plain n)
  have empty : e.toList = [] := by
    refine List.eq_nil_iff_forall_not_mem.mpr fun entry member => ?_
    obtain ⟨i, taken⟩ := mem_toList.mp member
    simp [free] at taken
  refine ⟨⟨?_, ?_, ?_, ?_, ?_⟩, empty, capacity⟩
  · rw [capacity]
    simp [isE]
  · intro i entry taken
    simp [free] at taken
  · intro i j a b taken
    simp [free] at taken
  · intro i entry taken
    simp [free] at taken
  · rw [empty, capacity]
    exact pos

/-- A table takes all entries of a list of other keys for which there is room. -/
theorem insertAll_perm {list : List Entry}
    (sound : e.Sound h) (hashed : ∀ a ∈ list, h.Hashes a.key a.hash)
    (distinct : list.Pairwise fun a b => ¬ h.Same a.key b.key)
    (absent : ∀ old ∈ e.toList, ∀ a ∈ list, ¬ h.Same old.key a.key)
    (room : e.toList.length + list.length < e.capacity) :
    ∃ e', e.insertAll h list = .ok e' ∧ e'.Sound h ∧ e'.capacity = e.capacity ∧
      e'.toList.Perm (list ++ e.toList) := by
  induction list generalizing e with
  | nil => exact ⟨e, rfl, sound, rfl, .refl _⟩
  | cons a list ih =>
    rw [List.length_cons] at room
    have hashes := hashed a List.mem_cons_self
    obtain ⟨first, distinct⟩ := List.pairwise_cons.mp distinct
    obtain ⟨i, found, sought⟩ := find_sought sound hashes
    have kept : e.toList.filter (fun old => !h.agree old.key a.key) = e.toList := by
      refine List.filter_eq_self.mpr fun old member => ?_
      obtain ⟨j, taken⟩ := mem_toList.mp member
      simpa using fun agrees => absent old member a List.mem_cons_self
        ((Heap.agree_iff (sound.hashed j old taken) hashes).mp agrees)
    have entered := toList_set sound hashes sought
    rw [kept] at entered
    have length : (e.set i a).toList.length = e.toList.length + 1 := entered.length_eq
    have absent' : ∀ old ∈ (e.set i a).toList, ∀ b ∈ list, ¬ h.Same old.key b.key := by
      intro old isOld b member
      obtain rfl | isOld := List.mem_cons.mp (entered.mem_iff.mp isOld)
      · exact first b member
      · exact absent old isOld b (List.mem_cons_of_mem _ member)
    obtain ⟨e', inserted, sound', capacity, perm⟩ := ih (sound_set sound hashes sought (by omega))
      (fun b member => hashed b (List.mem_cons_of_mem _ member)) distinct absent'
      (by rw [capacity_set]; omega)
    refine ⟨e', ?_, sound', capacity.trans capacity_set, perm.trans ?_⟩
    · simp only [insertAll, List.foldlM_cons, found]
      exact inserted
    · exact (entered.append_left list).trans List.perm_middle

end Filling

section Mirroring

/-- The entry whose key and value are moved. -/
def moved (f : Value → Value) (entry : Entry) : Entry :=
  { entry with key := f entry.key, value := f entry.value }

variable {on : Value → Prop} {f : Value → Value}

theorem entry?_map (plain : ∀ n, f (.int n) = .int n) (ints : ∀ v n, f v = .int n → v = .int n)
    (i : Nat) : Entries.entry? ⟨e.words.map f⟩ i = (e.entry? i).map (moved f) := by
  ext entry
  rw [entry?_eq_some, Option.map_eq_some_iff]
  simp only [Array.getElem?_map, Option.map_eq_some_iff]
  constructor
  · rintro ⟨⟨key, isKey, sameKey⟩, ⟨value, isValue, sameValue⟩, n, ⟨v, isHash, sameHash⟩, hash⟩
    obtain rfl := ints v n sameHash
    refine ⟨⟨key, value, entry.hash⟩, entry?_eq_some.mpr ⟨isKey, isValue, n, isHash, hash⟩, ?_⟩
    simp [moved, sameKey, sameValue]
  · rintro ⟨old, taken, rfl⟩
    obtain ⟨isKey, isValue, n, isHash, hash⟩ := entry?_eq_some.mp taken
    exact ⟨⟨_, isKey, rfl⟩, ⟨_, isValue, rfl⟩, n, ⟨_, isHash, plain n⟩, hash⟩

theorem toList_map (plain : ∀ n, f (.int n) = .int n) (ints : ∀ v n, f v = .int n → v = .int n) :
    (⟨e.words.map f⟩ : Entries).toList = e.toList.map (moved f) := by
  have capacity : (⟨e.words.map f⟩ : Entries).capacity = e.capacity := by simp [capacity]
  simp only [toList, List.map_filterMap, capacity]
  exact List.filterMap_congr fun i _ => entry?_map plain ints i

/-- The entries stay where they are when keys move. -/
theorem Sound.mirror (mirrors : h.Mirrors on f h') (ints : ∀ v n, f v = .int n → v = .int n)
    (sound : e.Sound h) (ons : ∀ entry ∈ e.toList, on entry.key) :
    (⟨e.words.map f⟩ : Entries).Sound h' := by
  have plain (n : Int) : f (.int n) = .int n := mirrors.plain _ rfl
  have capacity : (⟨e.words.map f⟩ : Entries).capacity = e.capacity := by simp [Entries.capacity]
  have after (hash : UInt64) (steps : Nat) :
      (⟨e.words.map f⟩ : Entries).after hash steps = e.after hash steps := by
    simp [Entries.after, capacity]
  constructor
  case whole => simpa [capacity] using sound.whole
  case hashed =>
    intro i entry taken
    rw [entry?_map plain ints, Option.map_eq_some_iff] at taken
    obtain ⟨entry, taken, rfl⟩ := taken
    exact mirrors.hashes (sound.hashed i entry taken) (ons entry (mem_toList.mpr ⟨i, taken⟩))
  case distinct =>
    intro i j a b isA isB same
    rw [entry?_map plain ints, Option.map_eq_some_iff] at isA isB
    obtain ⟨a, isA, rfl⟩ := isA
    obtain ⟨b, isB, rfl⟩ := isB
    exact sound.distinct i j a b isA isB (mirrors.of_same (sound.hashed i a isA).comparable
      (sound.hashed j b isB).comparable (ons a (mem_toList.mpr ⟨i, isA⟩))
      (ons b (mem_toList.mpr ⟨j, isB⟩)) same)
  case linked =>
    intro i entry taken
    rw [entry?_map plain ints, Option.map_eq_some_iff] at taken
    obtain ⟨entry, taken, rfl⟩ := taken
    obtain ⟨steps, isAt, before⟩ := sound.linked i entry taken
    refine ⟨steps, by rw [after]; exact isAt, fun less isLess => ?_⟩
    rw [after, entry?_map plain ints, Option.isSome_map]
    exact before less isLess
  case room =>
    rw [toList_map plain ints, List.length_map, capacity]
    exact sound.room

end Mirroring

end Entries

end ObjectMachine
