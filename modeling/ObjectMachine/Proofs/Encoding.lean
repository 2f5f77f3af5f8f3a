/-
# ObjectMachine.Proofs.Encoding -- a word has one reading

All that is asked of a word is its remainder by four and what is left of it. So masks, shifts and
tags are turned into arithmetic first, and every law of the encoding is then a fact about
remainders.

* `Word.content_cases` -- each word holds an integer, an address or a signal, and never two of them.
* `Word.content_ofInt`, `Word.content_ofAddress`, `Word.content_ofSignal` -- the word of a content
  is read as that content, a signal up to the payload bits that a word has no room for.
* `Word.forwardTarget_forwardTo` -- a forward word leads back to the object it was made for.
* `Word.encoding_exact` -- so the encoding is unambiguous, and can be undone.
-/
import Mathlib
import ObjectMachine.Word

namespace ObjectMachine

theorem Signal.tag_lt (s : Signal) : s.tag < 6 := by
  cases s <;> simp [tag]

namespace Word

/-! ## Masks and shifts as arithmetic -/

section Arithmetic

variable (bits : UInt64)

theorem toNat_tag : (bits &&& tagMask).toNat = bits.toNat % 4 := by
  rw [UInt64.toNat_and]
  exact Nat.and_two_pow_sub_one_eq_mod _ 2

theorem toNat_low : (bits &&& 1).toNat = bits.toNat % 2 := by
  rw [UInt64.toNat_and]
  exact Nat.and_two_pow_sub_one_eq_mod _ 1

theorem untagged_add_tag : (bits &&& ~~~tagMask) + (bits &&& tagMask) = bits := by
  apply UInt64.toBitVec_inj.mp
  simp only [UInt64.toBitVec_add, UInt64.toBitVec_and, UInt64.toBitVec_not]
  generalize bits.toBitVec = b, tagMask.toBitVec = mask
  have apart : b &&& ~~~mask &&& (b &&& mask) = 0#64 := by
    ext i
    cases isSet : mask[i] <;> simp [isSet]
  rw [BitVec.add_eq_or_of_and_eq_zero _ _ apart]
  ext i
  cases isSet : mask[i] <;> simp [isSet]

/-- Without its tag, a word is the multiple of four below it. -/
theorem toNat_untagged : (bits &&& ~~~tagMask).toNat = 4 * (bits.toNat / 4) := by
  have whole := congrArg UInt64.toNat (untagged_add_tag bits)
  have low : (bits &&& ~~~tagMask).toNat ≤ bits.toNat := by
    rw [UInt64.toNat_and]
    exact Nat.and_le_left
  have := bits.toNat_lt
  rw [UInt64.toNat_add, toNat_tag] at whole
  omega

variable {bits}

/-- A tag is added to a multiple of four. -/
theorem toNat_tagged {tag : UInt64} (aligned : bits.toNat % 4 = 0) (low : tag.toNat < 4) :
    (bits ||| tag).toNat = bits.toNat + tag.toNat := by
  have merged := Nat.two_pow_add_eq_or_of_lt (i := 2) low (bits.toNat / 4)
  rw [show 2 ^ 2 * (bits.toNat / 4) = bits.toNat by omega] at merged
  rw [UInt64.toNat_or, ← merged]

end Arithmetic

/-- The number that a signal is stored as. -/
theorem toNat_ofSignal (s : Signal) :
    (ofSignal s).bits.toNat = s.payload % 2 ^ 56 * 256 + s.tag * 4 + 3 := by
  have small := s.tag_lt
  have payload : (UInt64.ofNat s.payload <<< 8).toNat = s.payload % 2 ^ 56 * 256 := by
    rw [UInt64.toNat_shiftLeft, Nat.shiftLeft_eq, UInt64.toNat_ofNat']
    change s.payload % 2 ^ 64 * 2 ^ 8 % 2 ^ 64 = _
    omega
  have tag : (UInt64.ofNat s.tag <<< 2).toNat = s.tag * 4 := by
    rw [UInt64.toNat_shiftLeft, Nat.shiftLeft_eq, UInt64.toNat_ofNat']
    change s.tag % 2 ^ 64 * 2 ^ 2 % 2 ^ 64 = _
    omega
  have both : (UInt64.ofNat s.payload <<< 8 ||| UInt64.ofNat s.tag <<< 2).toNat =
      s.payload % 2 ^ 56 * 256 + s.tag * 4 := by
    have merged := Nat.two_pow_add_eq_or_of_lt (i := 8) (b := s.tag * 4) (by omega) (s.payload % 2 ^ 56)
    rw [UInt64.toNat_or, payload, tag, mul_comm _ 256]
    exact merged.symm
  rw [ofSignal, toNat_tagged (by omega) (by decide), both]
  rfl

/-! ## The three readings -/

section Readings

variable {w : Word}

theorem isInt_iff : w.isInt = true ↔ w.bits.toNat % 2 = 0 := by
  rw [isInt, beq_iff_eq, ← UInt64.toNat_inj, toNat_low]
  rfl

theorem isObject_iff : w.isObject = true ↔ w.bits.toNat % 4 = 1 := by
  rw [isObject, beq_iff_eq, ← UInt64.toNat_inj, toNat_tag]
  rfl

theorem isSignal_iff : w.isSignal = true ↔ w.bits.toNat % 4 = 3 := by
  rw [isSignal, beq_iff_eq, ← UInt64.toNat_inj, toNat_tag]
  rfl

theorem int_eq :
    w.int =
      (if w.bits.toNat < 2 ^ 63 then (w.bits.toNat : Int) else w.bits.toNat - 2 ^ 64) / 2 := by
  have signed : w.bits.toInt64.toInt =
      if w.bits.toNat < 2 ^ 63 then (w.bits.toNat : Int) else w.bits.toNat - 2 ^ 64 := by
    change w.bits.toBitVec.toInt = _
    rw [BitVec.toInt_eq_toNat_cond, UInt64.toNat_toBitVec]
    split <;> split <;> omega
  rw [int, signed]

theorem content_of_isInt (holds : w.isInt = true) : w.content = .int w.int := if_pos holds

theorem content_of_isObject (holds : w.isObject = true) : w.content = .object w.address := by
  have noInt : ¬w.isInt = true := by
    rw [isObject_iff] at holds
    rw [isInt_iff]
    omega
  rw [content, if_neg noInt, if_pos holds]

theorem content_of_isSignal (holds : w.isSignal = true) : w.content = .signal w.signal := by
  rw [isSignal_iff] at holds
  have noInt : ¬w.isInt = true := by
    rw [isInt_iff]
    omega
  have noObject : ¬w.isObject = true := by
    rw [isObject_iff]
    omega
  rw [content, if_neg noInt, if_neg noObject]

/-- Each word has one reading, and its content is what it reads. -/
theorem content_cases (w : Word) :
    w.isInt = true ∧ w.isObject = false ∧ w.isSignal = false ∧ w.content = .int w.int ∨
    w.isInt = false ∧ w.isObject = true ∧ w.isSignal = false ∧ w.content = .object w.address ∨
    w.isInt = false ∧ w.isObject = false ∧ w.isSignal = true ∧ w.content = .signal w.signal := by
  simp only [← Bool.not_eq_true, isInt_iff, isObject_iff, isSignal_iff]
  obtain even | object | signal : w.bits.toNat % 2 = 0 ∨ w.bits.toNat % 4 = 1 ∨ w.bits.toNat % 4 = 3 := by omega
  · exact .inl ⟨even, by omega, by omega, content_of_isInt (isInt_iff.mpr even)⟩
  · exact .inr (.inl ⟨by omega, object, by omega, content_of_isObject (isObject_iff.mpr object)⟩)
  · exact .inr (.inr ⟨by omega, by omega, signal, content_of_isSignal (isSignal_iff.mpr signal)⟩)

theorem asInt?_of_content {n : Int} (isContent : w.content = .int n) : w.asInt? = some n := by
  obtain ⟨holds, -, -, same⟩ | ⟨-, -, -, same⟩ | ⟨-, -, -, same⟩ := w.content_cases
  · rw [asInt?, if_pos holds, ← Content.int.inj (same.symm.trans isContent)]
  all_goals cases same.symm.trans isContent

theorem address_of_content {address : UInt64} (isContent : w.content = .object address) :
    w.isObject = true ∧ w.address = address := by
  obtain ⟨-, -, -, same⟩ | ⟨-, holds, -, same⟩ | ⟨-, -, -, same⟩ := w.content_cases
  · cases same.symm.trans isContent
  · exact ⟨holds, Content.object.inj (same.symm.trans isContent)⟩
  · cases same.symm.trans isContent

theorem asSignal?_of_content {s : Signal} (isContent : w.content = .signal s) :
    w.asSignal? = some s := by
  obtain ⟨-, -, -, same⟩ | ⟨-, -, -, same⟩ | ⟨-, -, holds, same⟩ := w.content_cases
  · cases same.symm.trans isContent
  · cases same.symm.trans isContent
  · rw [asSignal?, if_pos holds, ← Content.signal.inj (same.symm.trans isContent)]

end Readings

/-! ## Encoding and reading back -/

/-- Contents that a word has room for. -/
def Content.Fits : Content → Prop
  | int n => -2 ^ 62 ≤ n ∧ n ≤ 2 ^ 62 - 1
  | object address => address.toNat % 4 = 0
  | signal s => s.payload < 2 ^ 56

/-- The word of a content, if it can be made. -/
def ofContent? : Content → Option Word
  | .int n => ofInt? n
  | .object address => ofAddress? address
  | .signal s => some (ofSignal s)

theorem ofInt?_eq (n : Int) :
    ofInt? n = if -2 ^ 62 ≤ n ∧ n ≤ 2 ^ 62 - 1 then some ⟨UInt64.ofInt (2 * n)⟩ else none := by
  refine if_congr ?_ rfl rfl
  rw [Value.isSmall, Bool.and_eq_true, decide_eq_true_iff, decide_eq_true_iff]
  rfl

theorem ofAddress?_eq (address : UInt64) :
    ofAddress? address = if address.toNat % 4 = 0 then some ⟨address ||| 1⟩ else none := by
  simp only [ofAddress?, ← UInt64.toNat_inj, toNat_tag]
  rfl

theorem content_ofInt {n : Int} (low : -2 ^ 62 ≤ n) (high : n ≤ 2 ^ 62 - 1) :
    content ⟨UInt64.ofInt (2 * n)⟩ = .int n := by
  have number : ((UInt64.ofInt (2 * n)).toNat : Int) = 2 * n % 2 ^ 64 := by
    simp only [UInt64.ofInt, UInt64.toNat_ofNat']
    omega
  rw [content_of_isInt (isInt_iff.mpr (by simp only; omega)), int_eq]
  simp only [Content.int.injEq]
  split <;> omega

theorem content_ofAddress {address : UInt64} (aligned : address.toNat % 4 = 0) :
    content ⟨address ||| 1⟩ = .object address := by
  have number : (address ||| 1).toNat = address.toNat + 1 := toNat_tagged aligned (by decide)
  rw [content_of_isObject (isObject_iff.mpr (by simp only [number]; omega)), Content.object.injEq,
    ← UInt64.toNat_inj, Word.address, toNat_untagged, number]
  omega

theorem content_ofSignal (s : Signal) : (ofSignal s).content = .signal s.stored := by
  have number := toNat_ofSignal s
  have small := s.tag_lt
  have tag : (((ofSignal s).bits >>> 2) &&& 7).toNat = s.tag := by
    rw [UInt64.toNat_and, UInt64.toNat_shiftRight, number]
    refine (Nat.and_two_pow_sub_one_eq_mod _ 3).trans ?_
    rw [Nat.shiftRight_eq_div_pow]
    change _ / 2 ^ 2 % 2 ^ 3 = _
    omega
  have payload : ((ofSignal s).bits >>> 8).toNat = s.payload % 2 ^ 56 := by
    rw [UInt64.toNat_shiftRight, number, Nat.shiftRight_eq_div_pow]
    change _ / 2 ^ 8 = _
    omega
  rw [content_of_isSignal (isSignal_iff.mpr (by omega)), signal, tag, payload]
  rfl

/-- What is encoded is read back, if a word has room for it. -/
theorem content_of_fits {c : Content} (fits : c.Fits) :
    ∃ w, ofContent? c = some w ∧ w.content = c := by
  cases c with
  | int n => exact ⟨_, (ofInt?_eq n).trans (if_pos fits), content_ofInt fits.1 fits.2⟩
  | object address => exact ⟨_, (ofAddress?_eq address).trans (if_pos fits), content_ofAddress fits⟩
  | signal s => exact ⟨_, rfl, by rw [content_ofSignal, s.stored_of_lt fits]⟩

/-! ## Forward words -/

theorem toNat_forwardTo {w : Word} (isObject : w.isObject = true) :
    (forwardTo w).bits.toNat = w.bits.toNat + 2 := by
  rw [isObject_iff] at isObject
  have untagged := toNat_untagged w.bits
  rw [forwardTo, toNat_tagged (by omega) (by decide), untagged]
  change _ + 3 = _
  omega

/-- A forward word is neither an object nor an integer. -/
theorem isForward_forwardTo {w : Word} (isObject : w.isObject = true) :
    (forwardTo w).isForward = true ∧ (forwardTo w).isObject = false ∧
      (forwardTo w).isInt = false := by
  have forward := toNat_forwardTo isObject
  rw [isObject_iff] at isObject
  rw [← Bool.not_eq_true, ← Bool.not_eq_true, isForward, isSignal_iff, isObject_iff, isInt_iff]
  omega

theorem forwardTarget_forwardTo {w : Word} (isObject : w.isObject = true) :
    forwardTarget (forwardTo w) = w := by
  have forward := toNat_forwardTo isObject
  have untagged := toNat_untagged (forwardTo w).bits
  rw [isObject_iff] at isObject
  obtain ⟨bits⟩ := w
  rw [forwardTarget, mk.injEq, ← UInt64.toNat_inj, toNat_tagged (by omega) (by decide), untagged, forward]
  change _ + 1 = bits.toNat
  simp only at isObject ⊢
  omega

/-- Each word has one reading. Integers of 63 bits, aligned addresses and signals are encoded so
that they are read back, up to the payload bits of a signal above the 56th; a forward word leads
back to its object and is no value; and different contents have different words. -/
theorem encoding_exact :
    (∀ w : Word, w.isInt = true ∧ w.isObject = false ∧ w.isSignal = false ∧ w.content = .int w.int ∨
      w.isInt = false ∧ w.isObject = true ∧ w.isSignal = false ∧ w.content = .object w.address ∨
      w.isInt = false ∧ w.isObject = false ∧ w.isSignal = true ∧ w.content = .signal w.signal) ∧
      (∀ n : Int, (-2 ^ 62 ≤ n ∧ n ≤ 2 ^ 62 - 1 → ∃ w, ofInt? n = some w ∧ w.asInt? = some n) ∧
      (¬(-2 ^ 62 ≤ n ∧ n ≤ 2 ^ 62 - 1) → ofInt? n = none)) ∧
      (∀ p : UInt64, (p.toNat % 4 = 0 → ∃ w, ofAddress? p = some w ∧
      w.isObject = true ∧ w.address = p) ∧ (p.toNat % 4 ≠ 0 → ofAddress? p = none)) ∧
      (∀ w : Word, w.isObject = true → forwardTarget (forwardTo w) = w ∧ (forwardTo w).isForward =
      true ∧ (forwardTo w).isObject = false ∧ (forwardTo w).isInt = false) ∧
      (∀ s : Signal, (ofSignal s).asSignal? = some (Signal.ofTag s.tag (s.payload % 2 ^ 56)) ∧
      (s.payload < 2 ^ 56 → (ofSignal s).asSignal? = some s)) ∧ ∀ c c' : Content, c.Fits → c'.Fits →
      c ≠ c' → ofContent? c ≠ ofContent? c' := by
  refine ⟨content_cases, fun n => ⟨fun fits => ?_, fun large => (ofInt?_eq n).trans (if_neg large)⟩,
    fun p => ⟨fun aligned => ?_, fun crooked => (ofAddress?_eq p).trans (if_neg crooked)⟩, fun w isObject =>
    ⟨forwardTarget_forwardTo isObject, isForward_forwardTo isObject⟩,
    fun s => ⟨asSignal?_of_content (content_ofSignal s), fun fits => ?_⟩, fun c c' fits fits' differ same => ?_⟩
  · obtain ⟨w, made, isContent⟩ := content_of_fits (c := .int n) fits
    exact ⟨w, made, asInt?_of_content isContent⟩
  · obtain ⟨w, made, isContent⟩ := content_of_fits (c := .object p) aligned
    exact ⟨w, made, address_of_content isContent⟩
  · exact asSignal?_of_content ((content_ofSignal s).trans (by rw [s.stored_of_lt fits]))
  · obtain ⟨w, made, isContent⟩ := content_of_fits fits
    obtain ⟨w', made', isContent'⟩ := content_of_fits fits'
    obtain rfl : w = w' := Option.some.inj (made.symm.trans (same.trans made'))
    exact differ (isContent.symm.trans isContent')

end Word

end ObjectMachine
