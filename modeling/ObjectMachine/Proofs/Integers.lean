/-
# ObjectMachine.Proofs.Integers -- integers are exact

Integer builtins compute with 64 bits, and their answers have 63. What leaves the wider range has
left the narrower one, so a result is refused exactly when it is no small integer
(`Builtin.smallInteger_wide`). Operands are found behind any number of forwarders; what is found
there and is no integer is refused before anything is computed.

* `Store.narrowInt_bind` -- what an operand is narrowed to.
* `Builtin.integers_exact` -- all integer builtins, for all operands.
-/
import Mathlib
import ObjectMachine.Proofs.Forwarders

namespace ObjectMachine

open ObjectMachine.Action (bind_eq_of_error bind_eq_of_ok)

/-- The end of work that answers or signals, and changes nothing. -/
def Signal.ending {σ α : Type} (s : σ) : Except Signal α → EStateM.Result (Stop Signal) σ α
  | .ok answer => .ok answer s
  | .error signal => .error (.raised signal) s

open Signal (ending)

/-- The integer a value is narrowed to. -/
def Value.narrowed : Value → Except Signal Int
  | .int n => .ok n
  | _ => .error .typeMismatch

/-- What stands for no integer is refused, before anything is computed. -/
theorem Store.narrowInt_bind {s : Store} {v w : Value} {answer : Int → Alloc Value}
    {result : Int → Except Signal Value} (stands : s.heap.StandsFor v w)
    (answers : ∀ n, answer n s = ending s (result n)) :
    (Store.narrowInt v >>= answer) s = ending s (w.narrowed >>= result) := by
  have asked : (Store.deref v : Alloc Value) s = .ok w s := by
    simp only [Store.deref, Store.check, Heap.deref_eq stands]
  have narrows : Store.narrowInt v s = ending s w.narrowed := by
    refine (bind_eq_of_ok asked).trans ?_
    cases w <;> rfl
  cases w with
  | int n => exact (bind_eq_of_ok narrows).trans (answers n)
  | _ => exact bind_eq_of_error narrows

namespace Builtin

variable {s : Store} {m : Machine} {this that : Value} {a b n : Int}

section Results

/-- A small integer, or the failure of an integer that is none. -/
def exactly (n : Int) : Except Signal Value :=
  if -2 ^ 62 ≤ n ∧ n < 2 ^ 62 then .ok (.int n) else .error .fatalError

theorem exactly_eq_error_iff : exactly n = .error .fatalError ↔ ¬ (-2 ^ 62 ≤ n ∧ n < 2 ^ 62) := by
  unfold exactly
  split <;> simp_all

/-- What has more than 64 bits has more than 63, so both checks together are the narrower one. -/
theorem smallInteger_wide (n : Int) : smallInteger (wide? n) s = ending s (exactly n) := by
  have narrower : (wide? n).bind Value.ofInt? = if -2 ^ 62 ≤ n ∧ n < 2 ^ 62 then some (.int n) else none := by
    unfold wide? Value.ofInt? Value.isSmall Value.minInt Value.maxInt
    split_ifs <;> simp <;> omega
  rw [smallInteger, narrower, exactly]
  split <;> rfl

/-- The quotient rounded toward zero, or the failure of one that is not there or no small
integer. -/
def divided (a b : Int) : Except Signal Value := if b = 0 then .error .fatalError else exactly (a.tdiv b)

theorem smallInteger_quotient (a b : Int) :
    smallInteger (quotient? a b) s = ending s (divided a b) := by
  by_cases zero : b = 0
  · rw [quotient?, divided, if_pos zero, if_pos zero]
    rfl
  · rw [quotient?, divided, if_neg zero, if_neg zero, smallInteger_wide]

/-- Truncation does not make an integer larger, so only a change of sign can. -/
theorem divided_eq_error_iff (small : -2 ^ 62 ≤ a ∧ a < 2 ^ 62) :
    divided a b = .error .fatalError ↔ b = 0 ∨ a = -2 ^ 62 ∧ b = -1 := by
  unfold divided
  split
  · simp_all
  · rename_i nonzero
    rw [exactly_eq_error_iff, or_iff_right nonzero]
    refine ⟨fun large => ?_, by rintro ⟨rfl, rfl⟩; decide⟩
    have magnitude : (a.tdiv b).natAbs = a.natAbs / b.natAbs := Int.natAbs_tdiv a b
    -- another divisor than 1 and -1 halves the magnitude at least, and 1 keeps the integer
    obtain rfl | rfl | many : b = 1 ∨ b = -1 ∨ 2 ≤ b.natAbs := by omega
    · rw [Int.tdiv_one] at large
      exact absurd small large
    · have whole := Nat.div_le_self a.natAbs (-1 : Int).natAbs
      omega
    · have half : a.natAbs / b.natAbs ≤ a.natAbs / 2 := Nat.div_le_div_left many (by decide)
      omega

end Results

/-- The result on the integers that two values are narrowed to, the first of them first. -/
def onBoth (v w : Value) (result : Int → Int → Except Signal Value) : Except Signal Value := do
  result (← v.narrowed) (← w.narrowed)

/-- The builtin of a name is there, takes these arguments, and ends so without a change. -/
def Ends (name : String) (call : Call) (m : Machine) (outcome : Except Signal Value) : Prop :=
  ∃ builtin, ofIndex? builtin.index = some builtin ∧ builtin.name = name ∧
    call.arguments.size = builtin.argc ∧ builtin.run call m = ending m outcome

/-- A builtin on the store ends with the machine as it ends with the store. -/
theorem ends_onStore {index : UInt16}
    {name : String} {argc : Nat} {run : Call → Alloc Value} {call : Call}
    {outcome : Except Signal Value} (isThere : ofIndex? index = some (onStore index name argc run))
    (size : call.arguments.size = argc) (ended : run call m.store = ending m.store outcome) :
    Ends name call m outcome := by
  refine ⟨onStore index name argc run, isThere, rfl, size, ?_⟩
  change Machine.onStore (run call) m = _
  rw [Machine.onStore, ended]
  cases outcome <;> rfl

/-- Integer builtins give the exact result or refuse it, on operands that stand for `v` and `w`. Of
small integers, only the least has no magnitude and no quotient by -1. In a heap with any history
every value stands for something, so these are all the ways they end. -/
theorem integers_exact {v w : Value}
    (standsThis : m.store.heap.StandsFor this v) (standsThat : m.store.heap.StandsFor that w) :
    (Ends "integer_plus" ⟨this, #[that]⟩ m (onBoth v w fun a b => exactly (a + b)) ∧
      Ends "integer_minus" ⟨this, #[that]⟩ m (onBoth v w fun a b => exactly (a - b)) ∧
      Ends "integer_times" ⟨this, #[that]⟩ m (onBoth v w fun a b => exactly (a * b)) ∧
      Ends "integer_divide" ⟨this, #[that]⟩ m (onBoth v w divided) ∧ Ends "integer_abs"
      ⟨this, #[]⟩ m (v.narrowed >>= fun a => exactly a.natAbs) ∧ Ends "integer_less"
      ⟨this, #[that]⟩ m (onBoth v w fun a b => .ok (m.store.boolean (decide (a < b))))) ∧
      (∀ a b : Int, -2 ^ 62 ≤ a ∧ a < 2 ^ 62 → (divided a b = .error .fatalError ↔
      b = 0 ∨ a = -2 ^ 62 ∧ b = -1) ∧ (exactly a.natAbs = .error .fatalError ↔ a = -2 ^ 62)) ∧
      ∀ settings s kept place h, Store.create settings = .ok s → s.heap.History kept place h →
      ∀ u, ∃ u', h.StandsFor u u' := by
  have onBoth_ends : ∀ index {name answer result},
      ofIndex? index = some (onStore index name 1 fun call => onIntegers call answer) →
      (∀ a b, answer a b m.store = ending m.store (result a b)) →
      Ends name ⟨this, #[that]⟩ m (onBoth v w result) := fun _ _ _ _ isThere answers =>
    ends_onStore isThere rfl
      (Store.narrowInt_bind standsThis fun a => Store.narrowInt_bind standsThat (answers a))
  refine ⟨⟨?plus, ?minus, ?times, ?divide, ?abs, ?less⟩, fun a b small => ⟨divided_eq_error_iff small, ?_⟩,
    fun settings s kept place h created history =>
      (history.invariant Heap.Event.wired (Heap.wired_of_create created)).ends⟩
  case plus => exact onBoth_ends 10 rfl fun a b => smallInteger_wide (a + b)
  case minus => exact onBoth_ends 11 rfl fun a b => smallInteger_wide (a - b)
  case times => exact onBoth_ends 12 rfl fun a b => smallInteger_wide (a * b)
  case divide => exact onBoth_ends 13 rfl smallInteger_quotient
  case abs =>
    exact @ends_onStore m 14 _ 0 integerAbs ⟨this, #[]⟩ _ rfl rfl
      (Store.narrowInt_bind standsThis fun a => smallInteger_wide a.natAbs)
  case less => exact onBoth_ends 15 rfl fun a b => rfl
  rw [exactly_eq_error_iff]
  omega

/-- The least small integer behind a forwarder. -/
theorem integers_exact_least :
    ∃ m : Machine, ∃ least, m.store.heap.StandsFor least (.int (-2 ^ 62)) ∧
      Ends "integer_abs" ⟨least, #[]⟩ m (.error .fatalError) ∧
      Ends "integer_divide" ⟨least, #[.int (-1)]⟩ m (.error .fatalError) ∧
      Ends "integer_divide" ⟨least, #[.int 3]⟩ m (.ok (.int (-1537228672809129301))) ∧
      Ends "integer_plus" ⟨.int 1, #[least]⟩ m (.ok (.int (1 - 2 ^ 62))) := by
  let bodies : List Body := [.forwarderDescriptor ⟨.closed, .int (-2 ^ 62)⟩, .forwarder ⟨.object ⟨0⟩⟩]
  let m : Machine := ⟨.ofBodies bodies 0 0, default, {}, none, "", {}⟩
  have stands : m.store.heap.StandsFor (.object ⟨1⟩) (.int (-2 ^ 62)) :=
    .through ⟨_, _, rfl, rfl, rfl⟩ (.itself rfl)
  have number : ∀ n, m.store.heap.StandsFor (.int n) (.int n) := fun n => .itself rfl
  exact ⟨m, _, stands, (integers_exact stands (number 0)).1.2.2.2.2.1,
    (integers_exact stands (number (-1))).1.2.2.2.1, (integers_exact stands (number 3)).1.2.2.2.1,
    (integers_exact (number 1) stands).1.1⟩

end Builtin

end ObjectMachine
