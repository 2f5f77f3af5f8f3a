/-
# ObjectMachine.Proofs.Estimates -- the height that an assembly declares

The height of the operand stack is counted along the straight line of the code, and a jump does not
reset it. Behind a return or an unconditional jump the count goes on from an instruction that never
leads there, so code that is jumped to may stand higher than it is counted.

`HeightsAgree lines fields height` says that `height` assigns every instruction the number of
operands it finds, whichever way it is reached.

* `Draft.Writes.leaves_le` -- no instruction leaves more operands than are counted for it.
* `Assembly.heights_le_maxHeight_add` -- so the declared height falls short by no more than the
  count does behind returns and unconditional jumps.
* `Assembly.heights_exceed_maxHeight` -- but it does fall short.
-/
import Mathlib
import ObjectMachine.Proofs.Assembling
import ObjectMachine.Proofs.Heights

namespace ObjectMachine

open Instruction (decode)

/-- One height for each instruction: none at the first, enough for what the instruction works on,
and what it leaves at whatever may be next. -/
structure HeightsAgree (lines : List (Nat × Instruction)) (fields : UInt16 → Option Nat)
    (height : Nat → Nat) : Prop where
  entry : height 0 = 0
  needs : ∀ line ∈ lines, line.2.needs fields ≤ height line.1
  next : ∀ line ∈ lines, line.2.goesOn = true →
    height (line.1 + line.2.size) = line.2.leaves fields (height line.1)
  jump : ∀ line ∈ lines, ∀ target ∈ line.2.targets, height target.toNat = line.2.leaves fields (height line.1)

namespace Draft

variable {ν : Type}

/-- An instruction other than a return leaves no more than is counted for its draft, if `new` is
told the number of fields of its layout. -/
theorem Writes.leaves_le {pooled : ν → UInt16 → Prop}
    {place : String → UInt16 → Prop} {written : UInt16} {d : Draft ν}
    {i : Instruction} {fields : UInt16 → Option Nat} (writes : d.Writes pooled place written i)
    (told : ∀ v count template, d = .new v count → i = .new template → fields template = some count)
    (stays : i ≠ .ret) {n m slack : Nat} (le : n ≤ m + slack) :
    i.leaves fields n ≤ d.heightAfter m + slack := by
  cases writes with
  | ret => exact absurd rfl stays
  | new _ =>
    delta Instruction.leaves heightAfter pops pushes
    dsimp only
    rw [told _ _ _ rfl rfl, Option.getD_some]
    omega
  | _ =>
    delta Instruction.leaves heightAfter pops pushes
    dsimp only
    omega

/-- The first draft that is written finds what has been counted so far. -/
theorem emissionsFrom_height {known : List (String × Nat)} {offset height : Nat}
    {drafts : List (Draft ν)} {e : Emission ν} (mem : e ∈ emissionsFrom known offset height drafts)
    (first : e.offset = offset) : e.height = height := by
  induction drafts generalizing known offset height with
  | nil => cases mem
  | cons d rest ih =>
    simp only [emissionsFrom, List.mem_append] at mem
    obtain here | later := mem
    · split at here
      · cases here
      · cases List.mem_singleton.mp here
        rfl
    · have bounds := emissionsFrom_bounds later
      have silent : d.size = 0 := by omega
      have noEffect : d.heightAfter height = height := by
        cases d <;> first | rfl | cases silent
      exact (ih later (by omega)).trans noEffect

end Draft

namespace Assembly

theorem exists_of_forall₂ {α β : Type} {R : α → β → Prop} {first : List α} {second : List β}
    (related : List.Forall₂ R first second) :
    (∀ a ∈ first, ∃ b ∈ second, R a b) ∧ ∀ b ∈ second, ∃ a ∈ first, R a b := by
  induction related with
  | nil => simp
  | cons here _ ih =>
    simp only [List.forall_mem_cons, List.exists_mem_cons_iff]
    exact ⟨⟨.inl here, fun a mem => .inr (ih.1 a mem)⟩, .inl here, fun b mem => .inr (ih.2 b mem)⟩

section Counting

variable {lines : List (Nat × Instruction)} {fields : UInt16 → Option Nat} {height : Nat → Nat} {slack : Nat}

/-- What is counted is short of the heights by at most `slack`, if it is so where no instruction
goes on. -/
theorem counted_add_slack (agree : HeightsAgree lines fields height)
    {drafts : List (Draft Value)} {known : List (String × Nat)} {offset counted : Nat}
    (written : ∀ e ∈ Draft.emissionsFrom known offset counted drafts, ∃ i, (e.offset, i) ∈ lines ∧
      i.size = e.draft.size ∧ (i ≠ .ret →
      ∀ n, n ≤ e.height + slack → i.leaves fields n ≤ e.draft.heightAfter e.height + slack))
    (behind : ∀ line ∈ lines, line.2.goesOn = false →
      ∀ e ∈ Draft.emissionsFrom known offset counted drafts, e.offset = line.1 + line.2.size →
      height e.offset ≤ e.height + slack)
    (start : ∀ e ∈ Draft.emissionsFrom known offset counted drafts, e.offset = offset →
      height e.offset ≤ e.height + slack) :
    ∀ e ∈ Draft.emissionsFrom known offset counted drafts, height e.offset ≤ e.height + slack := by
  induction drafts generalizing known offset counted with
  | nil => simp [Draft.emissionsFrom]
  | cons d rest ih =>
    simp only [Draft.emissionsFrom, List.mem_append] at written behind start ⊢
    have later := ih (fun e mem => written e (.inr mem))
      (fun line isLine ends e mem => behind line isLine ends e (.inr mem))
    by_cases silent : d.size = 0
    · rw [if_pos silent]
      rintro e (here | mem)
      · cases here
      · exact later (fun e mem isOffset => start e (.inr mem) (by omega)) e mem
    · rw [if_neg silent] at written start ⊢
      have here := List.mem_singleton_self (Draft.Emission.mk offset counted d
        (d.target?.bind fun name => (known.lookup name).or
          ((Draft.labelsFrom (offset + d.size) rest).lookup name)))
      have le : height offset ≤ counted + slack := start _ (.inl here) rfl
      obtain ⟨i, isLine, isSize, leaves⟩ := written _ (.inl here)
      rintro e (mem | mem)
      · cases List.mem_singleton.mp mem
        exact le
      · refine later (fun e mem isOffset => ?_) e mem
        have isOffset' : e.offset = offset + i.size := isOffset.trans (by rw [isSize])
        cases goesOn : i.goesOn with
        | true =>
          rw [isOffset', agree.next _ isLine goesOn, Draft.emissionsFrom_height mem isOffset]
          exact leaves (by rintro rfl; cases goesOn) _ le
        | false => exact behind _ isLine goesOn e (.inr mem) isOffset'

end Counting

/-- However the instructions of an assembly are reached, none has more operands than the declared
height and what the count falls short of behind instructions that do not go on. -/
theorem heights_le_maxHeight_add (drafts : List (Draft Value))
    (clean : ∀ d ∈ drafts, ∀ v ∈ d.constants, v.isSignal = false) :
    ∃ a, ofDrafts drafts = .ok a ∧
      ∀ (fields : UInt16 → Option Nat) (height : Nat → Nat) (slack : Nat),
        HeightsAgree (decode a.units).lines fields height →
        (∀ e ∈ Draft.emissions drafts, ∀ v count template, e.draft = .new v count →
          (e.offset, .new template) ∈ (decode a.units).lines →
          fields template = some count) →
        (∀ line ∈ (decode a.units).lines, line.2.goesOn = false →
          ∀ e ∈ Draft.emissions drafts, e.offset = line.1 + line.2.size →
            height e.offset ≤ e.height + slack) →
        ∀ line ∈ (decode a.units).lines, height line.1 ≤ a.maxHeight + slack ∧
          line.2.leaves fields (height line.1) ≤ a.maxHeight + slack := by
  obtain ⟨a, ran, follows⟩ := Assembler.run_follows drafts clean
  refine ⟨a.assembly, by rw [ofDrafts, ran]; rfl, fun fields height slack agree told behind => ?_⟩
  obtain ⟨ofEmission, ofLine⟩ := exists_of_forall₂ follows.lines
  have leaves : ∀ e ∈ Draft.emissions drafts, ∀ i,
      (e.offset, i) ∈ (decode a.assembly.units).lines →
      e.draft.Writes (fun _ _ => True) (fun _ _ => True) (UInt16.ofNat e.height) i →
      i ≠ .ret → ∀ n, n ≤ e.height + slack → i.leaves fields n ≤ e.draft.heightAfter e.height + slack :=
    fun e mem i isLine writes stays n le => writes.leaves_le
      (fun v count template isNew isNew' => told e mem v count template isNew (isNew' ▸ isLine)) stays le
  have counted := counted_add_slack agree (fun e mem => by
      obtain ⟨⟨_, i⟩, isLine, rfl, writes⟩ := ofEmission e mem
      exact ⟨i, isLine, writes.size_eq, leaves e mem i isLine writes⟩) behind
    fun e mem first => by
      rw [first, agree.entry]
      exact Nat.zero_le _
  rintro ⟨_, i⟩ isLine
  obtain ⟨e, mem, rfl, writes⟩ := ofLine _ isLine
  have le := counted e mem
  have heights := follows.heights e mem
  refine ⟨by simp only; omega, ?_⟩
  by_cases isReturn : i = .ret
  · subst isReturn
    exact le.trans (by omega)
  · exact (leaves e mem i isLine writes isReturn _ le).trans (by omega)

/-! ## A return in the middle

Three operands are kept while a condition is tested. One branch drops two of them and returns, and
the count goes on from there; the other branch still has all three. -/

/-- Code with a return in the middle. -/
def earlyReturn : List (Draft Value) :=
  [.pushNull, .pushNull, .push (.int 7), .pushTrue, .ifTrue "on", .slap 2, .ret, .label "on", .pushNull,
    .pushNull, .push (.int 9), .yield, .slap 5, .ret]

/-- What `earlyReturn` is assembled to. -/
def earlyReturnCode : Assembly :=
  { units := #[7, 7, 0, 0, 8, 11, 10, 4, 2, 1, 7, 7, 0, 1, 30, 4, 5, 1]
    constants := #[.int 7, .int 9], height := 0, maxHeight := 4 }

/-- The operands that the instructions of `earlyReturn` find. -/
def earlyReturnHeight (pc : Nat) : Nat :=
  (List.lookup pc [(1, 1), (2, 2), (4, 3), (5, 4), (7, 3), (9, 1), (10, 3), (11, 4), (12, 5), (14, 6),
    (15, 6), (17, 1)]).getD 0

theorem ofDrafts_earlyReturn : ofDrafts earlyReturn = .ok earlyReturnCode := by cbv

theorem lines_earlyReturn : (decode earlyReturnCode.units).lines =
    [(0, .pushNull), (1, .pushNull), (2, .push 0), (4, .pushTrue), (5, .ifTrue 10), (7, .slap 2),
      (9, .ret), (10, .pushNull), (11, .pushNull), (12, .push 1), (14, .yield), (15, .slap 5),
      (17, .ret)] := by cbv

theorem heightsAgree_earlyReturn : HeightsAgree (decode earlyReturnCode.units).lines
    (fun _ => none) earlyReturnHeight := by
  rw [lines_earlyReturn]
  refine ⟨by decide, by decide, by decide, ?_⟩
  simp only [Instruction.targets, List.forall_mem_cons, List.not_mem_nil, false_imp_iff, implies_true,
    and_true, true_and]
  decide

/-- Behind its return the code is counted three operands too low, and not more. -/
theorem heights_le_earlyReturn : ofDrafts earlyReturn = .ok earlyReturnCode ∧
    HeightsAgree (decode earlyReturnCode.units).lines (fun _ => none) earlyReturnHeight ∧
    ∀ line ∈ (decode earlyReturnCode.units).lines, earlyReturnHeight line.1 ≤ 4 + 3 ∧
      line.2.leaves (fun _ => none) (earlyReturnHeight line.1) ≤ 4 + 3 := by
  obtain ⟨a, assembled, bounded⟩ := heights_le_maxHeight_add earlyReturn (by decide)
  cases ofDrafts_earlyReturn.symm.trans assembled
  refine ⟨ofDrafts_earlyReturn, heightsAgree_earlyReturn,
    bounded _ _ 3 heightsAgree_earlyReturn (fun e mem v count template isNew => ?_) ?_⟩
  · have mem := isNew ▸ Draft.mem_of_emissionsFrom mem
    simp [earlyReturn] at mem
  · rw [lines_earlyReturn]
    decide

/-- The declared height does not bound the operands: `earlyReturn` declares four, and yields with
six. -/
theorem heights_exceed_maxHeight : ¬ ∀ (drafts : List (Draft Value)) (a : Assembly)
    (fields : UInt16 → Option Nat) (height : Nat → Nat), ofDrafts drafts = .ok a →
    HeightsAgree (decode a.units).lines fields height →
    ∀ line ∈ (decode a.units).lines, height line.1 ≤ a.maxHeight ∧
      line.2.leaves fields (height line.1) ≤ a.maxHeight := by
  intro bounds
  have bound := bounds _ _ _ _ ofDrafts_earlyReturn heightsAgree_earlyReturn (14, .yield)
    (by rw [lines_earlyReturn]; decide)
  exact absurd bound.1 (by decide)

end Assembly

end ObjectMachine
