/-
# ObjectMachine.Proofs.Grammar -- which units are code

Code is written in blocks: an assigned opcode and as many operands as it declares. `IsBlock` says so
of units alone, and `Malformed` what is wrong with units that do not begin with a block. All units
are blocks up to an end or a flaw (`exists_written`), and reading a buffer goes from block to block.

* `grammatical_iff` -- blocks are what instructions are written as.
* `decodeFrom_written`, `decodeFrom_malformed` -- blocks are read, and flaws are reported.
* `decode_grammar` -- what is read to the end is code, and what is not is read up to its first flaw.
-/
import Mathlib
import ObjectMachine.Proofs.Emissions

namespace ObjectMachine

/-- The units that open an instruction. -/
def Opcode.Assigned (unit : UInt16) : Prop := unit.toNat < 42 ∧ unit.toNat ≠ 21 ∧ unit.toNat ≠ 22

theorem Opcode.assigned_iff {unit : UInt16} : Assigned unit ↔ ∃ op, ofUnit? unit = some op := by
  constructor
  · rintro ⟨low, not21, not22⟩
    have found : ∀ n < 42, n ≠ 21 → n ≠ 22 → (ofUnit? (UInt16.ofNat n)).isSome := by decide
    have some := found unit.toNat low not21 not22
    rwa [UInt16.ofNat_toNat, Option.isSome_iff_exists] at some
  · rintro ⟨op, isOp⟩
    rw [ofUnit?_eq_some_iff.mp isOp]
    cases op <;> exact ⟨by decide, by decide, by decide⟩

namespace Instruction

/-- An assigned opcode and as many operands as it declares. -/
def IsBlock (block : List UInt16) : Prop :=
  ∃ (op : Opcode) (operands : List UInt16), block = op.unit :: operands ∧ operands.length = op.argc

/-- Blocks one behind the other. -/
def Grammatical (units : List UInt16) : Prop :=
  ∃ blocks : List (List UInt16), (∀ block ∈ blocks, IsBlock block) ∧ units = blocks.flatten

/-- What is wrong with units from `pc` on that do not begin with a block. -/
inductive Malformed (pc : Nat) : List UInt16 → Violation → Prop
  | unassigned {unit : UInt16} {rest : List UInt16} (free : ¬ Opcode.Assigned unit) :
      Malformed pc (unit :: rest) (.unassignedOpcode unit pc)
  | truncated {op : Opcode} {rest : List UInt16} (short : rest.length < op.argc) :
      Malformed pc (op.unit :: rest) (.truncatedInstruction op pc)

/-- The units of instructions one behind the other. -/
def written (is : List Instruction) : List UInt16 := is.flatMap Instruction.units

/-- Instructions one behind the other from `pc` on, each with its offset. -/
def linesFrom (pc : Nat) : List Instruction → List (Nat × Instruction)
  | [] => []
  | i :: is => (pc, i) :: linesFrom (pc + i.size) is

variable {code : Array UInt16} {pc : Nat} {is : List Instruction} {units rest : List UInt16}
  {violation : Violation}

section Blocks

/-- The instruction of an opcode with the given operands is written as just these. -/
theorem units_ofOperands {op : Opcode}
    {operands : List UInt16} (length : operands.length = op.argc) :
    (ofOperands op fun n => operands.getD n 0).units = op.unit :: operands := by
  have isOperands : (ofOperands op fun n => operands.getD n 0).operands =
      (List.range op.argc).map fun n => operands.getD n 0 := by
    cases op <;> rfl
  rw [Instruction.units, opcode_ofOperands, isOperands, ← length]
  congr 1
  refine List.ext_getElem (by simp) fun n low inside => ?_
  simp [List.getD_eq_getElem?_getD, List.getElem?_eq_getElem inside]

theorem grammatical_iff : Grammatical units ↔ ∃ is, units = written is := by
  constructor
  · rintro ⟨blocks, all, rfl⟩
    induction blocks with
    | nil => exact ⟨[], rfl⟩
    | cons block blocks ih =>
      obtain ⟨op, operands, rfl, length⟩ := all block List.mem_cons_self
      obtain ⟨is, isRest⟩ := ih fun block member => all block (List.mem_cons_of_mem _ member)
      refine ⟨(ofOperands op fun n => operands.getD n 0) :: is, ?_⟩
      rw [List.flatten_cons, isRest, ← units_ofOperands length]
      rfl
  · rintro ⟨is, rfl⟩
    refine ⟨is.map Instruction.units, fun block member => ?_, rfl⟩
    obtain ⟨i, -, rfl⟩ := List.mem_map.mp member
    exact ⟨i.opcode, i.operands, rfl, i.operands_length⟩

/-- Units are blocks up to their end, or up to the first of them that do not begin with a block. -/
theorem exists_written (pc : Nat) (units : List UInt16) : ∃ is rest, units = written is ++ rest ∧
    (rest = [] ∨ ∃ violation, Malformed (pc + (written is).length) rest violation) := by
  match units with
  | [] => exact ⟨[], [], rfl, .inl rfl⟩
  | unit :: rest =>
    by_cases assigned : Opcode.Assigned unit
    · obtain ⟨op, isOp⟩ := Opcode.assigned_iff.mp assigned
      obtain rfl := Opcode.ofUnit?_eq_some_iff.mp isOp
      by_cases short : rest.length < op.argc
      · exact ⟨[], _, rfl, .inr ⟨_, .truncated short⟩⟩
      · have isBlock := @units_ofOperands op (rest.take op.argc) (by simp; omega)
        generalize (ofOperands op _) = i at isBlock
        obtain ⟨is, flawed, isRest, ends⟩ := exists_written (pc + i.units.length) (rest.drop op.argc)
        refine ⟨i :: is, flawed, ?_, ?_⟩
        · rw [written, List.flatMap_cons, List.append_assoc, ← written, ← isRest, isBlock, List.cons_append,
            List.take_append_drop]
        · rwa [written, List.flatMap_cons, List.length_append, ← Nat.add_assoc]
    · exact ⟨[], _, rfl, .inr ⟨_, .unassigned assigned⟩⟩
termination_by units.length
decreasing_by
  rw [List.length_drop, List.length_cons]
  omega

end Blocks

section Reading

/-- Blocks are read one after the other. -/
theorem decodeFrom_written (lies : code.toList.drop pc = written is ++ rest) : decodeFrom code pc =
      ⟨linesFrom pc is ++ (decodeFrom code (pc + (written is).length)).lines,
        (decodeFrom code (pc + (written is).length)).finish⟩ := by
  induction is generalizing pc with
  | nil => rfl
  | cons i is ih =>
    rw [written, List.flatMap_cons, List.append_assoc, ← written] at lies
    have here : i.LiesAt code pc := by
      intro j low
      have same := congrArg (·[j]?) lies
      rwa [List.getElem?_drop, Array.getElem?_toList, List.getElem?_append_left (by rwa [units_length])] at same
    have inside : pc < code.size := Nat.lt_of_lt_of_le (Nat.lt_add_of_pos_right i.size_pos) here.size_le
    have next : code.toList.drop (pc + i.size) = written is ++ rest := by
      rw [← List.drop_drop, lies, ← units_length, List.drop_left]
    rw [decodeFrom, dif_pos inside, here.decodeAt]
    simp only [ih next, written, List.flatMap_cons, List.length_append, units_length, Nat.add_assoc]
    rfl

/-- Reading stops where units are malformed. -/
theorem decodeFrom_malformed (malformed : Malformed pc (code.toList.drop pc) violation) :
    decodeFrom code pc = ⟨[], .error violation⟩ := by
  have inside : pc < code.size := by
    by_contra outside
    rw [List.drop_of_length_le (by simpa using outside)] at malformed
    cases malformed
  have split : code.toList.drop pc = code[pc] :: code.toList.drop (pc + 1) := by
    rw [List.drop_eq_getElem_cons (by simpa using inside), Array.getElem_toList]
  have length : (code.toList.drop (pc + 1)).length = code.size - (pc + 1) := by simp
  have failed : decodeAt code pc = .error violation := by
    simp only [decodeAt, Array.getElem?_eq_getElem inside]
    rw [split] at malformed
    generalize code[pc] = unit at *
    cases malformed with
    | unassigned free =>
      cases isOp : Opcode.ofUnit? unit with
      | none => rfl
      | some op => exact absurd (Opcode.assigned_iff.mpr ⟨op, isOp⟩) free
    | @truncated op _ short =>
      simp only [Opcode.ofUnit?_unit]
      rw [if_neg]
      unfold Opcode.size
      omega
  rw [decodeFrom, dif_pos inside, failed]

end Reading

/-- What is written as instructions is read as these instructions, to the end of the buffer. -/
theorem decode_written (isCode : code.toList = written is) :
    decode code = ⟨linesFrom 0 is, .ok code.size⟩ := by
  have ended : 0 + (written is).length = code.size := by
    rw [Nat.zero_add, ← isCode, Array.length_toList]
  rw [decode, @decodeFrom_written code 0 is [] (isCode.trans (List.append_nil _).symm), ended, decodeFrom,
    dif_neg (Nat.lt_irrefl _), List.append_nil]

theorem decode_flawed (isCode : code.toList = written is ++ rest)
    (malformed : Malformed (written is).length rest violation) :
    decode code = ⟨linesFrom 0 is, .error violation⟩ := by
  rw [decode, @decodeFrom_written code 0 is rest isCode, Nat.zero_add, decodeFrom_malformed, List.append_nil]
  rwa [isCode, List.drop_left]

theorem map_linesFrom (pc : Nat) (is : List Instruction) : (linesFrom pc is).map Prod.snd = is := by
  induction is generalizing pc with
  | nil => rfl
  | cons i is ih => exact congrArg (i :: ·) (ih _)

/-- Reading a buffer ends. It comes to the end of the buffer exactly if the units are blocks, and
then the instructions it has read are written as these units. Otherwise it stops at the first units
that do not begin with a block and says what is wrong with them, after the instructions that stand
before them. -/
theorem decode_grammar (code : Array UInt16) :
    ((∃ n, (decode code).finish = .ok n) ↔ Grammatical code.toList) ∧ (∀ n, (decode code).finish =
      .ok n → n = code.size ∧ written ((decode code).lines.map Prod.snd) = code.toList) ∧
      (∀ violation, (decode code).finish = .error violation →
      ∃ is rest, (decode code).lines = linesFrom 0 is ∧ code.toList = written is ++ rest ∧
      ((∃ unit more, rest = unit :: more ∧ ¬ Opcode.Assigned unit ∧
      violation.message = s!"unhandled opcode {unit} at {(written is).length}") ∨
      ∃ (op : Opcode) (more : List UInt16), rest = op.unit :: more ∧ more.length < op.argc ∧
      violation.message = "truncated " ++ op.name ++ s!" instruction at {(written is).length}")) ∧
      (∀ is, code.toList = written is → decode code = ⟨linesFrom 0 is, .ok code.size⟩) ∧
      ∀ is rest violation, code.toList = written is ++ rest →
      Malformed (written is).length rest violation →
      decode code = ⟨linesFrom 0 is, .error violation⟩ := by
  obtain ⟨is, rest, isCode, ends⟩ := exists_written 0 code.toList
  obtain rfl | ⟨violation, malformed⟩ := ends
  · rw [List.append_nil] at isCode
    have decoded := decode_written isCode
    refine ⟨iff_of_true ⟨_, congrArg Listing.finish decoded⟩ (grammatical_iff.mpr ⟨is, isCode⟩), ?_, ?_,
      fun is => decode_written, fun is rest violation => decode_flawed⟩
    · rw [decoded, map_linesFrom]
      rintro _ ⟨⟩
      exact ⟨rfl, isCode.symm⟩
    · rw [decoded]
      rintro _ ⟨⟩
  · rw [Nat.zero_add] at malformed
    have decoded := decode_flawed isCode malformed
    refine ⟨iff_of_false ?_ fun grammatical => ?_, ?_, ?_, fun is => decode_written,
      fun is rest violation => decode_flawed⟩
    · rw [decoded]
      rintro ⟨_, ⟨⟩⟩
    · obtain ⟨is', isCode'⟩ := grammatical_iff.mp grammatical
      cases congrArg Listing.finish (decoded.symm.trans (decode_written isCode'))
    · rw [decoded]
      rintro _ ⟨⟩
    · rw [decoded]
      rintro _ ⟨⟩
      refine ⟨is, rest, rfl, isCode, ?_⟩
      cases malformed with
      | unassigned free => exact .inl ⟨_, _, rfl, free, rfl⟩
      | truncated short => exact .inr ⟨_, _, rfl, short, rfl⟩

/-- Two instructions in front of an invocation that lacks an operand. -/
theorem decode_grammar_truncated :
    decode #[0, 7, 1, 13, 2, 21] = ⟨[(0, .push 7), (2, .ret)],
      .error (.truncatedInstruction .invoke 3)⟩ ∧ ¬ Grammatical [0, 7, 1, 13, 2, 21] := by
  obtain ⟨accepts, -, -, -, stops⟩ := decode_grammar #[0, 7, 1, 13, 2, 21]
  have decoded := stops [.push 7, .ret] [13, 2, 21] _ rfl (@Malformed.truncated 3 .invoke [2, 21] (by decide))
  refine ⟨decoded, fun grammatical => ?_⟩
  obtain ⟨n, ends⟩ := accepts.mpr grammatical
  rw [decoded] at ends
  cases ends

end Instruction

end ObjectMachine
