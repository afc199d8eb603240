import SoftCore.Proofs.Meaning
import SoftCore.Proofs.Packing
import SoftCore.Proofs.Spelling

/-! From a meaning back to a line. The line names the mnemonic, the registers by
number and every number in decimal; it has the instruction of the meaning. -/

namespace SoftCore

namespace SourceLine

theorem Token.of_solid {t : Text} (filled : t ≠ []) (solid : t.Solid) (comma : ',' ∉ t) : Token t :=
  ⟨filled, solid.trim, comma⟩

theorem token_register (r : Register) : Token r.text :=
  .of_solid (by simp [Register.text]) r.solid_text
    (Register.not_mem_text (by decide) (by decide) (by decide) r)

theorem token_operand (operand : Operand) : Token operand.text := by
  cases operand with
  | register r => exact token_register r
  | literal n =>
    exact .of_solid (Text.ofInt_ne_nil n) (Text.solid_ofInt n)
      (Text.not_mem_ofInt (by decide) (by decide) n)

theorem token_reference (m : MemoryReference) : Token m.text := by
  refine .of_solid (by simp [MemoryReference.text]) m.solid_text ?_
  have base : ',' ∉ m.base.text := Register.not_mem_text (by decide) (by decide) (by decide) _
  have marked : ',' ∉ m.update.mark m.base.text := by
    cases m.update <;> simp [Update.mark, base]
  have front : ',' ∉ m.front := m.not_mem_front (by decide) (by decide)
  simp [MemoryReference.text, front, marked]

end SourceLine

namespace Instruction

def registers : Instruction → List Register
  | registerImmediate _ rd rs _ _ _ => [rd, rs]
  | registerRegister rd rs1 rs2 _ _ _ => [rd, rs1, rs2]
  | registerMemory _ rd rs1 _ => [rd, rs1]

theorem exists_of_toWord {i : Instruction} {w : UInt32} (h : i.toWord = .ok w) :
    ∀ r ∈ i.registers, r.Exists := by
  have bounded : i.Bounded := exists_toWord_iff.mp ⟨w, h⟩
  cases i with
  | registerImmediate opcode rd rs flags high constant =>
    obtain ⟨-, hd, hs⟩ := bounded
    simp [registers, hd, hs]
  | registerRegister rd rs1 rs2 flags ext cond =>
    obtain ⟨hd, h1, h2, -⟩ := bounded
    simp [registers, hd, h1, h2]
  | registerMemory bits rd rs1 offset =>
    obtain ⟨hd, h1, -⟩ := bounded
    simp [registers, hd, h1]

end Instruction

namespace Meaning

def mnemonic : Meaning → Mnemonic
  | arithmetic op flags _ _ _ => { family := .arithmetic op, flags }
  | select c flags _ _ _ => { family := .select c, flags }
  | memory access _ _ _ _ => { family := .memory access, flags := false }

def operands : Meaning → List Text
  | arithmetic _ _ rd rs1 second => [rs1.text, second.text, rd.text]
  | select _ _ rd rs1 rs2 => [rs1.text, rs2.text, rd.text]
  | memory access rd base offset update =>
    Instruction.memoryOperands access (MemoryReference.text ⟨base, some offset, update⟩) rd.text

def line (m : Meaning) : SourceLine := { mnemonic := m.mnemonic.text, operands := m.operands }

def text (m : Meaning) : Text := m.line.text

/-- Every register and number of the meaning can be written down. -/
def Written : Meaning → Prop
  | arithmetic _ _ rd rs1 second => rd.Exists ∧ rs1.Exists ∧ second.Written
  | select _ _ rd rs1 rs2 => rd.Exists ∧ rs1.Exists ∧ rs2.Exists
  | memory _ rd base offset _ => rd.Exists ∧ base.Exists ∧ offset.natAbs < Literal.limit

theorem normal_line (m : Meaning) : m.line.Normal where
  filled := m.mnemonic.text_ne_nil
  solid := m.mnemonic.solid_text
  lower := m.mnemonic.lower_text
  tokens := by
    cases m with
    | arithmetic op flags rd rs1 second =>
      simp [line, operands, SourceLine.token_register, SourceLine.token_operand]
    | select c flags rd rs1 rs2 => simp [line, operands, SourceLine.token_register]
    | memory access rd base offset update =>
      cases access <;>
        simp [line, operands, Instruction.memoryOperands, SourceLine.token_register,
          SourceLine.token_reference]

theorem ofArithmetic_line {op : Operation} {flags : Bool} {rd rs1 : Register} {second : Operand}
    {i : Instruction} (h : (arithmetic op flags rd rs1 second).Written)
    (lowered : (arithmetic op flags rd rs1 second).lower = .ok i) :
    Instruction.ofArithmetic (arithmetic op flags rd rs1 second).line op flags = .ok i := by
  obtain ⟨hd, h1, h2⟩ := h
  refine Instruction.ofArithmetic_eq_ok_iff.mpr ⟨_, _, _, rs1, second, rd, rfl,
    Operand.read_register h1, Operand.read_text h2, Operand.read_register hd, ?_⟩
  cases second with
  | register rs2 =>
    cases lowered
    exact .inl ⟨rs2, rfl, rfl⟩
  | literal n =>
    obtain ⟨half, carried, rfl⟩ := Fault.map_eq_ok_iff.mp lowered
    exact .inr ⟨n, half, rfl, carried, rfl⟩

theorem ofSelect_line {c : Condition} {flags : Bool} {rd rs1 rs2 : Register} {i : Instruction}
    (h : (select c flags rd rs1 rs2).Written)
    (lowered : (select c flags rd rs1 rs2).lower = .ok i) :
    Instruction.ofSelect (select c flags rd rs1 rs2).line c flags = .ok i := by
  obtain ⟨hd, h1, h2⟩ := h
  cases lowered
  exact Instruction.ofSelect_eq_ok_iff.mpr ⟨_, _, _, rs1, rs2, rd, rfl,
    Operand.read_register h1, Operand.read_register h2, Operand.read_register hd, rfl⟩

theorem ofMemory_line {access : Access} {rd base : Register} {offset : Int} {update : Update}
    {i : Instruction} (h : (memory access rd base offset update).Written)
    (lowered : (memory access rd base offset update).lower = .ok i) :
    Instruction.ofMemory (memory access rd base offset update).line access = .ok i := by
  obtain ⟨hd, hb, ho⟩ := h
  obtain ⟨contents, carried, rfl⟩ := Fault.map_eq_ok_iff.mp lowered
  have reference := MemoryReference.read_text (m := ⟨base, some offset, update⟩)
    ⟨hb, fun n hn => Option.some.inj hn ▸ ho⟩
  exact Instruction.ofMemory_eq_ok_iff.mpr ⟨_, _, ⟨base, some offset, update⟩, rd, contents, rfl,
    by simp [MemoryReference.text], reference, Operand.read_register hd, carried, rfl⟩

/-- The line of a meaning has its instruction. -/
theorem ofLine_line {m : Meaning} {i : Instruction} (h : m.Written) (lowered : m.lower = .ok i) :
    Instruction.ofLine m.line = .ok i := by
  refine Instruction.ofLine_eq_ok_iff.mpr ⟨m.mnemonic, m.mnemonic.read_text, ?_⟩
  cases m with
  | arithmetic op flags rd rs1 second => exact ofArithmetic_line h lowered
  | select c flags rd rs1 rs2 => exact ofSelect_line h lowered
  | memory access rd base offset update => exact ofMemory_line h lowered

theorem lineWord_text {m : Meaning} {i : Instruction} {w : UInt32} (h : m.Written)
    (lowered : m.lower = .ok i) (packed : i.toWord = .ok w) :
    Assembly.lineWord m.text = .ok w :=
  Assembly.lineWord_eq_ok_iff.mpr
    ⟨m.line, i, SourceLine.read_text m.normal_line, ofLine_line h lowered, packed⟩

/-- Whatever a word means can be written down. -/
theorem written_of_toWord {i : Instruction} {w : UInt32} {m : Meaning} (h : i.toWord = .ok w)
    (meant : ofInstruction? i = some m) : m.Written := by
  have exist := Instruction.exists_of_toWord h
  cases i with
  | registerImmediate opcode rd rs1 flags high constant =>
    simp only [Instruction.registers, List.forall_mem_cons] at exist
    obtain ⟨hd, h1, -⟩ := exist
    obtain ⟨op, -, -, rfl⟩ := ofInstruction?_registerImmediate.mp meant
    exact ⟨hd, h1, op.natAbs_valueOf_lt _⟩
  | registerRegister rd rs1 rs2 flags ext cond =>
    simp only [Instruction.registers, List.forall_mem_cons] at exist
    obtain ⟨hd, h1, h2, -⟩ := exist
    obtain ⟨op, -, -, rfl⟩ | ⟨c, -, -, rfl⟩ := ofInstruction?_registerRegister.mp meant
    · exact ⟨hd, h1, h2⟩
    · exact ⟨hd, h1, h2⟩
  | registerMemory bits rd base offset =>
    simp only [Instruction.registers, List.forall_mem_cons] at exist
    obtain ⟨hd, hb, -⟩ := exist
    obtain ⟨-, rfl⟩ := ofInstruction?_registerMemory.mp meant
    have narrow := Instruction.offset_lt_of_toWord h
    exact ⟨hd, hb, by unfold Literal.limit; omega⟩

end Meaning
end SoftCore
