import SoftCore.Assembly

/-! The lines that are accepted, and the instruction of each. One statement for
each family says which operands it takes and what becomes of them; it leaves
nothing of the lowering to be opened again. -/

namespace SoftCore

namespace MemoryReference

theorem readBase_eq_ok_iff {token name : Text} {r : Register} :
    readBase token name = .ok r ↔ Operand.read name = .ok (.register r) := by
  rw [readBase, Fault.bind_eq_ok_iff]
  constructor
  · rintro ⟨operand, h, e⟩
    cases operand with
    | register s =>
      cases e
      exact h
    | literal n => cases e
  · exact fun h => ⟨_, h, rfl⟩

theorem parts_of_read {token : Text} {m : MemoryReference} (h : read token = .ok m) :
    ∃ front inside, readOffset front = .ok m.offset ∧
      Operand.read (Update.split inside).2 = .ok (.register m.base) ∧
      m.update = (Update.split inside).1 := by
  unfold read at h
  split at h
  · cases h
  · rename_i front rest _
    split at h
    · cases h
    · rename_i inside _
      obtain ⟨offset, ho, h⟩ := Fault.bind_eq_ok_iff.mp h
      obtain ⟨base, hb, h⟩ := Fault.bind_eq_ok_iff.mp h
      cases h
      exact ⟨front, inside, ho, readBase_eq_ok_iff.mp hb, rfl⟩

theorem natAbs_offset_lt_of_read {token : Text} {m : MemoryReference} (h : read token = .ok m) :
    ∀ n ∈ m.offset, n.natAbs < Literal.limit := by
  obtain ⟨front, -, offset, -⟩ := parts_of_read h
  unfold readOffset at offset
  split at offset
  · cases m
    cases offset
    simp
  · obtain ⟨n, written, e⟩ := Fault.map_eq_ok_iff.mp offset
    rw [← e]
    rintro _ ⟨⟩
    exact Literal.natAbs_lt_of_read written

theorem displacement_lt_of_read {token : Text} {m : MemoryReference} (h : read token = .ok m) :
    m.displacement < 0x8000000000000000 := by
  have bound := natAbs_offset_lt_of_read h
  unfold displacement
  cases written : m.offset with
  | some n =>
    have small : n.natAbs < 0x8000000000000000 := bound n written
    dsimp only
    omega
  | none => cases m.update <;> decide

end MemoryReference

namespace SourceLine

theorem readRegister_eq_ok_iff {line : SourceLine} {token : Text} {r : Register} :
    line.readRegister token = .ok r ↔ Operand.read token = .ok (.register r) := by
  rw [readRegister, Fault.bind_eq_ok_iff]
  constructor
  · rintro ⟨operand, h, e⟩
    cases operand with
    | register s =>
      cases e
      exact h
    | literal n => cases e
  · exact fun h => ⟨_, h, rfl⟩

theorem readReference_eq_ok_iff {line : SourceLine} {token : Text} {m : MemoryReference} :
    line.readReference token = .ok m ↔ '[' ∈ token ∧ MemoryReference.read token = .ok m := by
  unfold readReference
  by_cases bracket : '[' ∈ token <;> simp [bracket]

end SourceLine

namespace Instruction

theorem ofArithmetic_eq_ok_iff {line : SourceLine} {op : Operation} {flags : Bool}
    {i : Instruction} :
    ofArithmetic line op flags = .ok i ↔
      ∃ first second destination rs1 source rd, line.operands = [first, second, destination] ∧
        Operand.read first = .ok (.register rs1) ∧ Operand.read second = .ok source ∧
        Operand.read destination = .ok (.register rd) ∧
        ((∃ rs2, source = .register rs2 ∧
            i = .registerRegister rd rs1 rs2 flags op.extendedCode 0) ∨
          ∃ n half, source = .literal n ∧ op.immediate n = .ok half ∧
            i = .registerImmediate op.code rd rs1 flags half.high half.bits) := by
  constructor
  · intro h
    unfold ofArithmetic at h
    split at h
    · rename_i first second destination operands
      obtain ⟨rs1, h1, h⟩ := Fault.bind_eq_ok_iff.mp h
      obtain ⟨source, h2, h⟩ := Fault.bind_eq_ok_iff.mp h
      obtain ⟨rd, h3, h⟩ := Fault.bind_eq_ok_iff.mp h
      refine ⟨first, second, destination, rs1, source, rd, operands,
        SourceLine.readRegister_eq_ok_iff.mp h1, h2, SourceLine.readRegister_eq_ok_iff.mp h3, ?_⟩
      cases source with
      | register rs2 =>
        cases h
        exact .inl ⟨rs2, rfl, rfl⟩
      | literal n =>
        obtain ⟨half, hn, h⟩ := Fault.bind_eq_ok_iff.mp h
        cases h
        exact .inr ⟨n, half, rfl, hn, rfl⟩
    · cases h
  · rintro ⟨first, second, destination, rs1, source, rd, operands, h1, h2, h3, h⟩
    have h1 : line.readRegister first = .ok rs1 := SourceLine.readRegister_eq_ok_iff.mpr h1
    have h3 : line.readRegister destination = .ok rd := SourceLine.readRegister_eq_ok_iff.mpr h3
    rw [ofArithmetic, operands]
    rcases h with ⟨rs2, rfl, rfl⟩ | ⟨n, half, rfl, hn, rfl⟩
    · simp [h1, h2, h3, bind, Except.bind, pure, Except.pure]
    · simp [h1, h2, h3, hn, bind, Except.bind, pure, Except.pure]

theorem ofSelect_eq_ok_iff {line : SourceLine} {condition : Condition} {flags : Bool}
    {i : Instruction} :
    ofSelect line condition flags = .ok i ↔
      ∃ first second destination rs1 rs2 rd, line.operands = [first, second, destination] ∧
        Operand.read first = .ok (.register rs1) ∧ Operand.read second = .ok (.register rs2) ∧
        Operand.read destination = .ok (.register rd) ∧
        i = .registerRegister rd rs1 rs2 flags selectCode condition.code := by
  constructor
  · intro h
    unfold ofSelect at h
    split at h
    · rename_i first second destination operands
      obtain ⟨rs1, h1, h⟩ := Fault.bind_eq_ok_iff.mp h
      obtain ⟨rs2, h2, h⟩ := Fault.bind_eq_ok_iff.mp h
      obtain ⟨rd, h3, h⟩ := Fault.bind_eq_ok_iff.mp h
      cases h
      exact ⟨first, second, destination, rs1, rs2, rd, operands,
        SourceLine.readRegister_eq_ok_iff.mp h1, SourceLine.readRegister_eq_ok_iff.mp h2,
        SourceLine.readRegister_eq_ok_iff.mp h3, rfl⟩
    · cases h
  · rintro ⟨first, second, destination, rs1, rs2, rd, operands, h1, h2, h3, rfl⟩
    have h1 : line.readRegister first = .ok rs1 := SourceLine.readRegister_eq_ok_iff.mpr h1
    have h2 : line.readRegister second = .ok rs2 := SourceLine.readRegister_eq_ok_iff.mpr h2
    have h3 : line.readRegister destination = .ok rd := SourceLine.readRegister_eq_ok_iff.mpr h3
    rw [ofSelect, operands]
    simp [h1, h2, h3, bind, Except.bind, pure, Except.pure]

/-- The operands of a memory line: memory first in a load and last in a store. -/
def memoryOperands (access : Access) (reference register : Text) : List Text :=
  match access with
  | .load => [reference, register]
  | .store => [register, reference]

theorem ofMemory_eq_ok_iff {line : SourceLine} {access : Access} {i : Instruction} :
    ofMemory line access = .ok i ↔
      ∃ token destination reference rd contents,
        line.operands = memoryOperands access token destination ∧ '[' ∈ token ∧
        MemoryReference.read token = .ok reference ∧
        Operand.read destination = .ok (.register rd) ∧
        offsetContents reference.displacement = .ok contents ∧
        i = .registerMemory (.ofAccess access reference.update reference.displacement) rd
          reference.base contents := by
  constructor
  · intro h
    unfold ofMemory at h
    split at h
    · rename_i first second operands
      obtain ⟨reference, h1, h⟩ := Fault.bind_eq_ok_iff.mp h
      obtain ⟨rd, h2, h⟩ := Fault.bind_eq_ok_iff.mp h
      obtain ⟨contents, h3, h⟩ := Fault.bind_eq_ok_iff.mp h
      cases h
      obtain ⟨bracket, h1⟩ := SourceLine.readReference_eq_ok_iff.mp h1
      rw [SourceLine.readRegister_eq_ok_iff] at h2
      refine ⟨_, _, reference, rd, contents, ?_, bracket, h1, h2, h3, rfl⟩
      cases access <;> exact operands
    · cases h
  · rintro ⟨token, destination, reference, rd, contents, operands, bracket, h1, h2, h3, rfl⟩
    have h1 : line.readReference token = .ok reference :=
      SourceLine.readReference_eq_ok_iff.mpr ⟨bracket, h1⟩
    have h2 : line.readRegister destination = .ok rd := SourceLine.readRegister_eq_ok_iff.mpr h2
    cases access
    all_goals
      rw [ofMemory, operands]
      simp [memoryOperands, h1, h2, h3, bind, Except.bind, pure, Except.pure]

theorem ofLine_eq_ok_iff {line : SourceLine} {i : Instruction} :
    ofLine line = .ok i ↔ ∃ mnemonic, Mnemonic.read line.mnemonic = .ok mnemonic ∧
      match mnemonic.family with
      | .arithmetic op => ofArithmetic line op mnemonic.flags = .ok i
      | .select condition => ofSelect line condition mnemonic.flags = .ok i
      | .memory access => ofMemory line access = .ok i := by
  rw [ofLine, Fault.bind_eq_ok_iff]
  constructor
  all_goals
    rintro ⟨mnemonic, h, lowered⟩
    refine ⟨mnemonic, h, ?_⟩
    cases family : mnemonic.family <;> simpa [family] using lowered

end Instruction

namespace Assembly

theorem lineWord_eq (text : Text) : lineWord text = SourceLine.read text >>= fun line =>
    Instruction.ofLine line >>= Instruction.toWord := by
  unfold lineWord Encoding.ofText
  cases SourceLine.read text with
  | error fault => rfl
  | ok line =>
    simp only [bind, Except.bind]
    cases Instruction.ofLine line with
    | error fault => rfl
    | ok i => cases packed : i.toWord <;> simp [packed, Except.map, pure, Except.pure]

theorem lineWord_eq_ok_iff {text : Text} {word : UInt32} :
    lineWord text = .ok word ↔ ∃ line i, SourceLine.read text = .ok line ∧
      Instruction.ofLine line = .ok i ∧ i.toWord = .ok word := by
  rw [lineWord, Fault.map_eq_ok_iff]
  constructor
  · rintro ⟨x, encoded, rfl⟩
    obtain ⟨line, i, read, lowered, packed, -⟩ := Encoding.ofText_eq_ok_iff.mp encoded
    exact ⟨line, i, read, lowered, packed⟩
  · rintro ⟨line, i, read, lowered, packed⟩
    exact ⟨⟨line.mnemonic, i.format, word⟩,
      Encoding.ofText_eq_ok_iff.mpr ⟨line, i, read, lowered, packed, rfl, rfl⟩, rfl⟩

end Assembly
end SoftCore
