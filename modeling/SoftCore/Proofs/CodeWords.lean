import SoftCore.Proofs.Disassembly

/-! The words that lines have, told apart by their bits. A line is lowered to the
instruction of its meaning, so the words are those of the instructions that
their meaning is lowered to, and the line of the meaning has the word again. -/

namespace SoftCore

namespace Instruction

/-- What lines are lowered to, whatever their registers and flags. -/
def Emitted : Instruction → Prop
  | registerImmediate opcode _ _ _ high constant =>
    (opcode < 7 ∧ HalfWord.Canonical { high, bits := constant }) ∨
      (opcode = 7 ∧ (constant.toNat ≤ 31 ∨ 0xFFE1 ≤ constant.toNat))
  | registerRegister _ _ _ _ ext cond =>
    ((∃ op : Operation, op.extendedCode = ext) ∧ cond = 0) ∨ (ext = selectCode ∧ cond < 16)
  | registerMemory bits _ _ offset => offset = 0 ↔ bits.p = false ∧ bits.q = false

theorem emitted_registerImmediate_iff {opcode : UInt8} {rd rs : Register} {flags high : Bool}
    {constant : UInt16} :
    (registerImmediate opcode rd rs flags high constant).Emitted ↔
      ∃ op : Operation, op.code = opcode ∧ op.immediate (op.valueOf { high, bits := constant }) =
        .ok { high, bits := constant } := by
  constructor
  · rintro (⟨low, canonical⟩ | ⟨rfl, near⟩)
    · obtain ⟨op, coded⟩ := Operation.exists_ofCode? low
      obtain ⟨same, other⟩ := Operation.ofCode?_eq_some coded
      exact ⟨op, same, (Operation.immediate_valueOf_of_not_shift other).mpr canonical⟩
    · cases high with
      | false => exact ⟨.sh, rfl, (Operation.immediate_valueOf_of_shift rfl).mpr ⟨near, rfl⟩⟩
      | true => exact ⟨.sha, rfl, (Operation.immediate_valueOf_of_shift rfl).mpr ⟨near, rfl⟩⟩
  · rintro ⟨op, rfl, carried⟩
    cases shift : op.isShift with
    | true =>
      obtain ⟨near, -⟩ := (Operation.immediate_valueOf_of_shift shift).mp carried
      exact .inr ⟨Operation.code_of_shift shift, near⟩
    | false =>
      exact .inl ⟨Operation.code_lt_of_not_shift shift,
        (Operation.immediate_valueOf_of_not_shift shift).mp carried⟩

/-- The emitted instructions are those that their meaning is lowered to. -/
theorem emitted_iff {i : Instruction} :
    i.Emitted ↔ ∃ m, Meaning.ofInstruction? i = some m ∧ m.lower = .ok i := by
  cases i with
  | registerImmediate opcode rd rs flags high constant =>
    rw [emitted_registerImmediate_iff]
    constructor
    · rintro ⟨op, rfl, carried⟩
      have marked : op.isShift → high = decide (op = .sha) := fun shift =>
        ((Operation.immediate_valueOf_of_shift shift).mp carried).2
      refine ⟨_, Meaning.ofInstruction?_registerImmediate.mpr ⟨op, rfl, marked, rfl⟩, ?_⟩
      rw [Meaning.lower, carried]
      rfl
    · rintro ⟨m, meant, lowered⟩
      obtain ⟨op, rfl, -, rfl⟩ := Meaning.ofInstruction?_registerImmediate.mp meant
      obtain ⟨⟨_, _⟩, carried, e⟩ := Fault.map_eq_ok_iff.mp lowered
      cases e
      exact ⟨op, rfl, carried⟩
  | registerRegister rd rs1 rs2 flags ext cond =>
    constructor
    · rintro (⟨⟨op, rfl⟩, rfl⟩ | ⟨rfl, small⟩)
      · exact ⟨_, Meaning.ofInstruction?_registerRegister.mpr (.inl ⟨op, rfl, rfl, rfl⟩), rfl⟩
      · obtain ⟨c, coded⟩ := Condition.exists_ofCode? small
        obtain rfl := Condition.ofCode?_eq_some coded
        exact ⟨_, Meaning.ofInstruction?_registerRegister.mpr (.inr ⟨c, rfl, rfl, rfl⟩), rfl⟩
    · rintro ⟨m, meant, -⟩
      obtain ⟨op, rfl, rfl, -⟩ | ⟨c, rfl, rfl, -⟩ :=
        Meaning.ofInstruction?_registerRegister.mp meant
      · exact .inl ⟨⟨op, rfl⟩, rfl⟩
      · exact .inr ⟨rfl, c.code_lt⟩
  | registerMemory bits rd base offset =>
    constructor
    · intro agree
      refine ⟨_, Meaning.ofInstruction?_registerMemory.mpr ⟨agree, rfl⟩, ?_⟩
      rw [Meaning.lower, offsetContents_of_nonneg (Int.natCast_nonneg _), ofInt_toNat,
        AccessBits.ofAccess_update agree]
      rfl
    · rintro ⟨m, meant, -⟩
      exact (Meaning.ofInstruction?_registerMemory.mp meant).1

end Instruction

namespace Word

/-- The extended codes of the operations, as they stand in a word. -/
def extendedCodes : List Nat := [0x00, 0x20, 0x40, 0x60, 0x80, 0xA0, 0xC0, 0xF0, 0xF8]

def condition (w : UInt32) : Nat := bits w 0 3 * 2 + bits w 16 1

/-- The words that have a line: constants, shift amounts, registers and accesses to memory.
Registers, flags and the store bit are free. -/
def IsCode (w : UInt32) : Prop :=
  (bits w 31 1 = 0 ∧ bits w 28 3 ≤ 6 ∧ ¬(bits w 16 1 = 0 ∧ bits w 0 16 = 0)) ∨
    (bits w 31 1 = 0 ∧ bits w 28 3 = 7 ∧ (bits w 0 16 ≤ 31 ∨ 0xFFE1 ≤ bits w 0 16)) ∨
    (bits w 28 4 = 12 ∧
      ((bits w 3 8 ∈ extendedCodes ∧ condition w = 0) ∨ bits w 3 8 = 0xE0)) ∨
    (bits w 29 3 = 4 ∧ ((bits w 0 16 = 0 ∧ bits w 17 1 = 0 ∧ bits w 16 1 = 0) ∨
      (bits w 0 16 ≠ 0 ∧ (bits w 17 1 = 1 ∨ bits w 16 1 = 1))))

instance (w : UInt32) : Decidable (IsCode w) := inferInstanceAs (Decidable (_ ∨ _))

theorem bit_eq_false_iff {w : UInt32} {low : Nat} : bit w low = false ↔ bits w low 1 = 0 := by
  have bound : bits w low 1 < 2 := bits_lt w low 1
  rw [bit, decide_eq_false_iff_not]
  omega

theorem exists_extendedCode_iff {code : UInt8} :
    (∃ op : Operation, op.extendedCode = code) ↔ code.toNat ∈ extendedCodes := by
  constructor
  · rintro ⟨op, rfl⟩
    cases op <;> decide
  · intro mem
    have each : ∀ n ∈ extendedCodes, ∃ op ∈ Operation.all, op.extendedCode.toNat = n := by decide
    obtain ⟨op, -, same⟩ := each _ mem
    exact ⟨op, UInt8.toNat_inj.mp same⟩

theorem emitted_immediate_iff {w : UInt32} {rd rs : Register} {flags : Bool} :
    (Instruction.registerImmediate (UInt8.ofNat (bits w 28 3)) rd rs flags (bit w 16)
        (UInt16.ofNat (bits w 0 16))).Emitted ↔
      (bits w 28 3 ≤ 6 ∧ ¬(bits w 16 1 = 0 ∧ bits w 0 16 = 0)) ∨
        (bits w 28 3 = 7 ∧ (bits w 0 16 ≤ 31 ∨ 0xFFE1 ≤ bits w 0 16)) := by
  have opcode : (UInt8.ofNat (bits w 28 3)).toNat = bits w 28 3 :=
    UInt8.toNat_ofNat_of_lt' (Nat.lt_trans (bits_lt w 28 3) (by decide))
  have constant : (UInt16.ofNat (bits w 0 16)).toNat = bits w 0 16 :=
    UInt16.toNat_ofNat_of_lt' (bits_lt w 0 16)
  rw [Instruction.Emitted, HalfWord.Canonical, bit_eq_false_iff, UInt8.lt_iff_toNat_lt,
    ← UInt8.toNat_inj, Ne, ← UInt16.toNat_inj, opcode, constant, not_and]
  exact or_congr_left (and_congr_left' Nat.lt_succ_iff)

theorem condition_lt (w : UInt32) : condition w < 16 := by
  have high : bits w 0 3 < 8 := bits_lt w 0 3
  have low : bits w 16 1 < 2 := bits_lt w 16 1
  unfold condition
  omega

theorem emitted_register_iff {w : UInt32} {rd rs1 rs2 : Register} {flags : Bool} :
    (Instruction.registerRegister rd rs1 rs2 flags (UInt8.ofNat (bits w 3 8))
        (UInt8.ofNat (condition w))).Emitted ↔
      (bits w 3 8 ∈ extendedCodes ∧ condition w = 0) ∨ bits w 3 8 = 0xE0 := by
  have small := condition_lt w
  have ext : (UInt8.ofNat (bits w 3 8)).toNat = bits w 3 8 :=
    UInt8.toNat_ofNat_of_lt' (bits_lt w 3 8)
  have cond : (UInt8.ofNat (condition w)).toNat = condition w :=
    UInt8.toNat_ofNat_of_lt' (Nat.lt_trans small (by decide))
  rw [Instruction.Emitted, exists_extendedCode_iff, UInt8.lt_iff_toNat_lt, ← UInt8.toNat_inj,
    ← UInt8.toNat_inj, ext, cond]
  exact or_congr_right (and_iff_left small)

theorem emitted_memory_iff {w : UInt32} {rd base : Register} {store : Bool} :
    (Instruction.registerMemory { store, p := bit w 17, q := bit w 16 } rd base
        (UInt64.ofNat (bits w 0 16))).Emitted ↔
      (bits w 0 16 = 0 ∧ bits w 17 1 = 0 ∧ bits w 16 1 = 0) ∨
        (bits w 0 16 ≠ 0 ∧ (bits w 17 1 = 1 ∨ bits w 16 1 = 1)) := by
  have p : bits w 17 1 < 2 := bits_lt w 17 1
  have q : bits w 16 1 < 2 := bits_lt w 16 1
  have offset : (UInt64.ofNat (bits w 0 16)).toNat = bits w 0 16 :=
    UInt64.toNat_ofNat_of_lt' (Nat.lt_trans (bits_lt w 0 16) (by decide))
  rw [Instruction.Emitted, bit_eq_false_iff, bit_eq_false_iff, ← UInt64.toNat_inj, offset]
  show (bits w 0 16 = 0 ↔ _) ↔ _
  omega

/-- The words of the set are those of the emitted instructions. -/
theorem isCode_iff {w : UInt32} : IsCode w ↔ ∃ i, Instruction.ofWord? w = some i ∧ i.Emitted := by
  -- The tags of the formats share the highest bits, so at most one of them is there.
  have top : bits w 31 1 = bits w 28 4 / 8 := by
    simp only [bits, Nat.reduceShiftLeft]
    omega
  have middle : bits w 29 3 = bits w 28 4 / 2 := by
    simp only [bits, Nat.reduceShiftLeft]
    omega
  unfold IsCode Instruction.ofWord?
  split
  · rename_i low
    have notRegister : bits w 28 4 ≠ 12 := by omega
    have notMemory : bits w 29 3 ≠ 4 := by omega
    simp only [Option.some.injEq, exists_eq_left', emitted_immediate_iff]
    simp [low, notRegister, notMemory]
  · rename_i high
    split
    · rename_i tag
      have notMemory : bits w 29 3 ≠ 4 := by omega
      change _ ↔ ∃ i, some (Instruction.registerRegister _ _ _ _ _ (UInt8.ofNat (condition w))) =
        some i ∧ _
      simp only [Option.some.injEq, exists_eq_left', emitted_register_iff]
      simp [high, tag, notMemory]
    · rename_i notRegister
      split
      · rename_i tag
        simp only [Option.some.injEq, exists_eq_left', emitted_memory_iff]
        simp [high, notRegister, tag]
      · rename_i notMemory
        simp [high, notRegister, notMemory]

/-- The line of the meaning of a word, where it has one. -/
def line (w : UInt32) : Text := ((Meaning.ofWord? w).map Meaning.text).getD []

theorem lineWord_line {w : UInt32} (h : IsCode w) : Assembly.lineWord (line w) = .ok w := by
  obtain ⟨i, decoded, emitted⟩ := isCode_iff.mp h
  obtain ⟨m, meant, lowered⟩ := Instruction.emitted_iff.mp emitted
  have packed := Instruction.toWord_of_ofWord? decoded
  have whole : Meaning.ofWord? w = some m := by
    rw [Meaning.ofWord?, decoded, Option.bind_some, meant]
  rw [line, whole]
  exact Meaning.lineWord_text (Meaning.written_of_toWord packed meant) lowered packed

theorem isCode_of_lineWord {text : Text} {w : UInt32} (h : Assembly.lineWord text = .ok w) :
    IsCode w := by
  obtain ⟨m, i, -, normal, lowered, packed⟩ := Meaning.ofText?_of_lineWord h
  exact isCode_iff.mpr ⟨i, Instruction.ofWord?_of_toWord packed, Instruction.emitted_iff.mpr
    ⟨m, Meaning.ofInstruction?_of_lower lowered normal, lowered⟩⟩

/-- Lines have exactly the words of the set, and each of them has a line printed from it alone. -/
theorem exists_lineWord_iff (w : UInt32) :
    ((∃ text, Assembly.lineWord text = .ok w) ↔ IsCode w) ∧
      (IsCode w → Assembly.lineWord (line w) = .ok w) :=
  ⟨⟨fun ⟨_, h⟩ => isCode_of_lineWord h, fun h => ⟨line w, lineWord_line h⟩⟩, lineWord_line⟩

example : line 0x8125FFFC = "ld 65532[%r9++],%r2".toList := by rfl

end Word
end SoftCore
