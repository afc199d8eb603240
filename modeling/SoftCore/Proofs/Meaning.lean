import SoftCore.Machine.Decoding
import SoftCore.Proofs.Accepted
import SoftCore.Proofs.Codes
import SoftCore.Proofs.Immediate

/-! What lines and words mean. The meaning of a line is read off its mnemonic
and operands, that of a word off its fields. Encoding keeps the meaning, so two
lines have the same word exactly when they mean the same. -/

namespace SoftCore

/-- What a line or a word has the machine do. -/
inductive Meaning where
  | arithmetic (op : Operation) (flags : Bool) (rd rs1 : Register) (second : Operand)
  | select (condition : Condition) (flags : Bool) (rd rs1 rs2 : Register)
  | memory (access : Access) (rd base : Register) (offset : Int) (update : Update)
  deriving DecidableEq

def Operand.takenBy (op : Operation) : Operand → Operand
  | register r => register r
  | literal n => literal (op.taken n)

def Register.ofToken? (token : Text) : Option Register :=
  match Operand.read token with
  | .ok (.register r) => some r
  | _ => none

theorem Register.ofToken?_eq_some {token : Text} {r : Register}
    (h : Operand.read token = .ok (.register r)) : ofToken? token = some r := by
  rw [ofToken?, h]

namespace Meaning

/-! The meaning of a line. -/

def ofArithmetic? (op : Operation) (flags : Bool) : List Text → Option Meaning
  | [first, second, destination] => do
    let rs1 ← Register.ofToken? first
    let source ← (Operand.read second).toOption
    let rd ← Register.ofToken? destination
    some (arithmetic op flags rd rs1 (source.takenBy op))
  | _ => none

def ofSelect? (condition : Condition) (flags : Bool) : List Text → Option Meaning
  | [first, second, destination] => do
    let rs1 ← Register.ofToken? first
    let rs2 ← Register.ofToken? second
    let rd ← Register.ofToken? destination
    some (select condition flags rd rs1 rs2)
  | _ => none

/-- The offset counts in 16 bits, and an access without one updates nothing. -/
def ofReference (access : Access) (rd : Register) (m : MemoryReference) : Meaning :=
  memory access rd m.base (m.displacement % 0x10000)
    (if m.displacement = 0 then .never else m.update)

def ofAccess? (access : Access) (token register : Text) : Option Meaning := do
  let reference ← (MemoryReference.read token).toOption
  let rd ← Register.ofToken? register
  some (ofReference access rd reference)

def ofMemory? : Access → List Text → Option Meaning
  | .load, [token, register] => ofAccess? .load token register
  | .store, [register, token] => ofAccess? .store token register
  | _, _ => none

def ofLine? (line : SourceLine) : Option Meaning := do
  let mnemonic ← (Mnemonic.read line.mnemonic).toOption
  match mnemonic.family with
  | .arithmetic op => ofArithmetic? op mnemonic.flags line.operands
  | .select condition => ofSelect? condition mnemonic.flags line.operands
  | .memory access => ofMemory? access line.operands

def ofText? (text : Text) : Option Meaning := (SourceLine.read text).toOption.bind ofLine?

/-! The meaning of a word. -/

/-- Only a select has a condition, and bits `p` and `q` go with an offset other than zero. -/
def ofInstruction? : Instruction → Option Meaning
  | .registerImmediate opcode rd rs1 flags high constant =>
    if opcode = 7 then
      some (arithmetic (if high then .sha else .sh) flags rd rs1 (.literal (signed constant)))
    else (Operation.ofCode? opcode).map fun op =>
      arithmetic op flags rd rs1 (.literal (HalfWord.toNat { high, bits := constant }))
  | .registerRegister rd rs1 rs2 flags ext cond =>
    if ext = 0xE0 then (Condition.ofCode? cond).map fun c => select c flags rd rs1 rs2
    else if cond = 0 then
      (Operation.ofExtendedCode? ext).map fun op => arithmetic op flags rd rs1 (.register rs2)
    else none
  | .registerMemory bits rd rs1 offset =>
    if offset = 0 ↔ bits.p = false ∧ bits.q = false then
      some (memory (if bits.store then .store else .load) rd rs1 offset.toNat bits.update)
    else none

def ofWord? (w : UInt32) : Option Meaning := (Instruction.ofWord? w).bind ofInstruction?

theorem ofInstruction?_registerImmediate {opcode : UInt8} {rd rs1 : Register} {flags high : Bool}
    {constant : UInt16} {m : Meaning} :
    ofInstruction? (.registerImmediate opcode rd rs1 flags high constant) = some m ↔
      ∃ op : Operation, op.code = opcode ∧ (op.isShift → high = decide (op = .sha)) ∧
        m = arithmetic op flags rd rs1 (.literal (op.valueOf { high, bits := constant })) := by
  rw [ofInstruction?]
  constructor
  · intro h
    split at h
    · cases h
      cases high
      · exact ⟨.sh, Eq.symm ‹_›, fun _ => rfl, rfl⟩
      · exact ⟨.sha, Eq.symm ‹_›, fun _ => rfl, rfl⟩
    · obtain ⟨op, coded, rfl⟩ := Option.map_eq_some_iff.mp h
      obtain ⟨same, other⟩ := Operation.ofCode?_eq_some coded
      exact ⟨op, same, by simp [other], by simp [Operation.valueOf, other]⟩
  · rintro ⟨op, rfl, marked, rfl⟩
    cases shift : op.isShift with
    | true =>
      have which : (if op = .sha then Operation.sha else .sh) = op := by
        revert shift
        cases op <;> decide
      simp [Operation.code_of_shift shift, marked shift, which, Operation.valueOf, shift]
    | false =>
      have code : op.code ≠ 7 := UInt8.ne_of_lt (Operation.code_lt_of_not_shift shift)
      simp [code, Operation.ofCode?_code shift, Operation.valueOf, shift]

theorem ofInstruction?_registerRegister {rd rs1 rs2 : Register} {flags : Bool} {ext cond : UInt8}
    {m : Meaning} :
    ofInstruction? (.registerRegister rd rs1 rs2 flags ext cond) = some m ↔
      (∃ op : Operation, op.extendedCode = ext ∧ cond = 0 ∧
        m = arithmetic op flags rd rs1 (.register rs2)) ∨
      ∃ c : Condition, ext = Instruction.selectCode ∧ c.code = cond ∧
        m = select c flags rd rs1 rs2 := by
  rw [ofInstruction?]
  constructor
  · intro h
    split at h
    · obtain ⟨c, coded, rfl⟩ := Option.map_eq_some_iff.mp h
      exact .inr ⟨c, ‹_›, Condition.ofCode?_eq_some coded, rfl⟩
    · split at h
      · obtain ⟨op, coded, rfl⟩ := Option.map_eq_some_iff.mp h
        exact .inl ⟨op, Operation.ofExtendedCode?_eq_some_iff.mp coded, ‹_›, rfl⟩
      · cases h
  · rintro (⟨op, rfl, rfl, rfl⟩ | ⟨c, rfl, rfl, rfl⟩)
    · have other : op.extendedCode ≠ 0xE0 := by cases op <;> decide
      simp [other, Operation.ofExtendedCode?_extendedCode]
    · simp [Instruction.selectCode, Condition.ofCode?_code]

theorem ofInstruction?_registerMemory {bits : AccessBits} {rd base : Register} {offset : UInt64}
    {m : Meaning} :
    ofInstruction? (.registerMemory bits rd base offset) = some m ↔
      (offset = 0 ↔ bits.p = false ∧ bits.q = false) ∧
        m = memory (if bits.store then .store else .load) rd base offset.toNat bits.update := by
  rw [ofInstruction?]
  by_cases agree : offset = 0 ↔ bits.p = false ∧ bits.q = false
  · rw [if_pos agree, Option.some.injEq]
    exact ⟨fun e => ⟨agree, e.symm⟩, fun h => h.2.symm⟩
  · rw [if_neg agree]
    exact ⟨fun e => (nomatch e), fun h => absurd h.1 agree⟩

/-! The instruction of a meaning. -/

def lower : Meaning → Except Fault Instruction
  | arithmetic op flags rd rs1 (.register rs2) =>
    .ok (.registerRegister rd rs1 rs2 flags op.extendedCode 0)
  | arithmetic op flags rd rs1 (.literal n) =>
    (op.immediate n).map fun half => .registerImmediate op.code rd rs1 flags half.high half.bits
  | select c flags rd rs1 rs2 =>
    .ok (.registerRegister rd rs1 rs2 flags Instruction.selectCode c.code)
  | memory access rd base offset update =>
    (Instruction.offsetContents offset).map fun contents =>
      .registerMemory (.ofAccess access update offset) rd base contents

/-- Nothing is left in the meaning that an encoding could lose. -/
def Normal : Meaning → Prop
  | arithmetic op _ _ _ (.literal n) => op.taken n = n
  | memory _ _ _ offset update => 0 ≤ offset ∧ offset < 0x10000 ∧ (offset = 0 → update = .never)
  | _ => True

/-- An instruction carries every normal meaning in full. -/
theorem ofInstruction?_of_lower {m : Meaning} {i : Instruction} (h : m.lower = .ok i)
    (normal : m.Normal) : ofInstruction? i = some m := by
  cases m with
  | arithmetic op flags rd rs1 second =>
    cases second with
    | register rs2 =>
      cases h
      exact ofInstruction?_registerRegister.mpr (.inl ⟨op, rfl, rfl, rfl⟩)
    | literal n =>
      obtain ⟨half, carried, rfl⟩ := Fault.map_eq_ok_iff.mp h
      have value : op.valueOf half = n := (Operation.valueOf_of_immediate carried).trans normal
      have marked : op.isShift → half.high = decide (op = .sha) := fun shift =>
        congrArg HalfWord.high ((Operation.immediate_of_shift shift).mp carried).2
      exact ofInstruction?_registerImmediate.mpr ⟨op, rfl, marked, by rw [value]⟩
  | select c flags rd rs1 rs2 =>
    cases h
    exact ofInstruction?_registerRegister.mpr (.inr ⟨c, rfl, rfl, rfl⟩)
  | memory access rd base offset update =>
    obtain ⟨contents, carried, rfl⟩ := Fault.map_eq_ok_iff.mp h
    obtain ⟨low, high, settled⟩ := normal
    rw [Instruction.offsetContents_of_nonneg low] at carried
    cases carried
    have value := Instruction.toNat_ofInt64 low (by omega)
    have zero : UInt64.ofInt offset = 0 ↔ offset = 0 := by
      rw [← UInt64.toNat_inj, ← Int.ofNat_inj, value]
      rfl
    have stored : (if decide (access = .store) then Access.store else .load) = access := by
      cases access <;> rfl
    refine ofInstruction?_registerMemory.mpr ⟨?_, ?_⟩
    · rw [zero, AccessBits.ofAccess_clear_iff]
    · rw [value]
      show memory access rd base offset update = memory _ rd base offset _
      rw [AccessBits.update_ofAccess settled]
      exact congrArg (memory · rd base offset update) stored.symm

theorem ofArithmetic?_of_ofArithmetic {line : SourceLine} {op : Operation} {flags : Bool}
    {i : Instruction} (h : Instruction.ofArithmetic line op flags = .ok i) :
    ∃ m, ofArithmetic? op flags line.operands = some m ∧ m.lower = .ok i ∧ m.Normal := by
  obtain ⟨first, second, destination, rs1, source, rd, operands, h1, h2, h3, h⟩ :=
    Instruction.ofArithmetic_eq_ok_iff.mp h
  refine ⟨arithmetic op flags rd rs1 (source.takenBy op), ?_, ?_⟩
  · simp [ofArithmetic?, operands, Register.ofToken?_eq_some h1, h2,
      Register.ofToken?_eq_some h3, Except.toOption]
  · rcases h with ⟨rs2, rfl, rfl⟩ | ⟨n, half, rfl, carried, rfl⟩
    · exact ⟨rfl, trivial⟩
    · refine ⟨?_, op.taken_taken n⟩
      rw [Operand.takenBy, lower, Operation.immediate_taken carried]
      rfl

theorem ofSelect?_of_ofSelect {line : SourceLine} {c : Condition} {flags : Bool}
    {i : Instruction} (h : Instruction.ofSelect line c flags = .ok i) :
    ∃ m, ofSelect? c flags line.operands = some m ∧ m.lower = .ok i ∧ m.Normal := by
  obtain ⟨first, second, destination, rs1, rs2, rd, operands, h1, h2, h3, rfl⟩ :=
    Instruction.ofSelect_eq_ok_iff.mp h
  refine ⟨select c flags rd rs1 rs2, ?_, rfl, trivial⟩
  simp [ofSelect?, operands, Register.ofToken?_eq_some h1, Register.ofToken?_eq_some h2,
    Register.ofToken?_eq_some h3]

theorem ofMemory?_of_ofMemory {line : SourceLine} {access : Access} {i : Instruction}
    {w : UInt32} (h : Instruction.ofMemory line access = .ok i) (packed : i.toWord = .ok w) :
    ∃ m, ofMemory? access line.operands = some m ∧ m.lower = .ok i ∧ m.Normal := by
  obtain ⟨token, destination, reference, rd, contents, operands, -, h1, h2, h3, rfl⟩ :=
    Instruction.ofMemory_eq_ok_iff.mp h
  have below := MemoryReference.displacement_lt_of_read h1
  have narrow := Instruction.offset_lt_of_toWord packed
  obtain ⟨carried, zero⟩ := Instruction.offsetContents_emod h3 below narrow
  refine ⟨ofReference access rd reference, ?_, ?_, by omega, by omega, ?_⟩
  · rw [operands]
    cases access <;>
      simp [Instruction.memoryOperands, ofMemory?, ofAccess?, h1, Except.toOption,
        Register.ofToken?_eq_some h2]
  · rw [ofReference, lower, carried]
    by_cases none : reference.displacement = 0 <;>
      simp [Except.map, AccessBits.ofAccess, none, zero]
  · intro still
    rw [if_pos (zero.mp still)]

/-- The instruction of an accepted line is that of its meaning. -/
theorem ofText?_of_lineWord {text : Text} {w : UInt32} (h : Assembly.lineWord text = .ok w) :
    ∃ m i, ofText? text = some m ∧ m.Normal ∧ m.lower = .ok i ∧ i.toWord = .ok w := by
  obtain ⟨line, i, read, lowered, packed⟩ := Assembly.lineWord_eq_ok_iff.mp h
  obtain ⟨mnemonic, named, lowered⟩ := Instruction.ofLine_eq_ok_iff.mp lowered
  have meant : ∃ m, ofLine? line = some m ∧ m.lower = .ok i ∧ m.Normal := by
    cases family : mnemonic.family with
    | arithmetic op =>
      rw [family] at lowered
      simpa [ofLine?, named, Except.toOption, family] using ofArithmetic?_of_ofArithmetic lowered
    | select c =>
      rw [family] at lowered
      simpa [ofLine?, named, Except.toOption, family] using ofSelect?_of_ofSelect lowered
    | memory access =>
      rw [family] at lowered
      simpa [ofLine?, named, Except.toOption, family] using ofMemory?_of_ofMemory lowered packed
  obtain ⟨m, meant, lower, normal⟩ := meant
  exact ⟨m, i, by simp [ofText?, read, Except.toOption, meant], normal, lower, packed⟩

theorem ofWord?_of_lower {m : Meaning} {i : Instruction} {w : UInt32} (normal : m.Normal)
    (lower : m.lower = .ok i) (packed : i.toWord = .ok w) : ofWord? w = some m := by
  rw [ofWord?, Instruction.ofWord?_of_toWord packed]
  exact ofInstruction?_of_lower lower normal

/-- Encoding keeps the meaning of a line, and lines that mean the same have the same word. -/
theorem word_eq_iff_meaning_eq {s t : Text} {v w : UInt32} (hs : Assembly.lineWord s = .ok v)
    (ht : Assembly.lineWord t = .ok w) :
    (∃ m, ofText? s = some m ∧ ofWord? v = some m) ∧ (v = w ↔ ofText? s = ofText? t) := by
  obtain ⟨m, i, meant, normal, lower, packed⟩ := ofText?_of_lineWord hs
  obtain ⟨m', i', meant', normal', lower', packed'⟩ := ofText?_of_lineWord ht
  have decoded := ofWord?_of_lower normal lower packed
  have decoded' := ofWord?_of_lower normal' lower' packed'
  refine ⟨⟨m, meant, decoded⟩, ?_⟩
  rw [meant, meant']
  constructor
  · rintro rfl
    rw [← decoded, decoded']
  · rintro ⟨⟩
    rw [lower] at lower'
    cases lower'
    rw [packed] at packed'
    cases packed'
    rfl

/-- An offset of -4 and one of 65532 stand for the same sixteen bits. -/
theorem word_eq_iff_meaning_eq_wrapped :
    Assembly.lineWord "ld -4[%r9++], %r2".toList = .ok 0x8125FFFC ∧
      Assembly.lineWord "LD.F 65532 [ %R9* ],%r02".toList = .ok 0x8125FFFC ∧
      (∃ m, ofText? "ld -4[%r9++], %r2".toList = some m ∧ ofWord? 0x8125FFFC = some m) ∧
      ofText? "ld -4[%r9++], %r2".toList = ofText? "LD.F 65532 [ %R9* ],%r02".toList := by
  have packed := Instruction.toWord_of_ofWord? (i := .registerMemory ⟨false, false, true⟩ ⟨2⟩ ⟨9⟩ 0xFFFC)
    (w := 0x8125FFFC) rfl
  have first : Assembly.lineWord "ld -4[%r9++], %r2".toList = .ok 0x8125FFFC :=
    Assembly.lineWord_eq_ok_iff.mpr ⟨_, _, rfl, rfl, packed⟩
  have second : Assembly.lineWord "LD.F 65532 [ %R9* ],%r02".toList = .ok 0x8125FFFC :=
    Assembly.lineWord_eq_ok_iff.mpr ⟨_, _, rfl, rfl, packed⟩
  have both := word_eq_iff_meaning_eq first second
  exact ⟨first, second, both.1, both.2.mp rfl⟩

end Meaning
end SoftCore
