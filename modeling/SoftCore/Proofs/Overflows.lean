import SoftCore.Proofs.Brackets
import SoftCore.Proofs.LineFaults
import SoftCore.Proofs.LineRules

/-! What lowering may ask of a line and what packing may refuse of it. Operands
are asked for by position only after they are counted, so none is missed on any
line. Every content of an instruction that comes of a line fits its field but
one, an offset that is written too high; one that is too low never becomes an
instruction. A line overflows exactly when it is a load or a store with nothing
else wrong and such an offset. -/

namespace SoftCore

/-! Operands by position. -/

/-- A computation that may also ask for an operand that is not there, and then has no outcome. -/
abbrev Indexed (α : Type) := ExceptT Fault Option α

namespace Indexed

variable {α β : Type}

/-- A computation that asks for nothing that is not there. -/
def present (x : Except Fault α) : Indexed α := ExceptT.mk (some x)

theorem present_bind {x : Except Fault α} {f : α → Indexed β} {g : α → Except Fault β}
    (h : ∀ a, f a = present (g a)) : present x >>= f = present (x >>= g) := by
  cases x with
  | ok a => exact h a
  | error fault => rfl

end Indexed

open Indexed

namespace SourceLine

variable (line : SourceLine)

def tokenAt (index : Nat) : Indexed Text := ExceptT.lift line.operands[index]?

def operandAt (index : Nat) : Indexed Operand := do
  present (Operand.read (← line.tokenAt index))

def registerAt (index : Nat) : Indexed Register := do
  match ← line.operandAt index with
  | .register r => pure r
  | .literal _ => throw (.wrongOperand line.mnemonic (← line.tokenAt index) .register)

def referenceAt (index : Nat) : Indexed MemoryReference := do
  present (line.readReference (← line.tokenAt index))

def checkCount (expected : Nat) : Indexed Unit :=
  if line.operands.length = expected then pure () else throw (line.countFault expected)

variable {line}

/-- Only an operand behind the last one has no outcome. -/
theorem tokenAt_eq_none_iff {index : Nat} :
    (line.tokenAt index).run = none ↔ line.operands.length ≤ index := by
  rw [← List.getElem?_eq_none_iff]
  cases there : line.operands[index]? <;> simp [tokenAt, ExceptT.lift, ExceptT.run, ExceptT.mk, there]

theorem tokenAt_of_getElem? (index : Nat) {token : Text} (there : line.operands[index]? = some token) :
    line.tokenAt index = present (.ok token) := by
  rw [tokenAt, there]
  rfl

theorem operandAt_of_getElem? (index : Nat) {token : Text}
    (there : line.operands[index]? = some token) :
    line.operandAt index = present (Operand.read token) := by
  rw [operandAt, tokenAt_of_getElem? index there]
  rfl

theorem registerAt_of_getElem? (index : Nat) {token : Text}
    (there : line.operands[index]? = some token) :
    line.registerAt index = present (line.readRegister token) := by
  rw [registerAt, operandAt_of_getElem? index there, readRegister]
  refine present_bind fun operand => ?_
  cases operand with
  | register r => rfl
  | literal n =>
    rw [tokenAt_of_getElem? index there]
    rfl

theorem referenceAt_of_getElem? (index : Nat) {token : Text}
    (there : line.operands[index]? = some token) :
    line.referenceAt index = present (line.readReference token) := by
  rw [referenceAt, tokenAt_of_getElem? index there]
  rfl

theorem checkCount_of_length {expected : Nat} (h : line.operands.length = expected) :
    line.checkCount expected = pure () := if_pos h

theorem checkCount_bind_of_length_ne {expected : Nat} (h : line.operands.length ≠ expected)
    {α : Type} (f : Unit → Indexed α) :
    line.checkCount expected >>= f = present (throw (line.countFault expected)) := by
  rw [checkCount, if_neg h]
  rfl

end SourceLine

namespace Instruction

def ofArithmeticAt (line : SourceLine) (op : Operation) (flags : Bool) : Indexed Instruction := do
  line.checkCount 3
  let rs1 ← line.registerAt 0
  let source ← line.operandAt 1
  let rd ← line.registerAt 2
  match source with
  | .register rs2 => pure (.registerRegister rd rs1 rs2 flags op.extendedCode 0)
  | .literal n => do
    let half ← present (op.immediate n)
    pure (.registerImmediate op.code rd rs1 flags half.high half.bits)

def ofSelectAt (line : SourceLine) (condition : Condition) (flags : Bool) :
    Indexed Instruction := do
  line.checkCount 3
  let rs1 ← line.registerAt 0
  let rs2 ← line.registerAt 1
  let rd ← line.registerAt 2
  pure (.registerRegister rd rs1 rs2 flags selectCode condition.code)

def ofMemoryAt (line : SourceLine) (access : Access) : Indexed Instruction := do
  line.checkCount 2
  let reference ← line.referenceAt (if access = .load then 0 else 1)
  let rd ← line.registerAt (if access = .load then 1 else 0)
  let offset := reference.displacement
  let contents ← present (offsetContents offset)
  pure (.registerMemory (.ofAccess access reference.update offset) rd reference.base contents)

/-- The lowering of a line that takes its operands by position. -/
def ofLineAt (line : SourceLine) : Indexed Instruction := do
  let mnemonic ← present (Mnemonic.read line.mnemonic)
  match mnemonic.family with
  | .arithmetic op => ofArithmeticAt line op mnemonic.flags
  | .select condition => ofSelectAt line condition mnemonic.flags
  | .memory access => ofMemoryAt line access

variable (line : SourceLine)

theorem ofArithmeticAt_eq (op : Operation) (flags : Bool) :
    ofArithmeticAt line op flags = present (ofArithmetic line op flags) := by
  unfold ofArithmetic
  split
  · rename_i first second destination operands
    rw [ofArithmeticAt, SourceLine.checkCount_of_length (by rw [operands]; rfl), pure_bind,
      SourceLine.registerAt_of_getElem? 0 (by rw [operands]; rfl),
      SourceLine.operandAt_of_getElem? 1 (by rw [operands]; rfl),
      SourceLine.registerAt_of_getElem? 2 (by rw [operands]; rfl)]
    refine present_bind fun rs1 => present_bind fun source => present_bind fun rd => ?_
    cases source with
    | register rs2 => rfl
    | literal n => exact present_bind fun half => rfl
  · rename_i other
    refine SourceLine.checkCount_bind_of_length_ne (fun three => ?_) _
    obtain ⟨first, second, destination, operands⟩ := List.length_eq_three.mp three
    exact other first second destination operands

theorem ofSelectAt_eq (condition : Condition) (flags : Bool) :
    ofSelectAt line condition flags = present (ofSelect line condition flags) := by
  unfold ofSelect
  split
  · rename_i first second destination operands
    rw [ofSelectAt, SourceLine.checkCount_of_length (by rw [operands]; rfl), pure_bind,
      SourceLine.registerAt_of_getElem? 0 (by rw [operands]; rfl),
      SourceLine.registerAt_of_getElem? 1 (by rw [operands]; rfl),
      SourceLine.registerAt_of_getElem? 2 (by rw [operands]; rfl)]
    exact present_bind fun rs1 => present_bind fun rs2 => present_bind fun rd => rfl
  · rename_i other
    refine SourceLine.checkCount_bind_of_length_ne (fun three => ?_) _
    obtain ⟨first, second, destination, operands⟩ := List.length_eq_three.mp three
    exact other first second destination operands

theorem ofMemoryAt_eq (access : Access) :
    ofMemoryAt line access = present (ofMemory line access) := by
  unfold ofMemory
  split
  · rename_i first second operands
    have reference : line.operands[if access = .load then 0 else 1]? =
        some (if access = .load then first else second) := by rw [operands]; cases access <;> rfl
    have register : line.operands[if access = .load then 1 else 0]? =
        some (if access = .load then second else first) := by rw [operands]; cases access <;> rfl
    rw [ofMemoryAt, SourceLine.checkCount_of_length (by rw [operands]; rfl), pure_bind,
      SourceLine.referenceAt_of_getElem? _ reference, SourceLine.registerAt_of_getElem? _ register]
    exact present_bind fun reference => present_bind fun rd => present_bind fun contents => rfl
  · rename_i other
    refine SourceLine.checkCount_bind_of_length_ne (fun two => ?_) _
    obtain ⟨first, second, operands⟩ := List.length_eq_two.mp two
    exact other first second operands

/-- No line makes lowering ask for an operand that is not there. -/
theorem ofLineAt_eq : ofLineAt line = present (ofLine line) := by
  refine present_bind fun mnemonic => ?_
  cases mnemonic.family with
  | arithmetic op => exact ofArithmeticAt_eq line op mnemonic.flags
  | select condition => exact ofSelectAt_eq line condition mnemonic.flags
  | memory access => exact ofMemoryAt_eq line access

end Instruction

/-! Instructions that come of a line. -/

/-- An offset that is left out is at most one word. -/
theorem MemoryReference.offset_of_displacement {m : MemoryReference} (h : 4 < m.displacement) :
    m.offset = some m.displacement := by
  obtain ⟨base, offset, update⟩ := m
  cases offset with
  | some n => rfl
  | none => cases update <;> simp [displacement] at h

namespace Instruction

variable {line : SourceLine} {i : Instruction}

/-- Every content but the offset of an access fits the field that it has in the word. -/
def Settled : Instruction → Prop
  | registerImmediate opcode rd rs _ _ _ => opcode < 8 ∧ rd.Exists ∧ rs.Exists
  | registerRegister rd rs1 rs2 _ _ cond => rd.Exists ∧ rs1.Exists ∧ rs2.Exists ∧ cond < 16
  | registerMemory _ rd rs1 _ => rd.Exists ∧ rs1.Exists

theorem Bounded.settled (h : i.Bounded) : i.Settled := by
  cases i with
  | registerImmediate => exact h
  | registerRegister => exact h
  | registerMemory => exact ⟨h.1, h.2.1⟩

theorem settled_of_ofLine (h : ofLine line = .ok i) : i.Settled := by
  obtain ⟨mnemonic, -, lowered⟩ := ofLine_eq_ok_iff.mp h
  cases family : mnemonic.family with
  | arithmetic op =>
    rw [family] at lowered
    exact (Rule.bounded_of_ofArithmetic lowered).settled
  | select condition =>
    rw [family] at lowered
    exact (Rule.bounded_of_ofSelect lowered).settled
  | memory access =>
    rw [family] at lowered
    obtain ⟨_, _, m, rd, contents, -, -, read, named, -, rfl⟩ := ofMemory_eq_ok_iff.mp lowered
    obtain ⟨_, _, _, base, _⟩ := MemoryReference.parts_of_read read
    exact ⟨Operand.exists_of_read named, Operand.exists_of_read base⟩

/-- Packing refuses a settled instruction for its offset alone. -/
theorem Settled.toWord_eq_error_iff (h : i.Settled) {fault : Fault} :
    i.toWord = .error fault ↔ ∃ bits rd base contents, i = .registerMemory bits rd base contents ∧
      0xFFFF < contents.toNat ∧ fault = .tooWide "offset".toList 16 contents := by
  constructor
  · intro failed
    have unbounded : ¬i.Bounded := fun bounded => by
      obtain ⟨w, packed⟩ := exists_toWord_of_bounded bounded
      rw [failed] at packed
      cases packed
    cases i with
    | registerImmediate => exact absurd h unbounded
    | registerRegister => exact absurd h unbounded
    | registerMemory bits rd base contents =>
      have wide : 0xFFFF < contents.toNat := Nat.lt_of_not_le fun small =>
        unbounded ⟨h.1, h.2, Nat.lt_succ_of_le small⟩
      rw [Rule.toWord_registerMemory_of_wide h.1 h.2 wide] at failed
      cases failed
      exact ⟨bits, rd, base, contents, rfl, wide, rfl⟩
  · rintro ⟨bits, rd, base, contents, rfl, wide, rfl⟩
    exact Rule.toWord_registerMemory_of_wide h.1 h.2 wide

/-- The instruction is an access at an offset that is written on the line and does not fit its
field; the contents of the field are that offset. -/
def Overreaches (line : SourceLine) (i : Instruction) (contents : UInt64) : Prop :=
  ∃ bits rd base, i = .registerMemory bits rd base contents ∧
    ∃ token ∈ line.operands, ∃ m n, MemoryReference.read token = .ok m ∧ m.offset = some n ∧
      0xFFFF < n ∧ (contents.toNat : Int) = n

theorem overreaches_of_ofLine {bits : AccessBits} {rd base : Register} {contents : UInt64}
    (h : ofLine line = .ok (.registerMemory bits rd base contents)) (wide : 0xFFFF < contents.toNat) :
    Overreaches line (.registerMemory bits rd base contents) contents := by
  obtain ⟨mnemonic, -, lowered⟩ := ofLine_eq_ok_iff.mp h
  cases family : mnemonic.family with
  | arithmetic op =>
    rw [family] at lowered
    obtain ⟨_, _, _, _, _, _, -, -, -, -, ⟨_, -, other⟩ | ⟨_, _, -, -, other⟩⟩ :=
      ofArithmetic_eq_ok_iff.mp lowered
    all_goals cases other
  | select condition =>
    rw [family] at lowered
    obtain ⟨_, _, _, _, _, _, -, -, -, -, other⟩ := ofSelect_eq_ok_iff.mp lowered
    cases other
  | memory access =>
    rw [family] at lowered
    obtain ⟨token, _, m, _, _, operands, -, read, -, carried, same⟩ := ofMemory_eq_ok_iff.mp lowered
    cases same
    obtain ⟨-, value⟩ := toNat_of_offsetContents carried (MemoryReference.displacement_lt_of_read read)
    have high : 0xFFFF < m.displacement ∧ (contents.toNat : Int) = m.displacement := by
      split at value <;> omega
    have mem : token ∈ line.operands := by
      rw [operands]
      cases access <;> simp [memoryOperands]
    exact ⟨_, _, _, rfl, token, mem, m, _, read, MemoryReference.offset_of_displacement (by omega), high⟩

theorem toWord_eq_error_iff_overreaches (h : ofLine line = .ok i) {fault : Fault} :
    i.toWord = .error fault ↔
      ∃ contents, Overreaches line i contents ∧ fault = .tooWide "offset".toList 16 contents := by
  rw [(settled_of_ofLine h).toWord_eq_error_iff]
  constructor
  · rintro ⟨bits, rd, base, contents, rfl, wide, rfl⟩
    exact ⟨contents, overreaches_of_ofLine h wide, rfl⟩
  · rintro ⟨contents, ⟨bits, rd, base, rfl, _, -, m, n, -, -, high, value⟩, rfl⟩
    exact ⟨bits, rd, base, contents, rfl, by omega, rfl⟩

end Instruction

/-! Texts. Of all the rules for a line only the one about the offset knows a width. -/

theorem MemoryReference.bracket_mem_of_read {token : Text} {m : MemoryReference}
    (h : read token = .ok m) : '[' ∈ token := by
  obtain ⟨front, inner, shape, -⟩ := Parts.shape_of_read h
  rw [← Text.mem_trim_iff (by decide), shape]
  simp

theorem Mnemonic.complaint_ne_tooWide (name field : Text) (width : UInt32) (value : UInt64) :
    complaint name ≠ .tooWide field width value := by
  unfold complaint
  split
  · split <;> exact Fault.noConfusion
  · exact Fault.noConfusion

namespace Rule

/-- The rule never complains of a width. -/
def Quiet (r : Rule) : Prop := ∀ field width value, ¬r.Raises (.tooWide field width value)

theorem firstBroken_append_of_quiet {rules rest : List Rule} (quiet : ∀ r ∈ rules, r.Quiet)
    {field : Text} {width : UInt32} {value : UInt64} :
    FirstBroken (rules ++ rest) (.tooWide field width value) ↔
      (∀ r ∈ rules, r.Holds) ∧ FirstBroken rest (.tooWide field width value) := by
  induction rules with
  | nil => simp
  | cons r rules ih =>
    obtain ⟨first, others⟩ := List.forall_mem_cons.mp quiet
    rw [List.cons_append, FirstBroken, ih others, List.forall_mem_cons]
    simp [first field width value, and_assoc]

theorem not_firstBroken_of_quiet {rules : List Rule} (quiet : ∀ r ∈ rules, r.Quiet)
    (field : Text) (width : UInt32) (value : UInt64) :
    ¬FirstBroken rules (.tooWide field width value) := by
  have broken := @firstBroken_append_of_quiet rules [] quiet field width value
  rw [List.append_nil] at broken
  rw [broken]
  exact fun h => h.2

variable (name token : Text)

theorem quiet_filled (text : Text) : (filled text).Quiet := fun _ _ _ => Fault.noConfusion

theorem quiet_slotsFilled (text : Text) (slots : List Text) : (slotsFilled text slots).Quiet :=
  fun _ _ _ => Fault.noConfusion

theorem quiet_known : (known name).Quiet := fun field width value same =>
  Mnemonic.complaint_ne_tooWide name field width value same.symm

theorem quiet_count (expected : Nat) (slots : List Text) : (count name expected slots).Quiet :=
  fun _ _ _ => Fault.noConfusion

theorem quiet_operand : (operand token).Quiet := fun _ _ _ => Operand.ofToken_read token _

theorem quiet_register : (register name token).Quiet := by
  rintro field width value (unread | ⟨n, -, other⟩)
  · exact Operand.ofToken_read token _ unread
  · cases other

theorem quiet_immediate (op : Operation) : (immediate token op).Quiet := by
  rintro field width value ⟨n, -, other⟩
  split at other <;> cases other

theorem quiet_bracketed : (bracketed name token).Quiet := fun _ _ _ => Fault.noConfusion

theorem quiet_reference : (reference token).Quiet := fun _ _ _ =>
  MemoryReference.ofToken_read token _

/-- The rules for a load or a store before the one about its offset. -/
def beforeOffset (text token destination : Text) : List Rule :=
  [filled text, slotsFilled text text.slots, known text.mnemonic, count text.mnemonic 2 text.slots,
    bracketed text.mnemonic token, reference token, register text.mnemonic destination]

theorem quiet_beforeOffset (text token destination : Text) :
    ∀ r ∈ beforeOffset text token destination, r.Quiet := by
  simp [beforeOffset, quiet_filled, quiet_slotsFilled, quiet_known, quiet_count, quiet_bracketed,
    quiet_reference, quiet_register]

theorem quiet_ofArithmetic (slots : List Text) (op : Operation) :
    ∀ r ∈ ofSlots name slots (.arithmetic op), r.Quiet := by
  rcases slots with _ | ⟨first, _ | ⟨second, _ | ⟨destination, _ | _⟩⟩⟩
  all_goals
    simp [ofSlots, ofOperands, quiet_count, quiet_register, quiet_operand, quiet_immediate]

theorem quiet_ofSelect (slots : List Text) (condition : Condition) :
    ∀ r ∈ ofSlots name slots (.select condition), r.Quiet := by
  rcases slots with _ | ⟨first, _ | ⟨second, _ | ⟨destination, _ | _⟩⟩⟩
  all_goals simp [ofSlots, ofOperands, quiet_count, quiet_register]

theorem ofMemory_cases (slots : List Text) (access : Access) :
    ofSlots name slots (.memory access) = [count name 2 slots] ∨
      ∃ token destination, slots = Instruction.memoryOperands access token destination ∧
        ofSlots name slots (.memory access) = [count name 2 slots, bracketed name token,
          reference token, register name destination, displacement token] := by
  rcases slots with _ | ⟨first, _ | ⟨second, _ | _⟩⟩
  case cons.cons.nil =>
    cases access with
    | load => exact .inr ⟨first, second, rfl, rfl⟩
    | store => exact .inr ⟨second, first, rfl, rfl⟩
  all_goals cases access <;> exact .inl rfl

/-- No rule for a line knows a width, but the last one for a load or a store does. -/
theorem ofText_cases (text : Text) : (∀ r ∈ ofText text, r.Quiet) ∨
    ∃ m access token destination, Mnemonic.read text.mnemonic = .ok m ∧ m.family = .memory access ∧
      text.slots = Instruction.memoryOperands access token destination ∧
      ofText text = beforeOffset text token destination ++ [displacement token] := by
  have whole : ofText text = filled text :: slotsFilled text text.slots :: known text.mnemonic ::
      ofMnemonic text.mnemonic text.slots := rfl
  have start : ∀ rules : List Rule, (∀ r ∈ rules, r.Quiet) →
      ∀ r ∈ filled text :: slotsFilled text text.slots :: known text.mnemonic :: rules, r.Quiet := by
    simp [quiet_filled, quiet_slotsFilled, quiet_known]
  rw [whole, ofMnemonic]
  cases read : Mnemonic.read text.mnemonic with
  | error fault => exact .inl (start [] (by simp))
  | ok m =>
    dsimp only
    cases family : m.family with
    | arithmetic op => exact .inl (start _ (quiet_ofArithmetic _ _ op))
    | select condition => exact .inl (start _ (quiet_ofSelect _ _ condition))
    | memory access =>
      rcases ofMemory_cases text.mnemonic text.slots access with
        miscounted | ⟨token, destination, slots, rules⟩
      · rw [miscounted]
        exact .inl (start _ (by simp [quiet_count]))
      · rw [rules]
        exact .inr ⟨m, access, token, destination, rfl, family, slots, rfl⟩

end Rule

namespace Assembly

open Instruction

/-- The line is a load or a store of the reference with nothing else wrong. -/
def Accesses (text : Text) (m : MemoryReference) : Prop :=
  ∃ line mnemonic access token destination rd, SourceLine.read text = .ok line ∧
    Mnemonic.read line.mnemonic = .ok mnemonic ∧ mnemonic.family = .memory access ∧
    line.operands = memoryOperands access token destination ∧ MemoryReference.read token = .ok m ∧
    Operand.read destination = .ok (.register rd)

/-- Nothing but the offset of an access decides whether it has a word. -/
theorem Accesses.cases {text : Text} {m : MemoryReference} (h : Accesses text m) :
    (∃ w, lineWord text = .ok w) ∧ (-0x8000 ≤ m.displacement ∧ m.displacement ≤ 0xFFFF) ∨
      lineWord text = .error (.tooWide "offset".toList 16 (UInt64.ofInt m.displacement)) ∧
        ¬(-0x8000 ≤ m.displacement ∧ m.displacement ≤ 0xFFFF) := by
  obtain ⟨line, mnemonic, access, token, destination, rd, tokens, named, family, operands, read,
    register⟩ := h
  obtain ⟨_, _, _, base, _⟩ := MemoryReference.parts_of_read read
  have bracket := MemoryReference.bracket_mem_of_read read
  have reference : line.readReference token = .ok m :=
    SourceLine.readReference_eq_ok_iff.mpr ⟨bracket, read⟩
  have readable : line.readRegister destination = .ok rd :=
    SourceLine.readRegister_eq_ok_iff.mpr register
  have memory : ofLine line = ofMemory line access := by
    simp [ofLine, named, family, bind, Except.bind]
  have lowered : ofMemory line access = offsetContents m.displacement >>= fun contents =>
      pure (registerMemory (.ofAccess access m.update m.displacement) rd m.base contents) := by
    rw [ofMemory, operands]
    cases access <;> simp [memoryOperands, reference, readable, bind, Except.bind]
  have packed : lineWord text = offsetContents m.displacement >>= fun contents =>
      (registerMemory (.ofAccess access m.update m.displacement) rd m.base contents).toWord := by
    rw [lineWord_eq, tokens]
    show ofLine line >>= toWord = _
    rw [memory, lowered, bind_assoc]
    simp only [pure_bind]
  rw [packed]
  exact Rule.offset_cases _ (Operand.exists_of_read register) (Operand.exists_of_read base)
    (MemoryReference.displacement_lt_of_read read)

/-- A line that overflows is an access. -/
theorem exists_accesses_of_tooWide {text field : Text} {width : UInt32} {value : UInt64}
    (h : lineWord text = .error (.tooWide field width value)) : ∃ m, Accesses text m := by
  have broken := ((Rule.decide_lineWord text).error_iff _).mp h
  rcases Rule.ofText_cases text with quiet | ⟨mnemonic, access, token, destination, named, family,
    slots, rules⟩
  · exact absurd broken (Rule.not_firstBroken_of_quiet quiet field width value)
  · rw [rules, Rule.firstBroken_append_of_quiet (Rule.quiet_beforeOffset _ _ _)] at broken
    have holds := broken.1
    simp only [Rule.beforeOffset, List.forall_mem_cons] at holds
    obtain ⟨filled, full, -, -, -, ⟨m, read⟩, ⟨rd, register⟩, -⟩ := holds
    have tokens := SourceLine.read_eq_ok_iff.mpr ⟨filled, full, rfl⟩
    exact ⟨m, _, mnemonic, access, token, destination, rd, tokens, named, family, slots, read, register⟩

theorem lineWord_eq_tooWide_iff {text field : Text} {width : UInt32} {value : UInt64} :
    lineWord text = .error (.tooWide field width value) ↔
      ∃ m, Accesses text m ∧ ¬(-0x8000 ≤ m.displacement ∧ m.displacement ≤ 0xFFFF) ∧
        field = "offset".toList ∧ width = 16 ∧ value = UInt64.ofInt m.displacement := by
  constructor
  · intro h
    obtain ⟨m, accesses⟩ := exists_accesses_of_tooWide h
    rcases accesses.cases with ⟨⟨w, done⟩, -⟩ | ⟨failed, outside⟩
    · rw [h] at done
      cases done
    · rw [h] at failed
      cases failed
      exact ⟨m, accesses, outside, rfl, rfl, rfl⟩
  · rintro ⟨m, accesses, outside, rfl, rfl, rfl⟩
    rcases accesses.cases with ⟨-, inside⟩ | ⟨failed, -⟩
    · exact absurd inside outside
    · exact failed

theorem exists_lineWord_iff_of_accesses {text : Text} {m : MemoryReference} (h : Accesses text m) :
    (∃ w, lineWord text = .ok w) ↔ -0x8000 ≤ m.displacement ∧ m.displacement ≤ 0xFFFF := by
  rcases h.cases with ⟨done, inside⟩ | ⟨failed, outside⟩
  · exact iff_of_true done inside
  · refine iff_of_false ?_ outside
    rintro ⟨w, done⟩
    rw [failed] at done
    cases done

/-- Lowering never asks for an operand that is not there. What it makes of a line is refused by
packing only for an offset that is written above 16 bits. So over all texts the width that is
exceeded is that of the offset, exactly in the loads and stores that are in order but for an offset
below `-2 ^ 15` or from `2 ^ 16` on, and no other width ever is. -/
theorem overflows_iff :
    (∀ line, (ofLineAt line).run = some (ofLine line)) ∧
    (∀ line i, ofLine line = .ok i → i.Settled ∧ ∀ fault, i.toWord = .error fault ↔
      ∃ contents, Overreaches line i contents ∧ fault = .tooWide "offset".toList 16 contents) ∧
    (∀ text field width value, lineWord text = .error (.tooWide field width value) ↔
      ∃ m, Accesses text m ∧ ¬(-0x8000 ≤ m.displacement ∧ m.displacement ≤ 0xFFFF) ∧
        field = "offset".toList ∧ width = 16 ∧ value = UInt64.ofInt m.displacement) ∧
    ∀ text m, Accesses text m →
      ((∃ w, lineWord text = .ok w) ↔ -0x8000 ≤ m.displacement ∧ m.displacement ≤ 0xFFFF) :=
  ⟨ofLineAt_eq, fun _ _ lowered => ⟨settled_of_ofLine lowered, fun _ =>
    toWord_eq_error_iff_overreaches lowered⟩, fun _ _ _ _ => lineWord_eq_tooWide_iff,
    fun _ _ => exists_lineWord_iff_of_accesses⟩

/-- A store in order but for an offset that is one too low. -/
def lowStore : Text := "st %r1, -32769[%r9++]".toList

theorem overflows_iff_low : Accesses lowStore ⟨⟨9⟩, some (-32769), .after⟩ ∧
    lineWord lowStore = .error (.tooWide "offset".toList 16 0xFFFFFFFFFFFF7FFF) := by
  have accesses : Accesses lowStore ⟨⟨9⟩, some (-32769), .after⟩ :=
    ⟨⟨"st".toList, ["%r1".toList, "-32769[%r9++]".toList]⟩, ⟨.memory .store, false⟩, .store,
      "-32769[%r9++]".toList, "%r1".toList, ⟨1⟩, by decide +kernel, by decide +kernel, rfl, rfl,
      by decide +kernel, by decide +kernel⟩
  exact ⟨accesses, (overflows_iff.2.2.1 _ _ _ _).mpr ⟨_, accesses, by decide, rfl, rfl, rfl⟩⟩

end Assembly
end SoftCore
