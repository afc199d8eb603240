import Mathlib.Data.List.Basic
import SoftCore.Proofs.Accepted
import SoftCore.Proofs.Codes
import SoftCore.Proofs.Immediate
import SoftCore.Proofs.MnemonicNames
import SoftCore.Proofs.Packing

/-! The rules that a line has to keep, in the order in which they are examined.
A line that keeps all of them has a word. Any other line has the fault of the
first rule that it breaks, whatever else is wrong with it. -/

namespace SoftCore

/-- What is asked for, and the faults that may be raised where it does not hold. -/
structure Rule where
  Holds : Prop
  Raises : Fault → Prop

namespace Rule

/-- The fault is one of the first rule that does not hold. -/
def FirstBroken : List Rule → Fault → Prop
  | [], _ => False
  | r :: rules, fault => (¬r.Holds ∧ r.Raises fault) ∨ (r.Holds ∧ FirstBroken rules fault)

variable {α β : Type} {r : Rule} {rules : List Rule} {x : Except Fault α}

/-- The computation succeeds when all rules hold, and fails with the fault of the first that does
not. -/
structure Decide (rules : List Rule) (x : Except Fault α) : Prop where
  ok_iff : (∃ a, x = .ok a) ↔ ∀ r ∈ rules, r.Holds
  error_iff : ∀ fault, x = .error fault ↔ FirstBroken rules fault

theorem decide_nil (a : α) : Decide [] (.ok a) where
  ok_iff := by simp
  error_iff := by simp [FirstBroken]

theorem Decide.cons_of_holds (holds : r.Holds) (h : Decide rules x) : Decide (r :: rules) x where
  ok_iff := by rw [h.ok_iff, List.forall_mem_cons, and_iff_right holds]
  error_iff fault := by
    rw [h.error_iff, FirstBroken]
    simp [holds]

theorem decide_cons_of_broken {fault : Fault} (broken : ¬r.Holds)
    (raised : ∀ other, r.Raises other ↔ other = fault) :
    Decide (r :: rules) (.error fault : Except Fault α) where
  ok_iff := by simp [broken]
  error_iff other := by
    rw [FirstBroken, raised]
    simp [broken, eq_comm]

/-- The computation examines the rule and nothing else. -/
structure Examined (r : Rule) (x : Except Fault α) : Prop where
  holds : ∀ a, x = .ok a → r.Holds
  broken : ∀ fault, x = .error fault → ¬r.Holds ∧ ∀ other, r.Raises other ↔ other = fault

theorem Examined.bind (h : Examined r x) {f : α → Except Fault β}
    (next : ∀ a, x = .ok a → Decide rules (f a)) : Decide (r :: rules) (x >>= f) := by
  cases outcome : x with
  | ok a => exact .cons_of_holds (h.holds a outcome) (next a outcome)
  | error fault => exact decide_cons_of_broken (h.broken fault outcome).1 (h.broken fault outcome).2

theorem Examined.decide (h : Examined r x) : Decide [r] x := by
  cases outcome : x with
  | ok a => exact .cons_of_holds (h.holds a outcome) (decide_nil a)
  | error fault => exact decide_cons_of_broken (h.broken fault outcome).1 (h.broken fault outcome).2

/-- A second computation that never fails examines nothing. -/
theorem Decide.bind_of_total (h : Decide rules x) {f : α → Except Fault β}
    (total : ∀ a, x = .ok a → ∃ b, f a = .ok b) : Decide rules (x >>= f) := by
  cases x with
  | ok a =>
    obtain ⟨b, done⟩ := total a rfl
    show Decide rules (f a)
    rw [done]
    exact ⟨by simpa using h.ok_iff, by simpa using h.error_iff⟩
  | error fault =>
    show Decide rules (Except.error fault)
    exact ⟨by simpa using h.ok_iff, by simpa using h.error_iff⟩

/-! The rules. -/

variable (name token : Text)

def filled (text : Text) : Rule where
  Holds := text.trim ≠ []
  Raises := (· = .unreadable text .emptyLine)

def slotsFilled (text : Text) (slots : List Text) : Rule where
  Holds := [] ∉ slots
  Raises := (· = .unreadable text .emptyOperand)

def known : Rule where
  Holds := ∃ m : Mnemonic, m.text = name
  Raises := (· = Mnemonic.complaint name)

def count (expected : Nat) (slots : List Text) : Rule where
  Holds := slots.length = expected
  Raises := (· = .wrongCount name expected slots.length)

def operand : Rule where
  Holds := ∃ operand, Operand.read token = .ok operand
  Raises fault := Operand.read token = .error fault

/-- A literal can be read, but not where a register has to stand. -/
def register : Rule where
  Holds := ∃ r, Operand.read token = .ok (.register r)
  Raises fault := Operand.read token = .error fault ∨
    ∃ n, Operand.read token = .ok (.literal n) ∧ fault = .wrongOperand name token .register

/-- An operand that is a literal is an amount of a shift or a constant with an empty half. -/
def immediate (op : Operation) : Rule where
  Holds := ∀ n, Operand.read token = .ok (.literal n) →
    if op.isShift then -31 ≤ n ∧ n ≤ 31 else ∃ half, HalfWord.ofInt n = .ok half
  Raises fault := ∃ n, Operand.read token = .ok (.literal n) ∧
    fault = if op.isShift then .shiftTooFar n else .unsplittable n

def bracketed : Rule where
  Holds := '[' ∈ token
  Raises := (· = .wrongOperand name token .memory)

def reference : Rule where
  Holds := ∃ m, MemoryReference.read token = .ok m
  Raises fault := MemoryReference.read token = .error fault

def displacement : Rule where
  Holds := ∀ m, MemoryReference.read token = .ok m → -0x8000 ≤ m.displacement ∧ m.displacement ≤ 0xFFFF
  Raises fault := ∃ m, MemoryReference.read token = .ok m ∧
    fault = .tooWide "offset".toList 16 (UInt64.ofInt m.displacement)

/-- The rules for the operands of a family, in which the reference of a store comes before its
register. -/
def ofOperands (slots : List Text) : Family → List Rule
  | .arithmetic op =>
    match slots with
    | [first, second, destination] =>
      [register name first, operand second, register name destination, immediate second op]
    | _ => []
  | .select _ =>
    match slots with
    | [first, second, destination] =>
      [register name first, register name second, register name destination]
    | _ => []
  | .memory access =>
    match access, slots with
    | .load, [token, destination] | .store, [destination, token] =>
      [bracketed name token, reference token, register name destination, displacement token]
    | _, _ => []

def expected : Family → Nat
  | .arithmetic _ => 3
  | .select _ => 3
  | .memory _ => 2

def ofSlots (slots : List Text) (family : Family) : List Rule :=
  count name (expected family) slots :: ofOperands name slots family

/-- The rules that the mnemonic adds, none if it is not known. -/
def ofMnemonic (slots : List Text) : List Rule :=
  match Mnemonic.read name with
  | .ok m => ofSlots name slots m.family
  | .error _ => []

/-- The rules for a line, in the order in which they are examined. -/
def ofText (text : Text) : List Rule :=
  let name := Text.lower (SourceLine.firstWord text.trim)
  let slots := SourceLine.operandSlots (SourceLine.afterFirstWord text.trim)
  filled text :: slotsFilled text slots :: known name :: ofMnemonic name slots

/-! What examines them. -/

theorem examined_operand : Examined (operand token) (Operand.read token) where
  holds a h := ⟨a, h⟩
  broken fault h := ⟨by simp [operand, h], by simp [operand, h, eq_comm]⟩

theorem examined_register (line : SourceLine) :
    Examined (register line.mnemonic token) (line.readRegister token) where
  holds r h := ⟨r, SourceLine.readRegister_eq_ok_iff.mp h⟩
  broken fault h := by
    unfold SourceLine.readRegister at h
    cases read : Operand.read token with
    | error other =>
      rw [read] at h
      cases h
      exact ⟨by simp [register, read], by simp [register, read, eq_comm]⟩
    | ok operand =>
      rw [read] at h
      cases operand with
      | register r => cases h
      | literal n =>
        cases h
        exact ⟨by simp [register, read], by simp [register, read]⟩

theorem examined_reference : Examined (reference token) (MemoryReference.read token) where
  holds m h := ⟨m, h⟩
  broken fault h := ⟨by simp [reference, h], by simp [reference, h, eq_comm]⟩

theorem immediate_eq_error {op : Operation} {n : Int} {fault : Fault}
    (h : op.immediate n = .error fault) :
    fault = if op.isShift then .shiftTooFar n else .unsplittable n := by
  unfold Operation.immediate at h
  split at h
  · rename_i shift
    split at h
    · cases h
    · cases h
      rw [if_pos shift]
  · rename_i other
    rw [if_neg other]
    exact HalfWord.unsplittable_of_ofInt h

theorem exists_immediate_iff {op : Operation} {n : Int} :
    (∃ half, op.immediate n = .ok half) ↔
      if op.isShift then -31 ≤ n ∧ n ≤ 31 else ∃ half, HalfWord.ofInt n = .ok half := by
  cases shift : op.isShift with
  | true => simp [Operation.immediate_of_shift shift]
  | false => simp [Operation.immediate_of_not_shift shift]

theorem examined_immediate {op : Operation} {n : Int}
    (read : Operand.read token = .ok (.literal n)) :
    Examined (immediate token op) (op.immediate n) where
  holds half h m hm := by
    rw [read] at hm
    cases hm
    exact exists_immediate_iff.mp ⟨half, h⟩
  broken fault h := by
    refine ⟨fun holds => ?_, fun other => ?_⟩
    · obtain ⟨half, taken⟩ := exists_immediate_iff.mpr (holds n read)
      rw [h] at taken
      cases taken
    · rw [immediate_eq_error h]
      simp [immediate, read]

theorem holds_immediate_of_register {op : Operation} {r : Register}
    (read : Operand.read token = .ok (.register r)) : (immediate token op).Holds := by
  intro n hn
  rw [read] at hn
  cases hn

theorem decide_ofArithmetic (line : SourceLine) (op : Operation) (flags : Bool) :
    Decide (ofSlots line.mnemonic line.operands (.arithmetic op))
      (Instruction.ofArithmetic line op flags) := by
  unfold Instruction.ofArithmetic
  split
  · rename_i first second destination operands
    rw [ofSlots, operands]
    refine .cons_of_holds rfl ?_
    refine (examined_register first line).bind fun rs1 _ => ?_
    refine (examined_operand second).bind fun source read => ?_
    refine (examined_register destination line).bind fun rd _ => ?_
    cases source with
    | register rs2 =>
      exact .cons_of_holds (holds_immediate_of_register second read) (decide_nil _)
    | literal n => exact (examined_immediate second read).bind fun half _ => decide_nil _
  · rename_i other
    refine decide_cons_of_broken (fun three => ?_) fun _ => Iff.rfl
    obtain ⟨first, second, destination, operands⟩ := List.length_eq_three.mp three
    exact other first second destination operands

theorem decide_ofSelect (line : SourceLine) (c : Condition) (flags : Bool) :
    Decide (ofSlots line.mnemonic line.operands (.select c))
      (Instruction.ofSelect line c flags) := by
  unfold Instruction.ofSelect
  split
  · rename_i first second destination operands
    rw [ofSlots, operands]
    refine .cons_of_holds rfl ?_
    refine (examined_register first line).bind fun rs1 _ => ?_
    refine (examined_register second line).bind fun rs2 _ => ?_
    exact (examined_register destination line).bind fun rd _ => decide_nil _
  · rename_i other
    refine decide_cons_of_broken (fun three => ?_) fun _ => Iff.rfl
    obtain ⟨first, second, destination, operands⟩ := List.length_eq_three.mp three
    exact other first second destination operands

theorem toWord_registerMemory_of_wide {bits : AccessBits} {rd base : Register} {offset : UInt64}
    (hd : rd.Exists) (hb : base.Exists) (wide : 0x10000 ≤ offset.toNat) :
    (Instruction.registerMemory bits rd base offset).toWord =
      .error (.tooWide "offset".toList 16 offset) := by
  have refused : (Field.ofBits "offset" 16 offset).fits = false := by
    rw [← Bool.not_eq_true, Field.fits_ofBits_iff (n := 0x10000) (by decide) rfl]
    exact Nat.not_lt_of_le wide
  refine Instruction.toWord_of_first_too_wide (f := .ofBits "offset" 16 offset) ?_
  rw [Instruction.limited, Field.find?_cons_of_fits (Field.fits_ofRegister_iff.mpr hd) rfl,
    Field.find?_cons_of_fits (Field.fits_ofRegister_iff.mpr hb) rfl,
    List.find?_cons_of_pos (by simp [refused])]

/-- The offset is refused in lowering where it is too low and in packing where it is too high. -/
theorem offset_cases (bits : AccessBits) {rd base : Register} {n : Int} (hd : rd.Exists)
    (hb : base.Exists) (below : n < 0x8000000000000000) :
    (∃ w, (Instruction.offsetContents n >>= fun contents =>
        (Instruction.registerMemory bits rd base contents).toWord) = .ok w) ∧
        (-0x8000 ≤ n ∧ n ≤ 0xFFFF) ∨
      (Instruction.offsetContents n >>= fun contents =>
        (Instruction.registerMemory bits rd base contents).toWord) =
          .error (.tooWide "offset".toList 16 (UInt64.ofInt n)) ∧
        ¬(-0x8000 ≤ n ∧ n ≤ 0xFFFF) := by
  by_cases negative : n < 0
  · by_cases low : n < -0x8000
    · right
      rw [Instruction.offsetContents, if_neg (by omega), if_pos low]
      exact ⟨rfl, by omega⟩
    · left
      rw [Instruction.offsetContents, if_neg (by omega), if_neg low]
      have narrow : (UInt16.ofInt n).toUInt64.toNat < 0x10000 := by
        rw [UInt16.toNat_toUInt64]
        exact (UInt16.ofInt n).toNat_lt
      exact ⟨Instruction.exists_toWord_of_bounded ⟨hd, hb, narrow⟩, by omega⟩
  · have value := Instruction.toNat_ofInt64 (n := n) (by omega) below
    rw [Instruction.offsetContents_of_nonneg (by omega)]
    by_cases high : n ≤ 0xFFFF
    · exact .inl ⟨Instruction.exists_toWord_of_bounded ⟨hd, hb, by omega⟩, by omega⟩
    · exact .inr ⟨toWord_registerMemory_of_wide hd hb (by omega), by omega⟩

theorem examined_displacement {m : MemoryReference} {rd : Register} {bits : AccessBits}
    (read : MemoryReference.read token = .ok m) (exist : rd.Exists) :
    Examined (displacement token) (Instruction.offsetContents m.displacement >>= fun contents =>
      (Instruction.registerMemory bits rd m.base contents).toWord) := by
  obtain ⟨_, _, _, base, _⟩ := MemoryReference.parts_of_read read
  have cases := offset_cases bits exist (Operand.exists_of_read base)
    (MemoryReference.displacement_lt_of_read read)
  constructor
  · rintro w done m' hm
    rw [read] at hm
    cases hm
    rcases cases with ⟨-, inside⟩ | ⟨failed, -⟩
    · exact inside
    · rw [done] at failed
      cases failed
  · intro fault failed
    rcases cases with ⟨⟨w, done⟩, -⟩ | ⟨stopped, outside⟩
    · rw [failed] at done
      cases done
    · rw [failed] at stopped
      cases stopped
      exact ⟨fun holds => outside (holds m read), by simp [displacement, read]⟩

theorem decide_readReference {line : SourceLine} {token : Text} {f : MemoryReference → Except Fault α}
    (next : ∀ m, MemoryReference.read token = .ok m → Decide rules (f m)) :
    Decide (bracketed line.mnemonic token :: reference token :: rules)
      (line.readReference token >>= f) := by
  unfold SourceLine.readReference
  split
  · rename_i bracket
    exact .cons_of_holds bracket ((examined_reference token).bind next)
  · rename_i bare
    exact decide_cons_of_broken bare fun _ => Iff.rfl

theorem decide_memoryOperands {line : SourceLine} {access : Access} {token destination : Text} :
    Decide [bracketed line.mnemonic token, reference token, register line.mnemonic destination,
        displacement token]
      ((do
        let reference ← line.readReference token
        let rd ← line.readRegister destination
        let contents ← Instruction.offsetContents reference.displacement
        pure (Instruction.registerMemory
          (.ofAccess access reference.update reference.displacement) rd reference.base contents)) >>=
        Instruction.toWord) := by
  simp only [bind_assoc, pure_bind]
  refine decide_readReference fun m read => ?_
  refine (examined_register destination line).bind fun rd named => ?_
  have exist := Operand.exists_of_read (SourceLine.readRegister_eq_ok_iff.mp named)
  exact (examined_displacement token read exist).decide

theorem decide_ofMemory (line : SourceLine) (access : Access) :
    Decide (ofSlots line.mnemonic line.operands (.memory access))
      (Instruction.ofMemory line access >>= Instruction.toWord) := by
  unfold Instruction.ofMemory
  split
  · rename_i first second operands
    rw [ofSlots, operands]
    refine .cons_of_holds rfl ?_
    cases access with
    | load => exact decide_memoryOperands
    | store => exact decide_memoryOperands
  · rename_i other
    refine decide_cons_of_broken (fun two => ?_) fun _ => Iff.rfl
    obtain ⟨first, second, operands⟩ := List.length_eq_two.mp two
    exact other first second operands

theorem bounded_of_ofArithmetic {line : SourceLine} {op : Operation} {flags : Bool}
    {i : Instruction} (h : Instruction.ofArithmetic line op flags = .ok i) : i.Bounded := by
  obtain ⟨_, _, _, rs1, source, rd, -, h1, h2, h3, h⟩ := Instruction.ofArithmetic_eq_ok_iff.mp h
  have e1 := Operand.exists_of_read h1
  have e3 := Operand.exists_of_read h3
  rcases h with ⟨rs2, rfl, rfl⟩ | ⟨n, half, -, -, rfl⟩
  · exact ⟨e3, e1, Operand.exists_of_read h2, by decide⟩
  · exact ⟨by cases op <;> decide, e3, e1⟩

theorem bounded_of_ofSelect {line : SourceLine} {c : Condition} {flags : Bool}
    {i : Instruction} (h : Instruction.ofSelect line c flags = .ok i) : i.Bounded := by
  obtain ⟨_, _, _, rs1, rs2, rd, -, h1, h2, h3, rfl⟩ := Instruction.ofSelect_eq_ok_iff.mp h
  exact ⟨Operand.exists_of_read h3, Operand.exists_of_read h1, Operand.exists_of_read h2, c.code_lt⟩

theorem decide_ofFamily (line : SourceLine) (m : Mnemonic) :
    Decide (ofSlots line.mnemonic line.operands m.family)
      ((match m.family with
        | .arithmetic op => Instruction.ofArithmetic line op m.flags
        | .select c => Instruction.ofSelect line c m.flags
        | .memory access => Instruction.ofMemory line access) >>= Instruction.toWord) := by
  cases m.family with
  | arithmetic op =>
    exact (decide_ofArithmetic line op m.flags).bind_of_total fun i h =>
      Instruction.exists_toWord_of_bounded (bounded_of_ofArithmetic h)
  | select c =>
    exact (decide_ofSelect line c m.flags).bind_of_total fun i h =>
      Instruction.exists_toWord_of_bounded (bounded_of_ofSelect h)
  | memory access => exact decide_ofMemory line access

theorem decide_ofLine (line : SourceLine) :
    Decide (known line.mnemonic :: ofMnemonic line.mnemonic line.operands)
      (Instruction.ofLine line >>= Instruction.toWord) := by
  rw [Instruction.ofLine, bind_assoc, ofMnemonic]
  cases read : Mnemonic.read line.mnemonic with
  | ok m => exact .cons_of_holds ⟨m, Mnemonic.read_eq_ok_iff.mp read⟩ (decide_ofFamily line m)
  | error fault =>
    obtain ⟨none, rfl⟩ := Mnemonic.read_eq_error_iff.mp read
    refine decide_cons_of_broken ?_ fun _ => Iff.rfl
    rintro ⟨m, spelled⟩
    exact none m spelled

theorem decide_lineWord (text : Text) : Decide (ofText text) (Assembly.lineWord text) := by
  rw [Assembly.lineWord_eq, ofText, SourceLine.read]
  by_cases blank : text.trim.isEmpty
  · rw [if_pos blank]
    refine decide_cons_of_broken (fun filled => ?_) fun _ => Iff.rfl
    exact filled (List.isEmpty_iff.mp blank)
  · rw [if_neg blank]
    refine .cons_of_holds (fun empty => blank (List.isEmpty_iff.mpr empty)) ?_
    dsimp only
    split
    · rename_i missing
      refine decide_cons_of_broken (fun full => ?_) fun _ => Iff.rfl
      obtain ⟨slot, mem, empty⟩ := List.any_eq_true.mp missing
      exact full (List.isEmpty_iff.mp empty ▸ mem)
    · rename_i full
      exact .cons_of_holds (fun mem => full (List.any_eq_true.mpr ⟨[], mem, rfl⟩))
        (decide_ofLine ⟨_, _⟩)

end Rule

namespace Assembly

/-- A line has a word when it keeps all its rules, and else the fault of the first that it breaks. -/
theorem accepted_or_first_broken (text : Text) :
    ((∃ w, lineWord text = .ok w) ↔ ∀ r ∈ Rule.ofText text, r.Holds) ∧
      ∀ fault, lineWord text = .error fault ↔ Rule.FirstBroken (Rule.ofText text) fault :=
  ⟨(Rule.decide_lineWord text).ok_iff, (Rule.decide_lineWord text).error_iff⟩

example : lineWord "st 5, 70000[%r9]".toList =
    .error (.wrongOperand "st".toList "5".toList .register) := by rfl

end Assembly
end SoftCore
