import SoftCore.Assembly

/-! What can go wrong with a line by itself. Its tokens, its count of operands
and its numbers can be at fault, but reading, lowering and packing it know of no
address and no image, so none of them blames a line or a place in memory. -/

namespace SoftCore

namespace Fault

/-- The fault names neither a line of a program nor a place in an image. -/
def Local : Fault → Prop
  | inLine .. => False
  | outOfImage .. => False
  | _ => True

theorem Local.ne_inLine {fault : Fault} (h : fault.Local) (address : UInt32) (text : Text)
    (cause : Fault) : fault ≠ .inLine address text cause := by
  rintro rfl
  exact h

theorem innermost_of_ne_inLine {fault : Fault}
    (h : ∀ address text cause, fault ≠ .inLine address text cause) : fault.innermost = fault := by
  cases fault with
  | inLine address text cause => exact absurd rfl (h address text cause)
  | _ => rfl

/-- A token that cannot be read is at fault. -/
def OfToken : Fault → Prop
  | unreadable .. => True
  | noSuchRegister .. => True
  | _ => False

theorem OfToken.isLocal {fault : Fault} (h : fault.OfToken) : fault.Local := by
  cases fault with
  | unreadable => trivial
  | noSuchRegister => trivial
  | _ => exact h.elim

variable {α β : Type} {P : Fault → Prop}

/-- All faults of the computation are of one sort. -/
def Only (P : Fault → Prop) (x : Except Fault α) : Prop := ∀ fault, x = .error fault → P fault

theorem only_ok (a : α) : Only P (.ok a) := by
  intro fault h
  cases h

theorem only_error {fault : Fault} (h : P fault) : Only P (.error fault : Except Fault α) := by
  intro other e
  cases e
  exact h

theorem Only.bind {x : Except Fault α} {f : α → Except Fault β} (hx : Only P x)
    (hf : ∀ a, Only P (f a)) : Only P (x >>= f) := by
  cases x with
  | ok a => exact hf a
  | error fault => exact only_error (hx fault rfl)

theorem Only.map {x : Except Fault α} (hx : Only P x) (f : α → β) : Only P (x.map f) := by
  cases x with
  | ok a => exact only_ok (f a)
  | error fault => exact only_error (hx fault rfl)

/-- No fault of the computation names a line or a place. -/
abbrev StaysLocal (x : Except Fault α) : Prop := Only Local x

theorem Only.staysLocal {x : Except Fault α} (h : Only OfToken x) : StaysLocal x :=
  fun fault failed => (h fault failed).isLocal

end Fault

open Fault

/-! The readers of tokens. -/

theorem Register.ofToken_ofName (name : Text) : Only OfToken (ofName name) := by
  unfold ofName
  split
  · exact only_ok _
  · exact only_error trivial

theorem Literal.ofToken_magnitude (token : Text) (radix : Radix) (flaw : Flaw) (digits : Text) :
    Only OfToken (magnitude token radix flaw digits) := by
  unfold magnitude
  split
  · exact only_error trivial
  · split
    · exact only_ok _
    · exact only_error trivial

theorem Literal.ofToken_read (token : Text) : Only OfToken (read token) := by
  have unsigned : ∀ body, Only OfToken (unsigned token body) := by
    intro body
    unfold Literal.unsigned
    split <;> exact ofToken_magnitude _ _ _ _
  unfold read
  split <;> exact (unsigned _).map _

theorem Operand.ofToken_read (token : Text) : Only OfToken (read token) := by
  unfold read
  split
  · exact (Register.ofToken_ofName _).map _
  · exact (Literal.ofToken_read _).map _

theorem MemoryReference.ofToken_readOffset (front : Text) : Only OfToken (readOffset front) := by
  unfold readOffset
  split
  · exact only_ok _
  · exact (Literal.ofToken_read _).map _

theorem MemoryReference.ofToken_readBase (token name : Text) :
    Only OfToken (readBase token name) := by
  refine (Operand.ofToken_read name).bind fun operand => ?_
  cases operand with
  | register r => exact only_ok r
  | literal n => exact only_error trivial

theorem MemoryReference.ofToken_read (token : Text) : Only OfToken (read token) := by
  unfold read
  split
  · exact only_error trivial
  · split
    · exact only_error trivial
    · exact (ofToken_readOffset _).bind fun _ => (ofToken_readBase _ _).bind fun _ => only_ok _

/-! The readers of mnemonics and lines. -/

theorem Mnemonic.staysLocal_flagSuffix (name : Text) (suffix : List Text) :
    StaysLocal (flagSuffix name suffix) := by
  unfold flagSuffix
  split
  · exact only_ok _
  · exact only_ok _
  · exact only_error trivial

theorem Condition.staysLocal_ofName (name : Text) : StaysLocal (ofName name) := by
  unfold ofName
  split
  · exact only_ok _
  · exact only_error trivial

theorem Mnemonic.staysLocal_readSelect (name : Text) (parts : List Text) :
    StaysLocal (readSelect name parts) := by
  cases parts with
  | nil => exact only_error trivial
  | cons condition suffix =>
    exact (Condition.staysLocal_ofName _).bind fun _ => (staysLocal_flagSuffix _ _).bind fun _ =>
      only_ok _

theorem Mnemonic.staysLocal_readListed (name base : Text) (suffix : List Text) :
    StaysLocal (readListed name base suffix) := by
  unfold readListed
  split
  · exact only_error trivial
  · exact (staysLocal_flagSuffix _ _).map _

theorem Mnemonic.staysLocal_read (name : Text) : StaysLocal (read name) := by
  unfold read readParts
  split
  · exact only_error trivial
  · split
    · exact staysLocal_readSelect _ _
    · exact staysLocal_readListed _ _ _

theorem SourceLine.staysLocal_read (text : Text) : StaysLocal (read text) := by
  unfold read
  split
  · exact only_error trivial
  · dsimp only
    split
    · exact only_error trivial
    · exact only_ok _

/-! Lowering and packing. -/

theorem SourceLine.staysLocal_readRegister (line : SourceLine) (token : Text) :
    StaysLocal (line.readRegister token) := by
  refine (Operand.ofToken_read token).staysLocal.bind fun operand => ?_
  cases operand with
  | register r => exact only_ok r
  | literal n => exact only_error trivial

theorem SourceLine.staysLocal_readReference (line : SourceLine) (token : Text) :
    StaysLocal (line.readReference token) := by
  unfold readReference
  split
  · exact (MemoryReference.ofToken_read token).staysLocal
  · exact only_error trivial

theorem HalfWord.staysLocal_ofInt (n : Int) : StaysLocal (ofInt n) := by
  unfold ofInt
  dsimp only
  split
  · exact only_error trivial
  · split
    · exact only_ok _
    · split
      · exact only_ok _
      · exact only_error trivial

theorem Operation.staysLocal_immediate (op : Operation) (n : Int) :
    StaysLocal (op.immediate n) := by
  unfold immediate
  split
  · split
    · exact only_ok _
    · exact only_error trivial
  · exact HalfWord.staysLocal_ofInt n

namespace Instruction

theorem staysLocal_offsetContents (offset : Int) : StaysLocal (offsetContents offset) := by
  unfold offsetContents
  split
  · exact only_ok _
  · split
    · exact only_error trivial
    · exact only_ok _

theorem staysLocal_ofArithmetic (line : SourceLine) (op : Operation) (flags : Bool) :
    StaysLocal (ofArithmetic line op flags) := by
  unfold ofArithmetic
  split
  · refine (line.staysLocal_readRegister _).bind fun rs1 => ?_
    refine (Operand.ofToken_read _).staysLocal.bind fun source => ?_
    refine (line.staysLocal_readRegister _).bind fun rd => ?_
    cases source with
    | register rs2 => exact only_ok _
    | literal n => exact (op.staysLocal_immediate n).bind fun _ => only_ok _
  · exact only_error trivial

theorem staysLocal_ofSelect (line : SourceLine) (condition : Condition) (flags : Bool) :
    StaysLocal (ofSelect line condition flags) := by
  unfold ofSelect
  split
  · exact (line.staysLocal_readRegister _).bind fun _ =>
      (line.staysLocal_readRegister _).bind fun _ =>
        (line.staysLocal_readRegister _).bind fun _ => only_ok _
  · exact only_error trivial

theorem staysLocal_ofMemory (line : SourceLine) (access : Access) :
    StaysLocal (ofMemory line access) := by
  unfold ofMemory
  split
  · exact (line.staysLocal_readReference _).bind fun reference =>
      (line.staysLocal_readRegister _).bind fun _ =>
        (staysLocal_offsetContents _).bind fun _ => only_ok _
  · exact only_error trivial

theorem staysLocal_ofLine (line : SourceLine) : StaysLocal (ofLine line) := by
  refine (Mnemonic.staysLocal_read _).bind fun mnemonic => ?_
  split
  · exact staysLocal_ofArithmetic _ _ _
  · exact staysLocal_ofSelect _ _ _
  · exact staysLocal_ofMemory _ _

end Instruction

/-- A push refuses a field for being too wide and for nothing else. -/
theorem Filling.isLocal_of_push {f : Field} {w v : WordWriter} {fault : Fault}
    (h : push f w = some (.error fault, v)) : fault.Local := by
  rcases push_cases f w with ⟨-, pushed⟩ | ⟨-, -, pushed⟩ | ⟨-, -, pushed⟩ | ⟨-, -, pushed⟩ <;>
    rw [pushed] at h <;> cases h
  · trivial
  · trivial

theorem Filling.isLocal_of_pushAll {fields : List Field} {w v : WordWriter} {fault : Fault}
    (h : pushAll fields w = some (.error fault, v)) : fault.Local := by
  induction fields generalizing w with
  | nil => cases h
  | cons f rest ih =>
    rcases bind_eq_error_iff.mp h with refused | ⟨done, u, -, later⟩
    · exact isLocal_of_push refused
    · exact ih later

theorem Instruction.staysLocal_toWord (i : Instruction) : StaysLocal i.toWord := by
  intro fault failed
  obtain ⟨v, refused⟩ :=
    WordWriter.pack_eq_error_iff.mp (i.pack_fields.trans (congrArg some failed))
  exact Filling.isLocal_of_pushAll refused

theorem Encoding.staysLocal_ofText (text : Text) : StaysLocal (ofText text) := by
  refine (SourceLine.staysLocal_read text).bind fun line => ?_
  refine (Instruction.staysLocal_ofLine line).bind fun instruction => ?_
  refine Only.bind ?_ fun word => only_ok _
  exact instruction.staysLocal_toWord

/-- A line that does not encode raises a fault of its own. -/
theorem Assembly.staysLocal_lineWord (text : Text) : StaysLocal (lineWord text) :=
  (Encoding.staysLocal_ofText text).map _

end SoftCore
