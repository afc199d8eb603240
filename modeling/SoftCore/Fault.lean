import SoftCore.Text.Numeral

/-! Everything that can stop an assembly: the token or number at fault and what
is wrong with it. A fault of a whole program names the address and the text of
the line that raised it; innermost is the fault of the line itself. -/

namespace SoftCore

/-- What is wrong with a token that cannot be read. -/
inductive Flaw where
  | emptyLine
  | emptyOperand
  | hexDigits
  | notRegisterOrLiteral
  | literalRange
  | notMemory
  | unterminated
  | baseNotRegister
  deriving DecidableEq

/-- What an operand had to be. -/
inductive Wanted where
  | register
  | memory
  deriving DecidableEq

inductive Fault where
  | unreadable (token : Text) (flaw : Flaw)
  | noSuchRegister (name : Text)
  | noSuchMnemonic (name : Text)
  | noSuchCondition (name : Text)
  | wrongCount (mnemonic : Text) (expected found : Nat)
  | wrongOperand (mnemonic operand : Text) (wanted : Wanted)
  | shiftTooFar (amount : Int)
  | unsplittable (constant : Int)
  | tooWide (field : Text) (width : UInt32) (value : UInt64)
  | outOfImage (address : UInt32) (capacity : Nat)
  | inLine (address : UInt32) (text : Text) (cause : Fault)
  deriving DecidableEq

namespace Flaw

def message : Flaw → Text
  | emptyLine => "empty line".toList
  | emptyOperand => "empty operand".toList
  | hexDigits => "bad hex literal".toList
  | notRegisterOrLiteral => "not a register or integer literal".toList
  | literalRange => "integer literal out of range".toList
  | notMemory => "expected memory operand like 4[%rN]".toList
  | unterminated => "unterminated memory operand".toList
  | baseNotRegister => "memory base must be a register".toList

end Flaw

namespace Wanted

def message : Wanted → Text
  | register => "expected a register".toList
  | memory => "expected a memory operand".toList

end Wanted

def Text.quoted (t : Text) : Text := "`".toList ++ t ++ "`".toList

namespace Fault

open Text in
/-- Numbers outside 0 to `2 ^ 64` are shown modulo `2 ^ 64`. -/
def message : Fault → Text
  | unreadable token flaw => "cannot parse ".toList ++ quoted token ++ ": ".toList ++ flaw.message
  | noSuchRegister name => "unknown register ".toList ++ quoted name
  | noSuchMnemonic name => "unknown opcode ".toList ++ quoted name
  | noSuchCondition name => "unknown condition ".toList ++ quoted name
  | wrongCount mnemonic expected found =>
    quoted mnemonic ++ " takes ".toList ++ ofNat expected ++ " operands, got ".toList ++ ofNat found
  | wrongOperand mnemonic operand wanted =>
    "invalid operand ".toList ++ quoted operand ++ " for ".toList ++ quoted mnemonic ++
      ": ".toList ++ wanted.message
  | shiftTooFar amount => "shift amount ".toList ++ ofInt amount ++ " outside [-31, 31]".toList
  | unsplittable constant =>
    "constant ".toList ++ ofHex 1 (UInt64.ofInt constant).toNat ++
      " has bits set in both 16-bit halves".toList
  | tooWide field width value =>
    "value ".toList ++ ofHex 1 value.toNat ++ " does not fit in ".toList ++ ofNat width.toNat ++
      "-bit field ".toList ++ quoted field
  | outOfImage address capacity =>
    "word at ".toList ++ ofHex 4 address.toNat ++ " does not fit in ".toList ++ ofNat capacity ++
      "-byte image".toList
  | inLine address text cause =>
    "line ".toList ++ ofHex 4 address.toNat ++ " ".toList ++ quoted text ++ ": ".toList ++
      cause.message

/-- The fault below all mention of lines. -/
def innermost : Fault → Fault
  | inLine _ _ cause => cause.innermost
  | fault => fault

/-- The messages from the outermost fault inwards, one for each level. -/
def chain : Fault → List Text
  | fault@(inLine _ _ cause) => fault.message :: cause.chain
  | fault => [fault.message]

theorem map_eq_ok_iff {α β : Type} {x : Except Fault α} {f : α → β} {b : β} :
    x.map f = .ok b ↔ ∃ a, x = .ok a ∧ f a = b := by
  cases x <;> simp [Except.map]

theorem bind_eq_ok_iff {α β : Type} {x : Except Fault α} {f : α → Except Fault β} {b : β} :
    x >>= f = .ok b ↔ ∃ a, x = .ok a ∧ f a = .ok b := by
  cases x <;> simp [bind, Except.bind]

end Fault
end SoftCore
