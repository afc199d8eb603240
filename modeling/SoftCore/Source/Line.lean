import SoftCore.Fault
import SoftCore.Text.Split
import SoftCore.Text.LowerCase

/-! A line of assembly as a mnemonic in lower case and the tokens of its
operands. Blanks around the line, after the mnemonic and beside the commas
carry no meaning; a slot between commas may not be blank. -/

namespace SoftCore

structure SourceLine where
  mnemonic : Text
  operands : List Text
  deriving DecidableEq

namespace SourceLine

def firstWord (t : Text) : Text := t.takeWhile (!Text.isBlank ·)

def afterFirstWord (t : Text) : Text := Text.trim (t.dropWhile (!Text.isBlank ·))

def operandSlots (t : Text) : List Text := if t.isEmpty then [] else (t.pieces ',').map Text.trim

def read (text : Text) : Except Fault SourceLine :=
  if text.trim.isEmpty then .error (.unreadable text .emptyLine)
  else
    let operands := operandSlots (afterFirstWord text.trim)
    if operands.any List.isEmpty then .error (.unreadable text .emptyOperand)
    else .ok { mnemonic := Text.lower (firstWord text.trim), operands }

theorem nonempty_of_mem_operands {text : Text} {line : SourceLine} (h : read text = .ok line)
    {token : Text} (ht : token ∈ line.operands) : token ≠ [] := by
  unfold read at h
  split at h
  · cases h
  · dsimp only at h
    split at h
    · cases h
    · rename_i filled
      cases h
      rintro rfl
      exact filled (List.any_eq_true.mpr ⟨[], ht, rfl⟩)

end SourceLine
end SoftCore
