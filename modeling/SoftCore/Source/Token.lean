import SoftCore.Source.Register
import SoftCore.Source.Literal

/-! Operands as tokens of a line. A token that starts with `%` is a register or
an unknown one, and never a literal; any other token is a literal or unreadable. -/

namespace SoftCore

inductive Operand where
  | register (r : Register)
  | literal (n : Int)
  deriving DecidableEq

namespace Operand

def read (token : Text) : Except Fault Operand :=
  match token.trim with
  | '%' :: name => (Register.ofName name).map register
  | body => (Literal.read body).map literal

theorem exists_of_read {token : Text} {r : Register} (h : read token = .ok (register r)) :
    r.Exists := by
  unfold read at h
  split at h
  · obtain ⟨s, hs, e⟩ := Fault.map_eq_ok_iff.mp h
    cases e
    unfold Register.ofName at hs
    split at hs
    · rename_i found
      cases hs
      exact Register.exists_of_named? found
    · cases hs
  · obtain ⟨n, -, e⟩ := Fault.map_eq_ok_iff.mp h
    cases e

end Operand
end SoftCore
