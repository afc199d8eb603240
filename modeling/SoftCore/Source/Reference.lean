import SoftCore.Source.Token
import SoftCore.Text.Split

/-! Memory operands `offset[base]`. The offset may be left out, and a mark `++`
or `*` on one side of the base asks for the updated address to be written back:
before the access when it stands in front, after it when it stands behind. -/

namespace SoftCore

/-- When the base register takes the updated address. -/
inductive Update where
  | never
  | before
  | after
  deriving DecidableEq

structure MemoryReference where
  base : Register
  offset : Option Int
  update : Update
  deriving DecidableEq

namespace Update

/-- The update that the marks ask for, and what stands beside them. -/
def split (inside : Text) : Update × Text :=
  match inside with
  | '+' :: '+' :: name => (before, name)
  | '*' :: name => (before, name)
  | _ =>
    match inside.reverse with
    | '+' :: '+' :: name => (after, name.reverse)
    | '*' :: name => (after, name.reverse)
    | _ => (never, inside)

end Update

namespace MemoryReference

def readOffset (front : Text) : Except Fault (Option Int) :=
  if front.trim.isEmpty then .ok none else (Literal.read front.trim).map some

/-- The text inside the brackets, given what follows the opening one. -/
def inside? (rest : Text) : Option Text :=
  if rest.getLast? = some ']' then some (Text.trim rest.dropLast) else none

def readBase (token name : Text) : Except Fault Register := do
  match ← Operand.read name with
  | .register r => pure r
  | .literal _ => throw (.unreadable token .baseNotRegister)

def read (token : Text) : Except Fault MemoryReference :=
  match token.trim.cut? '[' with
  | none => .error (.unreadable token .notMemory)
  | some (front, rest) =>
    match inside? rest with
    | none => .error (.unreadable token .unterminated)
    | some inside => do
      let offset ← readOffset front
      let base ← readBase token (Update.split inside).2
      pure { base, offset, update := (Update.split inside).1 }

/-- The written offset, else one word for an updating reference and none for a plain one. -/
def displacement (m : MemoryReference) : Int :=
  match m.offset, m.update with
  | some n, _ => n
  | none, .never => 0
  | none, _ => 4

end MemoryReference
end SoftCore
