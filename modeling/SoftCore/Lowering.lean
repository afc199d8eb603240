import SoftCore.Machine.Constant
import SoftCore.Machine.Instruction
import SoftCore.Source.Line
import SoftCore.Source.Mnemonic
import SoftCore.Source.Reference

/-! From a line to the instruction it stands for. Arithmetic and select lines
name two sources and a destination, loads memory and a destination, stores a
source and memory. Operands are examined from left to right, except that the
memory operand of a store comes before its register; immediates last. -/

namespace SoftCore

namespace SourceLine

def countFault (line : SourceLine) (expected : Nat) : Fault :=
  .wrongCount line.mnemonic expected line.operands.length

def readRegister (line : SourceLine) (token : Text) : Except Fault Register := do
  match ← Operand.read token with
  | .register r => pure r
  | .literal _ => throw (.wrongOperand line.mnemonic token .register)

def readReference (line : SourceLine) (token : Text) : Except Fault MemoryReference :=
  if '[' ∈ token then MemoryReference.read token
  else .error (.wrongOperand line.mnemonic token .memory)

end SourceLine

namespace Operation

/-- The immediate of a shift is its signed amount, `high` telling the two shifts apart; that of
any other operation is a constant of 32 bits. -/
def immediate (op : Operation) (n : Int) : Except Fault HalfWord :=
  if op.isShift then
    if -31 ≤ n ∧ n ≤ 31 then .ok { high := op = .sha, bits := UInt16.ofInt n }
    else .error (.shiftTooFar n)
  else HalfWord.ofInt n

end Operation

namespace AccessBits

/-- The bits of an access at `offset`; an offset of zero updates nothing and adds nothing. -/
def ofAccess (access : Access) (update : Update) (offset : Int) : AccessBits where
  store := access = .store
  p := offset ≠ 0 ∧ update ≠ .after
  q := offset ≠ 0 ∧ update ≠ .never

end AccessBits

namespace Instruction

/-- The contents of the offset field: a negative offset in 16 bits, any other as it is. -/
def offsetContents (offset : Int) : Except Fault UInt64 :=
  if 0 ≤ offset then .ok (UInt64.ofInt offset)
  else if offset < -0x8000 then .error (.tooWide "offset".toList 16 (UInt64.ofInt offset))
  else .ok (UInt16.ofInt offset).toUInt64

def ofArithmetic (line : SourceLine) (op : Operation) (flags : Bool) :
    Except Fault Instruction :=
  match line.operands with
  | [first, second, destination] => do
    let rs1 ← line.readRegister first
    let source ← Operand.read second
    let rd ← line.readRegister destination
    match source with
    | .register rs2 => pure (.registerRegister rd rs1 rs2 flags op.extendedCode 0)
    | .literal n => do
      let half ← op.immediate n
      pure (.registerImmediate op.code rd rs1 flags half.high half.bits)
  | _ => throw (line.countFault 3)

def selectCode : UInt8 := 0xE0

def ofSelect (line : SourceLine) (condition : Condition) (flags : Bool) :
    Except Fault Instruction :=
  match line.operands with
  | [first, second, destination] => do
    let rs1 ← line.readRegister first
    let rs2 ← line.readRegister second
    let rd ← line.readRegister destination
    pure (.registerRegister rd rs1 rs2 flags selectCode condition.code)
  | _ => throw (line.countFault 3)

def ofMemory (line : SourceLine) (access : Access) : Except Fault Instruction :=
  match line.operands with
  | [first, second] => do
    let reference ← line.readReference (if access = .load then first else second)
    let rd ← line.readRegister (if access = .load then second else first)
    let offset := reference.displacement
    let contents ← offsetContents offset
    pure (.registerMemory (.ofAccess access reference.update offset) rd reference.base contents)
  | _ => throw (line.countFault 2)

def ofLine (line : SourceLine) : Except Fault Instruction := do
  let mnemonic ← Mnemonic.read line.mnemonic
  match mnemonic.family with
  | .arithmetic op => ofArithmetic line op mnemonic.flags
  | .select condition => ofSelect line condition mnemonic.flags
  | .memory access => ofMemory line access

end Instruction
end SoftCore
