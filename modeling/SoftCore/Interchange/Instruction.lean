import SoftCore.Json.Record
import SoftCore.Machine.Instruction
import SoftCore.Text.Split

/-! An instruction as a JSON object of one member, named for its format and
holding the record of its fields. The single bits of a memory word are one
string of names between bars. -/

namespace SoftCore

namespace AccessBits

def names (bits : AccessBits) : List Text :=
  (if bits.store then ["STORE".toList] else []) ++ (if bits.p then ["P".toList] else []) ++
    if bits.q then ["Q".toList] else []

def text (bits : AccessBits) : Text := " | ".toList.intercalate bits.names

def none : AccessBits := { store := false, p := false, q := false }

def add? (bits : AccessBits) (name : Text) : Option AccessBits :=
  if name = "STORE".toList then some { bits with store := true }
  else if name = "P".toList then some { bits with p := true }
  else if name = "Q".toList then some { bits with q := true }
  else Option.none

/-- Reads names. A part that gives its bits as a number, in hexadecimal digits after `0x`, is left
out: it could set bits that have no name. -/
def ofText? (t : Text) : Option AccessBits :=
  if t.trim.isEmpty then some none else ((t.pieces '|').map Text.trim).foldlM add? none

theorem ofText?_text (bits : AccessBits) : ofText? bits.text = some bits := by
  rcases bits with ⟨(_ | _), (_ | _), (_ | _)⟩ <;> rfl

end AccessBits

namespace Register

def toJson (r : Register) : Json := Json.ofNat r.id.toNat

def ofJson? (v : Json) : Option Register := (v.nat? 256).map fun n => ⟨UInt8.ofNat n⟩

end Register

namespace Instruction

def fieldNames : Format → List Text
  | .registerImmediate =>
    ["opcode".toList, "rd".toList, "rs".toList, "flags".toList, "high".toList, "constant".toList]
  | .registerRegister =>
    ["rd".toList, "rs1".toList, "rs2".toList, "flags".toList, "ext".toList, "cond".toList]
  | .registerMemory => ["bits".toList, "rd".toList, "rs1".toList, "offset".toList]

def fieldValues : Instruction → List Json
  | registerImmediate opcode rd rs flags high constant =>
    [Json.ofNat opcode.toNat, rd.toJson, rs.toJson, .boolean flags, .boolean high,
      Json.ofNat constant.toNat]
  | registerRegister rd rs1 rs2 flags ext cond =>
    [rd.toJson, rs1.toJson, rs2.toJson, .boolean flags, Json.ofNat ext.toNat,
      Json.ofNat cond.toNat]
  | registerMemory bits rd rs1 offset =>
    [Json.ofText bits.text, rd.toJson, rs1.toJson, Json.ofNat offset.toNat]

def toJson (i : Instruction) : Json :=
  .object [(i.format.name, .object ((fieldNames i.format).zip i.fieldValues))]

def immediateOf? : List (Option Json) → Option Instruction
  | [some opcode, some rd, some rs, some flags, some high, some constant] => do
    let opcode ← opcode.nat? 256
    let rd ← Register.ofJson? rd
    let rs ← Register.ofJson? rs
    let flags ← flags.bool?
    let high ← high.bool?
    let constant ← constant.nat? 0x10000
    pure (.registerImmediate (UInt8.ofNat opcode) rd rs flags high (UInt16.ofNat constant))
  | _ => none

def registerOf? : List (Option Json) → Option Instruction
  | [some rd, some rs1, some rs2, some flags, some ext, some cond] => do
    let rd ← Register.ofJson? rd
    let rs1 ← Register.ofJson? rs1
    let rs2 ← Register.ofJson? rs2
    let flags ← flags.bool?
    let ext ← ext.nat? 256
    let cond ← cond.nat? 256
    pure (.registerRegister rd rs1 rs2 flags (UInt8.ofNat ext) (UInt8.ofNat cond))
  | _ => none

def memoryOf? : List (Option Json) → Option Instruction
  | [some bits, some rd, some rs1, some offset] => do
    let bits ← bits.text? >>= AccessBits.ofText?
    let rd ← Register.ofJson? rd
    let rs1 ← Register.ofJson? rs1
    let offset ← offset.nat? 0x10000000000000000
    pure (.registerMemory bits rd rs1 (UInt64.ofNat offset))
  | _ => none

def ofFields? : Format → List (Option Json) → Option Instruction
  | .registerImmediate => immediateOf?
  | .registerRegister => registerOf?
  | .registerMemory => memoryOf?

def formatNamed? (name : Text) : Option Format :=
  [Format.registerImmediate, .registerRegister, .registerMemory].find? (·.name = name)

def ofJson? : Json → Option Instruction
  | .object [(raw, body)] => do
    let name ← Json.unescape? raw
    let format ← formatNamed? name
    let fields ← body.record? (fieldNames format)
    ofFields? format fields
  | _ => none

end Instruction
end SoftCore
