import SoftCore.Machine.Filling
import SoftCore.Source.Register

/-! Instructions in the three formats of the machine and the fields that make
up their words. The condition of a register-register word is split: its low bit
follows the flags and its high bits close the word. -/

namespace SoftCore

inductive Format where
  | registerImmediate
  | registerRegister
  | registerMemory
  deriving DecidableEq

/-- The single bits of a memory word: `p` adds the offset before the access, `q`
writes the updated address back. -/
structure AccessBits where
  store : Bool
  p : Bool
  q : Bool
  deriving DecidableEq

/-- Field contents may be wider than their fields; packing refuses them. -/
inductive Instruction where
  | registerImmediate (opcode : UInt8) (rd rs : Register) (flags high : Bool) (constant : UInt16)
  | registerRegister (rd rs1 rs2 : Register) (flags : Bool) (ext cond : UInt8)
  | registerMemory (bits : AccessBits) (rd rs1 : Register) (offset : UInt64)
  deriving DecidableEq

namespace Format

def name : Format → Text
  | registerImmediate => "Ri".toList
  | registerRegister => "Rr".toList
  | registerMemory => "Rm".toList

end Format

namespace Field

def ofRegister (name : String) (r : Register) : Field := ⟨name.toList, 5, r.id.toUInt64⟩

def ofBit (name : String) (b : Bool) : Field := ⟨name.toList, 1, if b then 1 else 0⟩

def ofBits (name : String) (width : UInt32) (value : UInt64) : Field := ⟨name.toList, width, value⟩

end Field

namespace Instruction

def format : Instruction → Format
  | registerImmediate .. => .registerImmediate
  | registerRegister .. => .registerRegister
  | registerMemory .. => .registerMemory

open SoftCore.Field in
def fields : Instruction → List Field
  | registerImmediate opcode rd rs flags high constant =>
    [ofBits "ri" 1 0, ofBits "opcode" 3 opcode.toUInt64, ofRegister "rd" rd, ofRegister "rs" rs,
      ofBit "flags" flags, ofBit "high" high, ofBits "constant" 16 constant.toUInt64]
  | registerRegister rd rs1 rs2 flags ext cond =>
    [ofBits "rr" 4 12, ofRegister "rd" rd, ofRegister "rs1" rs1, ofBit "flags" flags,
      ofBits "cond.lo" 1 (cond % 2).toUInt64, ofRegister "rs2" rs2, ofBits "ext" 8 ext.toUInt64,
      ofBits "cond.hi" 3 (cond / 2).toUInt64]
  | registerMemory bits rd rs1 offset =>
    [ofBits "rm" 3 4, ofBit "store" bits.store, ofRegister "rd" rd, ofRegister "rs1" rs1,
      ofBit "p" bits.p, ofBit "q" bits.q, ofBits "offset" 16 offset]

theorem totalWidth_fields (i : Instruction) : WordWriter.totalWidth i.fields = 32 := by
  cases i <;> rfl

/-- No field is so wide that it could stop the packing. -/
theorem narrow_fields (i : Instruction) : ∀ f ∈ i.fields, f.width.toNat + 32 < 0x100000000 := by
  intro f h
  have most := WordWriter.width_le_totalWidth h
  rw [totalWidth_fields] at most
  omega

def toWord (i : Instruction) : Except Fault UInt32 :=
  (WordWriter.pack i.fields).get (WordWriter.isSome_pack i.narrow_fields)

theorem pack_fields (i : Instruction) : WordWriter.pack i.fields = some i.toWord :=
  (Option.some_get _).symm

theorem fits_of_toWord {i : Instruction} {w : UInt32} (h : i.toWord = .ok w) :
    ∀ f ∈ i.fields, f.fits := WordWriter.fits_of_pack (i.pack_fields.trans (congrArg some h))

end Instruction
end SoftCore
