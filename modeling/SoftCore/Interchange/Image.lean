import SoftCore.Json.Record
import SoftCore.Machine.Image

/-! An image as a JSON record of its bytes. -/

namespace SoftCore.Image

def byte? (v : Json) : Option UInt8 := (v.nat? 256).map UInt8.ofNat

def toJson (image : Image) : Json :=
  .object [("mem".toList, .array (image.bytes.toList.map fun b => Json.ofNat b.toNat))]

def ofJson? (v : Json) : Option Image :=
  match v.record? ["mem".toList] with
  | some [some field] => do
    let elements ← field.elements?
    let bytes ← elements.mapM byte?
    pure ⟨bytes.toArray⟩
  | _ => none

theorem byte?_ofNat (b : UInt8) : byte? (Json.ofNat b.toNat) = some b := by
  rw [byte?, Json.nat?_ofNat b.toNat_lt]
  simp

end SoftCore.Image
