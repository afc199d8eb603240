import SoftCore.Json.Record
import SoftCore.Machine.Image

/-! The settings of an assembly as a JSON record; a setting left out has its
usual value. -/

namespace SoftCore

structure Config where
  imageSize : UInt64
  deriving DecidableEq

namespace Config

def usual : Config := { imageSize := UInt64.ofNat Image.defaultSize }

def toJson (c : Config) : Json := .object [("image_size".toList, Json.ofNat c.imageSize.toNat)]

def ofJson? (v : Json) : Option Config :=
  match v.record? ["image_size".toList] with
  | some [none] => some usual
  | some [some field] => (field.nat? 0x10000000000000000).map fun n => { imageSize := UInt64.ofNat n }
  | _ => none

end Config
end SoftCore
