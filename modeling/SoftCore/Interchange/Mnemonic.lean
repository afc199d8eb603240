import SoftCore.Json.Record
import SoftCore.Source.Mnemonic
import SoftCore.Text.LowerCase

/-! A mnemonic as a JSON record. Operations and conditions are named by their
spelling with a capital letter. -/

namespace SoftCore

def Operation.title (op : Operation) : Text := op.name.capitalize

def Condition.title (c : Condition) : Text := c.name.capitalize

def Access.title : Access → Text
  | .load => "Load".toList
  | .store => "Store".toList

def Family.toJson : Family → Json
  | .arithmetic op => .object [("Alu".toList, Json.ofText op.title)]
  | .select c => .object [("Select".toList, Json.ofText c.title)]
  | .memory a => .object [("Memory".toList, Json.ofText a.title)]

def Mnemonic.toJson (m : Mnemonic) : Json :=
  .object [("family".toList, m.family.toJson), ("flags".toList, .boolean m.flags)]

end SoftCore
