import SoftCore.Json.Record
import SoftCore.Program

/-! A program as a JSON object that gives each address its line. A key is the
shortest decimal numeral of an address; of several members with one key the last
one counts. -/

namespace SoftCore.Program

def key (address : UInt32) : Text := Text.ofNat address.toNat

/-- The address of a key as it stands between its quotes. -/
def ofKey? (raw : Text) : Option UInt32 :=
  match Radix.decimal.read? raw with
  | some n => if n < 0x100000000 ∧ Text.ofNat n = raw then some (UInt32.ofNat n) else none
  | none => none

theorem ofKey?_key (address : UInt32) : ofKey? (key address) = some address := by
  have h := address.toNat_lt
  simp [ofKey?, key, Text.ofNat, Radix.read?_write, h]

def toJson (p : Program) : Json :=
  .object (p.entries.map fun e => (key e.address, Json.ofText e.text))

def entry? : Text × Json → Option Entry
  | (raw, v) => do
    let address ← ofKey? raw
    let text ← v.text?
    pure { address, text }

def ofJson? : Json → Option Program
  | .object members => (members.mapM entry?).map ofEntries
  | _ => none

end SoftCore.Program
