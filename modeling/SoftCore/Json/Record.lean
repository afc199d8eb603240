import SoftCore.Json.Escape

/-! Records with named fields, written as an object or as the array of their
fields. In an object the order is free, unknown fields do not matter and a known
field stands at most once; an array may leave out fields at its end. -/

namespace SoftCore.Json

/-- The members of an object under their names. -/
def named? (members : List (Text × Json)) : Option (List (Text × Json)) :=
  members.mapM fun (raw, v) => (unescape? raw).map fun name => (name, v)

/-- The one value under a name, `none` inside if there is none, and nothing if there are several. -/
def single? (members : List (Text × Json)) (name : Text) : Option (Option Json) :=
  match members.filter (·.1 = name) with
  | [] => some none
  | [(_, v)] => some (some v)
  | _ => none

/-- The fields of a record in the order of `names`, those that are missing as `none`. -/
def record? (names : List Text) : Json → Option (List (Option Json))
  | array elements =>
    if elements.length ≤ names.length then
      some (elements.map some ++ List.replicate (names.length - elements.length) none)
    else none
  | object members => do
    let members ← named? members
    names.mapM (single? members)
  | _ => none

/-- A natural number below `bound`, written in its digits alone. -/
def nat? (bound : Nat) : Json → Option Nat
  | number lexeme => (Radix.decimal.read? lexeme).filter (· < bound)
  | _ => none

theorem nat?_ofNat {bound n : Nat} (h : n < bound) : (ofNat n).nat? bound = some n := by
  simp [ofNat, nat?, Text.ofNat, Radix.read?_write, Option.filter, h]

def bool? : Json → Option Bool
  | boolean b => some b
  | _ => none

def elements? : Json → Option (List Json)
  | array elements => some elements
  | _ => none

end SoftCore.Json
