import SoftCore.Assembly
import SoftCore.Json.Escape

/-! What an assembly is reported as: the words of the image in hexadecimal, and
the lines of the program beside the words that stand at their addresses. -/

namespace SoftCore.Report

def hexWord (w : UInt32) : Text := Radix.hexadecimal.writePadded 8 w.toNat

def hexLines (image : Image) : Text := image.words.flatMap fun w => hexWord w ++ ['\n']

/-- The lines of a program with the words that the image holds for them. -/
def rows (image : Image) : List Entry → Except Fault (List Row)
  | [] => .ok []
  | e :: rest => do
    let word ← image.read e.address
    let others ← rows image rest
    pure ({ address := e.address, word, text := e.text } :: others)

def rowText (row : Row) : Text :=
  Text.ofHex 4 row.address.toNat ++ ": ".toList ++ hexWord row.word ++ "  ".toList ++ row.text ++
    ['\n']

def rowsText (rows : List Row) : Text := rows.flatMap rowText

def rowJson (row : Row) : Json :=
  .object [("addr".toList, Json.ofNat row.address.toNat), ("word".toList, Json.ofNat row.word.toNat),
    ("text".toList, Json.ofText row.text)]

def rowsJson (rows : List Row) : Text := (Json.array (rows.map rowJson)).pretty

theorem entries_of_rows {image : Image} {entries : List Entry} {rs : List Row}
    (h : rows image entries = .ok rs) : rs.map (fun row => ⟨row.address, row.text⟩) = entries := by
  induction entries generalizing rs with
  | nil =>
    cases h
    rfl
  | cons e rest ih =>
    obtain ⟨word, -, h⟩ := Fault.bind_eq_ok_iff.mp h
    obtain ⟨others, ho, h⟩ := Fault.bind_eq_ok_iff.mp h
    cases h
    simp [ih ho]

end SoftCore.Report
