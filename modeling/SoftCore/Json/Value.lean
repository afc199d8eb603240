import SoftCore.Text.Numeral

/-! JSON values, with numbers as they are written and strings as they stand
between their quotes, and their text: on one line without blanks, or one
element a line with two blanks for each level. -/

namespace SoftCore

/-- A value as it is written. The texts of numbers, strings and keys are not interpreted. -/
inductive Json where
  | null
  | boolean (b : Bool)
  | number (lexeme : Text)
  | string (raw : Text)
  | array (elements : List Json)
  | object (members : List (Text × Json))

namespace Json

inductive Style where
  | compact
  | pretty
  deriving DecidableEq

namespace Style

def lineBreak : Style → Nat → Text
  | compact, _ => []
  | pretty, depth => '\n' :: List.replicate (2 * depth) ' '

def colon : Style → Text
  | compact => [':']
  | pretty => [':', ' ']

end Style

def quote (raw : Text) : Text := '\"' :: raw ++ ['\"']

mutual

/-- The text of a value that stands `depth` levels deep. -/
def write (style : Style) (depth : Nat) : Json → Text
  | null => "null".toList
  | boolean true => "true".toList
  | boolean false => "false".toList
  | number lexeme => lexeme
  | string raw => quote raw
  | array [] => "[]".toList
  | array (v :: rest) =>
    '[' :: style.lineBreak (depth + 1) ++ write style (depth + 1) v ++
      writeElements style (depth + 1) rest ++ style.lineBreak depth ++ [']']
  | object [] => ['{', '}']
  | object ((key, v) :: rest) =>
    '{' :: style.lineBreak (depth + 1) ++ quote key ++ style.colon ++ write style (depth + 1) v ++
      writeMembers style (depth + 1) rest ++ style.lineBreak depth ++ ['}']

def writeElements (style : Style) (depth : Nat) : List Json → Text
  | [] => []
  | v :: rest =>
    ',' :: style.lineBreak depth ++ write style depth v ++ writeElements style depth rest

def writeMembers (style : Style) (depth : Nat) : List (Text × Json) → Text
  | [] => []
  | (key, v) :: rest =>
    ',' :: style.lineBreak depth ++ quote key ++ style.colon ++ write style depth v ++
      writeMembers style depth rest

end

def compact (v : Json) : Text := v.write .compact 0

def pretty (v : Json) : Text := v.write .pretty 0

def ofNat (n : Nat) : Json := number (Text.ofNat n)

end Json
end SoftCore
