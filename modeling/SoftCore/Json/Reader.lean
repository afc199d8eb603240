import SoftCore.Json.Value

/-! Reading a JSON text. The grammar is the strict one: no comments, no trailing
commas, no leading zeros, no control characters in strings, and only JSON's own
blanks around the parts. Escapes are checked for their form and kept. -/

namespace SoftCore.Json

def isSpace (c : Char) : Bool := c = ' ' || c = '\t' || c = '\n' || c = '\r'

def skipSpace (t : Text) : Text := t.dropWhile isSpace

def isHexDigit (c : Char) : Bool := (Radix.hexadecimal.digit? c).isSome

/-- The inside of a string up to its closing quote, and what follows the quote. -/
def readString : Text → Option (Text × Text)
  | [] => none
  | '\"' :: rest => some ([], rest)
  | '\\' :: 'u' :: a :: b :: c :: d :: rest =>
    if [a, b, c, d].all isHexDigit then
      (readString rest).map fun (raw, after) => ('\\' :: 'u' :: a :: b :: c :: d :: raw, after)
    else none
  | '\\' :: c :: rest =>
    if c ∈ ['\"', '\\', '/', 'b', 'f', 'n', 'r', 't'] then
      (readString rest).map fun (raw, after) => ('\\' :: c :: raw, after)
    else none
  | c :: rest =>
    if c = '\\' ∨ c.toNat < 0x20 then none
    else (readString rest).map fun (raw, after) => (c :: raw, after)

def isNumberChar (c : Char) : Bool := c.isDigit || c = '-' || c = '+' || c = '.' || c = 'e' || c = 'E'

def isDigits (t : Text) : Bool := !t.isEmpty && t.all Char.isDigit

/-- Digits with an optional sign in front, as they follow the mark of an exponent. -/
def isExponent : Text → Bool
  | '+' :: digits => isDigits digits
  | '-' :: digits => isDigits digits
  | digits => isDigits digits

def isExponentPart : Text → Bool
  | [] => true
  | 'e' :: rest => isExponent rest
  | 'E' :: rest => isExponent rest
  | _ => false

def isFraction : Text → Bool
  | '.' :: rest =>
    !(rest.takeWhile Char.isDigit).isEmpty && isExponentPart (rest.dropWhile Char.isDigit)
  | rest => isExponentPart rest

def isUnsignedNumber : Text → Bool
  | '0' :: rest => isFraction rest
  | t => !(t.takeWhile Char.isDigit).isEmpty && isFraction (t.dropWhile Char.isDigit)

def isNumber : Text → Bool
  | '-' :: rest => isUnsignedNumber rest
  | t => isUnsignedNumber t

def readNumber (t : Text) : Option (Json × Text) :=
  if isNumber (t.takeWhile isNumberChar) then
    some (number (t.takeWhile isNumberChar), t.dropWhile isNumberChar)
  else none

mutual

/-- A value at the start of the text, and what follows it. -/
def readValue : Nat → Text → Option (Json × Text)
  | 0, _ => none
  | fuel + 1, t =>
    match skipSpace t with
    | '\"' :: rest => (readString rest).map fun (raw, after) => (string raw, after)
    | '[' :: rest =>
      match skipSpace rest with
      | ']' :: after => some (array [], after)
      | _ => (readElements fuel rest).map fun (elements, after) => (array elements, after)
    | '{' :: rest =>
      match skipSpace rest with
      | '}' :: after => some (object [], after)
      | _ => (readMembers fuel rest).map fun (members, after) => (object members, after)
    | 'n' :: 'u' :: 'l' :: 'l' :: after => some (null, after)
    | 't' :: 'r' :: 'u' :: 'e' :: after => some (boolean true, after)
    | 'f' :: 'a' :: 'l' :: 's' :: 'e' :: after => some (boolean false, after)
    | rest => readNumber rest

/-- One or more elements up to the bracket that closes the array. -/
def readElements : Nat → Text → Option (List Json × Text)
  | 0, _ => none
  | fuel + 1, t => do
    let (v, rest) ← readValue fuel t
    match skipSpace rest with
    | ']' :: after => some ([v], after)
    | ',' :: rest => (readElements fuel rest).map fun (vs, after) => (v :: vs, after)
    | _ => none

/-- One or more members up to the brace that closes the object. -/
def readMembers : Nat → Text → Option (List (Text × Json) × Text)
  | 0, _ => none
  | fuel + 1, t =>
    match skipSpace t with
    | '\"' :: rest => do
      let (key, rest) ← readString rest
      match skipSpace rest with
      | ':' :: rest => do
        let (v, rest) ← readValue fuel rest
        match skipSpace rest with
        | '}' :: after => some ([(key, v)], after)
        | ',' :: rest => (readMembers fuel rest).map fun (ms, after) => ((key, v) :: ms, after)
        | _ => none
      | _ => none
    | _ => none

end

/-- A text that is one value. A level of nesting and an element each take at least one character,
so twice the length bounds the depth of the reading. -/
def read? (t : Text) : Option Json :=
  match readValue (2 * t.length + 2) t with
  | some (v, after) => if (skipSpace after).isEmpty then some v else none
  | none => none

end SoftCore.Json
