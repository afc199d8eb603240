import SoftCore.Json.Value

/-! Characters of a string as they stand between its quotes. Writing escapes the
quote, the backslash and the control characters and nothing else. Reading knows
every escape; two escaped surrogates make one character, and one alone makes the
string unreadable. What is written is read back. -/

namespace SoftCore.Json

def escapeChar (c : Char) : Text :=
  if c = '\"' then ['\\', '\"']
  else if c = '\\' then ['\\', '\\']
  else if c.toNat = 8 then ['\\', 'b']
  else if c.toNat = 9 then ['\\', 't']
  else if c.toNat = 10 then ['\\', 'n']
  else if c.toNat = 12 then ['\\', 'f']
  else if c.toNat = 13 then ['\\', 'r']
  else if c.toNat < 32 then '\\' :: 'u' :: Radix.hexadecimal.writePadded 4 c.toNat
  else [c]

def escape (t : Text) : Text := t.flatMap escapeChar

def ofText (t : Text) : Json := string (escape t)

/-- The character of a two-character escape. -/
def simpleEscape? (c : Char) : Option Char :=
  if c = '\"' ∨ c = '\\' ∨ c = '/' then some c
  else if c = 'b' then some (Char.ofNat 8)
  else if c = 't' then some (Char.ofNat 9)
  else if c = 'n' then some (Char.ofNat 10)
  else if c = 'f' then some (Char.ofNat 12)
  else if c = 'r' then some (Char.ofNat 13)
  else none

/-- A part of a string: a character, or a code unit of sixteen bits given by its number. -/
inductive Piece where
  | plain (c : Char)
  | unit (n : Nat)
  deriving DecidableEq

namespace Piece

def ofRaw? : Text → Option (List Piece)
  | [] => some []
  | '\\' :: 'u' :: a :: b :: c :: d :: rest => do
    let n ← Radix.hexadecimal.read? [a, b, c, d]
    let pieces ← ofRaw? rest
    pure (unit n :: pieces)
  | '\\' :: c :: rest => do
    let plainChar ← simpleEscape? c
    let pieces ← ofRaw? rest
    pure (plain plainChar :: pieces)
  | c :: rest => if c = '\\' then none else (ofRaw? rest).map (plain c :: ·)

def isHigh (n : Nat) : Bool := 0xD800 ≤ n && n < 0xDC00

def isLow (n : Nat) : Bool := 0xDC00 ≤ n && n < 0xE000

def joined (high low : Nat) : Char := Char.ofNat (0x10000 + (high - 0xD800) * 0x400 + (low - 0xDC00))

def toText? : List Piece → Option Text
  | [] => some []
  | plain c :: rest => (toText? rest).map (c :: ·)
  | unit n :: rest =>
    if isHigh n then
      match rest with
      | unit m :: rest => if isLow m then (toText? rest).map (joined n m :: ·) else none
      | _ => none
    else if isLow n then none
    else (toText? rest).map (Char.ofNat n :: ·)

/-- The piece that a written character is read as. -/
def ofChar (c : Char) : Piece :=
  if c.toNat < 32 ∧ c.toNat ∉ [8, 9, 10, 12, 13] then unit c.toNat else plain c

theorem ofRaw?_unit {a b c d : Char} {n : Nat} (h : Radix.hexadecimal.read? [a, b, c, d] = some n)
    (rest : Text) :
    ofRaw? ('\\' :: 'u' :: a :: b :: c :: d :: rest) = (ofRaw? rest).map (unit n :: ·) := by
  rw [ofRaw?, h]
  cases ofRaw? rest <;> rfl

theorem ofRaw?_simple {c d : Char} (h : simpleEscape? c = some d) (other : c ≠ 'u') (rest : Text) :
    ofRaw? ('\\' :: c :: rest) = (ofRaw? rest).map (plain d :: ·) := by
  rw [ofRaw?, h]
  · cases ofRaw? rest <;> rfl
  · rintro _ _ _ _ _ rfl
    exact absurd rfl other

theorem ofRaw?_plain {c : Char} (h : c ≠ '\\') (rest : Text) :
    ofRaw? (c :: rest) = (ofRaw? rest).map (plain c :: ·) := by
  rw [ofRaw?, if_neg h]
  · rintro _ _ _ _ _ rfl
    exact absurd rfl h
  · rintro _ _ rfl
    exact absurd rfl h

theorem length_writePadded_four {n : Nat} (h : n < 32) :
    (Radix.hexadecimal.writePadded 4 n).length = 4 := by
  have all : ∀ n ∈ List.range 32, (Radix.hexadecimal.writePadded 4 n).length = 4 := by decide
  exact all n (List.mem_range.mpr h)

theorem eq_ofNat {c : Char} {n : Nat} (h : c.toNat = n) : c = Char.ofNat n := by
  rw [← h, Char.ofNat_toNat]

theorem ofRaw?_escapeChar (c : Char) (rest : Text) :
    ofRaw? (escapeChar c ++ rest) = (ofRaw? rest).map (ofChar c :: ·) := by
  unfold escapeChar
  split
  · subst c
    exact ofRaw?_simple rfl (by decide) rest
  split
  · subst c
    exact ofRaw?_simple rfl (by decide) rest
  rename_i notQuote notBackslash
  split
  · rw [eq_ofNat ‹c.toNat = 8›]
    exact ofRaw?_simple rfl (by decide) rest
  split
  · rw [eq_ofNat ‹c.toNat = 9›]
    exact ofRaw?_simple rfl (by decide) rest
  split
  · rw [eq_ofNat ‹c.toNat = 10›]
    exact ofRaw?_simple rfl (by decide) rest
  split
  · rw [eq_ofNat ‹c.toNat = 12›]
    exact ofRaw?_simple rfl (by decide) rest
  split
  · rw [eq_ofNat ‹c.toNat = 13›]
    exact ofRaw?_simple rfl (by decide) rest
  split
  · have control : c.toNat < 32 := ‹_›
    have piece : ofChar c = unit c.toNat := by simp [ofChar, *]
    have four := length_writePadded_four control
    have value := Radix.read?_writePadded .hexadecimal 4 c.toNat
    match digits : Radix.hexadecimal.writePadded 4 c.toNat, four with
    | [x, y, z, w], _ =>
      rw [digits] at value
      rw [piece]
      exact ofRaw?_unit value rest
  · have piece : ofChar c = plain c := by simp [ofChar, *]
    rw [piece]
    exact ofRaw?_plain notBackslash rest

theorem ofRaw?_escape (t : Text) : ofRaw? (escape t) = some (t.map ofChar) := by
  induction t with
  | nil => rfl
  | cons c t ih =>
    have step : escape (c :: t) = escapeChar c ++ escape t := rfl
    rw [step, ofRaw?_escapeChar, ih]
    rfl

theorem toText?_ofChar (t : Text) : toText? (t.map ofChar) = some t := by
  induction t with
  | nil => rfl
  | cons c t ih =>
    have piece : (ofChar c = unit c.toNat ∧ c.toNat < 32) ∨ ofChar c = plain c := by
      unfold ofChar
      split <;> simp_all
    rcases piece with ⟨piece, control⟩ | piece
    · have low : isHigh c.toNat = false ∧ isLow c.toNat = false := by
        simp only [isHigh, isLow, Bool.and_eq_false_iff, decide_eq_false_iff_not]
        omega
      rw [List.map_cons, piece, toText?.eq_def]
      simp [low, ih, Char.ofNat_toNat]
    · simp [piece, toText?, ih]

end Piece

def unescape? (raw : Text) : Option Text := (Piece.ofRaw? raw).bind Piece.toText?

theorem unescape?_escape (t : Text) : unescape? (escape t) = some t := by
  rw [unescape?, Piece.ofRaw?_escape, Option.bind_some, Piece.toText?_ofChar]

def text? : Json → Option Text
  | string raw => unescape? raw
  | _ => none

theorem text?_ofText (t : Text) : (ofText t).text? = some t := unescape?_escape t

end SoftCore.Json
