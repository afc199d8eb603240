import SoftCore.Text.Blank

/-! Numbers written with digits in base ten or sixteen. Reading takes one or
more ASCII digits, leading zeros and both letter cases included; writing uses
the fewest digits and lower case, padded with zeros where a width is asked for.
What is written is read back. A number of a fixed size may have a plus sign, and
reading it ends at the first digit that makes it too large. -/

namespace SoftCore

inductive Radix where
  | decimal
  | hexadecimal
  deriving DecidableEq

/-- Why a text is no number of a fixed size. -/
inductive NumberFlaw where
  | noDigits
  | badDigit
  | tooLarge
  deriving DecidableEq

namespace NumberFlaw

def message : NumberFlaw → Text
  | noDigits => "cannot parse integer from empty string".toList
  | badDigit => "invalid digit found in string".toList
  | tooLarge => "number too large to fit in target type".toList

end NumberFlaw

namespace Radix

def base : Radix → Nat
  | .decimal => 10
  | .hexadecimal => 16

theorem one_lt_base (r : Radix) : 1 < r.base := by cases r <;> decide

/-- The value of a digit in any base up to sixteen. -/
def digitValue? (c : Char) : Option Nat :=
  if '0' ≤ c ∧ c ≤ '9' then some (c.toNat - 48)
  else if 'a' ≤ c ∧ c ≤ 'f' then some (c.toNat - 87)
  else if 'A' ≤ c ∧ c ≤ 'F' then some (c.toNat - 55)
  else none

def digit? (r : Radix) (c : Char) : Option Nat := (digitValue? c).filter (· < r.base)

theorem digit?_digitChar (r : Radix) {d : Nat} (h : d < r.base) : r.digit? d.digitChar = some d := by
  have all : ∀ r ∈ [decimal, hexadecimal], ∀ d ∈ List.range r.base,
      r.digit? d.digitChar = some d := by decide
  exact all r (by cases r <;> simp) d (List.mem_range.mpr h)

/-- The number that the digits of `t` make after those that made `high`. -/
def accumulate (r : Radix) (high : Nat) : Text → Option Nat
  | [] => some high
  | c :: t => (r.digit? c).bind fun d => r.accumulate (high * r.base + d) t

def read? (r : Radix) (t : Text) : Option Nat := if t.isEmpty then none else r.accumulate 0 t

theorem accumulate_append (r : Radix) (high : Nat) (s t : Text) :
    r.accumulate high (s ++ t) = (r.accumulate high s).bind (r.accumulate · t) := by
  induction s generalizing high with
  | nil => rfl
  | cons c s ih => cases h : r.digit? c <;> simp [accumulate, h, ih]

theorem accumulate_replicate_zero (r : Radix) (k : Nat) : r.accumulate 0 (List.replicate k '0') = some 0 := by
  have zero : r.digit? '0' = some 0 := by cases r <;> decide
  induction k with
  | zero => rfl
  | succ k ih => simp [List.replicate_succ, accumulate, zero, ih]

def write (r : Radix) (n : Nat) : Text := Nat.toDigits r.base n

theorem accumulate_write (r : Radix) (n : Nat) : r.accumulate 0 (r.write n) = some n := by
  induction n using Nat.strongRecOn with
  | ind n ih =>
    by_cases h : n < r.base
    · rw [write, Nat.toDigits_of_lt_base h]
      simp [accumulate, digit?_digitChar r h]
    · have hb := r.one_lt_base
      have hd : n / r.base < n := Nat.div_lt_self (by omega) hb
      have hm : n % r.base < r.base := Nat.mod_lt _ (by omega)
      rw [write, Nat.toDigits_of_base_le hb (by omega), accumulate_append, ← write, ih _ hd]
      simp [accumulate, digit?_digitChar r hm, Nat.div_add_mod']

/-- At least `width` digits. -/
def writePadded (r : Radix) (width n : Nat) : Text :=
  List.replicate (width - (r.write n).length) '0' ++ r.write n

theorem write_ne_nil (r : Radix) (n : Nat) : r.write n ≠ [] :=
  List.ne_nil_of_length_pos Nat.length_toDigits_pos

theorem read?_write (r : Radix) (n : Nat) : r.read? (r.write n) = some n := by
  simp [read?, write_ne_nil, accumulate_write]

theorem read?_writePadded (r : Radix) (width n : Nat) :
    r.read? (r.writePadded width n) = some n := by
  simp [read?, writePadded, write_ne_nil, accumulate_append, accumulate_replicate_zero,
    accumulate_write]

/-! Numbers of a fixed size. -/

/-- The number below `limit` of the digits that follow those of `high`; the first digit at which it
is no digit or the number gets to the limit decides. -/
def readBelow (r : Radix) (limit high : Nat) : Text → Except NumberFlaw Nat
  | [] => .ok high
  | c :: rest =>
    match r.digit? c with
    | none => .error .badDigit
    | some d =>
      if high * r.base + d < limit then r.readBelow limit (high * r.base + d) rest
      else .error .tooLarge

/-- A number below `limit`, with a plus sign before its digits or none. -/
def readUnsigned (r : Radix) (limit : Nat) : Text → Except NumberFlaw Nat
  | [] => .error .noDigits
  | ['+'] => .error .badDigit
  | '+' :: digits => r.readBelow limit 0 digits
  | digits => r.readBelow limit 0 digits

theorem le_of_accumulate {r : Radix} {high n : Nat} {t : Text} (h : r.accumulate high t = some n) :
    high ≤ n := by
  induction t generalizing high with
  | nil => exact Nat.le_of_eq (Option.some.inj h)
  | cons c rest ih =>
    obtain ⟨d, -, h⟩ := Option.bind_eq_some_iff.mp h
    have grows := Nat.le_mul_of_pos_right high (Nat.lt_trans Nat.one_pos r.one_lt_base)
    have := ih h
    omega

/-- Numbers only grow on the way, so ending early refuses the numbers that are too large. -/
theorem readBelow_of_accumulate {r : Radix} {limit high n : Nat} {t : Text} (small : high < limit)
    (h : r.accumulate high t = some n) :
    r.readBelow limit high t = if n < limit then .ok n else .error .tooLarge := by
  induction t generalizing high with
  | nil =>
    cases h
    rw [if_pos small, readBelow]
  | cons c rest ih =>
    obtain ⟨d, digit, tail⟩ := Option.bind_eq_some_iff.mp h
    rw [readBelow, digit]
    dsimp only
    split
    · rename_i below
      exact ih below tail
    · have grown := le_of_accumulate tail
      rw [if_neg (by omega)]

theorem accumulate_of_readBelow {r : Radix} {limit high n : Nat} {t : Text}
    (h : r.readBelow limit high t = .ok n) : r.accumulate high t = some n := by
  induction t generalizing high with
  | nil =>
    cases h
    rfl
  | cons c rest ih =>
    rw [readBelow] at h
    rw [accumulate]
    split at h
    · cases h
    · rename_i d digit
      rw [digit, Option.bind_some]
      split at h
      · exact ih h
      · cases h

end Radix

namespace Text

def ofNat (n : Nat) : Text := Radix.decimal.write n

def ofInt (n : Int) : Text := if n < 0 then '-' :: ofNat n.natAbs else ofNat n.natAbs

/-- The marked hexadecimal form `0x…` with at least `width` digits. -/
def ofHex (width n : Nat) : Text := '0' :: 'x' :: Radix.hexadecimal.writePadded width n

/-- What follows the mark of a hexadecimal number. -/
def afterHexMark? : Text → Option Text
  | '0' :: 'x' :: digits => some digits
  | '0' :: 'X' :: digits => some digits
  | _ => none

theorem afterHexMark?_ofHex (width n : Nat) :
    afterHexMark? (ofHex width n) = some (Radix.hexadecimal.writePadded width n) := rfl

end Text
end SoftCore
