import SoftCore.Proofs.Numerals

/-! Which tokens are integer literals and what they are: a numeral of base ten,
or of base sixteen behind its mark, with a minus sign or none. The numbers of a
machine are enough for reading them, and every number between the limits is
read back from what it is written as. -/

namespace SoftCore

open Text Fault

namespace Literal

/-- Digits in base ten, or in base sixteen behind `0x` or `0X`. -/
def Magnitude (t : Text) (k : Nat) : Prop :=
  Radix.decimal.Numeral t k ∨
    ∃ mark digits, (mark = 'x' ∨ mark = 'X') ∧ t = '0' :: mark :: digits ∧
      Radix.hexadecimal.Numeral digits k

/-- A magnitude, a minus sign directly before it where it is negative. -/
def Written (t : Text) (negative : Bool) (k : Nat) : Prop :=
  ∃ body, t = (if negative then '-' :: body else body) ∧ Magnitude body k

/-- Only digits and the mark stand in a magnitude. -/
theorem Magnitude.not_mem {t : Text} {k : Nat} (h : Magnitude t k) {c : Char}
    (other : Radix.digitValue? c = none) (lower : c ≠ 'x') (upper : c ≠ 'X') : c ∉ t := by
  rcases h with numeral | ⟨mark, digits, isMark, rfl, numeral⟩
  · exact numeral.not_mem other
  · have apart : c ≠ '0' ∧ c ≠ mark := by
      refine ⟨?_, ?_⟩
      · rintro rfl
        exact absurd other (by decide)
      · rcases isMark with rfl | rfl
        · exact lower
        · exact upper
    simp [apart, numeral.not_mem other]

theorem Magnitude.solid {t : Text} {k : Nat} (h : Magnitude t k) : Solid t := by
  rcases h with numeral | ⟨mark, digits, isMark, rfl, numeral⟩
  · exact numeral.solid
  · have solidMark : isBlank mark = false := by rcases isMark with rfl | rfl <;> decide
    exact solid_cons.mpr ⟨by decide, solid_cons.mpr ⟨solidMark, numeral.solid⟩⟩

theorem limit_eq : limit = 2 ^ 63 := by decide

/-- A magnitude is read exactly up to the limit, whatever zeros are in front of it. -/
theorem unsigned_of_magnitude {body : Text} {k : Nat} (h : Magnitude body k) (token : Text) :
    unsigned token body =
      if k < 2 ^ 63 then .ok k else .error (.unreadable token .literalRange) := by
  rw [← limit_eq, unsigned]
  rcases h with numeral | ⟨mark, digits, isMark, rfl, numeral⟩
  · have value := Radix.read?_eq_some_iff_numeral.mpr numeral
    rw [afterHexMark?_of_not_mem (numeral.not_mem (by decide)) (numeral.not_mem (by decide))]
    dsimp only
    rw [magnitude, value]
  · have value := Radix.read?_eq_some_iff_numeral.mpr numeral
    rw [afterHexMark?_eq_some_iff.mpr ⟨mark, isMark, rfl⟩]
    dsimp only
    rw [magnitude, value]

/-- What is read without a sign is a magnitude. -/
theorem magnitude_of_unsigned {token body : Text} {k : Nat} (h : unsigned token body = .ok k) :
    Magnitude body k := by
  unfold unsigned at h
  split at h
  · rename_i digits marked
    obtain ⟨mark, isMark, rfl⟩ := afterHexMark?_eq_some_iff.mp marked
    exact .inr ⟨mark, digits, isMark, rfl,
      Radix.read?_eq_some_iff_numeral.mp (magnitude_eq_ok_iff.mp h).1⟩
  · exact .inl (Radix.read?_eq_some_iff_numeral.mp (magnitude_eq_ok_iff.mp h).1)

theorem unsigned_eq_ok_iff {token body : Text} {k : Nat} :
    unsigned token body = .ok k ↔ Magnitude body k ∧ k < 2 ^ 63 := by
  constructor
  · intro h
    have magnitude := magnitude_of_unsigned h
    refine ⟨magnitude, Nat.lt_of_not_le fun large => ?_⟩
    rw [unsigned_of_magnitude magnitude token, if_neg (Nat.not_lt.mpr large)] at h
    cases h
  · rintro ⟨magnitude, small⟩
    rw [unsigned_of_magnitude magnitude token, if_pos small]

/-- The number with its sign. -/
def signed (negative : Bool) (k : Nat) : Int := if negative then -k else k

theorem natAbs_signed (negative : Bool) (k : Nat) : (signed negative k).natAbs = k := by
  cases negative <;> simp [signed]

theorem read_of_written {token : Text} {negative : Bool} {k : Nat}
    (h : Written token.trim negative k) : read token =
      if k < 2 ^ 63 then .ok (signed negative k) else .error (.unreadable token .literalRange) := by
  obtain ⟨body, shape, magnitude⟩ := h
  have unsigned := unsigned_of_magnitude magnitude token
  cases negative with
  | true =>
    rw [read_of_minus shape, unsigned]
    split <;> rfl
  | false =>
    obtain rfl : token.trim = body := shape
    -- A magnitude begins with a digit, so its token has no sign.
    have plain : ∀ body, token.trim ≠ '-' :: body := fun body minus => by
      have absent : '-' ∉ token.trim := magnitude.not_mem (by decide) (by decide) (by decide)
      exact absent (minus ▸ List.mem_cons_self)
    rw [read_of_not_minus plain, unsigned]
    split <;> rfl

theorem written_of_read {token : Text} {n : Int} (h : read token = .ok n) :
    ∃ negative k, Written token.trim negative k ∧ n = signed negative k := by
  by_cases minus : ∃ body, token.trim = '-' :: body
  · obtain ⟨body, shape⟩ := minus
    rw [read_of_minus shape] at h
    obtain ⟨k, unsigned, rfl⟩ := map_eq_ok_iff.mp h
    exact ⟨true, k, ⟨body, shape, (unsigned_eq_ok_iff.mp unsigned).1⟩, rfl⟩
  · rw [read_of_not_minus (not_exists.mp minus)] at h
    obtain ⟨k, unsigned, rfl⟩ := map_eq_ok_iff.mp h
    exact ⟨false, k, ⟨token.trim, rfl, (unsigned_eq_ok_iff.mp unsigned).1⟩, rfl⟩

theorem read_eq_ok_iff {token : Text} {n : Int} : read token = .ok n ↔
    ∃ negative k, Written token.trim negative k ∧ k < 2 ^ 63 ∧ n = signed negative k := by
  constructor
  · intro h
    obtain ⟨negative, k, written, rfl⟩ := written_of_read h
    refine ⟨negative, k, written, Nat.lt_of_not_le fun large => ?_, rfl⟩
    rw [read_of_written written, if_neg (Nat.not_lt.mpr large)] at h
    cases h
  · rintro ⟨negative, k, written, small, rfl⟩
    rw [read_of_written written, if_pos small]

theorem unsigned_eq_ok_congr (token other : Text) {body : Text} {n : Nat} :
    unsigned token body = .ok n ↔ unsigned other body = .ok n := by
  unfold unsigned
  split <;> rw [magnitude_eq_ok_iff, magnitude_eq_ok_iff]

/-- Blanks around a literal are quoted in its faults and change nothing else. -/
theorem read_trim_eq_ok_iff {t : Text} {n : Int} : read t.trim = .ok n ↔ read t = .ok n := by
  unfold read
  rw [trim_trim]
  split <;> simp only [map_eq_ok_iff, unsigned_eq_ok_congr t.trim t]

theorem trim_ne_nil_of_read {t : Text} {n : Int} (h : read t = .ok n) : t.trim ≠ [] := by
  intro empty
  rw [← read_trim_eq_ok_iff, empty] at h
  cases h

/-! Reading in steps. -/

/-- The number of a text that has passed for digits, if it is below the limit. -/
def boundedMagnitude (token : Text) (radix : Radix) (flaw : Flaw) (digits : Text) :
    Except Fault Int :=
  if radix.isDigits digits then
    match radix.readSigned limit digits with
    | some n => .ok n
    | none => .error (.unreadable token .literalRange)
  else .error (.unreadable token flaw)

def boundedUnsigned (token body : Text) : Except Fault Int :=
  match body.afterHexMark? with
  | some digits => boundedMagnitude token .hexadecimal .hexDigits digits
  | none => boundedMagnitude token .decimal .notRegisterOrLiteral body

/-- The lowest number of 64 bits has no negative among them. -/
def negate? (n : Int) : Option Int := if n = -limit then none else some (-n)

/-- A literal read in the numbers of a machine, none where the negation overflows. -/
def boundedRead (token : Text) : Except Fault (Option Int) :=
  match token.trim with
  | '-' :: body => (boundedUnsigned token body).map negate?
  | body => (boundedUnsigned token body).map some

theorem boundedMagnitude_eq (token : Text) (radix : Radix) (flaw : Flaw) (digits : Text) :
    boundedMagnitude token radix flaw digits =
      (magnitude token radix flaw digits).map fun n : Nat => (n : Int) := by
  rw [boundedMagnitude, magnitude]
  split
  · rename_i passed
    obtain ⟨n, value⟩ := Radix.isDigits_iff_exists_read?.mp passed
    rw [Radix.readSigned_of_isDigits (by decide) passed, value]
    by_cases small : n < limit
    · simp [Option.filter, small, Except.map]
    · simp [Option.filter, small, Except.map]
  · rename_i failed
    rw [Radix.read?_eq_none_of_not_isDigits failed]
    rfl

theorem boundedUnsigned_eq (token body : Text) :
    boundedUnsigned token body = (unsigned token body).map fun n : Nat => (n : Int) := by
  rw [boundedUnsigned, unsigned]
  cases body.afterHexMark? with
  | some digits => exact boundedMagnitude_eq token .hexadecimal .hexDigits digits
  | none => exact boundedMagnitude_eq token .decimal .notRegisterOrLiteral body

/-- No step of a reading overflows. -/
theorem boundedRead_eq (token : Text) : boundedRead token = (read token).map some := by
  unfold boundedRead
  split
  · rename_i body minus
    rw [boundedUnsigned_eq, read_of_minus minus]
    cases unsigned token body with
    | error fault => rfl
    | ok n =>
      have above : (n : Int) ≠ -(limit : Int) := by
        have positive : 0 < limit := by decide
        omega
      simp [Except.map, negate?, above]
  · rename_i plain
    rw [boundedUnsigned_eq, read_of_not_minus plain]

/-! Written literals. -/

/-- The number in base sixteen, its sign in front of the mark. -/
def hexText (n : Int) : Text :=
  if n < 0 then '-' :: ofHex 1 n.natAbs else ofHex 1 n.natAbs

theorem magnitude_asciiLower {t : Text} {k : Nat} : Magnitude t.asciiLower k ↔ Magnitude t k := by
  have parts : ∀ t, Magnitude t k ↔ Radix.decimal.read? t = some k ∨
      ∃ digits, t.afterHexMark? = some digits ∧ Radix.hexadecimal.read? digits = some k := by
    intro t
    simp only [Magnitude, Radix.read?_eq_some_iff_numeral, afterHexMark?_eq_some_iff]
    refine or_congr_right ⟨?_, ?_⟩
    · rintro ⟨mark, digits, isMark, shape, numeral⟩
      exact ⟨digits, ⟨mark, isMark, shape⟩, numeral⟩
    · rintro ⟨digits, ⟨mark, isMark, shape⟩, numeral⟩
      exact ⟨mark, digits, isMark, shape, numeral⟩
  rw [parts, parts, Radix.read?_asciiLower, afterHexMark?_asciiLower]
  simp [Radix.read?_asciiLower]

theorem Written.of_asciiLower {t : Text} {negative : Bool} {k : Nat}
    (h : Written t.asciiLower negative k) : Written t negative k := by
  obtain ⟨body, shape, magnitude⟩ := h
  cases negative with
  | true =>
    obtain ⟨tail, rfl, rfl⟩ := (asciiLower_eq_cons_iff (by decide)).mp shape
    exact ⟨tail, rfl, magnitude_asciiLower.mp magnitude⟩
  | false =>
    obtain rfl : t.asciiLower = body := shape
    exact ⟨t, rfl, magnitude_asciiLower.mp magnitude⟩

theorem Written.solid {t : Text} {negative : Bool} {k : Nat} (h : Written t negative k) :
    Solid t := by
  obtain ⟨body, rfl, magnitude⟩ := h
  cases negative with
  | true => exact solid_cons.mpr ⟨by decide, magnitude.solid⟩
  | false => exact magnitude.solid

theorem written_ofInt (n : Int) : Written (ofInt n) (n < 0) n.natAbs := by
  refine ⟨ofNat n.natAbs, ?_, .inl (Radix.read?_eq_some_iff_numeral.mp (Radix.read?_write _ _))⟩
  simp [ofInt]

theorem written_hexText (n : Int) : Written (hexText n) (n < 0) n.natAbs := by
  refine ⟨ofHex 1 n.natAbs, by simp [hexText], .inr ⟨'x', _, .inl rfl, rfl, ?_⟩⟩
  exact Radix.read?_eq_some_iff_numeral.mp (Radix.read?_writePadded _ _ _)

theorem signed_natAbs (n : Int) : signed (n < 0) n.natAbs = n := by
  rw [signed]
  by_cases negative : n < 0
  · rw [if_pos (decide_eq_true negative)]
    omega
  · rw [if_neg (by simpa using negative)]
    omega

/-- A number is read back from what it is written as, in letters of either case. -/
theorem read_of_text {n : Int} (small : n.natAbs < 2 ^ 63) {t : Text}
    (spelled : t.asciiLower = ofInt n ∨ t.asciiLower = hexText n) : read t = .ok n := by
  have written : Written t (n < 0) n.natAbs := by
    rcases spelled with spelled | spelled
    · exact .of_asciiLower (spelled ▸ written_ofInt n)
    · exact .of_asciiLower (spelled ▸ written_hexText n)
  have trimmed : Written t.trim (n < 0) n.natAbs := written.solid.trim.symm ▸ written
  rw [read_of_written trimmed, if_pos small, signed_natAbs]

/-- A token is read as a number below `2 ^ 63` exactly when it is written as its magnitude with its
sign, a larger one is out of range, and every other token is refused as it stands. No step of the
reading overflows. -/
theorem read_iff_written :
    (∀ token n, read token = .ok n ↔
      ∃ negative k, Written token.trim negative k ∧ k < 2 ^ 63 ∧ n = signed negative k) ∧
    (∀ token negative k, Written token.trim negative k → 2 ^ 63 ≤ k →
      read token = .error (.unreadable token .literalRange)) ∧
    (∀ token, boundedRead token = (read token).map some) ∧
    (∀ (n : Int) (t : Text), n.natAbs < 2 ^ 63 →
      t.asciiLower = ofInt n ∨ t.asciiLower = hexText n → read t = .ok n) ∧
    ∀ token fault, read token = .error fault → ∃ flaw, fault = .unreadable token flaw := by
  refine ⟨fun token n => read_eq_ok_iff, fun token negative k written large => ?_, boundedRead_eq,
    fun n t small spelled => read_of_text small spelled, fun token fault => unreadable_of_read⟩
  rw [read_of_written written, if_neg (Nat.not_lt.mpr large)]

/-- The ends of the numbers of 64 bits, the lower of which is out of range. -/
theorem read_iff_written_ends :
    read "\t-0X0007FFFFFfFfFfFfFfF ".toList = .ok (-0x7FFFFFFFFFFFFFFF) ∧
      read " -9223372036854775808".toList =
        .error (.unreadable " -9223372036854775808".toList .literalRange) := by
  have highest : Magnitude "0X0007FFFFFfFfFfFfFfF".toList 0x7FFFFFFFFFFFFFFF :=
    .inr ⟨'X', "0007FFFFFfFfFfFfFfF".toList, .inr rfl, rfl,
      Radix.read?_eq_some_iff_numeral.mp (by decide)⟩
  have beyond : Magnitude "9223372036854775808".toList 0x8000000000000000 :=
    .inl (Radix.read?_eq_some_iff_numeral.mp (by decide))
  exact ⟨(read_iff_written.1 _ _).mpr ⟨true, _, ⟨_, by decide, highest⟩, by decide, rfl⟩,
    read_iff_written.2.1 _ true _ ⟨_, by decide, beyond⟩ (by decide)⟩

end Literal
end SoftCore
