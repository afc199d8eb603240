import SoftCore.Proofs.Literals
import SoftCore.Listing

/-! Which texts are addresses of a listing, and which of them are integer
literals. Both are numerals of base ten, or of base sixteen behind a mark, and
with neither sign the two readers agree on every number of 32 bits. Only an
address may have a plus sign before its digits, and only a literal a minus sign,
even before a zero. -/

namespace SoftCore.Address

open Text

/-- A plus sign, or nothing. -/
def sign (plus : Bool) : Text := if plus then ['+'] else []

@[simp] theorem mem_sign {c : Char} {plus : Bool} : c ∈ sign plus ↔ plus = true ∧ c = '+' := by
  cases plus <;> simp [sign]

/-- A numeral, directly before its digits a plus sign or nothing. -/
def Written (t : Text) (plus : Bool) (k : Nat) : Prop :=
  (∃ digits, t = sign plus ++ digits ∧ Radix.decimal.Numeral digits k) ∨
    ∃ mark digits, (mark = 'x' ∨ mark = 'X') ∧ t = '0' :: mark :: (sign plus ++ digits) ∧
      Radix.hexadecimal.Numeral digits k

variable {radix : Radix} {s t : Text} {plus : Bool} {k n : Nat}

theorem written_false_iff : Written t false k ↔ Literal.Magnitude t k := by
  simp [Written, Literal.Magnitude, sign]

/-- Only digits, the mark and the sign stand in an address. -/
theorem Written.not_mem (h : Written t plus k) {c : Char} (other : Radix.digitValue? c = none)
    (lower : c ≠ 'x') (upper : c ≠ 'X') (sign : plus = true → c ≠ '+') : c ∉ t := by
  have before : c ∉ Address.sign plus := by simpa using sign
  rcases h with ⟨digits, rfl, numeral⟩ | ⟨mark, digits, isMark, rfl, numeral⟩
  · simp [before, numeral.not_mem other]
  · have zero : c ≠ '0' := by
      rintro rfl
      exact absurd other (by decide)
    have apart : c ≠ mark := by
      rcases isMark with rfl | rfl
      · exact lower
      · exact upper
    simp [zero, apart, before, numeral.not_mem other]

theorem Written.plus_mem (h : Written t true k) : '+' ∈ t := by
  rcases h with ⟨digits, rfl, -⟩ | ⟨mark, digits, -, rfl, -⟩
  · simp
  · simp

theorem Written.solid (h : Written t plus k) : Solid t := by
  intro c mem
  rw [← Bool.not_eq_true]
  intro blank
  have solid : "xX+".toList.all fun c => isBlank c = false := by decide
  have apart : ∀ d ∈ "xX+".toList, c ≠ d := by
    rintro d listed rfl
    rw [of_all solid listed] at blank
    cases blank
  exact h.not_mem (Radix.digitValue?_of_isBlank blank) (apart 'x' (by decide))
    (apart 'X' (by decide)) (fun _ => apart '+' (by decide)) mem

/-! Reading. -/

/-- Once all are digits, reading fails only for a number that is too large. -/
theorem readUnsigned_of_numeral (h : radix.Numeral t k) (plus : Bool) :
    radix.readUnsigned 0x100000000 (sign plus ++ t) =
      if k < 2 ^ 32 then .ok k else .error .tooLarge := by
  obtain ⟨filled, value⟩ := Radix.numeral_iff_accumulate.mp h
  rw [← Radix.readBelow_of_accumulate (by decide) value]
  obtain ⟨c, rest, rfl⟩ := List.exists_cons_of_ne_nil filled
  cases plus with
  | true => rfl
  | false =>
    have other : c ≠ '+' := fun same =>
      h.not_mem (c := '+') (by decide) (same ▸ List.mem_cons_self)
    simp [sign, Radix.readUnsigned, other]

/-- A plus sign is taken off once. -/
theorem numeral_of_readUnsigned (h : radix.readUnsigned 0x100000000 t = .ok n) :
    ∃ plus digits, t = sign plus ++ digits ∧ radix.Numeral digits n := by
  unfold Radix.readUnsigned at h
  split at h
  · cases h
  · cases h
  · rename_i digits more
    exact ⟨true, digits, rfl, Radix.numeral_iff_accumulate.mpr
      ⟨fun empty => more (by rw [empty]), Radix.accumulate_of_readBelow h⟩⟩
  · rename_i filled _ _
    exact ⟨false, t, rfl, Radix.numeral_iff_accumulate.mpr
      ⟨filled, Radix.accumulate_of_readBelow h⟩⟩

theorem readTrimmed_of_written (h : Written t plus k) :
    readTrimmed t = if k < 2 ^ 32 then .ok k else .error .tooLarge := by
  rw [readTrimmed]
  rcases h with ⟨digits, rfl, numeral⟩ | ⟨mark, digits, isMark, rfl, numeral⟩
  · have unmarked : afterHexMark? (sign plus ++ digits) = none :=
      afterHexMark?_of_not_mem (by simp [numeral.not_mem (c := 'x') (by decide)])
        (by simp [numeral.not_mem (c := 'X') (by decide)])
    rw [unmarked]
    exact readUnsigned_of_numeral numeral plus
  · rw [afterHexMark?_eq_some_iff.mpr ⟨mark, isMark, rfl⟩]
    exact readUnsigned_of_numeral numeral plus

theorem written_of_readTrimmed (h : readTrimmed t = .ok n) : ∃ plus, Written t plus n := by
  rw [readTrimmed] at h
  split at h
  · rename_i behind marked
    obtain ⟨mark, isMark, rfl⟩ := afterHexMark?_eq_some_iff.mp marked
    obtain ⟨plus, digits, rfl, numeral⟩ := numeral_of_readUnsigned h
    exact ⟨plus, .inr ⟨mark, digits, isMark, rfl, numeral⟩⟩
  · obtain ⟨plus, digits, shape, numeral⟩ := numeral_of_readUnsigned h
    exact ⟨plus, .inl ⟨digits, shape, numeral⟩⟩

theorem read_of_written (h : Written s.trim plus k) :
    read s = if k < 2 ^ 32 then .ok (.ofNat k) else .error .tooLarge := by
  rw [read, readTrimmed_of_written h]
  split <;> rfl

theorem read_eq_ok_iff {a : UInt32} : read s = .ok a ↔ ∃ plus, Written s.trim plus a.toNat := by
  constructor
  · intro h
    rw [read] at h
    cases value : readTrimmed s.trim with
    | error flaw =>
      rw [value] at h
      cases h
    | ok n =>
      rw [value] at h
      cases h
      obtain ⟨plus, written⟩ := written_of_readTrimmed value
      have small : n < 2 ^ 32 := by
        refine Nat.lt_of_not_le fun large => ?_
        rw [readTrimmed_of_written written, if_neg (Nat.not_lt.mpr large)] at value
        cases value
      rw [UInt32.toNat_ofNat_of_lt' small]
      exact ⟨plus, written⟩
  · rintro ⟨plus, written⟩
    rw [read_of_written written, if_pos a.toNat_lt, UInt32.ofNat_toNat]

/-! Signs. -/

/-- A text with a plus sign put into another, in front of its decimal digits or behind its mark. -/
inductive PlusInserted : Text → Text → Prop where
  | decimal {front digits back : Text} (first : Gap front) (last : Gap back)
      (literal : Radix.decimal.isDigits digits) :
      PlusInserted (front ++ digits ++ back) (front ++ '+' :: digits ++ back)
  | hexadecimal {front digits back : Text} {mark : Char} (first : Gap front) (last : Gap back)
      (isMark : mark = 'x' ∨ mark = 'X') (literal : Radix.hexadecimal.isDigits digits) :
      PlusInserted (front ++ '0' :: mark :: digits ++ back)
        (front ++ '0' :: mark :: '+' :: digits ++ back)

theorem isDigits_iff_exists_numeral : radix.isDigits t ↔ ∃ k, radix.Numeral t k :=
  Radix.isDigits_iff_exists_read?.trans (exists_congr fun _ => Radix.read?_eq_some_iff_numeral)

/-- Blanks around what is written do not matter. -/
theorem Written.between {front back : Text} (h : Written t plus k) (first : Gap front)
    (last : Gap back) : Written (trim (front ++ t ++ back)) plus k := by
  rwa [last.trim_append_right, first.trim_append, h.solid.trim]

/-- The sign changes nothing, and what it is put into has none. -/
theorem PlusInserted.written (h : PlusInserted t s) :
    ∃ k, Written t.trim false k ∧ Written s.trim true k := by
  cases h with
  | @decimal front digits back first last literal =>
    obtain ⟨k, numeral⟩ := isDigits_iff_exists_numeral.mp literal
    have plain : Written digits false k := .inl ⟨digits, rfl, numeral⟩
    have signed : Written ('+' :: digits) true k := .inl ⟨digits, rfl, numeral⟩
    exact ⟨k, plain.between first last, signed.between first last⟩
  | @hexadecimal front digits back mark first last isMark literal =>
    obtain ⟨k, numeral⟩ := isDigits_iff_exists_numeral.mp literal
    have plain : Written ('0' :: mark :: digits) false k := .inr ⟨mark, digits, isMark, rfl, numeral⟩
    have signed : Written ('0' :: mark :: '+' :: digits) true k :=
      .inr ⟨mark, digits, isMark, rfl, numeral⟩
    exact ⟨k, plain.between first last, signed.between first last⟩

theorem exists_plusInserted (h : Written s.trim true k) :
    ∃ t, PlusInserted t s ∧ Written t.trim false k := by
  obtain ⟨front, back, first, last, whole⟩ := exists_trim s
  rcases h with ⟨digits, shape, numeral⟩ | ⟨mark, digits, isMark, shape, numeral⟩
  · have plain : Written digits false k := .inl ⟨digits, rfl, numeral⟩
    refine ⟨front ++ digits ++ back, ?_, plain.between first last⟩
    rw [whole, shape]
    exact .decimal first last (isDigits_iff_exists_numeral.mpr ⟨k, numeral⟩)
  · have plain : Written ('0' :: mark :: digits) false k := .inr ⟨mark, digits, isMark, rfl, numeral⟩
    refine ⟨front ++ '0' :: mark :: digits ++ back, ?_, plain.between first last⟩
    rw [whole, shape]
    exact .hexadecimal first last isMark (isDigits_iff_exists_numeral.mpr ⟨k, numeral⟩)

theorem mem_trim_plus : '+' ∈ s.trim ↔ '+' ∈ s := mem_trim_iff (by decide)

/-- A text of neither sign. -/
structure Unsigned (s : Text) : Prop where
  plus : '+' ∉ s
  minus : ∀ body, s.trim ≠ '-' :: body

theorem Unsigned.of_written (h : Written s.trim false k) : Unsigned s where
  plus mem := h.not_mem (by decide) (by decide) (by decide) nofun (mem_trim_plus.mpr mem)
  minus body shape :=
    h.not_mem (c := '-') (by decide) (by decide) (by decide) nofun (shape ▸ List.mem_cons_self)

/-- Without a sign, the numbers of both readers are those of 32 bits. -/
theorem read_iff_of_unsigned (h : Unsigned s) (n : Int) :
    (∃ a, read s = .ok a ∧ (a.toNat : Int) = n) ↔ Literal.read s = .ok n ∧ n < 2 ^ 32 := by
  rw [Literal.read_eq_ok_iff]
  constructor
  · rintro ⟨a, value, rfl⟩
    have small := a.toNat_lt
    obtain ⟨_ | _, written⟩ := read_eq_ok_iff.mp value
    · exact ⟨⟨false, a.toNat, ⟨_, rfl, written_false_iff.mp written⟩, by omega, rfl⟩, by omega⟩
    · exact absurd (mem_trim_plus.mp written.plus_mem) h.plus
  · rintro ⟨⟨_ | _, k, ⟨body, shape, magnitude⟩, -, rfl⟩, small⟩
    · obtain rfl : s.trim = body := shape
      have low : k < 2 ^ 32 := by simpa [Literal.signed] using small
      refine ⟨.ofNat k, ?_, ?_⟩
      · rw [read_of_written (written_false_iff.mpr magnitude), if_pos low]
      · rw [UInt32.toNat_ofNat_of_lt' low]
        rfl
    · exact absurd shape (h.minus body)

theorem read_of_minus {body : Text} (h : s.trim = '-' :: body) : read s = .error .badDigit := by
  rw [read, readTrimmed, h]
  rfl

/-- An address with a plus sign is one without it where the sign has been put in. -/
theorem read_plus_iff {a : UInt32} :
    read s = .ok a ∧ '+' ∈ s ↔ ∃ t, Unsigned t ∧ read t = .ok a ∧ PlusInserted t s := by
  constructor
  · rintro ⟨value, plus⟩
    obtain ⟨_ | _, written⟩ := read_eq_ok_iff.mp value
    · exact absurd plus (Unsigned.of_written written).plus
    · obtain ⟨t, inserted, plain⟩ := exists_plusInserted written
      exact ⟨t, .of_written plain, read_eq_ok_iff.mpr ⟨false, plain⟩, inserted⟩
  · rintro ⟨t, -, value, inserted⟩
    obtain ⟨k, plain, signed⟩ := inserted.written
    rw [read_of_written plain, ← read_of_written signed] at value
    exact ⟨value, mem_trim_plus.mp signed.plus_mem⟩

theorem literal_error_of_plus (h : '+' ∈ s) : ∃ fault, Literal.read s = .error fault := by
  cases value : Literal.read s with
  | error fault => exact ⟨fault, rfl⟩
  | ok n => exact absurd h (Literal.not_mem_of_read (by decide) value)

/-- On texts of neither sign an address is an integer literal below `2 ^ 32`. Every address with a
plus sign is one of these with the sign put in front of its digits, behind the mark if there is one,
and stands for the same number. No literal has a plus sign, and no address a minus sign. -/
theorem read_iff_literal :
    (∀ s, Unsigned s → ∀ n : Int,
      (∃ a, read s = .ok a ∧ (a.toNat : Int) = n) ↔ Literal.read s = .ok n ∧ n < 2 ^ 32) ∧
    (∀ s a, read s = .ok a ∧ '+' ∈ s ↔ ∃ t, Unsigned t ∧ read t = .ok a ∧ PlusInserted t s) ∧
    (∀ s, '+' ∈ s → ∃ fault, Literal.read s = .error fault) ∧
    ∀ s body, s.trim = '-' :: body → read s = .error .badDigit :=
  ⟨fun _ => read_iff_of_unsigned, fun _ _ => read_plus_iff, fun _ => literal_error_of_plus,
    fun _ _ => read_of_minus⟩

/-- A sign behind the mark is for addresses only, and one before a zero for literals only. -/
theorem read_iff_literal_signs :
    Unsigned " 0X001f\t".toList ∧ Literal.read " 0X001f\t".toList = .ok 31 ∧
      read " 0X+001f\t".toList = .ok 31 ∧
      (∃ fault, Literal.read " 0X+001f\t".toList = .error fault) ∧
      Literal.read "-0".toList = .ok 0 ∧ read "-0".toList = .error .badDigit := by
  have plain : Unsigned " 0X001f\t".toList := by
    refine ⟨by decide, fun body shape => ?_⟩
    have head : (trim " 0X001f\t".toList).head? = some '0' := by decide
    rw [shape] at head
    simp at head
  have value : read " 0X001f\t".toList = .ok 31 := by decide
  have inserted : PlusInserted " 0X001f\t".toList " 0X+001f\t".toList :=
    @PlusInserted.hexadecimal [' '] "001f".toList ['\t'] 'X' (by decide) (by decide) (.inr rfl)
      (by decide)
  obtain ⟨agree, signed, literal, negative⟩ := read_iff_literal
  exact ⟨plain, ((agree _ plain 31).mp ⟨31, value, rfl⟩).1,
    ((signed _ 31).mpr ⟨_, plain, value, inserted⟩).1, literal _ (by decide), by decide,
    negative _ ['0'] rfl⟩

end SoftCore.Address
