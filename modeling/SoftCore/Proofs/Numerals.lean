import Mathlib.Data.Nat.Digits.Lemmas
import SoftCore.Proofs.Brackets

/-! Numerals: runs of digits of a base with the number that they make, so that
leading zeros need no rule of their own. A reader of numbers of a fixed size
takes signs of its own; behind a filter for digits it reads the same numbers. -/

namespace SoftCore

open Text

namespace Radix

/-- The digits of a base, each at its value. -/
def alphabet : Radix → Text
  | .decimal => "0123456789".toList
  | .hexadecimal => "0123456789abcdef".toList

/-- Digits of the base, their letters in either case, and the number that they make. -/
structure Numeral (r : Radix) (t : Text) (n : Nat) : Prop where
  filled : t ≠ []
  digits : ∀ c ∈ t, c.toLower ∈ r.alphabet
  value : n = Nat.ofDigits r.base (t.reverse.map fun c => r.alphabet.idxOf c.toLower)

theorem read?_eq_some_iff {radix : Radix} {t : Text} {n : Nat} :
    radix.read? t = some n ↔ t ≠ [] ∧ radix.accumulate 0 t = some n := by
  rw [read?]
  split
  · rename_i empty
    simp [List.isEmpty_iff.mp empty]
  · rename_i filled
    simp [mt List.isEmpty_iff.mpr filled]

theorem solid_of_accumulate {radix : Radix} {high n : Nat} {t : Text}
    (h : radix.accumulate high t = some n) : Solid t := by
  intro c mem
  rw [← Bool.not_eq_true]
  exact fun blank => not_mem_of_accumulate (digitValue?_of_isBlank blank) h mem

theorem digitValue?_of_foreign {c : Char} (h : 0x80 ≤ c.toNat) : digitValue? c = none := by
  have below : ∀ k : Char, c ≤ k ↔ c.toNat ≤ k.toNat := fun _ => UInt32.le_iff_toNat_le
  simp only [digitValue?, below, Char.reduceToNat]
  rw [if_neg (by omega), if_neg (by omega), if_neg (by omega)]

theorem digit?_eq (r : Radix) (c : Char) : r.digit? c =
    if c.toLower ∈ r.alphabet then some (r.alphabet.idxOf c.toLower) else none := by
  by_cases ascii : c.toNat < 0x80
  · have row : ∀ n ∈ List.range 0x80, ∀ r ∈ [decimal, hexadecimal],
        r.digit? (Char.ofNat n) = if (Char.ofNat n).toLower ∈ r.alphabet then
          some (r.alphabet.idxOf (Char.ofNat n).toLower) else none := by decide +kernel
    have here := row c.toNat (List.mem_range.mpr ascii) r (by cases r <;> simp)
    rwa [Char.ofNat_toNat] at here
  · have letters : r.alphabet.all fun d => d.toNat < 0x80 := by cases r <;> decide
    have other : c.toLower ∉ r.alphabet := fun mem =>
      ascii (toNat_lt_of_toLower (of_all letters mem))
    rw [digit?, digitValue?_of_foreign (Nat.le_of_not_lt ascii), if_neg other]
    rfl

theorem accumulate_eq_some_iff {r : Radix} {high n : Nat} {t : Text} :
    r.accumulate high t = some n ↔ (∀ c ∈ t, c.toLower ∈ r.alphabet) ∧
      n = Nat.ofDigits r.base (t.reverse.map fun c => r.alphabet.idxOf c.toLower) +
        r.base ^ t.length * high := by
  -- What has been read counts for the power of the base by which the rest moves it up.
  induction t generalizing high with
  | nil => simp [accumulate, eq_comm]
  | cons c t ih =>
    rw [accumulate, digit?_eq, List.forall_mem_cons, List.reverse_cons, List.map_append,
      Nat.ofDigits_append, List.length_map, List.length_reverse, List.map_singleton,
      Nat.ofDigits_singleton, List.length_cons]
    by_cases digit : c.toLower ∈ r.alphabet
    · rw [if_pos digit, Option.bind_some, ih]
      have sum : ∀ d : Nat, r.base ^ t.length * d + r.base ^ (t.length + 1) * high =
          r.base ^ t.length * (high * r.base + d) := fun d => by ring
      simp [digit, Nat.add_assoc, sum]
    · simp [digit]

/-- Reading digits is taking their number, however many zeros are in front. -/
theorem read?_eq_some_iff_numeral {r : Radix} {t : Text} {n : Nat} :
    r.read? t = some n ↔ r.Numeral t n := by
  rw [read?_eq_some_iff, accumulate_eq_some_iff, Nat.mul_zero, Nat.add_zero]
  constructor
  · rintro ⟨filled, digits, value⟩
    exact ⟨filled, digits, value⟩
  · rintro ⟨filled, digits, value⟩
    exact ⟨filled, digits, value⟩

theorem numeral_iff_accumulate {r : Radix} {t : Text} {n : Nat} :
    r.Numeral t n ↔ t ≠ [] ∧ r.accumulate 0 t = some n :=
  read?_eq_some_iff_numeral.symm.trans read?_eq_some_iff

/-- Only digits stand in a numeral. -/
theorem Numeral.not_mem {r : Radix} {t : Text} {n : Nat} (h : r.Numeral t n) {c : Char}
    (other : digitValue? c = none) : c ∉ t :=
  not_mem_of_accumulate other (numeral_iff_accumulate.mp h).2

theorem Numeral.solid {r : Radix} {t : Text} {n : Nat} (h : r.Numeral t n) : Solid t :=
  solid_of_accumulate (numeral_iff_accumulate.mp h).2

/-! Numbers of a fixed size. -/

/-- A number below the limit and not below its negative, with one sign of either kind or none. -/
def readSigned (r : Radix) (limit : Nat) : Text → Option Int
  | ['-'] => none
  | '-' :: digits => (r.readBelow (limit + 1) 0 digits).toOption.map fun n : Nat => -(n : Int)
  | t => (r.readUnsigned limit t).toOption.map fun n : Nat => (n : Int)

def isDigits (r : Radix) (t : Text) : Bool := !t.isEmpty && t.all fun c => (r.digit? c).isSome

theorem isDigits_iff {r : Radix} {t : Text} :
    r.isDigits t ↔ t ≠ [] ∧ ∀ c ∈ t, c.toLower ∈ r.alphabet := by
  simp [isDigits, digit?_eq, apply_ite Option.isSome]

/-- A text that is let through is a number, and any other is none. -/
theorem isDigits_iff_exists_read? {r : Radix} {t : Text} :
    r.isDigits t ↔ ∃ n, r.read? t = some n := by
  simp only [isDigits_iff, read?_eq_some_iff_numeral]
  constructor
  · rintro ⟨filled, digits⟩
    exact ⟨_, filled, digits, rfl⟩
  · rintro ⟨n, numeral⟩
    exact ⟨numeral.filled, numeral.digits⟩

theorem read?_eq_none_of_not_isDigits {r : Radix} {t : Text} (h : ¬r.isDigits t) :
    r.read? t = none := by
  rw [Option.eq_none_iff_forall_ne_some]
  exact fun n value => h (isDigits_iff_exists_read?.mpr ⟨n, value⟩)

/-- Where only digits are let through, no sign is. -/
theorem readUnsigned_of_isDigits {r : Radix} {limit : Nat} (positive : 0 < limit) {t : Text}
    (h : r.isDigits t) :
    (r.readUnsigned limit t).toOption = (r.read? t).filter (· < limit) := by
  obtain ⟨filled, digits⟩ := isDigits_iff.mp h
  obtain ⟨n, value⟩ := isDigits_iff_exists_read?.mp h
  have plain : r.readUnsigned limit t = r.readBelow limit 0 t := by
    unfold readUnsigned
    split
    · exact absurd rfl filled
    · exact absurd (digits '+' List.mem_cons_self) (by cases r <;> decide)
    · exact absurd (digits '+' List.mem_cons_self) (by cases r <;> decide)
    · rfl
  rw [plain, readBelow_of_accumulate positive (read?_eq_some_iff.mp value).2, value]
  by_cases small : n < limit
  · simp [small, Option.filter, Except.toOption]
  · simp [small, Option.filter, Except.toOption]

theorem readSigned_of_isDigits {r : Radix} {limit : Nat} (positive : 0 < limit) {t : Text}
    (h : r.isDigits t) :
    r.readSigned limit t = ((r.read? t).filter (· < limit)).map fun n : Nat => (n : Int) := by
  rw [← readUnsigned_of_isDigits positive h]
  obtain ⟨-, digits⟩ := isDigits_iff.mp h
  -- A sign is no digit, so the text passed has none.
  unfold readSigned
  split
  · exact absurd (digits '-' List.mem_cons_self) (by cases r <;> decide)
  · exact absurd (digits '-' List.mem_cons_self) (by cases r <;> decide)
  · rfl

end Radix
end SoftCore
