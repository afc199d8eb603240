import SoftCore.Fault

/-! The fields of a word of 32 bits, the first one highest. A field holds a value
that needs no more bits than it is wide. Fewer than 32 bits stand at the low end
of the word. The word of some fields is the number whose binary digits are their
values, each in its width. -/

namespace SoftCore

structure Field where
  name : Text
  width : UInt32
  value : UInt64
  deriving DecidableEq

/-- A word under construction and how many of its bits are taken. -/
structure WordWriter where
  word : UInt32
  used : UInt32
  deriving DecidableEq

namespace Field

/-- A value of 64 bits fits every field at least that wide. -/
def fits (f : Field) : Bool := 64 ≤ f.width || f.value.toNat < 1 <<< f.width.toNat

theorem fits_iff {f : Field} : f.fits ↔ f.value.toNat < 1 <<< f.width.toNat := by
  rw [fits, Bool.or_eq_true, decide_eq_true_iff, decide_eq_true_iff, UInt32.le_iff_toNat_le]
  constructor
  · rintro (long | small)
    · rw [Nat.one_shiftLeft]
      exact Nat.lt_of_lt_of_le f.value.toNat_lt (Nat.pow_le_pow_right (by decide) long)
    · exact small
  · exact .inr

end Field

namespace WordWriter

def empty : WordWriter := { word := 0, used := 0 }

/-- The number whose binary digits are those of `high` and then the values, each in its width. -/
def numberFrom (high : Nat) : List Field → Nat
  | [] => high
  | f :: fields => numberFrom ((high <<< f.width.toNat) + f.value.toNat) fields

def totalWidth : List Field → Nat
  | [] => 0
  | f :: fields => f.width.toNat + totalWidth fields

theorem shifted_lt {high value used width : Nat} (hh : high < 1 <<< used)
    (hv : value < 1 <<< width) : (high <<< width) + value < 1 <<< (used + width) := by
  rw [Nat.one_shiftLeft] at hh hv ⊢
  rw [Nat.shiftLeft_eq]
  have step : (high + 1) * 2 ^ width ≤ 2 ^ used * 2 ^ width := Nat.mul_le_mul_right _ hh
  rw [Nat.add_mul, Nat.one_mul, ← Nat.pow_add] at step
  omega

/-- A field that fits into a word has no more values than the word. -/
theorem one_shiftLeft_le {width : Nat} (narrow : width ≤ 32) : 1 <<< width ≤ 0x100000000 := by
  rw [Nat.one_shiftLeft]
  exact Nat.pow_le_pow_right (n := 2) (by decide) narrow

theorem width_le_totalWidth {fields : List Field} {f : Field} (h : f ∈ fields) :
    f.width.toNat ≤ totalWidth fields := by
  induction fields with
  | nil => cases h
  | cons g rest ih =>
    rw [totalWidth]
    rcases List.mem_cons.mp h with rfl | later
    · exact Nat.le_add_right _ _
    · exact Nat.le_trans (ih later) (Nat.le_add_left _ _)

end WordWriter
end SoftCore
