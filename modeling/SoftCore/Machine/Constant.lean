import SoftCore.Fault

/-! A constant of 32 bits that an instruction can carry: one of its halves is
zero and the other is written down. Constants are taken modulo `2 ^ 32`, from
`-2 ^ 31` up; one with both halves zero counts as high. -/

namespace SoftCore

/-- Sixteen bits together with the half of the word that they fill. -/
structure HalfWord where
  high : Bool
  bits : UInt16
  deriving DecidableEq

namespace HalfWord

def toNat (h : HalfWord) : Nat := if h.high then h.bits.toNat * 0x10000 else h.bits.toNat

def ofInt (n : Int) : Except Fault HalfWord :=
  if n < -0x80000000 ∨ 0x100000000 ≤ n then .error (.unsplittable n)
  else
    let v := (n % 0x100000000).toNat
    if v % 0x10000 = 0 then .ok { high := true, bits := UInt16.ofNat (v / 0x10000) }
    else if v / 0x10000 = 0 then .ok { high := false, bits := UInt16.ofNat v }
    else .error (.unsplittable n)

theorem toNat_of_ofInt {n : Int} {h : HalfWord} (hn : ofInt n = .ok h) :
    (h.toNat : Int) = n % 0x100000000 := by
  unfold ofInt at hn
  dsimp only at hn
  split at hn
  · cases hn
  · split at hn
    · cases hn
      simp only [toNat, if_true, UInt16.toNat_ofNat']
      omega
    · split at hn
      · cases hn
        simp only [toNat, Bool.false_eq_true, if_false, UInt16.toNat_ofNat']
        omega
      · cases hn

end HalfWord
end SoftCore
