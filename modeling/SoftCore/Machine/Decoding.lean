import SoftCore.Machine.Instruction

/-! The instruction of a word. The highest bits tell the format; every field is
read back from its place, and the two parts of a condition are put together.
Decoding undoes encoding and encoding undoes decoding, so no two instructions
share a word. -/

namespace SoftCore

namespace Word

/-- The number in `width` bits of a word, the lowest of them at `low`. -/
def bits (w : UInt32) (low width : Nat) : Nat := (w.toNat >>> low) % (1 <<< width)

def bit (w : UInt32) (low : Nat) : Bool := bits w low 1 = 1

def register (w : UInt32) (low : Nat) : Register := ⟨UInt8.ofNat (bits w low 5)⟩

theorem bits_lt (w : UInt32) (low width : Nat) : bits w low width < 1 <<< width :=
  Nat.mod_lt _ (by rw [Nat.one_shiftLeft]; exact Nat.two_pow_pos width)

theorem toNat_bit (w : UInt32) (low : Nat) : (bit w low).toNat = bits w low 1 := by
  have h : bits w low 1 < 2 := bits_lt w low 1
  unfold bit
  generalize bits w low 1 = n at h
  rcases n with _ | _ | n
  · rfl
  · rfl
  · omega

end Word

namespace Instruction

open Word in
def ofWord? (w : UInt32) : Option Instruction :=
  if bits w 31 1 = 0 then
    some (.registerImmediate (UInt8.ofNat (bits w 28 3)) (register w 23) (register w 18) (bit w 17)
      (bit w 16) (UInt16.ofNat (bits w 0 16)))
  else if bits w 28 4 = 12 then
    some (.registerRegister (register w 23) (register w 18) (register w 11) (bit w 17)
      (UInt8.ofNat (bits w 3 8)) (UInt8.ofNat (bits w 0 3 * 2 + bits w 16 1)))
  else if bits w 29 3 = 4 then
    some (.registerMemory { store := bit w 28, p := bit w 17, q := bit w 16 } (register w 23)
      (register w 18) (UInt64.ofNat (bits w 0 16)))
  else none

theorem exists_toWord_of_fits {i : Instruction} (fit : ∀ f ∈ i.fields, f.fits) :
    ∃ w, i.toWord = .ok w ∧ w.toNat = WordWriter.numberFrom 0 i.fields := by
  obtain ⟨w, packed, number⟩ :=
    WordWriter.exists_pack_of_fits fit (Nat.le_of_eq i.totalWidth_fields)
  rw [pack_fields, Option.some.injEq] at packed
  exact ⟨w, packed, number⟩

theorem toNat_toWord {i : Instruction} {w : UInt32} (h : i.toWord = .ok w) :
    w.toNat = WordWriter.numberFrom 0 i.fields := by
  obtain ⟨v, packed, number⟩ := exists_toWord_of_fits (fits_of_toWord h)
  rw [h] at packed
  cases packed
  exact number

theorem toNat_ofBit (b : Bool) : (if b = true then 1 else 0 : UInt64).toNat = b.toNat := by
  cases b <;> rfl

theorem bit_eq {n : Nat} {b : Bool} (h : n = b.toNat) : decide (n = 1) = b := by
  subst h
  cases b <;> rfl

theorem ofNat8_eq {n : Nat} {x : UInt8} (h : n = x.toNat) : UInt8.ofNat n = x := by
  subst h
  exact UInt8.ofNat_toNat

theorem ofWord?_of_toWord {i : Instruction} {w : UInt32} (h : i.toWord = .ok w) :
    ofWord? w = some i := by
  have fit := fits_of_toWord h
  have number := toNat_toWord h
  cases i with
  | registerImmediate opcode rd rs flags high constant =>
    rcases rd with ⟨rd⟩
    rcases rs with ⟨rs⟩
    have hf := flags.toNat_lt
    have hh := high.toNat_lt
    have hc := constant.toNat_lt
    simp [fields, Field.ofBits, Field.ofRegister, Field.ofBit, Field.fits] at fit
    simp [fields, Field.ofBits, Field.ofRegister, Field.ofBit, WordWriter.numberFrom,
      toNat_ofBit] at number
    have tag : Word.bits w 31 1 = 0 := by simp only [Word.bits, Nat.reduceShiftLeft]; omega
    have e1 : Word.bits w 28 3 = opcode.toNat := by simp only [Word.bits, Nat.reduceShiftLeft]; omega
    have e2 : Word.bits w 23 5 = rd.toNat := by simp only [Word.bits, Nat.reduceShiftLeft]; omega
    have e3 : Word.bits w 18 5 = rs.toNat := by simp only [Word.bits, Nat.reduceShiftLeft]; omega
    have e4 : Word.bits w 17 1 = flags.toNat := by simp only [Word.bits, Nat.reduceShiftLeft]; omega
    have e5 : Word.bits w 16 1 = high.toNat := by simp only [Word.bits, Nat.reduceShiftLeft]; omega
    have e6 : Word.bits w 0 16 = constant.toNat := by simp only [Word.bits, Nat.reduceShiftLeft]; omega
    simp [ofWord?, tag, Word.register, Word.bit, e1, e2, e3, e6, bit_eq e4, bit_eq e5]
  | registerRegister rd rs1 rs2 flags ext cond =>
    rcases rd with ⟨rd⟩
    rcases rs1 with ⟨rs1⟩
    rcases rs2 with ⟨rs2⟩
    have hf := flags.toNat_lt
    simp [fields, Field.ofBits, Field.ofRegister, Field.ofBit, Field.fits] at fit
    simp [fields, Field.ofBits, Field.ofRegister, Field.ofBit, WordWriter.numberFrom,
      toNat_ofBit] at number
    obtain ⟨lo, hlo⟩ : ∃ lo, lo = cond.toNat % 2 := ⟨_, rfl⟩
    obtain ⟨hi, hhi⟩ : ∃ hi, hi = cond.toNat / 2 := ⟨_, rfl⟩
    have whole : hi * 2 + lo = cond.toNat := by omega
    rw [← hlo, ← hhi] at number fit
    clear hlo hhi
    have high : Word.bits w 31 1 = 1 := by simp only [Word.bits, Nat.reduceShiftLeft]; omega
    have tag : Word.bits w 28 4 = 12 := by simp only [Word.bits, Nat.reduceShiftLeft]; omega
    have e1 : Word.bits w 23 5 = rd.toNat := by simp only [Word.bits, Nat.reduceShiftLeft]; omega
    have e2 : Word.bits w 18 5 = rs1.toNat := by simp only [Word.bits, Nat.reduceShiftLeft]; omega
    have e3 : Word.bits w 17 1 = flags.toNat := by simp only [Word.bits, Nat.reduceShiftLeft]; omega
    have e4 : Word.bits w 11 5 = rs2.toNat := by simp only [Word.bits, Nat.reduceShiftLeft]; omega
    have e5 : Word.bits w 3 8 = ext.toNat := by simp only [Word.bits, Nat.reduceShiftLeft]; omega
    have e6 : Word.bits w 0 3 * 2 + Word.bits w 16 1 = cond.toNat := by simp only [Word.bits, Nat.reduceShiftLeft]; omega
    simp [ofWord?, high, tag, Word.register, Word.bit, e1, e2, e4, e5, bit_eq e3, ofNat8_eq e6]
  | registerMemory bits rd rs1 offset =>
    rcases rd with ⟨rd⟩
    rcases rs1 with ⟨rs1⟩
    rcases bits with ⟨store, p, q⟩
    have hs := store.toNat_lt
    have hp := p.toNat_lt
    have hq := q.toNat_lt
    simp [fields, Field.ofBits, Field.ofRegister, Field.ofBit, Field.fits] at fit
    simp [fields, Field.ofBits, Field.ofRegister, Field.ofBit, WordWriter.numberFrom,
      toNat_ofBit] at number
    have high : Word.bits w 31 1 = 1 := by simp only [Word.bits, Nat.reduceShiftLeft]; omega
    have other : Word.bits w 28 4 ≠ 12 := by simp only [Word.bits, Nat.reduceShiftLeft]; omega
    have tag : Word.bits w 29 3 = 4 := by simp only [Word.bits, Nat.reduceShiftLeft]; omega
    have e1 : Word.bits w 28 1 = store.toNat := by simp only [Word.bits, Nat.reduceShiftLeft]; omega
    have e2 : Word.bits w 23 5 = rd.toNat := by simp only [Word.bits, Nat.reduceShiftLeft]; omega
    have e3 : Word.bits w 18 5 = rs1.toNat := by simp only [Word.bits, Nat.reduceShiftLeft]; omega
    have e4 : Word.bits w 17 1 = p.toNat := by simp only [Word.bits, Nat.reduceShiftLeft]; omega
    have e5 : Word.bits w 16 1 = q.toNat := by simp only [Word.bits, Nat.reduceShiftLeft]; omega
    have e6 : Word.bits w 0 16 = offset.toNat := by simp only [Word.bits, Nat.reduceShiftLeft]; omega
    simp [ofWord?, high, other, tag, Word.register, Word.bit, e2, e3, e6, bit_eq e1, bit_eq e4,
      bit_eq e5]

theorem toWord_of_fits {i : Instruction} {w : UInt32} (fit : ∀ f ∈ i.fields, f.fits)
    (number : WordWriter.numberFrom 0 i.fields = w.toNat) : i.toWord = .ok w := by
  obtain ⟨v, packed, same⟩ := exists_toWord_of_fits fit
  rw [packed, UInt32.toNat_inj.mp (same.trans number)]

theorem toWord_of_ofWord? {i : Instruction} {w : UInt32} (h : ofWord? w = some i) :
    i.toWord = .ok w := by
  have bound := w.toNat_lt
  have rd : Word.bits w 23 5 < 32 := Word.bits_lt w 23 5
  have rs : Word.bits w 18 5 < 32 := Word.bits_lt w 18 5
  have b17 : Word.bits w 17 1 < 2 := Word.bits_lt w 17 1
  have b16 : Word.bits w 16 1 < 2 := Word.bits_lt w 16 1
  have rest : Word.bits w 0 16 < 65536 := Word.bits_lt w 0 16
  unfold ofWord? at h
  split at h
  · have opcode : Word.bits w 28 3 < 8 := Word.bits_lt w 28 3
    have whole : w.toNat = ((((Word.bits w 28 3 * 32 + Word.bits w 23 5) * 32 +
        Word.bits w 18 5) * 2 + Word.bits w 17 1) * 2 + Word.bits w 16 1) * 65536 +
        Word.bits w 0 16 := by
      simp only [Word.bits, Nat.reduceShiftLeft] at *
      omega
    cases h
    apply toWord_of_fits
    · simp [fields, Field.ofBits, Field.ofRegister, Field.ofBit, Field.fits, toNat_ofBit,
        Word.toNat_bit, Word.register]
      omega
    · simp [fields, Field.ofBits, Field.ofRegister, Field.ofBit, WordWriter.numberFrom,
        toNat_ofBit, Word.toNat_bit, Word.register]
      omega
  · split at h
    · have rs2 : Word.bits w 11 5 < 32 := Word.bits_lt w 11 5
      have ext : Word.bits w 3 8 < 256 := Word.bits_lt w 3 8
      have hi : Word.bits w 0 3 < 8 := Word.bits_lt w 0 3
      have whole : w.toNat = ((((((12 * 32 + Word.bits w 23 5) * 32 + Word.bits w 18 5) * 2 +
          Word.bits w 17 1) * 2 + Word.bits w 16 1) * 32 + Word.bits w 11 5) * 256 +
          Word.bits w 3 8) * 8 + Word.bits w 0 3 := by
        simp only [Word.bits, Nat.reduceShiftLeft] at *
        omega
      obtain ⟨cond, hcond⟩ : ∃ cond, cond = Word.bits w 0 3 * 2 + Word.bits w 16 1 := ⟨_, rfl⟩
      have small : cond % 256 = cond := by omega
      have odd : cond % 2 = Word.bits w 16 1 := by omega
      have half : cond / 2 = Word.bits w 0 3 := by omega
      rw [← hcond] at h
      cases h
      apply toWord_of_fits
      · simp [fields, Field.ofBits, Field.ofRegister, Field.ofBit, Field.fits, toNat_ofBit,
          Word.toNat_bit, Word.register, small, odd, half]
        clear whole hcond small odd half
        omega
      · simp [fields, Field.ofBits, Field.ofRegister, Field.ofBit, WordWriter.numberFrom,
          toNat_ofBit, Word.toNat_bit, Word.register, small, odd, half]
        clear hcond small odd half
        omega
    · split at h
      · have store : Word.bits w 28 1 < 2 := Word.bits_lt w 28 1
        have whole : w.toNat = (((((4 * 2 + Word.bits w 28 1) * 32 + Word.bits w 23 5) * 32 +
            Word.bits w 18 5) * 2 + Word.bits w 17 1) * 2 + Word.bits w 16 1) * 65536 +
            Word.bits w 0 16 := by
          simp only [Word.bits, Nat.reduceShiftLeft] at *
          omega
        cases h
        apply toWord_of_fits
        · simp [fields, Field.ofBits, Field.ofRegister, Field.ofBit, Field.fits, toNat_ofBit,
            Word.toNat_bit, Word.register]
          omega
        · simp [fields, Field.ofBits, Field.ofRegister, Field.ofBit, WordWriter.numberFrom,
            toNat_ofBit, Word.toNat_bit, Word.register]
          omega
      · cases h

end Instruction
end SoftCore
