import SoftCore.Lowering

/-! The numbers that an instruction carries. A constant of 32 bits is carried as
the one half that is not zero, a shift amount and an offset in 16 bits as two's
complement, and each is recovered from the bits that carry it. -/

namespace SoftCore

/-- Sixteen bits as a signed number. -/
def signed (bits : UInt16) : Int :=
  if bits.toNat < 0x8000 then bits.toNat else bits.toNat - 0x10000

theorem toNat_ofInt16 (n : Int) : ((UInt16.ofInt n).toNat : Int) = n % 0x10000 := by
  simp [UInt16.ofInt]
  omega

theorem signed_ofInt {n : Int} (low : -0x8000 ≤ n) (high : n < 0x8000) :
    signed (UInt16.ofInt n) = n := by
  have value := toNat_ofInt16 n
  unfold signed
  split <;> omega

theorem ofInt_signed (bits : UInt16) : UInt16.ofInt (signed bits) = bits := by
  have bound := bits.toNat_lt
  have value := toNat_ofInt16 (signed bits)
  rw [← UInt16.toNat_inj]
  unfold signed at *
  split at value <;> rename_i small <;> simp only [small, if_true, if_false] <;> omega

namespace HalfWord

/-- The half that an instruction carries: zero is carried as a high half. -/
def Canonical (h : HalfWord) : Prop := h.high = false → h.bits ≠ 0

theorem ofInt_eq_ok_iff {n : Int} {h : HalfWord} :
    ofInt n = .ok h ↔
      (-0x80000000 ≤ n ∧ n < 0x100000000) ∧ (h.toNat : Int) = n % 0x100000000 ∧ h.Canonical := by
  constructor
  · intro hn
    refine ⟨?_, toNat_of_ofInt hn, ?_⟩
    · unfold ofInt at hn
      split at hn
      · cases hn
      · omega
    · unfold ofInt at hn
      dsimp only at hn
      split at hn
      · cases hn
      · split at hn
        · cases hn
          exact Bool.noConfusion
        · split at hn
          · cases hn
            rintro -
            rw [Ne, ← UInt16.toNat_inj]
            simp
            omega
          · cases hn
  · rintro ⟨range, value, canonical⟩
    obtain ⟨v, hv⟩ : ∃ v, v = (n % 0x100000000).toNat := ⟨_, rfl⟩
    obtain ⟨high, bits⟩ := h
    have bound := bits.toNat_lt
    unfold ofInt
    rw [if_neg (by omega), ← hv]
    cases high with
    | true =>
      have low : v = bits.toNat * 0x10000 := by
        simp [toNat] at value
        omega
      simp [low]
    | false =>
      have low : v = bits.toNat := by
        simp [toNat] at value
        omega
      have filled : bits.toNat ≠ 0 := fun e => canonical rfl (UInt16.toNat_inj.mp e)
      simp only [low]
      rw [if_neg (by omega), if_pos (by omega), UInt16.ofNat_toNat]

/-! The two halves of a constant. -/

def lowerHalf (n : Int) : Int := n % 0x100000000 % 0x10000

def upperHalf (n : Int) : Int := n % 0x100000000 / 0x10000

/-- A constant in range of which one half is zero. -/
structure Splits (n : Int) : Prop where
  range : -0x80000000 ≤ n ∧ n < 0x100000000
  empty : lowerHalf n = 0 ∨ upperHalf n = 0

theorem lowerHalf_eq_zero_iff {n : Int} : lowerHalf n = 0 ↔ (0x10000 : Int) ∣ n := by
  unfold lowerHalf
  omega

/-- The half that is carried is the upper one exactly when the lower one is zero. -/
theorem high_iff_of_ofInt {n : Int} {h : HalfWord} (hn : ofInt n = .ok h) :
    h.high = true ↔ lowerHalf n = 0 := by
  obtain ⟨-, value, canonical⟩ := ofInt_eq_ok_iff.mp hn
  obtain ⟨high, bits⟩ := h
  have bound := bits.toNat_lt
  unfold lowerHalf
  cases high with
  | true =>
    simp only [toNat, if_true] at value
    exact iff_of_true rfl (by omega)
  | false =>
    have filled : bits.toNat ≠ 0 := fun e => canonical rfl (UInt16.toNat_inj.mp e)
    simp only [toNat, Bool.false_eq_true, if_false] at value
    exact iff_of_false Bool.false_ne_true (by omega)

theorem splits_of_ofInt {n : Int} {h : HalfWord} (hn : ofInt n = .ok h) : Splits n := by
  obtain ⟨range, value, -⟩ := ofInt_eq_ok_iff.mp hn
  refine ⟨range, ?_⟩
  have bound := h.bits.toNat_lt
  cases high : h.high with
  | true => exact .inl ((high_iff_of_ofInt hn).mp high)
  | false =>
    right
    simp only [toNat, high, Bool.false_eq_true, if_false] at value
    unfold upperHalf
    omega

theorem exists_ofInt_of_splits {n : Int} (h : Splits n) : ∃ half, ofInt n = .ok half := by
  have range := h.range
  have empty := h.empty
  unfold lowerHalf upperHalf at empty
  by_cases lower : n % 0x100000000 % 0x10000 = 0
  · refine ⟨⟨true, UInt16.ofNat (n % 0x100000000 / 0x10000).toNat⟩, ?_⟩
    refine ofInt_eq_ok_iff.mpr ⟨range, ?_, Bool.noConfusion⟩
    simp only [toNat, if_true, UInt16.toNat_ofNat']
    omega
  · refine ⟨⟨false, UInt16.ofNat (n % 0x100000000).toNat⟩, ?_⟩
    refine ofInt_eq_ok_iff.mpr ⟨range, ?_, fun _ => ?_⟩
    · simp only [toNat, Bool.false_eq_true, if_false, UInt16.toNat_ofNat']
      omega
    · rw [Ne, ← UInt16.toNat_inj, UInt16.toNat_ofNat']
      show ¬_ = 0
      omega

theorem eq_of_toNat_eq {h k : HalfWord} (hc : h.Canonical) (kc : k.Canonical)
    (same : h.toNat = k.toNat) : h = k := by
  obtain ⟨high, bits⟩ := h
  obtain ⟨other, contents⟩ := k
  have below := bits.toNat_lt
  have under := contents.toNat_lt
  -- A low half is below `2 ^ 16` and not zero, so it is no high one.
  cases high <;> cases other <;>
    simp only [toNat, Bool.false_eq_true, if_false, if_true] at same
  · rw [UInt16.toNat_inj.mp same]
  · have filled : bits.toNat ≠ 0 := fun e => hc rfl (UInt16.toNat_inj.mp e)
    omega
  · have filled : contents.toNat ≠ 0 := fun e => kc rfl (UInt16.toNat_inj.mp e)
    omega
  · rw [UInt16.toNat_inj.mp (Nat.eq_of_mul_eq_mul_right (by decide) same)]

/-- Constants are carried alike exactly when they are the same modulo `2 ^ 32`. -/
theorem eq_iff_of_ofInt {n m : Int} {h k : HalfWord} (hn : ofInt n = .ok h)
    (hm : ofInt m = .ok k) : h = k ↔ n % 0x100000000 = m % 0x100000000 := by
  obtain ⟨-, first, hc⟩ := ofInt_eq_ok_iff.mp hn
  obtain ⟨-, second, kc⟩ := ofInt_eq_ok_iff.mp hm
  rw [← first, ← second]
  exact ⟨fun same => by rw [same], fun same => eq_of_toNat_eq hc kc (Int.ofNat_inj.mp same)⟩

/-- The upper half of a negative constant has its sign bit set, so the lower one is zero. -/
theorem high_of_negative {n : Int} {h : HalfWord} (hn : ofInt n = .ok h) (negative : n < 0) :
    h.high = true ∧ 0x8000 ≤ h.bits := by
  obtain ⟨range, empty⟩ := splits_of_ofInt hn
  have value := toNat_of_ofInt hn
  have lower : lowerHalf n = 0 := empty.resolve_right fun zero => by
    unfold upperHalf at zero
    omega
  have high := (high_iff_of_ofInt hn).mpr lower
  refine ⟨high, ?_⟩
  simp only [toNat, high, if_true] at value
  rw [UInt16.le_iff_toNat_le]
  show 0x8000 ≤ _
  omega

theorem unsplittable_of_ofInt {n : Int} {fault : Fault} (hn : ofInt n = .error fault) :
    fault = .unsplittable n := by
  unfold ofInt at hn
  dsimp only at hn
  split at hn
  · cases hn
    rfl
  · split at hn
    · cases hn
    · split at hn
      · cases hn
      · cases hn
        rfl

theorem ofInt_eq_error_iff {n : Int} {fault : Fault} :
    ofInt n = .error fault ↔ ¬Splits n ∧ fault = .unsplittable n := by
  constructor
  · intro failed
    refine ⟨fun splits => ?_, unsplittable_of_ofInt failed⟩
    obtain ⟨half, carried⟩ := exists_ofInt_of_splits splits
    rw [failed] at carried
    cases carried
  · rintro ⟨whole, rfl⟩
    cases outcome : ofInt n with
    | ok half => exact absurd (splits_of_ofInt outcome) whole
    | error fault => rw [unsplittable_of_ofInt outcome]

/-- A constant is carried exactly when it is in range and one of its halves is zero, and is refused
by its own number otherwise. The half that is carried tells the constant modulo `2 ^ 32` and
nothing more; a negative one is a multiple of `2 ^ 16` with its sign bit in the upper half. -/
theorem carried_iff_splits (n : Int) :
    ((∃ h, ofInt n = .ok h) ↔ Splits n) ∧
    (∀ h, ofInt n = .ok h →
      (h.toNat : Int) = n % 0x100000000 ∧ (h.high = true ↔ lowerHalf n = 0) ∧
      (n < 0 → (0x10000 : Int) ∣ n ∧ h.high = true ∧ 0x8000 ≤ h.bits) ∧
      ∀ m k, ofInt m = .ok k → (h = k ↔ n % 0x100000000 = m % 0x100000000)) ∧
    ∀ fault, ofInt n = .error fault ↔ ¬Splits n ∧ fault = .unsplittable n := by
  refine ⟨⟨?_, exists_ofInt_of_splits⟩, fun h hn => ?_, fun fault => ofInt_eq_error_iff⟩
  · rintro ⟨h, hn⟩
    exact splits_of_ofInt hn
  · refine ⟨toNat_of_ofInt hn, high_iff_of_ofInt hn, fun negative => ?_,
      fun m k hm => eq_iff_of_ofInt hn hm⟩
    have high := high_of_negative hn negative
    exact ⟨lowerHalf_eq_zero_iff.mp ((high_iff_of_ofInt hn).mp high.1), high⟩

/-- The lowest constant is carried like the one that it is modulo `2 ^ 32`. -/
theorem carried_iff_splits_lowest : ∃ h k, ofInt (-0x80000000) = .ok h ∧ ofInt 0x80000000 = .ok k ∧
    h = k ∧ (0x10000 : Int) ∣ -0x80000000 ∧ h.high = true ∧ 0x8000 ≤ h.bits := by
  obtain ⟨-, -, negative, same⟩ := (carried_iff_splits (-0x80000000)).2.1 ⟨true, 0x8000⟩ rfl
  exact ⟨_, ⟨true, 0x8000⟩, rfl, rfl, (same 0x80000000 _ rfl).mpr (by decide),
    negative (by decide)⟩

example : ofInt 0 = .ok ⟨true, 0⟩ := by rfl

end HalfWord

namespace Operation

/-- An immediate as the operation takes it: the amount of a shift as it is, any other in 32 bits. -/
def taken (op : Operation) (n : Int) : Int := if op.isShift then n else n % 0x100000000

/-- What the operation makes of the sixteen bits of its immediate. -/
def valueOf (op : Operation) (half : HalfWord) : Int :=
  if op.isShift then signed half.bits else half.toNat

theorem taken_taken (op : Operation) (n : Int) : op.taken (op.taken n) = op.taken n := by
  unfold taken
  split
  · rfl
  · omega

theorem immediate_of_shift {op : Operation} (shift : op.isShift) {n : Int} {half : HalfWord} :
    op.immediate n = .ok half ↔
      (-31 ≤ n ∧ n ≤ 31) ∧ half = { high := op = .sha, bits := UInt16.ofInt n } := by
  rw [immediate, if_pos shift]
  split
  · simp [*, eq_comm]
  · simp [*]

theorem immediate_of_not_shift {op : Operation} (other : op.isShift = false) (n : Int) :
    op.immediate n = HalfWord.ofInt n := by
  simp [immediate, other]

theorem valueOf_of_immediate {op : Operation} {n : Int} {half : HalfWord}
    (h : op.immediate n = .ok half) : op.valueOf half = op.taken n := by
  cases shift : op.isShift with
  | true =>
    obtain ⟨range, rfl⟩ := (immediate_of_shift shift).mp h
    simp only [valueOf, taken, shift, if_true]
    exact signed_ofInt (by omega) (by omega)
  | false =>
    rw [immediate_of_not_shift shift] at h
    simpa [valueOf, taken, shift] using HalfWord.toNat_of_ofInt h

/-- An accepted immediate and the one that the operation takes it for are carried alike. -/
theorem immediate_taken {op : Operation} {n : Int} {half : HalfWord}
    (h : op.immediate n = .ok half) : op.immediate (op.taken n) = .ok half := by
  cases shift : op.isShift with
  | true => simpa [taken, shift] using h
  | false =>
    rw [immediate_of_not_shift shift, HalfWord.ofInt_eq_ok_iff] at *
    simp only [taken, shift, Bool.false_eq_true, if_false]
    obtain ⟨-, value, canonical⟩ := h
    exact ⟨by omega, by omega, canonical⟩

theorem immediate_valueOf_of_shift {op : Operation} (shift : op.isShift) {half : HalfWord} :
    op.immediate (op.valueOf half) = .ok half ↔
      (half.bits.toNat ≤ 31 ∨ 0xFFE1 ≤ half.bits.toNat) ∧ half.high = decide (op = .sha) := by
  have bound := half.bits.toNat_lt
  have near : -31 ≤ signed half.bits ∧ signed half.bits ≤ 31 ↔
      half.bits.toNat ≤ 31 ∨ 0xFFE1 ≤ half.bits.toNat := by
    unfold signed
    split <;> omega
  rw [immediate_of_shift shift, valueOf, if_pos shift, near, ofInt_signed]
  cases half
  simp

theorem immediate_valueOf_of_not_shift {op : Operation} (other : op.isShift = false)
    {half : HalfWord} : op.immediate (op.valueOf half) = .ok half ↔ half.Canonical := by
  have bound := half.bits.toNat_lt
  have range : half.toNat < 0x100000000 := by
    unfold HalfWord.toNat
    split <;> omega
  rw [immediate_of_not_shift other, HalfWord.ofInt_eq_ok_iff, valueOf, other, if_neg (by simp)]
  exact ⟨fun h => h.2.2, fun h => ⟨by omega, by omega, h⟩⟩

theorem natAbs_valueOf_lt (op : Operation) (half : HalfWord) :
    (op.valueOf half).natAbs < Literal.limit := by
  have bound := half.bits.toNat_lt
  simp only [valueOf, signed, HalfWord.toNat, Literal.limit]
  split <;> split <;> omega

end Operation

namespace Instruction

theorem toNat_of_offsetContents {n : Int} {contents : UInt64}
    (h : offsetContents n = .ok contents) (below : n < 0x8000000000000000) :
    -0x8000 ≤ n ∧ (contents.toNat : Int) = if 0 ≤ n then n else n + 0x10000 := by
  unfold offsetContents at h
  split at h
  · cases h
    rename_i nonneg
    simp only [nonneg, if_true, UInt64.ofInt, UInt64.toNat_ofNat']
    omega
  · split at h
    · cases h
    · cases h
      rename_i negative near
      have value := toNat_ofInt16 n
      simp only [negative, if_false, UInt16.toNat_toUInt64]
      omega

theorem offsetContents_of_nonneg {n : Int} (h : 0 ≤ n) :
    offsetContents n = .ok (UInt64.ofInt n) := if_pos h

theorem toNat_ofInt64 {n : Int} (low : 0 ≤ n) (high : n < 0x8000000000000000) :
    ((UInt64.ofInt n).toNat : Int) = n := by
  simp only [UInt64.ofInt, UInt64.toNat_ofNat']
  omega

theorem ofInt_toNat (n : UInt64) : UInt64.ofInt n.toNat = n := by
  have bound := n.toNat_lt
  rw [← UInt64.toNat_inj]
  simp [UInt64.ofInt]
  omega

/-- An offset that fits its field is carried as its lowest sixteen bits are. -/
theorem offsetContents_emod {n : Int} {contents : UInt64} (h : offsetContents n = .ok contents)
    (below : n < 0x8000000000000000) (narrow : contents.toNat < 0x10000) :
    offsetContents (n % 0x10000) = .ok contents ∧ (n % 0x10000 = 0 ↔ n = 0) := by
  obtain ⟨near, value⟩ := toNat_of_offsetContents h below
  have carried : (contents.toNat : Int) = n % 0x10000 := by
    split at value <;> omega
  have same : UInt64.ofInt (n % 0x10000) = contents := by
    rw [← UInt64.toNat_inj, ← Int.ofNat_inj, toNat_ofInt64 (by omega) (by omega), carried]
  refine ⟨by rw [offsetContents_of_nonneg (by omega), same], ?_⟩
  split at value <;> omega

theorem offset_lt_of_toWord {bits : AccessBits} {rd rs1 : Register} {offset : UInt64}
    {w : UInt32} (h : (registerMemory bits rd rs1 offset).toWord = .ok w) :
    offset.toNat < 0x10000 := by
  have fit := fits_of_toWord h (Field.ofBits "offset" 16 offset) (by simp [fields])
  exact Field.fits_iff.mp fit

end Instruction
end SoftCore
