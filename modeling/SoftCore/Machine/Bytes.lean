/-! The four bytes of a word, the highest first. -/

namespace SoftCore.Word

/-- Byte `k` of a word, counted from the highest. -/
def byte (w : UInt32) (k : Nat) : UInt8 := UInt8.ofNat (w.toNat >>> (8 * (3 - k)))

def bytes (w : UInt32) : List UInt8 := [byte w 0, byte w 1, byte w 2, byte w 3]

def ofBytes (a b c d : UInt8) : UInt32 :=
  UInt32.ofNat (a.toNat * 0x1000000 + b.toNat * 0x10000 + c.toNat * 0x100 + d.toNat)

@[simp] theorem length_bytes (w : UInt32) : (bytes w).length = 4 := rfl

theorem ofBytes_byte (w : UInt32) : ofBytes (byte w 0) (byte w 1) (byte w 2) (byte w 3) = w := by
  have h := w.toNat_lt
  apply UInt32.toNat_inj.mp
  simp only [ofBytes, byte, UInt8.toNat_ofNat', UInt32.toNat_ofNat']
  omega

theorem eq_of_byte_eq {v w : UInt32} (h : ∀ k ≤ 3, byte v k = byte w k) : v = w := by
  rw [← ofBytes_byte v, h 0 (by omega), h 1 (by omega), h 2 (by omega), h 3 (by omega),
    ofBytes_byte]

theorem bytes_ofBytes (a b c d : UInt8) : bytes (ofBytes a b c d) = [a, b, c, d] := by
  have ha := a.toNat_lt
  have hb := b.toNat_lt
  have hc := c.toNat_lt
  have hd := d.toNat_lt
  simp only [bytes, byte, ofBytes, List.cons.injEq, ← UInt8.toNat_inj, UInt8.toNat_ofNat',
    UInt32.toNat_ofNat', and_true]
  omega

end SoftCore.Word
