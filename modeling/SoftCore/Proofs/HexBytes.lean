import SoftCore.Report

/-! The hexadecimal report of an image, byte by byte. A word is written with the
two digits of each of its bytes in their order, so a line of the report shows
four bytes of the image, the last line filled up with zeros. -/

namespace SoftCore

/-- One more place sets the last digit off from those before it. -/
theorem Radix.writePadded_succ (r : Radix) {width : Nat} (filled : 0 < width) (n : Nat) :
    r.writePadded (width + 1) n =
      r.writePadded width (n / r.base) ++ [(n % r.base).digitChar] := by
  have base := r.one_lt_base
  by_cases small : n < r.base
  · have one : r.write n = [n.digitChar] := Nat.toDigits_of_lt_base small
    have zero : r.write (n / r.base) = ['0'] := by
      rw [Nat.div_eq_of_lt small, write, Nat.toDigits_of_lt_base (Nat.zero_lt_of_lt base)]
      rfl
    have zeros : List.replicate width '0' = List.replicate (width - 1) '0' ++ ['0'] := by
      rw [← List.replicate_succ', Nat.sub_add_cancel filled]
    simp only [writePadded, one, zero, Nat.mod_eq_of_lt small, List.length_singleton,
      Nat.add_sub_cancel, zeros]
  · have more : r.write n = r.write (n / r.base) ++ [(n % r.base).digitChar] :=
      Nat.toDigits_of_base_le base (Nat.not_lt.mp small)
    rw [writePadded, more, List.length_append, List.length_singleton, Nat.add_sub_add_right,
      ← List.append_assoc, writePadded]

/-- The bytes of the words are all bytes, and zeros up to a multiple of four. -/
theorem Image.flatMap_bytes_wordsOfBytes (bytes : List UInt8) :
    (wordsOfBytes bytes).flatMap Word.bytes =
      bytes ++ List.replicate ((4 - bytes.length % 4) % 4) 0 := by
  fun_induction wordsOfBytes bytes with
  | case1 a b c d rest ih =>
    have missing : (4 - (a :: b :: c :: d :: rest).length % 4) % 4 = (4 - rest.length % 4) % 4 := by
      simp only [List.length_cons]
      omega
    rw [List.flatMap_cons, Word.bytes_ofBytes, ih, missing]
    rfl
  | case2 | case3 | case4 => simp [Word.bytes_ofBytes, List.replicate]
  | case5 => rfl

namespace Report

/-- The two digits of a byte, in lower case. -/
def hexByte (b : UInt8) : Text := [(b.toNat / 16).digitChar, (b.toNat % 16).digitChar]

/-- Bytes on a line of their own. -/
def hexLine (bytes : List UInt8) : Text := bytes.flatMap hexByte ++ ['\n']

theorem writePadded_two (b : UInt8) : Radix.hexadecimal.writePadded 2 b.toNat = hexByte b := by
  have small := b.toNat_lt
  have digit : b.toNat / 16 < 16 := by omega
  have high : Radix.hexadecimal.write (b.toNat / 16) = [(b.toNat / 16).digitChar] :=
    Nat.toDigits_of_lt_base digit
  rw [Radix.writePadded_succ _ Nat.one_pos, Radix.writePadded, Radix.base, high]
  rfl

/-- The digits of the last byte stand behind those of the bytes before it. -/
theorem writePadded_byte {width : Nat} (filled : 0 < width) (high : Nat) (b : UInt8) :
    Radix.hexadecimal.writePadded (width + 2) (high * 256 + b.toNat) =
      Radix.hexadecimal.writePadded width high ++ hexByte b := by
  have small := b.toNat_lt
  have front : (high * 256 + b.toNat) / 16 / 16 = high := by omega
  have first : (high * 256 + b.toNat) / 16 % 16 = b.toNat / 16 := by omega
  have second : (high * 256 + b.toNat) % 16 = b.toNat % 16 := by omega
  rw [Radix.writePadded_succ _ (by omega), Radix.writePadded_succ _ filled]
  simp [Radix.base, front, first, second, hexByte]

theorem hexWord_ofBytes (a b c d : UInt8) :
    hexWord (Word.ofBytes a b c d) = [a, b, c, d].flatMap hexByte := by
  have ha := a.toNat_lt
  have hb := b.toNat_lt
  have hc := c.toNat_lt
  have hd := d.toNat_lt
  have value : (Word.ofBytes a b c d).toNat =
      ((a.toNat * 256 + b.toNat) * 256 + c.toNat) * 256 + d.toNat := by
    rw [Word.ofBytes, UInt32.toNat_ofNat']
    omega
  rw [hexWord, value, writePadded_byte (by omega), writePadded_byte (by omega),
    writePadded_byte (by omega), writePadded_two]
  simp

/-- A word is written as its bytes are. -/
theorem hexWord_eq_flatMap (w : UInt32) : hexWord w = (Word.bytes w).flatMap hexByte := by
  rw [← Word.ofBytes_byte w, hexWord_ofBytes, Word.bytes_ofBytes]

/-- Groups of four that make up the bytes, the last one filled up with zeros. -/
structure Fours (bytes : List UInt8) (groups : List (List UInt8)) : Prop where
  whole : groups.flatten = bytes ++ List.replicate ((4 - bytes.length % 4) % 4) 0
  four : ∀ group ∈ groups, group.length = 4

theorem exists_fours (bytes : List UInt8) : ∃ groups, Fours bytes groups ∧
    (Image.wordsOfBytes bytes).flatMap (fun w => hexWord w ++ ['\n']) = groups.flatMap hexLine := by
  refine ⟨(Image.wordsOfBytes bytes).map Word.bytes, ⟨?_, ?_⟩, ?_⟩
  · rw [← List.flatMap_def, Image.flatMap_bytes_wordsOfBytes]
  · rintro group mem
    obtain ⟨w, -, rfl⟩ := List.mem_map.mp mem
    rfl
  · have line : ∀ w, hexWord w ++ ['\n'] = hexLine (Word.bytes w) := fun w => by
      rw [hexWord_eq_flatMap, hexLine]
    simp only [List.flatMap_map, line]

end Report
end SoftCore
