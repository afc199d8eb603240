import SoftCore.Proofs.HexBytes
import SoftCore.Proofs.Numerals
import SoftCore.Proofs.RowLines

/-! The ways of reading an image. Its words in order are those that stand at the
multiples of four, and a last one where fewer than four bytes are left, filled
up with zeros; at the address of that one nothing can be read. The hexadecimal
report has the words in order, a line each, so it gives all bytes back. -/

namespace SoftCore

namespace Image

/-- The four bytes from a place on, zeros where there are none. -/
def wordFrom (bytes : List UInt8) (i : Nat) : UInt32 :=
  Word.ofBytes (bytes.getD i 0) (bytes.getD (i + 1) 0) (bytes.getD (i + 2) 0) (bytes.getD (i + 3) 0)

theorem byte_wordFrom (bytes : List UInt8) (i : Nat) {j : Nat} (small : j ≤ 3) :
    Word.byte (wordFrom bytes i) j = bytes.getD (i + j) 0 := by
  have whole : Word.bytes (wordFrom bytes i) = _ := Word.bytes_ofBytes ..
  simp only [Word.bytes, List.cons.injEq, and_true] at whole
  obtain ⟨first, second, third, fourth⟩ := whole
  have position : j = 0 ∨ j = 1 ∨ j = 2 ∨ j = 3 := by omega
  rcases position with rfl | rfl | rfl | rfl
  · exact first
  · exact second
  · exact third
  · exact fourth

theorem wordsOfBytes_of_ne_nil {bytes : List UInt8} (filled : bytes ≠ []) :
    wordsOfBytes bytes = wordFrom bytes 0 :: wordsOfBytes (bytes.drop 4) := by
  fun_cases wordsOfBytes bytes with
  | case5 => exact absurd rfl filled
  | case1 | case2 | case3 | case4 => rfl

/-- There is a word at each multiple of four below the end. -/
theorem getElem?_wordsOfBytes (bytes : List UInt8) (k : Nat) :
    (wordsOfBytes bytes)[k]? = if 4 * k < bytes.length then some (wordFrom bytes (4 * k)) else none := by
  induction k generalizing bytes with
  | zero =>
    cases bytes with
    | nil => rfl
    | cons b rest => simp [wordsOfBytes_of_ne_nil]
  | succ k ih =>
    cases bytes with
    | nil => rfl
    | cons b rest =>
      have later : wordFrom ((b :: rest).drop 4) (4 * k) = wordFrom (b :: rest) (4 * (k + 1)) := by
        have place : 4 * (k + 1) = 4 + 4 * k := by omega
        simp only [wordFrom, List.getD_eq_getElem?_getD, List.getElem?_drop, place, Nat.add_assoc]
      have inside : 4 * k < ((b :: rest).drop 4).length ↔ 4 * (k + 1) < (b :: rest).length := by
        rw [List.length_drop]
        omega
      rw [wordsOfBytes_of_ne_nil (List.cons_ne_nil b rest), List.getElem?_cons_succ, ih, later]
      simp only [inside]

theorem length_wordsOfBytes (bytes : List UInt8) :
    (wordsOfBytes bytes).length = (bytes.length + 3) / 4 := by
  fun_induction wordsOfBytes bytes with
  | case1 a b c d rest ih =>
    simp only [List.length_cons, ih]
    omega
  | case2 | case3 | case4 | case5 => simp

variable {image : Image} {address : UInt32} {k : Nat}

theorem length_words (image : Image) : image.words.length = (image.capacity + 3) / 4 :=
  length_wordsOfBytes image.bytes.toList

theorem getElem?_words (inside : 4 * k < image.capacity) :
    image.words[k]? = some (wordFrom image.bytes.toList (4 * k)) := by
  rw [words, getElem?_wordsOfBytes, if_pos]
  exact inside

/-- A whole word is the one that is read at its address. -/
theorem read_eq_word (place : address.toNat = 4 * k) (whole : 4 * k + 4 ≤ image.capacity) :
    ∃ word, image.words[k]? = some word ∧ image.read address = .ok word := by
  obtain ⟨word, found⟩ := exists_read_of_fits (fits_iff.mpr (place ▸ whole))
  have same : wordFrom image.bytes.toList (4 * k) = word := Word.eq_of_byte_eq fun j small => by
    have byte := getElem?_of_read found small
    rw [byte_wordFrom _ _ small, List.getD_eq_getElem?_getD, Array.getElem?_toList, ← place, byte]
    rfl
  exact ⟨word, same ▸ getElem?_words (by omega), found⟩

/-- Where less than a word is left, nothing is read, and the bytes left begin the last word. -/
theorem read_eq_error_of_partial (place : address.toNat = 4 * k) (some : 4 * k < image.capacity)
    (few : image.capacity < 4 * k + 4) :
    image.read address = .error (.outOfImage address image.capacity) ∧
      ∃ word, image.words[k]? = .some word ∧
        ∀ j ≤ 3, Word.byte word j = image.bytes.getD (4 * k + j) 0 := by
  have out : image.fits address = false := decide_eq_false (by omega)
  refine ⟨?_, _, getElem?_words some, fun j small => ?_⟩
  · rw [read, read?_eq_none_iff.mpr out]
  · rw [byte_wordFrom _ _ small]
    simp

end Image

namespace Report

/-- The byte of two hexadecimal digits. -/
def byteOfHex? (high low : Char) : Option UInt8 := do
  let h ← Radix.hexadecimal.digit? high
  let l ← Radix.hexadecimal.digit? low
  pure (UInt8.ofNat (h * 16 + l))

/-- The bytes of a line, two digits for each. -/
def bytesOfLine? : Text → Option (List UInt8)
  | [] => some []
  | [_] => none
  | high :: low :: rest => do
    let b ← byteOfHex? high low
    let bs ← bytesOfLine? rest
    pure (b :: bs)

/-- The bytes that the lines of a report give, in their order. -/
def bytesOfLines? (t : Text) : Option (List UInt8) := do
  let lines ← t.lines?
  let groups ← lines.mapM bytesOfLine?
  pure groups.flatten

theorem byteOfHex?_hexByte (b : UInt8) :
    byteOfHex? (b.toNat / 16).digitChar (b.toNat % 16).digitChar = some b := by
  have small := b.toNat_lt
  have high : Radix.hexadecimal.digit? (b.toNat / 16).digitChar = some (b.toNat / 16) :=
    Radix.hexadecimal.digit?_digitChar (show _ < 16 by omega)
  have low : Radix.hexadecimal.digit? (b.toNat % 16).digitChar = some (b.toNat % 16) :=
    Radix.hexadecimal.digit?_digitChar (show _ < 16 by omega)
  have whole : b.toNat / 16 * 16 + b.toNat % 16 = b.toNat := Nat.div_add_mod' _ _
  rw [byteOfHex?, high, low]
  show some (UInt8.ofNat (b.toNat / 16 * 16 + b.toNat % 16)) = some b
  rw [whole, UInt8.ofNat_toNat]

theorem bytesOfLine?_flatMap_hexByte (bytes : List UInt8) :
    bytesOfLine? (bytes.flatMap hexByte) = some bytes := by
  induction bytes with
  | nil => rfl
  | cons b rest ih =>
    rw [List.flatMap_cons, hexByte, List.cons_append, List.singleton_append, bytesOfLine?,
      byteOfHex?_hexByte, ih]
    rfl

/-- The words are read back from their lines byte by byte. -/
theorem mapM_bytesOfLine? (words : List UInt32) :
    (words.map hexWord).mapM bytesOfLine? = some (words.map Word.bytes) := by
  have lines : words.map hexWord = (words.map Word.bytes).map (·.flatMap hexByte) := by
    rw [List.map_map]
    exact List.map_congr_left fun w _ => hexWord_eq_flatMap w
  rw [lines, mapM_map_of_leftInverse bytesOfLine?_flatMap_hexByte]

theorem hexLines_eq (image : Image) :
    hexLines image = (image.words.map hexWord).flatMap (· ++ ['\n']) := by
  rw [hexLines, List.flatMap_map]

/-- The words of the report are its lines. -/
theorem lines?_hexLines (image : Image) :
    (hexLines image).lines? = some (image.words.map hexWord) := by
  have unbroken : ∀ line ∈ image.words.map hexWord, '\n' ∉ line := by
    rintro line mem
    obtain ⟨word, -, rfl⟩ := List.mem_map.mp mem
    exact Radix.not_mem_writePadded (by decide) 8 _
  rw [hexLines_eq, Text.lines?_flatMap, Text.flatMap_pieces_of_not_mem unbroken]

/-- All bytes are read back from the report, and the zeros that fill up its last word. -/
theorem bytesOfLines?_hexLines (image : Image) : bytesOfLines? (hexLines image) =
    some (image.bytes.toList ++ List.replicate ((4 - image.capacity % 4) % 4) 0) := by
  rw [bytesOfLines?, lines?_hexLines]
  show ((image.words.map hexWord).mapM bytesOfLine?).bind _ = _
  rw [mapM_bytesOfLine?]
  show some (image.words.map Word.bytes).flatten = _
  rw [← List.flatMap_def, Image.words, Image.flatMap_bytes_wordsOfBytes, Image.capacity,
    Array.length_toList]

theorem hexLines_injective {a b : Image} (size : a.capacity = b.capacity)
    (same : hexLines a = hexLines b) : a = b := by
  have bytes := bytesOfLines?_hexLines a
  rw [same, bytesOfLines?_hexLines b, size, Option.some.injEq] at bytes
  have lists : b.bytes.toList = a.bytes.toList := List.append_cancel_right bytes
  exact congrArg Image.mk (Array.toList_inj.mp lists.symm)

/-- The digits of a report, in lower case. -/
theorem digit_of_mem_hexWord {w : UInt32} {c : Char} (mem : c ∈ hexWord w) :
    c ∈ Radix.hexadecimal.alphabet := by
  have digits : ∀ d ∈ List.range 16, d.digitChar ∈ Radix.hexadecimal.alphabet := by decide
  rw [hexWord_eq_flatMap] at mem
  obtain ⟨b, -, mem⟩ := List.mem_flatMap.mp mem
  have small := b.toNat_lt
  have high := digits (b.toNat / 16) (List.mem_range.mpr (by omega))
  have low := digits (b.toNat % 16) (List.mem_range.mpr (by omega))
  rw [hexByte, List.mem_cons, List.mem_singleton] at mem
  rcases mem with rfl | rfl
  · exact high
  · exact low

end Report

/-- The ways of reading an image agree. There is a word for every four bytes and one for a rest. A
whole word is what is read at its address; at that of a rest nothing is read, and its word is the
rest and zeros. The report has a line of eight digits for each word, and from its lines the bytes
are read back with those zeros. -/
theorem Image.words_agree (image : Image) :
    image.words.length = (image.capacity + 3) / 4 ∧
    (∀ k (address : UInt32), address.toNat = 4 * k → 4 * k + 4 ≤ image.capacity →
      ∃ word, image.words[k]? = some word ∧ image.read address = .ok word) ∧
    (∀ k (address : UInt32), address.toNat = 4 * k → 4 * k < image.capacity →
      image.capacity < 4 * k + 4 →
      image.read address = .error (.outOfImage address image.capacity) ∧
        ∃ word, image.words[k]? = some word ∧
          ∀ j ≤ 3, Word.byte word j = image.bytes.getD (4 * k + j) 0) ∧
    (∃ lines, (Report.hexLines image).lines? = some lines ∧
      lines = image.words.map Report.hexWord ∧
      ∀ line ∈ lines, line.length = 8 ∧ ∀ c ∈ line, c ∈ Radix.hexadecimal.alphabet) ∧
    Report.bytesOfLines? (Report.hexLines image) =
      some (image.bytes.toList ++ List.replicate ((4 - image.capacity % 4) % 4) 0) ∧
    ∀ other : Image, other.capacity = image.capacity →
      Report.hexLines other = Report.hexLines image → other = image := by
  refine ⟨image.length_words, fun k address => read_eq_word,
    fun k address => read_eq_error_of_partial,
    ⟨_, Report.lines?_hexLines image, rfl, fun line mem => ?_⟩,
    Report.bytesOfLines?_hexLines image, fun other => Report.hexLines_injective⟩
  obtain ⟨word, -, rfl⟩ := List.mem_map.mp mem
  exact ⟨Report.length_hexWord word, fun c => Report.digit_of_mem_hexWord⟩

/-- Seven bytes, of which the last three are less than a word. -/
def Image.sevenBytes : Image := ⟨#[1, 2, 3, 0xAB, 5, 0, 0xF7]⟩

theorem Image.words_agree_seven :
    (∃ word, sevenBytes.words[0]? = some word ∧ sevenBytes.read 0 = .ok word) ∧
      sevenBytes.read 4 = .error (.outOfImage 4 7) ∧
      Report.hexLines sevenBytes = "010203ab\n0500f700\n".toList ∧
      Report.bytesOfLines? (Report.hexLines sevenBytes) =
        some [1, 2, 3, 0xAB, 5, 0, 0xF7, 0] := by
  obtain ⟨-, whole, rest, -, bytes, -⟩ := words_agree sevenBytes
  exact ⟨whole 0 0 rfl (by decide), (rest 1 4 rfl (by decide) (by decide)).1, by decide, bytes⟩

end SoftCore
