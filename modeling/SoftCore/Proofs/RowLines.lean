import Mathlib.Data.Nat.Digits.Defs
import SoftCore.Proofs.Brackets
import SoftCore.Proofs.Loading
import SoftCore.Proofs.RowWords

/-! The printed rows of a program and how they are read back. Each row is one
line with its address, its word and its text, unless the text itself breaks the
line. The lines of a listing never do; a JSON string may hold a line break, which
counts as a blank when the line is assembled and is printed as it stands. -/

namespace SoftCore

namespace Text

/-- The lines of a text in which each line is ended by a line break. -/
def lines? (t : Text) : Option (List Text) :=
  if (t.pieces '\n').getLast? = some [] then some (t.pieces '\n').dropLast else none

/-- Each text put before a line break gives the pieces between its own line breaks. -/
theorem lines?_flatMap (texts : List Text) :
    lines? (texts.flatMap (· ++ ['\n'])) = some (texts.flatMap (pieces '\n')) := by
  have broken : pieces '\n' (texts.flatMap (· ++ ['\n'])) = texts.flatMap (pieces '\n') ++ [[]] := by
    induction texts with
    | nil => rfl
    | cons t rest ih =>
      rw [List.flatMap_cons, List.append_assoc, List.singleton_append, pieces_append_sep, ih,
        List.flatMap_cons, List.append_assoc]
  rw [lines?, broken, if_pos List.getLast?_concat, List.dropLast_concat]

theorem length_pieces (sep : Char) (t : Text) : (pieces sep t).length = t.count sep + 1 := by
  induction t with
  | nil => rfl
  | cons c t ih => by_cases h : c = sep <;> simp [pieces, h, ih]

theorem length_le_flatMap_pieces (sep : Char) (texts : List Text) :
    texts.length ≤ (texts.flatMap (pieces sep)).length := by
  induction texts with
  | nil => exact Nat.le_refl 0
  | cons t rest ih =>
    rw [List.flatMap_cons, List.length_append, length_pieces, List.length_cons]
    omega

theorem length_flatMap_pieces_eq_iff {sep : Char} {texts : List Text} :
    (texts.flatMap (pieces sep)).length = texts.length ↔ ∀ t ∈ texts, sep ∉ t := by
  induction texts with
  | nil => simp
  | cons t rest ih =>
    have atLeast := length_le_flatMap_pieces sep rest
    rw [List.forall_mem_cons, ← ih, ← List.count_eq_zero, List.flatMap_cons, List.length_append,
      length_pieces, List.length_cons]
    omega

theorem flatMap_pieces_of_not_mem {sep : Char} {texts : List Text} (h : ∀ t ∈ texts, sep ∉ t) :
    texts.flatMap (pieces sep) = texts := by
  induction texts with
  | nil => rfl
  | cons t rest ih =>
    obtain ⟨here, later⟩ := List.forall_mem_cons.mp h
    rw [List.flatMap_cons, pieces_of_not_mem here, ih later, List.singleton_append]

end Text

namespace Word

/-- The word that hexadecimal digits stand for. -/
def ofHex? (digits : Text) : Option UInt32 :=
  (Radix.hexadecimal.read? digits).bind fun n =>
    if n < 0x100000000 then some (UInt32.ofNat n) else none

theorem ofHex?_writePadded (width : Nat) (w : UInt32) :
    ofHex? (Radix.hexadecimal.writePadded width w.toNat) = some w := by
  have small := w.toNat_lt
  simp [ofHex?, Radix.read?_writePadded, small]

end Word

/-- A character that is no digit does not stand in a hexadecimal number. -/
theorem Radix.not_mem_writePadded {k : Char} (other : digitValue? k = none) (width n : Nat) :
    k ∉ hexadecimal.writePadded width n := by
  have read := read?_writePadded hexadecimal width n
  unfold read? at read
  split at read
  · cases read
  · exact not_mem_of_accumulate other read

namespace Report

/-- A row as it is printed, without its line break. -/
def rowLine (row : Row) : Text :=
  Text.ofHex 4 row.address.toNat ++ ": ".toList ++ hexWord row.word ++ "  ".toList ++ row.text

theorem rowsText_eq (rows : List Row) :
    rowsText rows = (rows.map rowLine).flatMap (· ++ ['\n']) := by
  rw [rowsText, List.flatMap_map]
  rfl

theorem length_hexWord (w : UInt32) : (hexWord w).length = 8 := by
  have short : (Radix.hexadecimal.write w.toNat).length ≤ 8 :=
    Nat.toDigits_length 16 w.toNat 8 (by decide) w.toNat_lt
  simp only [hexWord, Radix.writePadded, List.length_append, List.length_replicate]
  omega

/-- The only line breaks of a printed row are those of its text. -/
theorem break_mem_rowLine_iff {row : Row} : '\n' ∈ rowLine row ↔ '\n' ∈ row.text := by
  have digits := Radix.not_mem_writePadded (k := '\n') (by decide)
  simp [rowLine, Text.ofHex, hexWord, digits]

end Report

/-- The row that is printed on a line: a marked hexadecimal address, a colon, eight digits of the
word, two blanks, and the text. -/
def Row.ofLine? (line : Text) : Option Row :=
  match line.cut? ':' with
  | some (front, ' ' :: back) =>
    match back.drop 8 with
    | ' ' :: ' ' :: text => do
      let digits ← front.afterHexMark?
      let address ← Word.ofHex? digits
      let word ← Word.ofHex? (back.take 8)
      pure { address, word, text }
    | _ => none
  | _ => none

namespace Report

theorem ofLine?_rowLine (row : Row) : Row.ofLine? (rowLine row) = some row := by
  have colon : ':' ∉ Text.ofHex 4 row.address.toNat := by
    have digits := Radix.not_mem_writePadded (k := ':') (by decide)
    simp [Text.ofHex, digits]
  have cut : Text.cut? ':' (rowLine row) =
      some (Text.ofHex 4 row.address.toNat, ' ' :: (hexWord row.word ++ ' ' :: ' ' :: row.text)) := by
    rw [← Text.cut?_append_cons colon]
    simp [rowLine]
  have eight := length_hexWord row.word
  have word : (hexWord row.word ++ ' ' :: ' ' :: row.text).take 8 = hexWord row.word :=
    List.take_left' eight
  have rest : (hexWord row.word ++ ' ' :: ' ' :: row.text).drop 8 = ' ' :: ' ' :: row.text :=
    List.drop_left' eight
  have read : Word.ofHex? (hexWord row.word) = some row.word := Word.ofHex?_writePadded 8 row.word
  simp [Row.ofLine?, cut, rest, word, read, Text.afterHexMark?_ofHex, Word.ofHex?_writePadded]

theorem mapM_ofLine?_rowLine (rows : List Row) :
    (rows.map rowLine).mapM Row.ofLine? = some rows :=
  mapM_map_of_leftInverse ofLine?_rowLine rows

theorem length_of_mapM {α β : Type} {f : α → Option β} {xs : List α} {ys : List β}
    (h : xs.mapM f = some ys) : ys.length = xs.length := by
  induction xs generalizing ys with
  | nil =>
    cases h
    rfl
  | cons x xs ih =>
    rw [List.mapM_cons] at h
    obtain ⟨y, -, h⟩ := Option.bind_eq_some_iff.mp h
    obtain ⟨rest, tail, h⟩ := Option.bind_eq_some_iff.mp h
    cases h
    rw [List.length_cons, List.length_cons, ih tail]

/-- Printed rows have one line each, and are read back from their lines, if and only if no text
breaks the line. -/
theorem exists_lines (rows : List Row) :
    ∃ lines, (rowsText rows).lines? = some lines ∧
      (lines.length = rows.length ↔ ∀ row ∈ rows, '\n' ∉ row.text) ∧
      (lines.mapM Row.ofLine? = some rows ↔ ∀ row ∈ rows, '\n' ∉ row.text) := by
  have unbroken : (∀ line ∈ rows.map rowLine, '\n' ∉ line) ↔ ∀ row ∈ rows, '\n' ∉ row.text := by
    simp [break_mem_rowLine_iff]
  have count : ((rows.map rowLine).flatMap (Text.pieces '\n')).length = rows.length ↔
      ∀ row ∈ rows, '\n' ∉ row.text := by
    rw [← unbroken, ← Text.length_flatMap_pieces_eq_iff, List.length_map]
  refine ⟨(rows.map rowLine).flatMap (Text.pieces '\n'), ?_, count, fun read => ?_, fun clean => ?_⟩
  · rw [rowsText_eq, Text.lines?_flatMap]
  · exact count.mp (length_of_mapM read).symm
  · rw [Text.flatMap_pieces_of_not_mem (unbroken.mpr clean), mapM_ofLine?_rowLine]

end Report

/-- The text of a pair is part of its line. -/
theorem Listing.not_mem_of_pair? {line : Text} {e : Entry} (h : pair? line = some e) {c : Char}
    (absent : c ∉ line) : c ∉ e.text := by
  unfold pair? at h
  split at h
  · cases h
  · rename_i front back cut
    split at h
    · cases h
      intro mem
      have inBody : c ∈ body line := by
        rw [(Text.cut?_eq_some_iff.mp cut).1]
        simp [Text.mem_of_mem_trim mem]
      exact absent ((List.takeWhile_sublist _).mem (Text.mem_of_mem_trim inBody))
    · cases h

namespace ProgramFile

theorem break_not_mem_of_listing {name : Text} {contents : Option (List UInt8)} {p : Program}
    (loaded : load name contents = .ok p) (listing : isJson name = false) :
    ∀ e ∈ p.entries, '\n' ∉ e.text := by
  obtain ⟨text, -, h⟩ := exists_text_of_load loaded
  obtain ⟨rfl, -⟩ := pairs_of_ofText h
  intro e mem
  have written := (Program.mem_ofEntries_iff.mp mem).mem
  rw [pairs, if_neg (by simp [listing]), List.mem_filterMap] at written
  obtain ⟨line, piece, pair⟩ := written
  exact Listing.not_mem_of_pair? pair (Text.not_mem_of_mem_pieces piece)

/-- The printed rows of a program that was loaded and assembled have one line for each entry and
are read back from their lines, if and only if none of its texts breaks the line. None does in a
listing. -/
theorem lines_of_load {name : Text} {contents : Option (List UInt8)} {p : Program} {size : Nat}
    {image : Image} (loaded : load name contents = .ok p)
    (assembled : Assembly.assemble p.entries size = .ok image) :
    ∃ rows lines, Report.rows image p.entries = .ok rows ∧ rows.map Row.entry = p.entries ∧
      rows.Pairwise (·.address < ·.address) ∧
      (∀ row ∈ rows, image.read row.address = .ok row.word) ∧
      (Report.rowsText rows).lines? = some lines ∧
      (lines.length = p.size ↔ ∀ e ∈ p.entries, '\n' ∉ e.text) ∧
      (lines.mapM Row.ofLine? = some rows ↔ ∀ e ∈ p.entries, '\n' ∉ e.text) ∧
      (isJson name = false → ∀ e ∈ p.entries, '\n' ∉ e.text) := by
  obtain ⟨rows, read⟩ := Report.exists_rows (Assembly.fits_of_assemble assembled)
  obtain ⟨lines, printed, count, back⟩ := Report.exists_lines rows
  have entries : rows.map Row.entry = p.entries := Report.entries_of_rows read
  have texts : (∀ e ∈ p.entries, '\n' ∉ e.text) ↔ ∀ row ∈ rows, '\n' ∉ row.text := by
    rw [← entries, List.forall_mem_map]
    rfl
  have size : p.size = rows.length := by rw [Program.size, ← entries, List.length_map]
  refine ⟨rows, lines, read, entries, Report.ascending_rows read, Report.read_of_mem_rows read,
    printed, ?_, ?_, break_not_mem_of_listing loaded⟩
  · rw [size, texts]
    exact count
  · rw [texts]
    exact back

/-- A JSON object whose line holds a tab and ends with a blank. -/
def tabbedJson : Text := "\x7b\"4\":\"add\\t%r1, 1, %r1 \"\x7d".toList

theorem lines_of_load_tabbed :
    ∃ p image, load "p.json".toList (some (Text.utf8 tabbedJson)) = .ok p ∧
      Assembly.assemble p.entries 8 = .ok image ∧
      ∃ rows lines, Report.rows image p.entries = .ok rows ∧ rows.map Row.entry = p.entries ∧
        rows.Pairwise (·.address < ·.address) ∧
        (∀ row ∈ rows, image.read row.address = .ok row.word) ∧
        (Report.rowsText rows).lines? = some lines ∧
        (lines.length = p.size ↔ ∀ e ∈ p.entries, '\n' ∉ e.text) ∧
        (lines.mapM Row.ofLine? = some rows ↔ ∀ e ∈ p.entries, '\n' ∉ e.text) ∧
        (isJson "p.json".toList = false → ∀ e ∈ p.entries, '\n' ∉ e.text) := by
  have loaded : load "p.json".toList (some (Text.utf8 tabbedJson)) =
      .ok (Program.ofEntries [⟨4, "add\t%r1, 1, %r1 ".toList⟩]) := by
    rw [load_utf8]
    decide +kernel
  have assembled :
      Assembly.assemble (Program.ofEntries [⟨4, "add\t%r1, 1, %r1 ".toList⟩]).entries 8 =
        .ok ⟨#[0, 0, 0, 0, 0, 132, 0, 1]⟩ := by
    decide +kernel
  exact ⟨_, _, loaded, assembled, lines_of_load loaded assembled⟩

/-- A JSON object whose line is broken between two operands. -/
def brokenJson : Text := "\x7b\"0\":\"add %r1, %r2,\\n%r3\"\x7d".toList

/-- The one entry is printed on two lines. The first is read back as a row with another text, the
second as none. -/
theorem entry_printed_on_two_lines :
    ∃ p image row lines, load "p.json".toList (some (Text.utf8 brokenJson)) = .ok p ∧
      Assembly.assemble p.entries 4 = .ok image ∧ Report.rows image p.entries = .ok [row] ∧
      (Report.rowsText [row]).lines? = some lines ∧ lines.length = 2 ∧
      lines.map Row.ofLine? = [some { row with text := "add %r1, %r2,".toList }, none] ∧
      row.text ≠ "add %r1, %r2,".toList := by
  refine ⟨Program.ofEntries [⟨0, "add %r1, %r2,\n%r3".toList⟩], ⟨#[193, 132, 16, 0]⟩,
    ⟨0, 0xC1841000, "add %r1, %r2,\n%r3".toList⟩,
    ["0x0000: c1841000  add %r1, %r2,".toList, "%r3".toList], ?_, ?_, ?_, ?_, rfl, ?_, ?_⟩
  · rw [load_utf8]
    decide +kernel
  · decide +kernel
  · decide +kernel
  · decide +kernel
  · decide +kernel
  · decide +kernel

end ProgramFile
end SoftCore
