import SoftCore.Source.Line
import SoftCore.Source.Mnemonic
import SoftCore.Source.Reference

/-! The written forms of what lines are made of: numbers, registers, memory
operands, mnemonics and whole lines. Each is read back as what it was written
for, whatever stands around it. -/

namespace SoftCore

namespace Text

/-- A text without blanks. -/
def Solid (t : Text) : Prop := ∀ c ∈ t, isBlank c = false

@[simp] theorem solid_nil : Solid [] := by simp [Solid]

@[simp] theorem solid_cons {c : Char} {t : Text} : Solid (c :: t) ↔ isBlank c = false ∧ t.Solid :=
  List.forall_mem_cons

@[simp] theorem solid_append {s t : Text} : Solid (s ++ t) ↔ s.Solid ∧ t.Solid :=
  List.forall_mem_append

theorem Solid.trim {t : Text} (h : t.Solid) : t.trim = t :=
  trim_eq_self_iff.mpr
    ⟨fun c hc => h c (List.mem_of_mem_head? hc), fun c hc => h c (List.mem_of_mem_getLast? hc)⟩

theorem trim_append_cons {a b : Text} (c : Char) (ha : a ≠ []) (hb : b ≠ []) (ta : a.trim = a)
    (tb : b.trim = b) : (a ++ c :: b).trim = a ++ c :: b := by
  obtain ⟨x, first⟩ := Option.ne_none_iff_exists'.mp (mt List.head?_eq_none_iff.mp ha)
  obtain ⟨y, last⟩ := Option.ne_none_iff_exists'.mp (mt List.getLast?_eq_none_iff.mp hb)
  have start : (a ++ c :: b).head? = a.head? := by simp [List.head?_append, first]
  have stop : (a ++ c :: b).getLast? = b.getLast? := by
    simp [List.getLast?_append, List.getLast?_cons, last]
  rw [trim_eq_self_iff] at *
  rw [start, stop]
  exact ⟨ta.1, tb.2⟩

theorem trim_append_blank {a : Text} {c : Char} (ha : a ≠ []) (ta : a.trim = a) (hc : isBlank c) :
    (a ++ [c]).trim = a := by
  obtain ⟨x, first⟩ := Option.ne_none_iff_exists'.mp (mt List.head?_eq_none_iff.mp ha)
  have ends := trim_eq_self_iff.mp ta
  have start : trimStart (a ++ [c]) = a ++ [c] := by
    rw [trimStart_eq_self_iff]
    simpa [List.head?_append, first] using ends.1
  have stop : trimEnd a = a := trimEnd_eq_self_iff.mpr ends.2
  rw [trim, start, trimEnd, List.reverse_append]
  simpa [trimEnd, hc] using stop

theorem trim_cons_blank {a : Text} {c : Char} (hc : isBlank c) : trim (c :: a) = a.trim := by
  simp [trim, trimStart, hc]

theorem toNat_of_isDigit {c : Char} (h : c.isDigit) : 48 ≤ c.toNat ∧ c.toNat ≤ 57 := by
  simpa [Char.isDigit, UInt32.le_iff_toNat_le] using h

theorem isBlank_of_isDigit {c : Char} (h : c.isDigit) : isBlank c = false := by
  have range := toNat_of_isDigit h
  simp [isBlank, blankRuns]
  omega

theorem isDigit_of_mem_ofNat {n : Nat} {c : Char} (h : c ∈ ofNat n) : c.isDigit :=
  Nat.isDigit_of_mem_toDigits (by decide) (by decide) h

theorem not_mem_ofNat {c : Char} (h : c.isDigit = false) (n : Nat) : c ∉ ofNat n := fun mem => by
  rw [isDigit_of_mem_ofNat mem] at h
  cases h

theorem ofNat_ne_nil (n : Nat) : ofNat n ≠ [] := Radix.decimal.write_ne_nil n

theorem solid_ofNat (n : Nat) : (ofNat n).Solid := fun _ h =>
  isBlank_of_isDigit (isDigit_of_mem_ofNat h)

theorem ofInt_ne_nil (n : Int) : ofInt n ≠ [] := by
  unfold ofInt
  split
  · simp
  · exact ofNat_ne_nil _

theorem solid_ofInt (n : Int) : (ofInt n).Solid := by
  unfold ofInt
  split
  · simp [solid_ofNat, show isBlank '-' = false by decide]
  · exact solid_ofNat _

theorem not_mem_ofInt {c : Char} (minus : c ≠ '-') (h : c.isDigit = false) (n : Int) :
    c ∉ ofInt n := by
  unfold ofInt
  split
  · simp [minus, not_mem_ofNat h]
  · exact not_mem_ofNat h _

theorem afterHexMark?_of_not_mem {t : Text} (lower : 'x' ∉ t) (upper : 'X' ∉ t) :
    afterHexMark? t = none := by
  unfold afterHexMark?
  split <;> simp_all

end Text

namespace Literal

theorem unsigned_ofNat (token : Text) {n : Nat} (h : n < limit) :
    unsigned token (Text.ofNat n) = .ok n := by
  rw [unsigned, Text.afterHexMark?_of_not_mem (Text.not_mem_ofNat (by decide) n)
    (Text.not_mem_ofNat (by decide) n)]
  exact magnitude_eq_ok_iff.mpr ⟨Radix.decimal.read?_write n, h⟩

theorem read_ofInt {n : Int} (h : n.natAbs < limit) : read (Text.ofInt n) = .ok n := by
  rw [read, (Text.solid_ofInt n).trim, Text.ofInt]
  by_cases negative : n < 0
  · rw [if_pos negative]
    show (unsigned ('-' :: Text.ofNat n.natAbs) (Text.ofNat n.natAbs)).map _ = _
    rw [unsigned_ofNat _ h, Except.map]
    congr 1
    omega
  · rw [if_neg negative]
    split
    · rename_i body e
      exact absurd (e ▸ List.mem_cons_self) (Text.not_mem_ofNat (c := '-') (by decide) n.natAbs)
    · rw [unsigned_ofNat _ h, Except.map]
      congr 1
      omega

end Literal

namespace Register

theorem named?_number {r : Register} (h : r.Exists) :
    named? ('r' :: Text.ofNat r.id.toNat) = some r := by
  have all : ∀ id ∈ List.range 32, named? ('r' :: Text.ofNat id) = some ⟨UInt8.ofNat id⟩ := by
    decide
  simpa using all r.id.toNat (List.mem_range.mpr (UInt8.lt_iff_toNat_lt.mp h))

theorem solid_text (r : Register) : r.text.Solid := by
  simp [text, Text.solid_ofNat, show Text.isBlank '%' = false by decide,
    show Text.isBlank 'r' = false by decide]

theorem not_mem_text {c : Char} (mark : c ≠ '%') (letter : c ≠ 'r') (h : c.isDigit = false)
    (r : Register) : c ∉ r.text := by
  simp [text, mark, letter, Text.not_mem_ofNat h]

end Register

namespace Operand

def text : Operand → Text
  | register r => r.text
  | literal n => Text.ofInt n

/-- A register that the machine has, or a number that a literal reaches. -/
def Written : Operand → Prop
  | register r => r.Exists
  | literal n => n.natAbs < Literal.limit

theorem solid_text (operand : Operand) : operand.text.Solid := by
  cases operand with
  | register r => exact r.solid_text
  | literal n => exact Text.solid_ofInt n

theorem read_text {operand : Operand} (h : operand.Written) : read operand.text = .ok operand := by
  rw [read, operand.solid_text.trim]
  cases operand with
  | register r => simp [text, Register.text, Register.ofName, Register.named?_number h, Except.map]
  | literal n =>
    rw [text]
    split
    · rename_i name e
      exact absurd (e ▸ List.mem_cons_self)
        (Text.not_mem_ofInt (c := '%') (by decide) (by decide) n)
    · rw [Literal.read_ofInt h, Except.map]

theorem read_register {r : Register} (h : r.Exists) : read r.text = .ok (register r) :=
  read_text (show (register r).Written from h)

end Operand

namespace Update

/-- A base with the marks of the update beside it. -/
def mark (name : Text) : Update → Text
  | never => name
  | before => '+' :: '+' :: name
  | after => name ++ ['+', '+']

theorem split_mark (u : Update) {name : Text} (plus : '+' ∉ name) (star : '*' ∉ name)
    (filled : name ≠ []) : split (u.mark name) = (u, name) := by
  obtain ⟨first, rest, rfl⟩ := List.exists_cons_of_ne_nil filled
  simp only [List.mem_cons, not_or] at plus star
  cases u with
  | before => rfl
  | never =>
    -- Marks are looked for at both ends, and the base has none.
    unfold split mark
    split
    · simp_all
    · simp_all
    · split
      · rename_i tail e
        have : '+' ∈ first :: rest := List.mem_reverse.mp (e ▸ List.mem_cons_self)
        simp_all
      · rename_i tail e
        have : '*' ∈ first :: rest := List.mem_reverse.mp (e ▸ List.mem_cons_self)
        simp_all
      · rfl
  | after =>
    unfold split mark
    split
    · simp_all
    · simp_all
    · simp

end Update

namespace MemoryReference

/-- The text before the bracket. -/
def front (m : MemoryReference) : Text := (m.offset.map Text.ofInt).getD []

def text (m : MemoryReference) : Text :=
  m.front ++ '[' :: (m.update.mark m.base.text ++ [']'])

/-- A register that the machine has and an offset that a literal reaches. -/
def Written (m : MemoryReference) : Prop :=
  m.base.Exists ∧ ∀ n ∈ m.offset, n.natAbs < Literal.limit

theorem solid_front (m : MemoryReference) : m.front.Solid := by
  unfold front
  cases m.offset <;> simp [Text.solid_ofInt]

theorem not_mem_front {c : Char} (minus : c ≠ '-') (h : c.isDigit = false) (m : MemoryReference) :
    c ∉ m.front := by
  unfold front
  cases m.offset <;> simp [Text.not_mem_ofInt minus h]

theorem solid_mark (m : MemoryReference) : (m.update.mark m.base.text).Solid := by
  have plus : Text.isBlank '+' = false := by decide
  cases m.update <;> simp [Update.mark, m.base.solid_text, plus]

theorem solid_text (m : MemoryReference) : m.text.Solid := by
  simp [text, solid_front, solid_mark, show Text.isBlank '[' = false by decide,
    show Text.isBlank ']' = false by decide]

theorem readOffset_front {m : MemoryReference} (h : ∀ n ∈ m.offset, n.natAbs < Literal.limit) :
    readOffset m.front = .ok m.offset := by
  unfold front
  cases written : m.offset with
  | none => rfl
  | some n =>
    have filled : (Text.ofInt n).isEmpty = false := by simpa using Text.ofInt_ne_nil n
    rw [Option.map_some, Option.getD_some, readOffset, (Text.solid_ofInt n).trim,
      filled, Literal.read_ofInt (h n written)]
    rfl

theorem inside?_concat (t : Text) : inside? (t ++ [']']) = some t.trim := by
  rw [inside?, List.getLast?_concat, if_pos rfl, List.dropLast_concat]

theorem read_text {m : MemoryReference} (h : m.Written) : read m.text = .ok m := by
  have marks : Update.split (m.update.mark m.base.text) = (m.update, m.base.text) :=
    m.update.split_mark (Register.not_mem_text (by decide) (by decide) (by decide) m.base)
      (Register.not_mem_text (by decide) (by decide) (by decide) m.base) (by simp [Register.text])
  have clean : '[' ∉ m.front := m.not_mem_front (by decide) (by decide)
  rw [read, m.solid_text.trim, text, Text.cut?_append_cons clean]
  dsimp only
  rw [inside?_concat, m.solid_mark.trim]
  simp [readOffset_front h.2, readBase, marks, Operand.read_register h.1, bind, Except.bind, pure,
    Except.pure]

end MemoryReference

namespace Mnemonic

/-- The characters that mnemonics are written with. -/
def alphabet : Text := ".abcdefghijklmnopqrstuvwxyz".toList

theorem mem_alphabet_of_mem_text {m : Mnemonic} {c : Char} (h : c ∈ m.text) : c ∈ alphabet := by
  have each : m.text.all (alphabet.contains ·) := by
    rcases m with ⟨op | c | access, flags⟩
    · cases op <;> cases flags <;> decide
    · cases c <;> cases flags <;> decide
    · cases access <;> cases flags <;> decide
  simpa using List.all_eq_true.mp each c h

theorem solid_text (m : Mnemonic) : m.text.Solid := fun c h => by
  have clean : alphabet.all (!Text.isBlank ·) := by decide
  simpa using List.all_eq_true.mp clean c (mem_alphabet_of_mem_text h)

theorem toLower_of_mem_alphabet {c : Char} (h : c ∈ alphabet) : c.toNat < 0x80 ∧ c.toLower = c := by
  have each : alphabet.all fun c => c.toNat < 0x80 ∧ c.toLower = c := by decide
  simpa using List.all_eq_true.mp each c h

theorem lower_text (m : Mnemonic) : Text.lower m.text = m.text := by
  have letters : ∀ c ∈ m.text, c.toNat < 0x80 ∧ c.toLower = c := fun c h =>
    toLower_of_mem_alphabet (mem_alphabet_of_mem_text h)
  rw [Text.lower_eq_asciiLower fun c h => (letters c h).1]
  calc m.text.map Char.toLower
    _ = m.text.map id := List.map_congr_left fun c h => (letters c h).2
    _ = m.text := List.map_id _

theorem text_ne_nil (m : Mnemonic) : m.text ≠ [] := by
  rcases m with ⟨op | c | access, flags⟩
  · cases op <;> cases flags <;> decide
  · cases c <;> cases flags <;> decide
  · cases access <;> cases flags <;> decide

end Mnemonic

namespace SourceLine

/-- A token that can stand in a slot between commas. -/
def Token (t : Text) : Prop := t ≠ [] ∧ t.trim = t ∧ ',' ∉ t

/-- A line as reading leaves it. -/
structure Normal (line : SourceLine) : Prop where
  filled : line.mnemonic ≠ []
  solid : line.mnemonic.Solid
  lower : Text.lower line.mnemonic = line.mnemonic
  tokens : ∀ t ∈ line.operands, Token t

def operandText (line : SourceLine) : Text := [','].intercalate line.operands

def text (line : SourceLine) : Text := line.mnemonic ++ ' ' :: line.operandText

/-- What trimming leaves after the mnemonic: the blank goes with the operands. -/
def tail (line : SourceLine) : Text :=
  if line.operands = [] then [] else ' ' :: line.operandText

theorem trim_intercalate {tokens : List Text} (h : ∀ t ∈ tokens, Token t) :
    Text.trim ([','].intercalate tokens) = [','].intercalate tokens ∧
      (tokens ≠ [] → [','].intercalate tokens ≠ []) := by
  induction tokens with
  | nil => exact ⟨rfl, fun e => absurd rfl e⟩
  | cons t rest ih =>
    obtain ⟨filled, trimmed, -⟩ := h t List.mem_cons_self
    cases rest with
    | nil => simpa using ⟨trimmed, filled⟩
    | cons u rest =>
      obtain ⟨trim, nonempty⟩ := ih fun x hx => h x (List.mem_cons_of_mem t hx)
      rw [List.intercalate_cons_cons, List.append_assoc, List.singleton_append]
      exact ⟨Text.trim_append_cons ',' filled (nonempty (by simp)) trimmed trim, by simp⟩

theorem trim_text {line : SourceLine} (h : line.Normal) :
    line.text.trim = line.mnemonic ++ line.tail := by
  obtain ⟨trim, filled⟩ := trim_intercalate h.tokens
  by_cases none : line.operands = []
  · rw [text, operandText, tail, none, if_pos rfl, List.append_nil]
    exact Text.trim_append_blank h.filled h.solid.trim (by decide)
  · rw [text, tail, if_neg none]
    exact Text.trim_append_cons ' ' h.filled (filled none) h.solid.trim trim

theorem trim_tail {line : SourceLine} (h : line.Normal) : line.tail.trim = line.operandText := by
  by_cases none : line.operands = []
  · rw [operandText, tail, none]
    rfl
  · rw [tail, if_neg none, Text.trim_cons_blank (by decide)]
    exact (trim_intercalate h.tokens).1

theorem isBlank_head_tail (line : SourceLine) : ∀ c ∈ line.tail.head?, Text.isBlank c := by
  unfold tail
  split
  · simp
  · simp [show Text.isBlank ' ' by decide]

theorem operandSlots_operandText {line : SourceLine} (h : line.Normal) :
    operandSlots line.operandText = line.operands := by
  by_cases none : line.operands = []
  · rw [operandText, none]
    rfl
  · have filled := (trim_intercalate h.tokens).2 none
    rw [operandSlots, if_neg (by simpa [operandText] using filled), operandText,
      Text.pieces_intercalate none fun t ht => (h.tokens t ht).2.2]
    calc line.operands.map Text.trim
      _ = line.operands.map id := List.map_congr_left fun t ht => (h.tokens t ht).2.1
      _ = line.operands := List.map_id _

theorem firstWord_append {word rest : Text} (solid : word.Solid)
    (blank : ∀ c ∈ rest.head?, Text.isBlank c) : firstWord (word ++ rest) = word := by
  rw [firstWord, List.takeWhile_append_of_pos fun c hc => by simp [solid c hc]]
  cases rest with
  | nil => simp
  | cons c rest => simp [blank c rfl]

theorem afterFirstWord_append {word rest : Text} (solid : word.Solid)
    (blank : ∀ c ∈ rest.head?, Text.isBlank c) : afterFirstWord (word ++ rest) = rest.trim := by
  rw [afterFirstWord, List.dropWhile_append_of_pos fun c hc => by simp [solid c hc]]
  cases rest with
  | nil => rfl
  | cons c rest => simp [blank c rfl]

/-- A line in normal form is read back from its text. -/
theorem read_text {line : SourceLine} (h : line.Normal) : read line.text = .ok line := by
  have filled : line.operands.any List.isEmpty = false := by
    simpa using fun t ht => (h.tokens t ht).1
  rw [read, trim_text h, firstWord_append h.solid line.isBlank_head_tail,
    afterFirstWord_append h.solid line.isBlank_head_tail, trim_tail h, operandSlots_operandText h,
    h.lower]
  simp [h.filled, filled]

end SourceLine
end SoftCore
