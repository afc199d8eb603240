import Mathlib.Data.List.TakeWhile
import SoftCore.Json.Escape
import SoftCore.Json.Reader
import SoftCore.Proofs.Spelling

/-! Reading a JSON text that was written. Each part of a text is read up to its
own end whatever follows it: a string up to its closing quote, a number up to a
character that no number has, an array or object up to its closing mark. The
fuel of the reader is a bound on its depth, and a text is never as deep as twice
its length. So a value is read back from its text in either style. -/

namespace SoftCore.Json

/-! Strings. -/

/-- A text that can stand between quotes: it is read up to the quote that closes it. -/
def RawText (raw : Text) : Prop := ∀ rest, readString (raw ++ '\"' :: rest) = some (raw, rest)

theorem readString_unit {digits : Text} (four : digits.length = 4) (h : digits.all isHexDigit)
    (rest : Text) : readString ('\\' :: 'u' :: (digits ++ rest)) =
      (readString rest).map fun (raw, after) => ('\\' :: 'u' :: (digits ++ raw), after) := by
  match digits, four with
  | [a, b, c, d], _ =>
    show readString ('\\' :: 'u' :: a :: b :: c :: d :: rest) = _
    rw [readString, if_pos h]
    rfl

theorem readString_simple {c : Char} (h : c ∈ ['\"', '\\', '/', 'b', 'f', 'n', 'r', 't'])
    (rest : Text) : readString ('\\' :: c :: rest) =
      (readString rest).map fun (raw, after) => ('\\' :: c :: raw, after) := by
  rw [readString, if_pos h]
  rintro _ _ _ _ _ rfl
  exact absurd h (by decide)

theorem readString_plain {c : Char} (quote : c ≠ '\"') (backslash : c ≠ '\\')
    (control : ¬c.toNat < 0x20) (rest : Text) : readString (c :: rest) =
      (readString rest).map fun (raw, after) => (c :: raw, after) := by
  rw [readString, if_neg (by simp [backslash, control])]
  · rintro rfl
    exact absurd rfl quote
  · rintro _ _ _ _ _ rfl
    exact absurd rfl backslash
  · rintro _ _ rfl
    exact absurd rfl backslash

theorem isHexDigit_writePadded_four {n : Nat} (h : n < 32) :
    (Radix.hexadecimal.writePadded 4 n).all isHexDigit := by
  have all : ∀ n ∈ List.range 32, (Radix.hexadecimal.writePadded 4 n).all isHexDigit := by decide
  exact all n (List.mem_range.mpr h)

/-- How a character is written: by an escape of two characters, by its number, or as it is. -/
inductive Escaped (c : Char) : Text → Prop where
  | simple {d : Char} (h : d ∈ ['\"', '\\', '/', 'b', 'f', 'n', 'r', 't']) : Escaped c ['\\', d]
  | unit (control : c.toNat < 32) :
    Escaped c ('\\' :: 'u' :: Radix.hexadecimal.writePadded 4 c.toNat)
  | plain (quote : c ≠ '\"') (backslash : c ≠ '\\') (control : ¬c.toNat < 32) : Escaped c [c]

theorem escaped_escapeChar (c : Char) : Escaped c (escapeChar c) := by
  unfold escapeChar
  iterate 7
    split
    · exact .simple (by decide)
  split
  · exact .unit ‹_›
  · exact .plain ‹_› ‹_› ‹_›

theorem Escaped.readString {c : Char} {raw : Text} (h : Escaped c raw) (rest : Text) :
    readString (raw ++ rest) =
      (readString rest).map fun (more, after) => (raw ++ more, after) := by
  cases h with
  | simple h => exact readString_simple h rest
  | unit control =>
    exact readString_unit (Piece.length_writePadded_four control)
      (isHexDigit_writePadded_four control) rest
  | plain quote backslash control => exact readString_plain quote backslash control rest

theorem rawText_escape (t : Text) : RawText (escape t) := by
  intro rest
  induction t with
  | nil => rfl
  | cons c t ih =>
    have step : escape (c :: t) = escapeChar c ++ escape t := rfl
    rw [step, List.append_assoc, (escaped_escapeChar c).readString, ih]
    rfl

/-! Numbers. -/

/-- A text that is read as one number. -/
def NumberText (lexeme : Text) : Prop := isNumber lexeme ∧ ∀ c ∈ lexeme, isNumberChar c

/-- No character with which a number could go on stands first. -/
def Stops (rest : Text) : Prop := ∀ c ∈ rest.head?, isNumberChar c = false

theorem isSpace_of_isNumberChar {c : Char} (h : isNumberChar c) : isSpace c = false := by
  rw [← Bool.not_eq_true]
  intro space
  simp only [isSpace, Bool.or_eq_true, decide_eq_true_eq] at space
  rcases space with ((rfl | rfl) | rfl) | rfl <;> exact absurd h (by decide)

theorem readNumber_append {lexeme rest : Text} (h : NumberText lexeme) (stop : Stops rest) :
    readNumber (lexeme ++ rest) = some (number lexeme, rest) := by
  have front : (lexeme ++ rest).takeWhile isNumberChar = lexeme := by
    rw [List.takeWhile_append_of_pos h.2]
    cases rest with
    | nil => simp
    | cons c rest => simp [stop c rfl]
  have back : (lexeme ++ rest).dropWhile isNumberChar = rest := by
    rw [List.dropWhile_append_of_pos h.2]
    exact Text.dropWhile_eq_self_iff.mpr stop
  rw [readNumber, front, back, if_pos h.1]

/-- Only zero is written with a zero in front. -/
theorem eq_zero_of_ofNat_eq {n : Nat} {rest : Text} (h : Text.ofNat n = '0' :: rest) : n = 0 := by
  induction n using Nat.strongRecOn generalizing rest with
  | ind n ih =>
    by_cases small : n < 10
    · have digits : ∀ n ∈ List.range 10, n.digitChar = '0' → n = 0 := by decide
      have one : Text.ofNat n = [n.digitChar] := Nat.toDigits_of_lt_base small
      rw [one] at h
      exact digits n (List.mem_range.mpr small) (List.cons.inj h).1
    · have more : Text.ofNat n = Text.ofNat (n / 10) ++ [(n % 10).digitChar] :=
        Nat.toDigits_of_base_le (by decide) (Nat.not_lt.mp small)
      obtain ⟨c, front, split⟩ := List.exists_cons_of_ne_nil (Radix.write_ne_nil .decimal (n / 10))
      rw [more, Text.ofNat, split] at h
      rw [(List.cons.inj h).1] at split
      have tenth := ih (n / 10) (by omega) split
      omega

/-- Digits are a number, unless a zero stands in front of others. -/
theorem isNumber_of_digits {t : Text} (digits : ∀ c ∈ t, c.isDigit) (filled : t ≠ [])
    (lead : ∀ rest, t = '0' :: rest → rest = []) : isNumber t := by
  have front : t.takeWhile Char.isDigit = t := List.takeWhile_eq_self_iff.mpr digits
  have back : t.dropWhile Char.isDigit = [] := List.dropWhile_eq_nil_iff.mpr digits
  unfold isNumber
  split
  · exact absurd (digits '-' List.mem_cons_self) (by decide)
  · unfold isUnsignedNumber
    split
    · rw [lead _ rfl]
      rfl
    · rw [front, back]
      simpa [isFraction, isExponentPart] using filled

theorem numberText_ofNat (n : Nat) : NumberText (Text.ofNat n) := by
  have digits : ∀ c ∈ Text.ofNat n, c.isDigit := fun _ => Text.isDigit_of_mem_ofNat
  refine ⟨isNumber_of_digits digits (Text.ofNat_ne_nil n) fun rest h => ?_, fun c mem => ?_⟩
  · obtain rfl := eq_zero_of_ofNat_eq h
    exact (List.cons.inj h).2.symm
  · simp [isNumberChar, digits c mem]

/-! Values. -/

/-- A value whose strings and numbers are read as what they are. -/
inductive WellFormed : Json → Prop where
  | null : WellFormed null
  | boolean (b : Bool) : WellFormed (boolean b)
  | number {lexeme : Text} (h : NumberText lexeme) : WellFormed (number lexeme)
  | string {raw : Text} (h : RawText raw) : WellFormed (string raw)
  | array {elements : List Json} (h : ∀ v ∈ elements, WellFormed v) : WellFormed (array elements)
  | object {members : List (Text × Json)} (keys : ∀ m ∈ members, RawText m.1)
    (values : ∀ m ∈ members, WellFormed m.2) : WellFormed (object members)

theorem wellFormed_ofNat (n : Nat) : WellFormed (ofNat n) := .number (numberText_ofNat n)

theorem wellFormed_ofText (t : Text) : WellFormed (ofText t) := .string (rawText_escape t)

/-- A value is not taken for the end of an array. -/
theorem WellFormed.head_write {v : Json} (h : WellFormed v) (style : Style) (depth : Nat) :
    ∃ c rest, v.write style depth = c :: rest ∧ isSpace c = false ∧ c ≠ ']' := by
  cases h with
  | null => exact ⟨'n', _, rfl, by decide, by decide⟩
  | boolean b => cases b <;> exact ⟨_, _, rfl, by decide, by decide⟩
  | @number lexeme h =>
    cases lexeme with
    | nil => exact absurd h.1 (by decide)
    | cons c rest =>
      have first := h.2 c List.mem_cons_self
      refine ⟨c, rest, rfl, isSpace_of_isNumberChar first, ?_⟩
      rintro rfl
      exact absurd first (by decide)
  | string => exact ⟨'\"', _, rfl, by decide, by decide⟩
  | @array elements =>
    cases elements with
    | nil => exact ⟨'[', _, rfl, by decide, by decide⟩
    | cons v rest => exact ⟨'[', _, rfl, by decide, by decide⟩
  | @object members =>
    cases members with
    | nil => exact ⟨'{', _, rfl, by decide, by decide⟩
    | cons m rest => exact ⟨'{', _, rfl, by decide, by decide⟩

/-! The reader at the first character of a value. -/

theorem skipSpace_cons {c : Char} (h : isSpace c = false) (rest : Text) :
    skipSpace (c :: rest) = c :: rest := List.dropWhile_cons_of_neg (by simp [h])

theorem skipSpace_lineBreak (style : Style) (depth : Nat) (rest : Text) :
    skipSpace (style.lineBreak depth ++ rest) = skipSpace rest := by
  refine List.dropWhile_append_of_pos fun c mem => ?_
  cases style with
  | compact => cases mem
  | pretty =>
    rcases List.mem_cons.mp mem with rfl | mem
    · rfl
    · rw [List.eq_of_mem_replicate mem]
      rfl

theorem skipSpace_colon (style : Style) (rest : Text) :
    ∃ gap, skipSpace (style.colon ++ rest) = ':' :: (gap ++ rest) ∧
      skipSpace (gap ++ rest) = skipSpace rest := by
  cases style with
  | compact => exact ⟨[], rfl, rfl⟩
  | pretty => exact ⟨[' '], rfl, rfl⟩

theorem readValue_skipSpace {fuel : Nat} {s t : Text} (h : skipSpace s = skipSpace t) :
    readValue fuel s = readValue fuel t := by
  cases fuel with
  | zero => rfl
  | succ fuel => rw [readValue, readValue, h]

theorem readValue_string (fuel : Nat) (rest : Text) : readValue (fuel + 1) ('\"' :: rest) =
    (readString rest).map fun (raw, after) => (string raw, after) := rfl

theorem readValue_number (fuel : Nat) {c : Char} {rest : Text} (h : isNumberChar c) :
    readValue (fuel + 1) (c :: rest) = readNumber (c :: rest) := by
  rw [readValue, skipSpace_cons (isSpace_of_isNumberChar h)]
  split
  case h_7 => rfl
  all_goals
    rename_i same
    rw [(List.cons.inj same).1] at h
    exact absurd h (by decide)

theorem readValue_array (fuel : Nat) {rest : Text} (h : ∀ after, skipSpace rest ≠ ']' :: after) :
    readValue (fuel + 1) ('[' :: rest) =
      (readElements fuel rest).map fun (elements, after) => (array elements, after) := by
  -- `h` rules out the case of the empty array.
  simp only [readValue, skipSpace_cons (show isSpace '[' = false by decide)]

theorem readValue_object (fuel : Nat) {rest : Text} (h : ∀ after, skipSpace rest ≠ '}' :: after) :
    readValue (fuel + 1) ('{' :: rest) =
      (readMembers fuel rest).map fun (members, after) => (object members, after) := by
  simp only [readValue, skipSpace_cons (show isSpace '\x7b' = false by decide)]

/-! The reader between the marks of an array or an object. -/

theorem stops_cons {c : Char} (h : isNumberChar c = false) (rest : Text) : Stops (c :: rest) := by
  rintro _ ⟨⟩
  exact h

theorem stops_lineBreak (style : Style) (depth : Nat) {rest : Text} (h : Stops rest) :
    Stops (style.lineBreak depth ++ rest) := by
  cases style with
  | compact => exact h
  | pretty => exact stops_cons (by decide) _

section

variable {fuel : Nat} {t after : Text} {v : Json}

theorem readElements_last {rest : Text} (value : readValue fuel t = some (v, rest))
    (close : skipSpace rest = ']' :: after) : readElements (fuel + 1) t = some ([v], after) := by
  rw [readElements, value]
  simp [close]

theorem readElements_next {rest more : Text} (value : readValue fuel t = some (v, rest))
    (comma : skipSpace rest = ',' :: more) : readElements (fuel + 1) t =
      (readElements fuel more).map fun (elements, after) => (v :: elements, after) := by
  rw [readElements, value]
  simp [comma]

theorem readMembers_last {inside key back front rest : Text} (quote : skipSpace t = '\"' :: inside)
    (name : readString inside = some (key, back)) (colon : skipSpace back = ':' :: front)
    (value : readValue fuel front = some (v, rest)) (close : skipSpace rest = '}' :: after) :
    readMembers (fuel + 1) t = some ([(key, v)], after) := by
  rw [readMembers, quote]
  simp [name, colon, value, close]

theorem readMembers_next {inside key back front rest more : Text}
    (quote : skipSpace t = '\"' :: inside) (name : readString inside = some (key, back))
    (colon : skipSpace back = ':' :: front) (value : readValue fuel front = some (v, rest))
    (comma : skipSpace rest = ',' :: more) : readMembers (fuel + 1) t =
      (readMembers fuel more).map fun (members, after) => ((key, v) :: members, after) := by
  rw [readMembers, quote]
  simp [name, colon, value, comma]

end

/-- The value is read from its text, whatever stops it, with fuel for twice the text. -/
def Reads (style : Style) (v : Json) : Prop :=
  ∀ depth fuel rest, Stops rest → 2 * (v.write style depth).length ≤ fuel →
    readValue (fuel + 1) (v.write style depth ++ rest) = some (v, rest)

section

variable {style : Style} {depth outer : Nat}

theorem readElements_write {v : Json} {vs : List Json} (here : Reads style v)
    (later : ∀ w ∈ vs, Reads style w) {fuel : Nat} (rest : Text)
    (enough : 2 * ((v.write style depth).length + (writeElements style depth vs).length) ≤ fuel) :
    readElements (fuel + 2) (style.lineBreak depth ++ (v.write style depth ++
      (writeElements style depth vs ++ (style.lineBreak outer ++ ']' :: rest)))) =
        some (v :: vs, rest) := by
  induction vs generalizing v fuel with
  | nil =>
    have value := here depth fuel (style.lineBreak outer ++ ']' :: rest)
      (stops_lineBreak style outer (stops_cons (by decide) rest)) (by omega)
    refine readElements_last ((readValue_skipSpace (skipSpace_lineBreak style depth _)).trans value) ?_
    rw [skipSpace_lineBreak, skipSpace_cons (by decide)]
  | cons w ws ih =>
    obtain ⟨next, others⟩ := List.forall_mem_cons.mp later
    have split : writeElements style depth (w :: ws) ++ (style.lineBreak outer ++ ']' :: rest) =
        ',' :: (style.lineBreak depth ++ (w.write style depth ++
          (writeElements style depth ws ++ (style.lineBreak outer ++ ']' :: rest)))) := by
      simp [writeElements]
    have longer : 1 + (w.write style depth).length + (writeElements style depth ws).length ≤
        (writeElements style depth (w :: ws)).length := by
      simp [writeElements]
      omega
    have value := here depth fuel (writeElements style depth (w :: ws) ++
      (style.lineBreak outer ++ ']' :: rest)) (split ▸ stops_cons (by decide) _) (by omega)
    obtain ⟨less, rfl⟩ : ∃ less, fuel = less + 1 := Nat.exists_eq_add_one_of_ne_zero (by omega)
    rw [split] at value ⊢
    rw [readElements_next ((readValue_skipSpace (skipSpace_lineBreak style depth _)).trans value)
      (skipSpace_cons (by decide) _), ih next others (by omega)]
    rfl

/-- The key of a member and its value, each read up to what follows it. -/
theorem member_parts {key : Text} {v : Json} (depth : Nat) (name : RawText key)
    (here : Reads style v) {fuel : Nat} {rest : Text} (stop : Stops rest)
    (enough : 2 * (v.write style depth).length ≤ fuel) :
    ∃ inside back front,
      skipSpace (style.lineBreak depth ++ (quote key ++ (style.colon ++
        (v.write style depth ++ rest)))) = '\"' :: inside ∧
      readString inside = some (key, back) ∧ skipSpace back = ':' :: front ∧
      readValue (fuel + 1) front = some (v, rest) := by
  obtain ⟨gap, colon, blank⟩ := skipSpace_colon style (v.write style depth ++ rest)
  refine ⟨key ++ '\"' :: (style.colon ++ (v.write style depth ++ rest)), _, _, ?_, name _, colon,
    (readValue_skipSpace blank).trans (here depth fuel rest stop enough)⟩
  rw [skipSpace_lineBreak]
  simp [quote, skipSpace_cons (show isSpace '\"' = false by decide)]

theorem readMembers_write {m : Text × Json} {ms : List (Text × Json)} (name : RawText m.1)
    (here : Reads style m.2) (names : ∀ n ∈ ms, RawText n.1) (later : ∀ n ∈ ms, Reads style n.2)
    {fuel : Nat} (rest : Text)
    (enough : 2 * ((m.2.write style depth).length + (writeMembers style depth ms).length) ≤ fuel) :
    readMembers (fuel + 2) (style.lineBreak depth ++ (quote m.1 ++ (style.colon ++
      (m.2.write style depth ++ (writeMembers style depth ms ++
        (style.lineBreak outer ++ '}' :: rest)))))) = some (m :: ms, rest) := by
  induction ms generalizing m fuel with
  | nil =>
    obtain ⟨inside, back, front, quoted, key, colon, value⟩ := member_parts depth name here
      (stops_lineBreak style outer (stops_cons (c := '}') (by decide) rest))
      (show 2 * (m.2.write style depth).length ≤ fuel by omega)
    refine readMembers_last quoted key colon value ?_
    rw [skipSpace_lineBreak, skipSpace_cons (by decide)]
  | cons n ms ih =>
    obtain ⟨nextName, otherNames⟩ := List.forall_mem_cons.mp names
    obtain ⟨next, others⟩ := List.forall_mem_cons.mp later
    have split : writeMembers style depth (n :: ms) ++ (style.lineBreak outer ++ '}' :: rest) =
        ',' :: (style.lineBreak depth ++ (quote n.1 ++ (style.colon ++ (n.2.write style depth ++
          (writeMembers style depth ms ++ (style.lineBreak outer ++ '}' :: rest)))))) := by
      simp [writeMembers]
    have longer : 1 + (n.2.write style depth).length + (writeMembers style depth ms).length ≤
        (writeMembers style depth (n :: ms)).length := by
      simp [writeMembers]
      omega
    obtain ⟨inside, back, front, quoted, key, colon, value⟩ := member_parts depth name here
      (split ▸ stops_cons (by decide) _)
      (show 2 * (m.2.write style depth).length ≤ fuel by omega)
    obtain ⟨less, rfl⟩ : ∃ less, fuel = less + 1 := Nat.exists_eq_add_one_of_ne_zero (by omega)
    rw [split] at value
    rw [readMembers_next quoted key colon value (skipSpace_cons (by decide) _),
      ih nextName next otherNames others (by omega)]
    rfl

end

theorem reads_array {elements : List Json} {style : Style} (filled : ∀ v ∈ elements, WellFormed v)
    (each : ∀ v ∈ elements, Reads style v) : Reads style (array elements) := by
  intro depth fuel rest _ enough
  cases elements with
  | nil => rfl
  | cons v vs =>
    obtain ⟨here, later⟩ := List.forall_mem_cons.mp each
    have split : (array (v :: vs)).write style depth ++ rest =
        '[' :: (style.lineBreak (depth + 1) ++ (v.write style (depth + 1) ++
          (writeElements style (depth + 1) vs ++ (style.lineBreak depth ++ ']' :: rest)))) := by
      simp [write]
    have longer : 2 + (v.write style (depth + 1)).length +
        (writeElements style (depth + 1) vs).length ≤ ((array (v :: vs)).write style depth).length := by
      simp [write]
      omega
    obtain ⟨c, tail, first, solid, notClose⟩ :=
      (filled v List.mem_cons_self).head_write style (depth + 1)
    obtain ⟨less, rfl⟩ := Nat.exists_eq_add_of_le (show 2 ≤ fuel by omega)
    rw [split, readValue_array, Nat.add_comm 2, readElements_write here later rest (by omega)]
    · rfl
    · intro after
      rw [skipSpace_lineBreak, first, List.cons_append, skipSpace_cons solid]
      exact fun same => notClose (List.cons.inj same).1

theorem reads_object {members : List (Text × Json)} {style : Style}
    (names : ∀ m ∈ members, RawText m.1) (each : ∀ m ∈ members, Reads style m.2) :
    Reads style (object members) := by
  intro depth fuel rest _ enough
  cases members with
  | nil => rfl
  | cons m ms =>
    obtain ⟨name, otherNames⟩ := List.forall_mem_cons.mp names
    obtain ⟨here, later⟩ := List.forall_mem_cons.mp each
    have split : (object (m :: ms)).write style depth ++ rest =
        '{' :: (style.lineBreak (depth + 1) ++ (quote m.1 ++ (style.colon ++
          (m.2.write style (depth + 1) ++ (writeMembers style (depth + 1) ms ++
            (style.lineBreak depth ++ '}' :: rest)))))) := by
      simp [write]
    have longer : 2 + (m.2.write style (depth + 1)).length +
        (writeMembers style (depth + 1) ms).length ≤
          ((object (m :: ms)).write style depth).length := by
      simp [write]
      omega
    obtain ⟨less, rfl⟩ := Nat.exists_eq_add_of_le (show 2 ≤ fuel by omega)
    rw [split, readValue_object, Nat.add_comm 2,
      readMembers_write name here otherNames later rest (by omega)]
    · rfl
    · intro after
      rw [skipSpace_lineBreak, quote, List.cons_append, List.cons_append, skipSpace_cons (by decide)]
      exact fun same => absurd (List.cons.inj same).1 (by decide)

/-- Every part of a well-formed value is read up to its own end. -/
theorem WellFormed.reads {v : Json} (h : WellFormed v) (style : Style) : Reads style v := by
  induction h with
  | null => exact fun _ _ _ _ _ => rfl
  | boolean b => cases b <;> exact fun _ _ _ _ _ => rfl
  | @number lexeme h =>
    intro depth fuel rest stop _
    obtain ⟨c, tail, rfl⟩ : ∃ c tail, lexeme = c :: tail := by
      refine List.exists_cons_of_ne_nil ?_
      rintro rfl
      exact absurd h.1 (by decide)
    exact (readValue_number fuel (h.2 c List.mem_cons_self)).trans (readNumber_append h stop)
  | @string raw h =>
    intro depth fuel rest _ _
    have split : (Json.string raw).write style depth ++ rest = '\"' :: (raw ++ '\"' :: rest) := by
      simp [write, quote]
    rw [split, readValue_string, h rest]
    rfl
  | array filled ih => exact reads_array filled ih
  | object names _ ih => exact reads_object names ih

theorem read?_write {v : Json} (h : WellFormed v) (style : Style) : read? (v.write style 0) = some v := by
  have value := h.reads style 0 (2 * (v.write style 0).length + 1) [] (by simp [Stops]) (by omega)
  rw [List.append_nil] at value
  rw [read?, value]
  rfl

end SoftCore.Json
