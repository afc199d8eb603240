import SoftCore.Proofs.Spelling
import SoftCore.Proofs.Verdict

/-! Where blanks carry no meaning. A gap is a run of blanks: at either end of a
text it is trimmed off, after the first word it only ends that word, and beside
a comma it is trimmed off the slot it stands in. -/

namespace SoftCore

namespace Text

/-- A run of blanks. -/
def Gap (t : Text) : Prop := ∀ c ∈ t, isBlank c

instance (t : Text) : Decidable (Gap t) := decidable_of_iff (t.all isBlank) List.all_eq_true

instance (t : Text) : Decidable (Solid t) :=
  decidable_of_iff (t.all (!isBlank ·)) (by simp [Solid])

@[simp] theorem gap_append {s t : Text} : Gap (s ++ t) ↔ Gap s ∧ Gap t := List.forall_mem_append

theorem gap_reverse {t : Text} : Gap t.reverse ↔ Gap t := by simp [Gap]

theorem Gap.not_mem {gap : Text} {k : Char} (h : Gap gap) (solid : isBlank k = false) :
    k ∉ gap := fun mem => by
  rw [h k mem] at solid
  cases solid

/-! At the ends of a text. -/

theorem exists_trimStart (t : Text) : ∃ gap, Gap gap ∧ t = gap ++ t.trimStart :=
  ⟨t.takeWhile isBlank, List.all_eq_true.mp List.all_takeWhile, List.takeWhile_append_dropWhile.symm⟩

theorem exists_trimEnd (t : Text) : ∃ gap, Gap gap ∧ t = t.trimEnd ++ gap := by
  obtain ⟨gap, blank, whole⟩ := exists_trimStart t.reverse
  refine ⟨gap.reverse, gap_reverse.mpr blank, ?_⟩
  calc t
    _ = t.reverse.reverse := t.reverse_reverse.symm
    _ = (gap ++ trimStart t.reverse).reverse := by rw [← whole]
    _ = t.trimEnd ++ gap.reverse := List.reverse_append

/-- The gaps at the ends of a text, and what is between them. -/
theorem exists_trim (t : Text) : ∃ front back, Gap front ∧ Gap back ∧ t = front ++ t.trim ++ back := by
  obtain ⟨front, first, start⟩ := exists_trimStart t
  obtain ⟨back, last, stop⟩ := exists_trimEnd t.trimStart
  refine ⟨front, back, first, last, ?_⟩
  calc t
    _ = front ++ t.trimStart := start
    _ = front ++ (t.trimStart.trimEnd ++ back) := by rw [← stop]
    _ = front ++ t.trim ++ back := (List.append_assoc ..).symm

variable {gap t m : Text}

theorem Gap.trimStart_append (h : Gap gap) (t : Text) : trimStart (gap ++ t) = t.trimStart :=
  List.dropWhile_append_of_pos h

theorem Gap.trimEnd_append (h : Gap gap) (t : Text) : trimEnd (t ++ gap) = t.trimEnd := by
  rw [trimEnd, List.reverse_append, List.dropWhile_append_of_pos (gap_reverse.mpr h), trimEnd]

theorem Gap.trim_append (h : Gap gap) (t : Text) : trim (gap ++ t) = t.trim := by
  rw [trim, h.trimStart_append, trim]

theorem Gap.trim_eq_nil (h : Gap gap) : gap.trim = [] := by
  have whole := h.trim_append []
  rwa [List.append_nil] at whole

theorem trimStart_append_of_solid (solid : Solid m) (filled : m ≠ []) (t : Text) :
    trimStart (m ++ t) = m ++ t := by
  obtain ⟨c, rest, rfl⟩ := List.exists_cons_of_ne_nil filled
  exact List.dropWhile_cons_of_neg (by simp [solid c List.mem_cons_self])

theorem trimEnd_append_of_solid (solid : Solid m) (t : Text) : trimEnd (m ++ t) = m ++ t.trimEnd := by
  have back : trimEnd m = m :=
    trimEnd_eq_self_iff.mpr fun c last => solid c (List.mem_of_mem_getLast? last)
  rw [trimEnd, List.reverse_append, List.dropWhile_append, trimEnd]
  split
  · rename_i empty
    rw [List.isEmpty_iff.mp empty, List.reverse_nil, List.append_nil]
    exact back
  · rw [List.reverse_append, List.reverse_reverse]

/-- A text that starts with a solid part is trimmed only at its end. -/
theorem trim_append_of_solid (solid : Solid m) (filled : m ≠ []) (t : Text) :
    trim (m ++ t) = m ++ t.trimEnd := by
  rw [trim, trimStart_append_of_solid solid filled, trimEnd_append_of_solid solid]

theorem trimStart_append_cons {c : Char} (solid : isBlank c = false) (a b : Text) :
    trimStart (a ++ c :: b) = a.trimStart ++ c :: b := by
  rw [trimStart, List.dropWhile_append, trimStart]
  split
  · rename_i empty
    rw [List.isEmpty_iff.mp empty]
    exact List.dropWhile_cons_of_neg (by simp [solid])
  · rfl

/-- A text that ends with a solid part is trimmed only at its start. -/
theorem trim_append_solid (solid : Solid m) (filled : m ≠ []) (t : Text) :
    trim (t ++ m) = t.trimStart ++ m := by
  obtain ⟨c, rest, rfl⟩ := List.exists_cons_of_ne_nil filled
  rw [trim, trimStart_append_cons (solid c List.mem_cons_self), trimEnd_eq_self_iff]
  intro d last
  rw [List.getLast?_append_of_ne_nil _ filled] at last
  exact solid d (List.mem_of_mem_getLast? last)

theorem Gap.trim_append_right (h : Gap gap) (t : Text) : trim (t ++ gap) = t.trim := by
  rw [trim, trimStart, List.dropWhile_append]
  split
  · rename_i empty
    rw [trim, trimStart, List.isEmpty_iff.mp empty]
    exact h.trim_eq_nil
  · exact h.trimEnd_append _

/-- Between two solid characters nothing is trimmed. -/
theorem trim_fenced {c d : Char} (start : isBlank c = false) (stop : isBlank d = false)
    (h : Gap gap) (a b : Text) : trim (a ++ c :: (b ++ d :: gap)) = a.trimStart ++ c :: (b ++ [d]) :=
  calc
    _ = trim ((a ++ c :: b) ++ [d] ++ gap) := by simp
    _ = trim ((a ++ c :: b) ++ [d]) := h.trim_append_right _
    _ = trimStart (a ++ c :: b) ++ [d] := trim_append_solid (by simpa using stop) (by simp) _
    _ = _ := by simp [trimStart_append_cons start]

theorem trim_trim (t : Text) : t.trim.trim = t.trim := by
  obtain ⟨front, back, first, last, whole⟩ := exists_trim t
  calc t.trim.trim
    _ = trim (front ++ t.trim ++ back) := by rw [last.trim_append_right, first.trim_append]
    _ = t.trim := by rw [← whole]

theorem trim_trimStart (t : Text) : t.trimStart.trim = t.trim := by
  obtain ⟨gap, blank, whole⟩ := exists_trimStart t
  rw [← blank.trim_append, ← whole]

theorem trim_trimEnd (t : Text) : t.trimEnd.trim = t.trim := by
  obtain ⟨gap, blank, whole⟩ := exists_trimEnd t
  rw [← blank.trim_append_right, ← whole]

theorem mem_trim_iff {k : Char} (solid : isBlank k = false) : k ∈ t.trim ↔ k ∈ t := by
  obtain ⟨front, back, first, last, whole⟩ := exists_trim t
  conv_rhs => rw [whole]
  simp [first.not_mem solid, last.not_mem solid]

theorem mem_of_mem_trimStart {c : Char} (h : c ∈ t.trimStart) : c ∈ t :=
  (List.dropWhile_sublist _).mem h

theorem mem_of_mem_trim {c : Char} (h : c ∈ t.trim) : c ∈ t := by
  obtain ⟨front, back, -, -, whole⟩ := exists_trim t
  rw [whole]
  simp [h]

/-! Beside commas. -/

/-- The texts between the commas, trimmed. -/
def cells (t : Text) : List Text := (t.pieces ',').map trim

theorem pieces_append_sep (sep : Char) (a b : Text) :
    pieces sep (a ++ sep :: b) = pieces sep a ++ pieces sep b := by
  induction a with
  | nil => simp [pieces]
  | cons c a ih =>
    obtain ⟨first, rest, cut⟩ := List.exists_cons_of_ne_nil (pieces_ne_nil sep a)
    rw [List.cons_append, pieces, ih, pieces, cut]
    split <;> rfl

theorem cells_append_comma (a b : Text) : cells (a ++ ',' :: b) = cells a ++ cells b := by
  rw [cells, pieces_append_sep, List.map_append, cells, cells]

theorem cells_of_not_mem (h : ',' ∉ t) : cells t = [t.trim] := by
  rw [cells, pieces_of_not_mem h, List.map_singleton]

theorem Gap.comma_not_mem (h : Gap gap) : ',' ∉ gap := h.not_mem (by decide)

/-- A gap in front of a text is trimmed off the slot before its first comma. -/
theorem Gap.cells_append (h : Gap gap) (t : Text) : cells (gap ++ t) = cells t := by
  by_cases comma : ',' ∈ t
  · obtain ⟨a, b, rfl, first⟩ := List.eq_append_cons_of_mem comma
    have joined : ',' ∉ gap ++ a := by simp [h.comma_not_mem, first]
    rw [← List.append_assoc, cells_append_comma, cells_append_comma, cells_of_not_mem joined,
      cells_of_not_mem first, h.trim_append]
  · have joined : ',' ∉ gap ++ t := by simp [h.comma_not_mem, comma]
    rw [cells_of_not_mem joined, cells_of_not_mem comma, h.trim_append]

/-- A gap after a text is trimmed off the slot behind its last comma. -/
theorem Gap.cells_append_right (h : Gap gap) (t : Text) : cells (t ++ gap) = cells t := by
  by_cases comma : ',' ∈ t
  · obtain ⟨b, a, whole, last⟩ := List.eq_append_cons_of_mem (List.mem_reverse.mpr comma)
    have split : t = a.reverse ++ ',' :: b.reverse :=
      (List.reverse_eq_iff.mp whole).trans (by simp)
    have joined : ',' ∉ b.reverse ++ gap := by simp [h.comma_not_mem, last]
    have alone : ',' ∉ b.reverse := by simpa using last
    rw [split, List.append_assoc, List.cons_append, cells_append_comma, cells_append_comma,
      cells_of_not_mem joined, cells_of_not_mem alone, h.trim_append_right]
  · have joined : ',' ∉ t ++ gap := by simp [h.comma_not_mem, comma]
    rw [cells_of_not_mem joined, cells_of_not_mem comma, h.trim_append_right]

theorem cells_trim (t : Text) : cells t.trim = cells t := by
  obtain ⟨front, back, first, last, whole⟩ := exists_trim t
  calc cells t.trim
    _ = cells (front ++ t.trim ++ back) := by rw [last.cells_append_right, first.cells_append]
    _ = cells t := by rw [← whole]

theorem cells_intercalate {parts : List Text} (filled : parts ≠ []) :
    cells ([','].intercalate parts) = parts.flatMap cells := by
  induction parts with
  | nil => exact absurd rfl filled
  | cons part rest ih =>
    cases rest with
    | nil => simp
    | cons next rest =>
      rw [List.intercalate_cons_cons, List.append_assoc, List.singleton_append, cells_append_comma,
        ih (List.cons_ne_nil _ _), ← List.flatMap_cons]

end Text

open Text

theorem SourceLine.operandSlots_trim (t : Text) :
    operandSlots t.trim = if t.trim.isEmpty then [] else t.cells := by
  rw [operandSlots]
  split
  · rfl
  · exact cells_trim t

/-- The blanks that a line starts with, and its first word. -/
structure Opening where
  gap : Text
  word : Text
  blank : Gap gap
  solid : Solid word
  filled : word ≠ []

namespace Opening

/-- The line that goes on with `rest`. -/
def line (o : Opening) (rest : Text) : Text := o.gap ++ (o.word ++ rest)

/-- A blank ends the first word. -/
def Ends (rest : Text) : Prop := ∀ c ∈ rest.head?, isBlank c

theorem ends_gap_append {gap rest : Text} (blank : Gap gap) (filled : gap ≠ []) :
    Ends (gap ++ rest) := by
  obtain ⟨c, tail, rfl⟩ := List.exists_cons_of_ne_nil filled
  rintro _ ⟨⟩
  exact blank c List.mem_cons_self

theorem Ends.trimEnd {rest : Text} (h : Ends rest) : Ends rest.trimEnd := by
  obtain ⟨gap, -, whole⟩ := exists_trimEnd rest
  intro c first
  refine h c ?_
  rw [whole, List.head?_append, first]
  rfl

variable (o : Opening) {rest : Text}

theorem trim_line (rest : Text) : (o.line rest).trim = o.word ++ rest.trimEnd := by
  rw [line, o.blank.trim_append, trim_append_of_solid o.solid o.filled]

theorem mnemonic_line (h : Ends rest) : (o.line rest).mnemonic = lower o.word := by
  rw [mnemonic, trim_line, SourceLine.firstWord_append o.solid h.trimEnd]

theorem slots_line (h : Ends rest) : (o.line rest).slots = SourceLine.operandSlots rest.trim := by
  rw [slots, trim_line, SourceLine.afterFirstWord_append o.solid h.trimEnd, trim_trimEnd]

/-- Lines with one opening are alike when the slots that follow are. -/
theorem alike_line {s t : Text} (hs : Ends s) (ht : Ends t)
    (blank : s.trim.isEmpty = t.trim.isEmpty)
    (alike : List.Forall₂ Operand.Alike s.cells t.cells) : (o.line s).Alike (o.line t) where
  blank := by
    have filled : ∀ rest, (o.word ++ rest : Text).isEmpty = false := by simp [o.filled]
    rw [trim_line, trim_line, filled, filled]
  mnemonic := by rw [o.mnemonic_line hs, o.mnemonic_line ht]
  slots := by
    rw [o.slots_line hs, o.slots_line ht, SourceLine.operandSlots_trim,
      SourceLine.operandSlots_trim, blank]
    split
    · exact .nil
    · exact alike

end Opening
end SoftCore
