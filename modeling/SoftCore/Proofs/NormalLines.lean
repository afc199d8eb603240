import SoftCore.Proofs.Layout
import SoftCore.Proofs.SmallLetters

/-! What reading makes of a line, and what it refuses. The lines in normal form
are those that reading leaves, and each of them is read back from its own text,
whatever blanks stand beside the commas. Refused are the texts without a word
and those with a slot between their commas that holds nothing but blanks. -/

namespace SoftCore

open Text

theorem Text.trim_eq_nil_iff {t : Text} : t.trim = [] ↔ Gap t := by
  refine ⟨fun empty => ?_, Gap.trim_eq_nil⟩
  obtain ⟨front, back, first, last, whole⟩ := exists_trim t
  rw [empty, List.append_nil] at whole
  rw [whole]
  exact gap_append.mpr ⟨first, last⟩

theorem Text.nil_mem_cells_iff {t : Text} : [] ∈ t.cells ↔ ∃ slot ∈ t.pieces ',', Gap slot := by
  simp [cells, trim_eq_nil_iff]

namespace SourceLine

variable {text : Text} {line : SourceLine}

theorem token_of_mem_slots (full : [] ∉ text.slots) {token : Text} (mem : token ∈ text.slots) :
    Token token := by
  refine ⟨fun empty => full (empty ▸ mem), ?_⟩
  rw [slots, operandSlots] at mem
  split at mem
  · cases mem
  · obtain ⟨slot, piece, rfl⟩ := List.mem_map.mp mem
    exact ⟨trim_trim slot, fun comma => not_mem_of_mem_pieces piece (mem_of_mem_trim comma)⟩

/-- Reading leaves a normal form. -/
theorem normal_of_read (h : read text = .ok line) : line.Normal := by
  obtain ⟨filled, full, rfl⟩ := read_eq_ok_iff.mp h
  obtain ⟨o, rest, rfl, ends⟩ := Opening.exists_line filled
  have word := o.mnemonic_line ends
  have tokens : ∀ token ∈ (o.line rest).slots, Token token := fun _ => token_of_mem_slots full
  refine ⟨?_, ?_, ?_, tokens⟩
  · rw [word]
    exact lower_ne_nil o.filled
  · rw [word]
    exact solid_lower o.solid
  · rw [word, lower_lower]

/-- The slot of a token: blanks may stand on both sides of it. -/
def Slot (slot token : Text) : Prop :=
  ∃ front back, Gap front ∧ Gap back ∧ slot = front ++ token ++ back

theorem Slot.cells {slot token : Text} (h : Slot slot token) (held : Token token) :
    slot.cells = [token] := by
  obtain ⟨front, back, first, last, rfl⟩ := h
  rw [last.cells_append_right, first.cells_append, cells_of_not_mem held.2.2, held.2.1]

theorem flatMap_cells_of_slots {slots tokens : List Text} (h : List.Forall₂ Slot slots tokens)
    (held : ∀ t ∈ tokens, Token t) : slots.flatMap Text.cells = tokens := by
  induction h with
  | nil => rfl
  | cons here _ ih =>
    obtain ⟨first, later⟩ := List.forall_mem_cons.mp held
    rw [List.flatMap_cons, here.cells first, ih later, List.singleton_append]

/-- The operands of a line are read back from their slots. -/
theorem operandSlots_of_slots {slots tokens : List Text} (h : List.Forall₂ Slot slots tokens)
    (held : ∀ t ∈ tokens, Token t) :
    operandSlots (trim (' ' :: [','].intercalate slots)) = tokens := by
  rw [operandSlots_trim, Opening.cells_cons (by decide)]
  cases h with
  | nil => rfl
  | @cons slot token slots tokens here rest =>
    have whole := (cells_intercalate (List.cons_ne_nil slot slots)).trans
      (flatMap_cells_of_slots (.cons here rest) held)
    have filled : (trim (' ' :: [','].intercalate (slot :: slots))).isEmpty = false := by
      refine isEmpty_trim_of_mem_cells ?_ (held token List.mem_cons_self).1
      rw [Opening.cells_cons (by decide), whole]
      exact List.mem_cons_self
    rw [filled, whole]
    rfl

/-- A normal line is read back from its mnemonic and the slots of its operands. -/
theorem read_of_slots (h : line.Normal) {slots : List Text}
    (spaced : List.Forall₂ Slot slots line.operands) :
    read (line.mnemonic ++ ' ' :: [','].intercalate slots) = .ok line := by
  let o : Opening := ⟨[], line.mnemonic, by decide, h.solid, h.filled⟩
  have ends : Opening.Ends (' ' :: [','].intercalate slots) := Opening.ends_cons (by decide) _
  have name : (o.line (' ' :: [','].intercalate slots)).mnemonic = line.mnemonic := by
    rw [o.mnemonic_line ends, h.lower]
  have operands : (o.line (' ' :: [','].intercalate slots)).slots = line.operands := by
    rw [o.slots_line ends, operandSlots_of_slots spaced h.tokens]
  have whole : line.mnemonic ++ ' ' :: [','].intercalate slots =
      o.line (' ' :: [','].intercalate slots) := rfl
  rw [whole, read_eq_ok_iff, o.trim_line, name, operands]
  refine ⟨?_, fun empty => (h.tokens [] empty).1 rfl, rfl⟩
  simp [o.filled]

/-- Something stands behind the first word, and one of its slots is blank. -/
def SlotMissing (text : Text) : Prop :=
  ∃ (o : Opening) (rest : Text), text = o.line rest ∧ Opening.Ends rest ∧ ¬Gap rest ∧
    ∃ slot ∈ rest.pieces ',', Gap slot

theorem slotMissing_iff : SlotMissing text ↔ ¬Gap text ∧ [] ∈ text.slots := by
  have slots : ∀ (o : Opening) (rest : Text), Opening.Ends rest →
      ([] ∈ (o.line rest).slots ↔ ¬Gap rest ∧ ∃ slot ∈ rest.pieces ',', Gap slot) := by
    intro o rest ends
    rw [o.slots_line ends, operandSlots_trim, ← nil_mem_cells_iff, ← trim_eq_nil_iff]
    split <;> simp_all
  constructor
  · rintro ⟨o, rest, rfl, ends, missing⟩
    refine ⟨fun blank => ?_, (slots o rest ends).mpr missing⟩
    rw [← trim_eq_nil_iff, o.trim_line] at blank
    exact o.filled (List.append_eq_nil_iff.mp blank).1
  · rintro ⟨filled, missing⟩
    obtain ⟨o, rest, rfl, ends⟩ := Opening.exists_line (mt trim_eq_nil_iff.mp filled)
    exact ⟨o, rest, rfl, ends, (slots o rest ends).mp missing⟩

/-- Why a line is refused. -/
theorem read_eq_error_iff {fault : Fault} : read text = .error fault ↔
    Gap text ∧ fault = .unreadable text .emptyLine ∨
      SlotMissing text ∧ fault = .unreadable text .emptyOperand := by
  rw [slotMissing_iff, ← trim_eq_nil_iff, read_eq]
  by_cases blank : text.trim = []
  · rw [if_pos (List.isEmpty_iff.mpr blank)]
    simp [blank, eq_comm]
  · rw [if_neg (mt List.isEmpty_iff.mp blank)]
    by_cases missing : [] ∈ text.slots
    · rw [if_pos (List.any_eq_true.mpr ⟨[], missing, rfl⟩)]
      simp [blank, missing, eq_comm]
    · have full : ¬text.slots.any List.isEmpty := fun any => by
        obtain ⟨slot, mem, empty⟩ := List.any_eq_true.mp any
        exact missing (List.isEmpty_iff.mp empty ▸ mem)
      rw [if_neg full]
      simp [blank, missing]

/-- The lines that reading leaves are those in normal form, and each of them is read back from its
text with any blanks beside the commas. A text is refused, and quoted as it stands, exactly when it
is blank or has a blank slot behind its first word. -/
theorem read_iff_normal :
    (∀ line, (∃ text, read text = .ok line) ↔ line.Normal) ∧
    (∀ line slots, line.Normal → List.Forall₂ Slot slots line.operands →
      read (line.mnemonic ++ ' ' :: [','].intercalate slots) = .ok line) ∧
    (∀ text, (∃ fault, read text = .error fault) ↔ Gap text ∨ SlotMissing text) ∧
    ∀ text fault, read text = .error fault →
      fault = .unreadable text (if Gap text then .emptyLine else .emptyOperand) := by
  refine ⟨fun line => ⟨fun ⟨text, h⟩ => normal_of_read h, fun h => ⟨line.text, read_text h⟩⟩,
    fun line slots h spaced => read_of_slots h spaced, fun text => ?_, fun text fault h => ?_⟩
  · simp only [read_eq_error_iff]
    constructor
    · rintro ⟨fault, ⟨blank, -⟩ | ⟨missing, -⟩⟩
      · exact .inl blank
      · exact .inr missing
    · rintro (blank | missing)
      · exact ⟨_, .inl ⟨blank, rfl⟩⟩
      · exact ⟨_, .inr ⟨missing, rfl⟩⟩
  · rcases read_eq_error_iff.mp h with ⟨blank, rfl⟩ | ⟨missing, rfl⟩
    · rw [if_pos blank]
    · rw [if_neg (slotMissing_iff.mp missing).1]

/-- A mnemonic with a comma and a final sigma, an operand with a blank in it between wide blanks, and
a line that ends with a comma. -/
theorem read_iff_normal_wide :
    read "as,ας \u3000a b\t,%R1".toList = .ok ⟨"as,ας".toList, ["a b".toList, "%R1".toList]⟩ ∧
      ∃ fault, read "add %r1, ".toList = .error fault := by
  let line : SourceLine := ⟨"as,ας".toList, ["a b".toList, "%R1".toList]⟩
  have normal : line.Normal := ⟨by decide, by decide, by decide +kernel, by
    rintro token mem
    simp only [line, List.mem_cons, List.not_mem_nil, or_false] at mem
    rcases mem with rfl | rfl
    · exact ⟨by decide, by decide, by decide⟩
    · exact ⟨by decide, by decide, by decide⟩⟩
  have spaced : List.Forall₂ Slot ["\u3000a b\t".toList, "%R1".toList] line.operands :=
    .cons ⟨"\u3000".toList, "\t".toList, by decide, by decide, by decide⟩
      (.cons ⟨[], [], by decide, by decide, by decide⟩ .nil)
  let o : Opening := ⟨[], "add".toList, by decide, by decide, by decide⟩
  have missing : SlotMissing "add %r1, ".toList :=
    ⟨o, " %r1, ".toList, by decide, Opening.ends_cons (by decide) _, by decide, " ".toList,
      by decide, by decide⟩
  exact ⟨read_iff_normal.2.1 line _ normal spaced, (read_iff_normal.2.2.1 _).mpr (.inr missing)⟩

end SourceLine
end SoftCore
