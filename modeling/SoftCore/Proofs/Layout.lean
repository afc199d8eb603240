import Mathlib.Logic.Relation
import SoftCore.Proofs.Brackets

/-! Changes of a line that carry no meaning: the case of its letters, the blanks
around it, after its mnemonic and beside its commas, and the blanks between the
parts of a memory operand. Lines that such changes turn into each other have the
same word or fail in the same way. -/

namespace SoftCore

open Text Fault

/-- A line with a memory operand between other slots. -/
def MemoryReference.Parts.line (p : Parts) (o : Opening) (c : Char) (front back : List Text)
    (s : Spacing) : Text :=
  o.line (c :: [','].intercalate (front ++ p.text s :: back))

namespace Text

/-- One change of the spelling of a line. Where gaps beside a comma change, the blank `c` stays
between the mnemonic and the operands. -/
inductive Edit : Text → Text → Prop
  | letters {s t : Text} (same : s.asciiLower = t.asciiLower) : Edit s t
  | start {gap : Text} (blank : Gap gap) (t : Text) : Edit t (gap ++ t)
  | stop {gap : Text} (blank : Gap gap) (t : Text) : Edit t (t ++ gap)
  | afterMnemonic (o : Opening) {gap other : Text} (blank : Gap gap) (filled : gap ≠ [])
      (otherBlank : Gap other) (otherFilled : other ≠ []) (rest : Text) :
      Edit (o.line (gap ++ rest)) (o.line (other ++ rest))
  | beforeComma (o : Opening) {c : Char} (ends : isBlank c) {gap : Text} (blank : Gap gap)
      (a b : Text) : Edit (o.line (c :: (a ++ ',' :: b))) (o.line (c :: (a ++ gap ++ ',' :: b)))
  | afterComma (o : Opening) {c : Char} (ends : isBlank c) {gap : Text} (blank : Gap gap)
      (a b : Text) : Edit (o.line (c :: (a ++ ',' :: b))) (o.line (c :: (a ++ ',' :: (gap ++ b))))
  | reference (p : MemoryReference.Parts) (o : Opening) {c : Char} (ends : isBlank c)
      (front back : List Text) (s t : MemoryReference.Spacing) :
      Edit (p.line o c front back s) (p.line o c front back t)

theorem alike_of_trim {s t : Text} (h : s.trim = t.trim) : Alike s t where
  blank := by rw [h]
  mnemonic := by rw [mnemonic, h, mnemonic]
  slots := by
    rw [slots, h, slots, List.forall₂_same]
    exact fun token _ => .refl token

theorem isEmpty_trim_of_mem_cells {t cell : Text} (mem : cell ∈ t.cells) (filled : cell ≠ []) :
    t.trim.isEmpty = false := by
  refine List.isEmpty_eq_false_iff.mpr fun empty => filled ?_
  rw [← cells_trim, empty] at mem
  exact List.mem_singleton.mp mem

theorem isEmpty_trim_of_mem {k : Char} (solid : isBlank k = false) {t : Text} (mem : k ∈ t) :
    t.trim.isEmpty = false :=
  List.isEmpty_eq_false_iff.mpr (List.ne_nil_of_mem ((mem_trim_iff solid).mpr mem))

end Text

namespace Opening

variable (o : Opening)

theorem ends_cons {c : Char} (blank : isBlank c) (rest : Text) : Ends (c :: rest) := by
  rintro _ ⟨⟩
  exact blank

theorem alike_line_of_cells {s t : Text} (hs : Ends s) (ht : Ends t)
    (blank : s.trim.isEmpty = t.trim.isEmpty) (same : s.cells = t.cells) :
    (o.line s).Alike (o.line t) := by
  refine o.alike_line hs ht blank ?_
  rw [same, List.forall₂_same]
  exact fun token _ => .refl token

theorem alike_afterMnemonic {gap other : Text} (blank : Gap gap) (filled : gap ≠ [])
    (otherBlank : Gap other) (otherFilled : other ≠ []) (rest : Text) :
    (o.line (gap ++ rest)).Alike (o.line (other ++ rest)) := by
  refine o.alike_line_of_cells (ends_gap_append blank filled)
    (ends_gap_append otherBlank otherFilled) ?_ ?_
  · rw [blank.trim_append, otherBlank.trim_append]
  · rw [blank.cells_append, otherBlank.cells_append]

theorem cells_cons {c : Char} (blank : isBlank c) (t : Text) : cells (c :: t) = cells t := by
  have gap : Gap [c] := List.forall_mem_singleton.mpr blank
  exact gap.cells_append t

theorem alike_beforeComma {c : Char} (ends : isBlank c) {gap : Text} (blank : Gap gap)
    (a b : Text) :
    (o.line (c :: (a ++ ',' :: b))).Alike (o.line (c :: (a ++ gap ++ ',' :: b))) := by
  have comma : ∀ x y : Text, (trim (c :: (x ++ ',' :: y))).isEmpty = false := fun x y =>
    isEmpty_trim_of_mem (k := ',') (by decide) (by simp)
  refine o.alike_line_of_cells (ends_cons ends _) (ends_cons ends _) ?_ ?_
  · rw [comma, comma]
  · rw [cells_cons ends, cells_cons ends, cells_append_comma, cells_append_comma,
      blank.cells_append_right]

theorem alike_afterComma {c : Char} (ends : isBlank c) {gap : Text} (blank : Gap gap)
    (a b : Text) :
    (o.line (c :: (a ++ ',' :: b))).Alike (o.line (c :: (a ++ ',' :: (gap ++ b)))) := by
  have comma : ∀ x y : Text, (trim (c :: (x ++ ',' :: y))).isEmpty = false := fun x y =>
    isEmpty_trim_of_mem (k := ',') (by decide) (by simp)
  refine o.alike_line_of_cells (ends_cons ends _) (ends_cons ends _) ?_ ?_
  · rw [comma, comma]
  · rw [cells_cons ends, cells_cons ends, cells_append_comma, cells_append_comma,
      blank.cells_append]

end Opening

namespace MemoryReference.Parts

variable (p : Parts)

/-- The slot of a memory operand is one slot, whatever stands beside it. -/
theorem cells_slots (front back : List Text) (s : Spacing) :
    cells ([','].intercalate (front ++ p.text s :: back)) =
      front.flatMap cells ++ (p.text s).trim :: back.flatMap cells := by
  rw [cells_intercalate (by simp), List.flatMap_append, List.flatMap_cons,
    cells_of_not_mem (p.comma_not_mem_text s), List.singleton_append]

theorem alike_line (o : Opening) {c : Char} (ends : isBlank c) (front back : List Text)
    (s t : Spacing) : (p.line o c front back s).Alike (p.line o c front back t) := by
  have filled : ∀ s, (trim (c :: [','].intercalate (front ++ p.text s :: back))).isEmpty = false := by
    intro s
    refine isEmpty_trim_of_mem_cells ?_ (p.trim_text_ne_nil s)
    rw [Opening.cells_cons ends, cells_slots]
    simp
  refine o.alike_line (Opening.ends_cons ends _) (Opening.ends_cons ends _) ?_ ?_
  · rw [filled, filled]
  · rw [Opening.cells_cons ends, Opening.cells_cons ends, cells_slots, cells_slots]
    refine List.rel_append ?_ (.cons (p.alike s t) ?_)
    · exact List.forall₂_same.mpr fun token _ => .refl token
    · exact List.forall₂_same.mpr fun token _ => .refl token

end MemoryReference.Parts

/-- What one edit preserves. -/
theorem Text.Edit.verdict_lineWord {s t : Text} (h : Edit s t) :
    verdict (Assembly.lineWord s) = verdict (Assembly.lineWord t) := by
  cases h with
  | letters same => exact verdict_lineWord_of_letters same
  | start blank t => exact (alike_of_trim (blank.trim_append s).symm).verdict_lineWord
  | stop blank t => exact (alike_of_trim (blank.trim_append_right s).symm).verdict_lineWord
  | afterMnemonic o blank filled otherBlank otherFilled rest =>
    exact (o.alike_afterMnemonic blank filled otherBlank otherFilled rest).verdict_lineWord
  | beforeComma o ends blank a b => exact (o.alike_beforeComma ends blank a b).verdict_lineWord
  | afterComma o ends blank a b => exact (o.alike_afterComma ends blank a b).verdict_lineWord
  | reference p o ends front back s t =>
    exact (p.alike_line o ends front back s t).verdict_lineWord

/-- What any number of edits, made and undone, preserve. -/
theorem Text.verdict_lineWord_of_edits {s t : Text} (h : Relation.EqvGen Edit s t) :
    verdict (Assembly.lineWord s) = verdict (Assembly.lineWord t) := by
  induction h with
  | rel _ _ edit => exact edit.verdict_lineWord
  | refl _ => rfl
  | symm _ _ _ ih => exact ih.symm
  | trans _ _ _ _ _ first second => exact first.trans second

/-! Every line with a memory operand that is accepted has one between gaps. -/

theorem Opening.exists_line {t : Text} (filled : t.trim ≠ []) :
    ∃ (o : Opening) (rest : Text), t = o.line rest ∧ Ends rest := by
  obtain ⟨gap, blank, whole⟩ := exists_trimStart t
  let inWord : Char → Bool := fun c => !isBlank c
  have solid : Solid (t.trimStart.takeWhile inWord) := fun c mem => by
    simpa [inWord] using List.all_eq_true.mp List.all_takeWhile c mem
  have word : t.trimStart.takeWhile inWord ≠ [] := by
    have head := List.head?_dropWhile_not isBlank t
    cases start : t.trimStart with
    | nil => exact absurd (by rw [trim, start]; rfl) filled
    | cons c rest =>
      rw [show t.dropWhile isBlank = c :: rest from start] at head
      rw [List.takeWhile_cons_of_pos (by simpa [inWord] using head)]
      exact List.cons_ne_nil _ _
  refine ⟨⟨gap, _, blank, solid, word⟩, t.trimStart.dropWhile inWord, ?_, ?_⟩
  · rw [line, List.takeWhile_append_dropWhile, ← whole]
  · intro c first
    have stopped := List.head?_dropWhile_not inWord t.trimStart
    rw [Option.mem_def.mp first] at stopped
    simpa [inWord] using stopped

/-- Each slot of a text stands between commas in it. -/
theorem Text.exists_slot {t token : Text} {before behind : List Text}
    (h : t.cells = before ++ token :: behind) :
    ∃ (front : List Text) (slot : Text) (back : List Text),
      t = [','].intercalate (front ++ slot :: back) ∧ slot.trim = token ∧ ',' ∉ slot := by
  obtain ⟨front, rest, cut, -, trimmed⟩ := List.map_eq_append_iff.mp h
  obtain ⟨slot, back, rfl, same, -⟩ := List.map_eq_cons_iff.mp trimmed
  refine ⟨front, slot, back, ?_, same, not_mem_of_mem_pieces (t := t) ?_⟩
  · rw [← cut, intercalate_pieces]
  · rw [cut]
    exact List.mem_append_right _ List.mem_cons_self

theorem Instruction.exists_memoryOperands (access : Access) (token destination : Text) :
    ∃ before behind, memoryOperands access token destination = before ++ token :: behind := by
  cases access with
  | load => exact ⟨[], [destination], rfl⟩
  | store => exact ⟨[destination], [], rfl⟩

theorem Text.exists_reference {s : Text} {w : UInt32} {m : Mnemonic} {access : Access}
    (accepted : Assembly.lineWord s = .ok w) (named : Mnemonic.read s.mnemonic = .ok m)
    (memory : m.family = .memory access) :
    ∃ (p : MemoryReference.Parts) (o : Opening) (c : Char) (front back : List Text)
      (gaps : MemoryReference.Spacing), isBlank c ∧ s = p.line o c front back gaps := by
  obtain ⟨line, i, read, lowered, -⟩ := Assembly.lineWord_eq_ok_iff.mp accepted
  obtain ⟨filled, -, rfl⟩ := SourceLine.read_eq_ok_iff.mp read
  obtain ⟨m', same, lowered⟩ := Instruction.ofLine_eq_ok_iff.mp lowered
  obtain rfl : m = m' := Except.ok.inj (named.symm.trans same)
  rw [memory] at lowered
  obtain ⟨token, destination, reference, -, -, operands, -, taken, -⟩ :=
    Instruction.ofMemory_eq_ok_iff.mp lowered
  obtain ⟨before, behind, order⟩ := Instruction.exists_memoryOperands access token destination
  obtain ⟨o, rest, rfl, ends⟩ := Opening.exists_line filled
  dsimp only at operands
  rw [o.slots_line ends, SourceLine.operandSlots_trim, order] at operands
  split at operands
  · simp at operands
  · rename_i written
    cases rest with
    | nil => exact absurd rfl written
    | cons c rest =>
      have blank : isBlank c := ends c rfl
      rw [Opening.cells_cons blank] at operands
      obtain ⟨front, slot, back, rfl, rfl, comma⟩ := exists_slot operands
      obtain ⟨p, gaps, rfl⟩ := MemoryReference.Parts.exists_of_read taken comma
      exact ⟨p, o, c, front, back, gaps, blank, rfl⟩

/-- Edits leave the word of an accepted line and the kind of fault of any other as they are; they
reach the memory operand of every accepted line that has one. -/
theorem Assembly.lineWord_of_edits :
    (∀ s t, Relation.EqvGen Edit s t →
      (∃ w, lineWord s = .ok w ∧ lineWord t = .ok w) ∨
        ∃ f g, lineWord s = .error f ∧ lineWord t = .error g ∧ f.kind = g.kind) ∧
      ∀ s w m access, lineWord s = .ok w → Mnemonic.read s.mnemonic = .ok m →
        m.family = .memory access →
          ∃ (p : MemoryReference.Parts) (o : Opening) (c : Char) (front back : List Text)
            (gaps : MemoryReference.Spacing), isBlank c ∧ s = p.line o c front back gaps :=
  ⟨fun _ _ edits => verdict_eq_verdict_iff.mp (verdict_lineWord_of_edits edits),
    fun _ _ _ _ accepted named memory => exists_reference accepted named memory⟩

theorem Assembly.lineWord_of_edits_load :
    Relation.EqvGen Edit "LD 4[%R8++],%r9".toList "ld 4 [ %r8 ++ ],%r9".toList ∧
      ((∃ w, lineWord "LD 4[%R8++],%r9".toList = .ok w ∧
          lineWord "ld 4 [ %r8 ++ ],%r9".toList = .ok w) ∨
        ∃ f g, lineWord "LD 4[%R8++],%r9".toList = .error f ∧
          lineWord "ld 4 [ %r8 ++ ],%r9".toList = .error g ∧ f.kind = g.kind) := by
  let o : Opening := ⟨[], "ld".toList, by decide, by decide, by decide⟩
  let p : MemoryReference.Parts :=
    ⟨"4".toList, ([], "++".toList), "%r8".toList, .after, ⟨8⟩, by decide, by decide, by decide, rfl⟩
  let close : MemoryReference.Spacing := ⟨[], [], [], [], [], [], [], by decide⟩
  let wide : MemoryReference.Spacing := ⟨[], [' '], [' '], [], [' '], [' '], [], by decide⟩
  have start : p.line o ' ' [] ["%r9".toList] close = "ld 4[%r8++],%r9".toList := by decide
  have stop : p.line o ' ' [] ["%r9".toList] wide = "ld 4 [ %r8 ++ ],%r9".toList := by decide
  have spaced : Edit "ld 4[%r8++],%r9".toList "ld 4 [ %r8 ++ ],%r9".toList := by
    rw [← start, ← stop]
    exact .reference p o rfl _ _ close wide
  have lowered : Edit "LD 4[%R8++],%r9".toList "ld 4[%r8++],%r9".toList := .letters (by decide)
  have edits := (Relation.EqvGen.rel _ _ lowered).trans _ _ _ (.rel _ _ spaced)
  exact ⟨edits, lineWord_of_edits.1 _ _ edits⟩

end SoftCore
