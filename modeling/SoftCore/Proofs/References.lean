import SoftCore.Proofs.Literals
import SoftCore.Proofs.Registers

/-! Which tokens are memory operands. A token is one exactly when it is an
offset and, in brackets, a base with the marks of an update beside it. A second
mark or bracket, a literal for a base and text behind the bracket are refused.
Whatever spelling its offset, its update and its base have, a reference is read
back from them. -/

namespace SoftCore

open Text Fault

namespace Update

/-- The marks beside a base. -/
def markers : List Text := ["++".toList, "*".toList]

/-- The plus signs of a text, and each star as two of them. -/
def weight (t : Text) : Nat := 2 * t.count '*' + t.count '+'

theorem weight_append (s t : Text) : weight (s ++ t) = weight s + weight t := by
  simp only [weight, List.count_append]
  omega

theorem weight_of_mem_markers {marker : Text} (h : marker ∈ markers) : weight marker = 2 := by
  have all : ∀ marker ∈ markers, weight marker = 2 := by decide
  exact all marker h

theorem weight_of_spelling {u : Update} {marks : Text × Text} (h : marks ∈ u.spellings) :
    weight marks.1 + weight marks.2 ≤ 2 := by
  have all : ∀ u ∈ [never, before, after], ∀ marks ∈ u.spellings,
      weight marks.1 + weight marks.2 ≤ 2 := by decide
  exact all u (by cases u <;> decide) marks h

theorem weight_of_not_mem {t : Text} (plus : '+' ∉ t) (star : '*' ∉ t) : weight t = 0 := by
  rw [weight, List.count_eq_zero.mpr plus, List.count_eq_zero.mpr star]

/-- An operand is found between whatever marks it is written with. -/
theorem split_of_read {u : Update} {marks : Text × Text} (spelled : marks ∈ u.spellings)
    {name : Text} {operand : Operand} (h : Operand.read name = .ok operand) :
    split (marks.1 ++ name ++ marks.2) = (u, name) :=
  split_of_spelling spelled (Operand.not_mem_of_read (by decide) h)
    (Operand.not_mem_of_read (by decide) h) (Operand.ne_nil_of_read h)

end Update

theorem Text.count_trim {k : Char} (solid : isBlank k = false) (t : Text) :
    t.trim.count k = t.count k := by
  obtain ⟨front, back, first, last, whole⟩ := exists_trim t
  conv_rhs => rw [whole]
  simp [List.count_eq_zero.mpr (first.not_mem solid), List.count_eq_zero.mpr (last.not_mem solid)]

namespace MemoryReference

/-! The grammar. -/

/-- Up to the blanks around it the token is `inner` in brackets behind `front`. -/
structure Bracketed (token front inner : Text) : Prop where
  shape : token.trim = front ++ '[' :: (inner ++ [']'])
  first : '[' ∉ front

/-- What stands in front of the bracket: blanks for no offset, else a literal. -/
def OffsetText (front : Text) : Option Int → Prop
  | none => front.trim = []
  | some n => Literal.read front = .ok n

/-- The token is an offset and, in brackets, the name of the base with marks of the update. -/
inductive Denotes (token : Text) (m : MemoryReference) : Prop where
  | intro {front inner operand name : Text} {marks : Text × Text}
    (bracketed : Bracketed token front inner) (offset : OffsetText front m.offset)
    (spelled : marks ∈ m.update.spellings) (between : inner.trim = marks.1 ++ operand ++ marks.2)
    (sigil : operand.trim = '%' :: name) (named : Register.named? name = some m.base)

variable {token front inner : Text} {m : MemoryReference}

theorem Bracketed.unique {front' inner' : Text} (h : Bracketed token front inner)
    (h' : Bracketed token front' inner') : front = front' ∧ inner = inner' := by
  have first := cut?_append_cons h.first (inner ++ [']'])
  rw [← h.shape, h'.shape, cut?_append_cons h'.first] at first
  simp only [Option.some.injEq, Prod.mk.injEq, List.append_cancel_right_eq] at first
  exact ⟨first.1.symm, first.2.symm⟩

/-- Once the brackets are found, what remains are the offset and the base. -/
theorem Bracketed.read (h : Bracketed token front inner) : read token =
    readOffset front >>= fun offset => readBase token (Update.split inner.trim).2 >>= fun base =>
      pure { base, offset, update := (Update.split inner.trim).1 } := by
  rw [MemoryReference.read, h.shape, cut?_append_cons h.first]
  dsimp only
  rw [inside?_concat]

theorem exists_bracketed_of_read (h : read token = .ok m) :
    ∃ front inner, Bracketed token front inner := by
  obtain ⟨front, inner, shape, first, -⟩ := Parts.shape_of_read h
  exact ⟨front, inner, shape, first⟩

theorem readOffset_eq_ok_iff {offset : Option Int} :
    readOffset front = .ok offset ↔ OffsetText front offset := by
  unfold readOffset
  by_cases empty : front.trim = []
  · rw [empty]
    cases offset with
    | none => exact iff_of_true rfl empty
    | some n =>
      refine iff_of_false ?_ fun h => Literal.trim_ne_nil_of_read h empty
      rintro ⟨⟩
  · rw [if_neg (mt List.isEmpty_iff.mp empty), map_eq_ok_iff]
    cases offset with
    | none =>
      refine iff_of_false ?_ empty
      rintro ⟨n, -, same⟩
      cases same
    | some n => simpa [OffsetText] using Literal.read_trim_eq_ok_iff

theorem read_eq_ok_iff : read token = .ok m ↔ Denotes token m := by
  constructor
  · intro h
    obtain ⟨front, inner, bracketed⟩ := exists_bracketed_of_read h
    obtain ⟨marks, spelled, between⟩ := Update.exists_spelling inner.trim
    rw [bracketed.read] at h
    obtain ⟨offset, before, h⟩ := bind_eq_ok_iff.mp h
    obtain ⟨base, beside, h⟩ := bind_eq_ok_iff.mp h
    obtain ⟨name, sigil, named⟩ := Operand.read_eq_register_iff.mp (readBase_eq_ok_iff.mp beside)
    cases h
    exact ⟨bracketed, readOffset_eq_ok_iff.mp before, spelled, between, sigil, named⟩
  · rintro ⟨bracketed, offset, spelled, between, sigil, named⟩
    have base := Operand.read_eq_register_iff.mpr ⟨_, sigil, named⟩
    have split := Update.split_of_read spelled base
    rw [bracketed.read, between, split, readOffset_eq_ok_iff.mpr offset,
      readBase_eq_ok_iff.mpr base]
    rfl

theorem read_trim_eq_ok_iff : read token.trim = .ok m ↔ read token = .ok m := by
  rw [read_eq_ok_iff, read_eq_ok_iff]
  constructor
  all_goals
    rintro ⟨⟨shape, first⟩, offset, spelled, between, sigil, named⟩
    refine ⟨⟨?_, first⟩, offset, spelled, between, sigil, named⟩
    simpa only [trim_trim] using shape

/-! What no memory operand has. -/

theorem OffsetText.not_mem {k : Char} (fence : k ∈ fences) {offset : Option Int}
    (h : OffsetText front offset) : k ∉ front := by
  cases offset with
  | none =>
    have solid : fences.all fun k => isBlank k = false := by decide
    have empty : front.trim = [] := h
    rw [← mem_trim_iff (of_all solid fence), empty]
    exact List.not_mem_nil
  | some n => exact Literal.not_mem_of_read fence h

/-- An operand has its two brackets and marks of one update, and no more. -/
structure Sparing (token front inner : Text) : Prop where
  bracketed : Bracketed token front inner
  brackets : ∀ k ∈ ['[', ']'], k ∉ front ∧ k ∉ inner
  marks : Update.weight inner ≤ 2

theorem Denotes.sparing (h : Denotes token m) : ∃ front inner, Sparing token front inner := by
  obtain ⟨bracketed, offset, spelled, between, sigil, named⟩ := h
  rename_i front inner operand name marks
  have base := Operand.read_eq_register_iff.mpr ⟨name, sigil, named⟩
  have solid : ['[', ']'].all fun k =>
      isBlank k = false ∧ k ∈ fences ∧ k ≠ '+' ∧ k ≠ '*' := by decide
  refine ⟨front, inner, bracketed, fun k bracket => ?_, ?_⟩
  · obtain ⟨blank, fence, plus, star⟩ := of_all solid bracket
    obtain ⟨before, after⟩ := Update.not_mem_of_spelling spelled plus star
    refine ⟨offset.not_mem fence, fun mem => ?_⟩
    rw [← mem_trim_iff blank, between] at mem
    simp [before, after, Operand.not_mem_of_read fence base] at mem
  · have trimmed : Update.weight inner.trim = Update.weight inner := by
      rw [Update.weight, count_trim (by decide), count_trim (by decide), Update.weight]
    have beside := Update.weight_of_spelling spelled
    have none := Update.weight_of_not_mem (Operand.not_mem_of_read (by decide) base)
      (Operand.not_mem_of_read (by decide) base)
    rw [← trimmed, between, Update.weight_append, Update.weight_append]
    omega

theorem Sparing.count (h : Sparing token front inner) {k : Char} (bracket : k ∈ ['[', ']']) :
    token.count k = 1 := by
  have solid : ['[', ']'].all fun k => isBlank k = false ∧ ['[', ']'].count k = 1 := by decide
  obtain ⟨blank, once⟩ := of_all solid bracket
  obtain ⟨before, inside⟩ := h.brackets k bracket
  have around : ('[' :: [']']).count k = 1 := once
  rw [List.count_cons] at around
  rw [← count_trim blank, h.bracketed.shape, List.count_append, List.count_cons, List.count_append,
    List.count_eq_zero.mpr before, List.count_eq_zero.mpr inside]
  omega

/-- Only blanks follow the closing bracket. -/
theorem Sparing.after (h : Sparing token front inner) {before after : Text}
    (shape : token = before ++ ']' :: after) : after.trim = [] := by
  have single := h.count (k := ']') (by decide)
  rw [shape, List.count_append, List.count_cons_self] at single
  have absent : ']' ∉ before := List.count_eq_zero.mp (by omega)
  obtain ⟨start, stop, blank, last, whole⟩ := exists_trim token
  obtain ⟨clear, inside⟩ := h.brackets ']' (by decide)
  have opening : ']' ∉ start ++ (front ++ '[' :: inner) := by
    simp [blank.not_mem (k := ']') (by decide), clear, inside]
  have closed : token = start ++ (front ++ '[' :: inner) ++ ']' :: stop := by
    rw [whole, h.bracketed.shape]
    simp
  have cut := cut?_append_cons opening stop
  rw [← closed, shape, cut?_append_cons absent] at cut
  cases cut
  exact last.trim_eq_nil

/-- Tokens with something wrong about their marks, their brackets or their base. -/
inductive Misshapen (token : Text) : Prop where
  /-- Two marks, on both sides of the base or on one. -/
  | twoMarks {front inner first second before between after : Text}
    (bracketed : Bracketed token front inner)
    (marks : first ∈ Update.markers ∧ second ∈ Update.markers)
    (shape : inner = before ++ first ++ between ++ second ++ after)
  /-- Brackets inside each other or next to each other. -/
  | twoBrackets {bracket : Char} {before between after : Text} (isBracket : bracket ∈ ['[', ']'])
    (shape : token = before ++ bracket :: (between ++ bracket :: after))
  | literalBase {front inner operand : Text} {update : Update} {marks : Text × Text} {n : Int}
    (bracketed : Bracketed token front inner) (spelled : marks ∈ update.spellings)
    (between : inner.trim = marks.1 ++ operand ++ marks.2)
    (literal : Operand.read operand = .ok (.literal n))
  | textBehind {before after : Text} (shape : token = before ++ ']' :: after)
    (filled : after.trim ≠ [])

theorem Misshapen.not_denotes (h : Misshapen token) : ¬Denotes token m := by
  intro denotes
  obtain ⟨front, inner, sparing⟩ := denotes.sparing
  cases h with
  | twoMarks bracketed marks shape =>
    obtain ⟨-, rfl⟩ := sparing.bracketed.unique bracketed
    have few := sparing.marks
    have first := Update.weight_of_mem_markers marks.1
    have second := Update.weight_of_mem_markers marks.2
    simp only [shape, Update.weight_append, first, second] at few
    omega
  | twoBrackets isBracket shape =>
    have single := sparing.count isBracket
    simp only [shape, List.count_append, List.count_cons_self] at single
    omega
  | literalBase bracketed spelled between literal =>
    obtain ⟨same, _, spelled', between', sigil, named⟩ := denotes
    obtain ⟨-, rfl⟩ := same.unique bracketed
    have base := Operand.read_eq_register_iff.mpr ⟨_, sigil, named⟩
    have splits := Update.split_of_read spelled literal
    rw [← between, between', Update.split_of_read spelled' base] at splits
    cases splits
    rw [base] at literal
    cases literal
  | textBehind shape filled => exact filled (sparing.after shape)

theorem Misshapen.exists_fault (h : Misshapen token) : ∃ fault, read token = .error fault := by
  cases outcome : read token with
  | ok m => exact absurd (read_eq_ok_iff.mp outcome) h.not_denotes
  | error fault => exact ⟨fault, rfl⟩

/-! Spellings. -/

def OffsetSpelling : Option Int → Text → Prop
  | none, front => front = []
  | some n, front => ∃ negative k, Literal.Written front negative k ∧ n = Literal.signed negative k

/-- The reference as it can be written: any spelling of its offset and of its base, either mark of
its update, and gaps between them. -/
inductive Spelling (m : MemoryReference) : Text → Prop where
  | written {front name : Text} {marks : Text × Text} (s : Spacing)
    (offset : OffsetSpelling m.offset front) (spelled : marks ∈ m.update.spellings)
    (base : Register.Names m.base.id.toNat name) :
    Spelling m (s.start ++ front ++ s.offset ++ '[' ::
      (s.bracket ++ (marks.1 ++ (s.mark ++ '%' :: name ++ s.name) ++ marks.2) ++ s.close ++
        ']' :: s.stop))

theorem OffsetSpelling.solid {offset : Option Int} (h : OffsetSpelling offset front) :
    Solid front := by
  cases offset with
  | none =>
    obtain rfl : front = [] := h
    exact solid_nil
  | some n =>
    obtain ⟨negative, k, written, -⟩ := h
    exact written.solid

theorem OffsetSpelling.text {offset : Option Int} (h : OffsetSpelling offset front)
    (bound : ∀ n ∈ offset, n.natAbs < Literal.limit) : OffsetText front offset := by
  cases offset with
  | none => exact congrArg trim h
  | some n =>
    obtain ⟨negative, k, written, rfl⟩ := h
    have small : (Literal.signed negative k).natAbs < 2 ^ 63 := Literal.limit_eq ▸ bound _ rfl
    rw [Literal.natAbs_signed] at small
    exact Literal.read_eq_ok_iff.mpr ⟨negative, k, written.solid.trim.symm ▸ written, small, rfl⟩

/-- A reference is read back from each of its spellings. -/
theorem Spelling.read (h : Spelling m token) (exist : m.Written) : read token = .ok m := by
  obtain ⟨s, offset, spelled, base⟩ := h
  rename_i front name marks
  have before := offset.text exist.2
  have solid : Solid ('%' :: name) := solid_cons.mpr ⟨by decide, base.solid⟩
  let p : Parts :=
    { offset := front, marks, name := '%' :: name, update := m.update, base := m.base
      trimmed := ⟨offset.solid.trim, solid.trim⟩
      clean := ⟨before.not_mem (by decide), before.not_mem (by decide)⟩
      spelled
      named := Operand.read_eq_register_iff.mpr ⟨name, solid.trim, base.named?⟩ }
  have parts := p.read_text s
  rw [show readOffset p.offset = .ok m.offset from readOffset_eq_ok_iff.mpr before] at parts
  exact read_trim_eq_ok_iff.mp parts

theorem OffsetText.spelling {offset : Option Int} (h : OffsetText front offset) :
    OffsetSpelling offset front.trim := by
  cases offset with
  | none => exact h
  | some n => exact Literal.written_of_read h

/-- What is read is spelled by the token. -/
theorem Denotes.spelling (h : Denotes token m) : Spelling m token := by
  obtain ⟨⟨shape, -⟩, offset, spelled, between, sigil, named⟩ := h
  rename_i front inner operand name marks
  obtain ⟨start, stop, hstart, hstop, whole⟩ := exists_trim token
  obtain ⟨a, b, ha, hb, hfront⟩ := exists_trim front
  obtain ⟨c, d, hc, hd, hinner⟩ := exists_trim inner
  obtain ⟨e, f, he, hf, hname⟩ := exists_trim operand
  have blank : ∀ gap ∈ [start ++ a, b, c, e, f, d, stop], Gap gap := by
    simp [hstart, hstop, ha, hb, hc, hd, he, hf]
  have text : token = (start ++ a) ++ front.trim ++ b ++ '[' ::
      (c ++ (marks.1 ++ (e ++ '%' :: name ++ f) ++ marks.2) ++ d ++ ']' :: stop) :=
    calc token
      _ = start ++ token.trim ++ stop := whole
      _ = start ++ (a ++ front.trim ++ b) ++ '[' ::
          ((c ++ (marks.1 ++ (e ++ operand.trim ++ f) ++ marks.2) ++ d) ++ ']' :: stop) := by
        rw [← hfront, ← hname, ← between, ← hinner, shape]
        simp
      _ = _ := by simp [sigil]
  rw [text]
  exact .written ⟨start ++ a, b, c, e, f, d, stop, blank⟩ offset.spelling spelled
    (Register.names_of_named? named)

theorem Denotes.written (h : Denotes token m) : m.Written := by
  have read := read_eq_ok_iff.mpr h
  obtain ⟨-, -, -, -, -, named⟩ := h
  exact ⟨Register.exists_of_named? named, natAbs_offset_lt_of_read read⟩

theorem read_eq_ok_iff_spelling : read token = .ok m ↔ m.Written ∧ Spelling m token := by
  constructor
  · intro h
    have denotes := read_eq_ok_iff.mp h
    exact ⟨denotes.written, denotes.spelling⟩
  · rintro ⟨exist, h⟩
    exact h.read exist

/-- A token is read as a reference exactly when it denotes it, and each spelling of a reference is
read as that one. Misshapen tokens are refused. The displacement is the written offset, even zero,
and without one a word for an update and nothing for none. -/
theorem read_iff_denotes :
    (∀ token m, read token = .ok m ↔ Denotes token m) ∧
    (∀ token, Misshapen token → ∃ fault, read token = .error fault) ∧
    (∀ m token, read token = .ok m ↔ m.Written ∧ Spelling m token) ∧
    ∀ m : MemoryReference, (∀ n, m.offset = some n → m.displacement = n) ∧
      (m.offset = none → m.displacement = if m.update = .never then 0 else 4) := by
  refine ⟨fun token m => read_eq_ok_iff, fun token h => h.exists_fault,
    fun m token => read_eq_ok_iff_spelling, fun m => ⟨fun n written => ?_, fun none => ?_⟩⟩
  · rw [displacement, written]
  · rw [displacement, none]
    cases m.update <;> rfl

/-- An operand with gaps, a hexadecimal offset and a second name in capitals, and one with marks on
both sides of its base. -/
theorem read_iff_denotes_spaced :
    read "\t-0x1F[ ++ %RV ] ".toList = .ok ⟨⟨8⟩, some (-31), .before⟩ ∧
      ∃ fault, read "[++%r9++]".toList = .error fault := by
  refine ⟨(read_iff_denotes.2.2.1 _ _).mpr ⟨⟨by decide, ?_⟩, ?_⟩, read_iff_denotes.2.1 _ ?_⟩
  · rintro _ ⟨⟩
    decide
  · have offset : OffsetSpelling (some (-31)) "-0x1F".toList :=
      ⟨true, 31, ⟨"0x1F".toList, rfl, .inr ⟨'x', "1F".toList, .inl rfl, rfl,
        Radix.read?_eq_some_iff_numeral.mp (by decide)⟩⟩, rfl⟩
    have base : Register.Names 8 "RV".toList := .second (by decide)
    have marks : ("++".toList, []) ∈ Update.before.spellings := by decide
    have spelled : Spelling ⟨⟨8⟩, some (-31), .before⟩ _ :=
      .written ⟨['\t'], [], [' '], [' '], [' '], [], [' '], by decide⟩ offset marks base
    exact spelled
  · have bracketed : Bracketed "[++%r9++]".toList [] "++%r9++".toList := ⟨by decide, by decide⟩
    have shape : "++%r9++".toList = [] ++ "++".toList ++ "%r9".toList ++ "++".toList ++ [] := by
      decide
    exact .twoMarks bracketed ⟨by decide, by decide⟩ shape

end MemoryReference
end SoftCore
