import SoftCore.Proofs.Gaps
import SoftCore.Proofs.LetterCase

/-! The memory operand as it is written: an offset, a bracket, the marks beside
a base register, and gaps between them. What it stands for depends on the parts
and not on the gaps. -/

namespace SoftCore

open Text Fault

/-! No part of an operand that can be read holds one of these characters. -/

/-- The characters that the parts of a memory operand and the operands of a line are told apart
by. -/
def Text.fences : Text := "+*[],".toList

theorem Radix.not_mem_of_accumulate {radix : Radix} {k : Char} (other : digitValue? k = none)
    {high n : Nat} {t : Text} (h : radix.accumulate high t = some n) : k ∉ t := by
  induction t generalizing high with
  | nil => exact List.not_mem_nil
  | cons c t ih =>
    obtain ⟨d, digit, h⟩ := Option.bind_eq_some_iff.mp h
    refine List.not_mem_cons_of_ne_of_not_mem ?_ (ih h)
    rintro rfl
    rw [digit?, other] at digit
    cases digit

theorem Radix.not_mem_of_read? {radix : Radix} {k : Char} (fence : k ∈ fences) {n : Nat} {t : Text}
    (h : radix.read? t = some n) : k ∉ t := by
  have other : fences.all fun k => digitValue? k = none := by decide
  unfold read? at h
  split at h
  · cases h
  · exact not_mem_of_accumulate (of_all other fence) h

theorem Radix.digitValue?_of_isBlank {c : Char} (h : isBlank c) : digitValue? c = none := by
  have above : ∀ k : Char, k ≤ c ↔ k.toNat ≤ c.toNat := fun _ => UInt32.le_iff_toNat_le
  have below : ∀ k : Char, c ≤ k ↔ c.toNat ≤ k.toNat := fun _ => UInt32.le_iff_toNat_le
  simp only [isBlank, blankRuns, List.any_cons, List.any_nil, Bool.or_eq_true, Bool.and_eq_true,
    decide_eq_true_eq, Bool.false_eq_true, or_false] at h
  simp only [digitValue?, above, below, Char.reduceToNat]
  rw [if_neg (by omega), if_neg (by omega), if_neg (by omega)]

theorem Register.not_mem_of_named? {k : Char} (fence : k ∈ fences) {name : Text} {r : Register}
    (h : named? name = some r) : k ∉ name := by
  have apart : fences.all fun k => k.toLower = k ∧ k ≠ 'r' ∧ ∀ entry ∈ aliases, k ∉ entry.1 := by
    decide
  obtain ⟨small, letter, unlisted⟩ := of_all apart fence
  intro mem
  have lowered : k ∈ name.asciiLower := by
    rw [← small]
    exact List.mem_map_of_mem mem
  rw [named?, Option.or_eq_some_iff] at h
  rcases h with h | ⟨-, h⟩
  · obtain ⟨entry, found, -⟩ := Option.map_eq_some_iff.mp h
    have spelled : entry.1 = name.asciiLower := by simpa using List.find?_some found
    exact unlisted entry (List.mem_of_find?_eq_some found) (spelled ▸ lowered)
  · unfold numbered? at h
    split at h
    · rename_i digits shape
      obtain ⟨id, read, -⟩ := Option.bind_eq_some_iff.mp h
      rw [shape] at lowered
      rcases List.mem_cons.mp lowered with first | digit
      · exact letter first
      · exact Radix.not_mem_of_read? fence read digit
    · cases h

theorem Literal.not_mem_of_unsigned {k : Char} (fence : k ∈ fences) {token body : Text} {n : Nat}
    (h : unsigned token body = .ok n) : k ∉ body := by
  have apart : fences.all fun k => k ≠ '0' ∧ k ≠ 'x' ∧ k ≠ 'X' := by decide
  obtain ⟨zero, lower, upper⟩ := of_all apart fence
  unfold unsigned at h
  split at h
  · rename_i digits marked
    obtain ⟨mark, isMark, rfl⟩ := afterHexMark?_eq_some_iff.mp marked
    have clean := Radix.not_mem_of_read? fence (magnitude_eq_ok_iff.mp h).1
    rcases isMark with rfl | rfl <;> simp [zero, lower, upper, clean]
  · exact Radix.not_mem_of_read? fence (magnitude_eq_ok_iff.mp h).1

theorem Literal.not_mem_of_read {k : Char} (fence : k ∈ fences) {token : Text} {n : Int}
    (h : read token = .ok n) : k ∉ token := by
  have apart : fences.all fun k => isBlank k = false ∧ k ≠ '-' := by decide
  obtain ⟨solid, sign⟩ := of_all apart fence
  rw [← mem_trim_iff solid]
  unfold read at h
  split at h
  · rename_i body shape
    obtain ⟨m, read, -⟩ := Fault.map_eq_ok_iff.mp h
    rw [shape]
    exact List.not_mem_cons_of_ne_of_not_mem sign (not_mem_of_unsigned fence read)
  · obtain ⟨m, read, -⟩ := Fault.map_eq_ok_iff.mp h
    exact not_mem_of_unsigned fence read

theorem Operand.not_mem_of_read {k : Char} (fence : k ∈ fences) {token : Text} {operand : Operand}
    (h : read token = .ok operand) : k ∉ token := by
  have apart : fences.all fun k => isBlank k = false ∧ k ≠ '%' := by decide
  obtain ⟨solid, sigil⟩ := of_all apart fence
  rw [← mem_trim_iff solid]
  unfold read at h
  split at h
  · rename_i name shape
    obtain ⟨r, read, -⟩ := Fault.map_eq_ok_iff.mp h
    unfold Register.ofName at read
    split at read
    · rename_i found
      rw [shape]
      exact List.not_mem_cons_of_ne_of_not_mem sigil (Register.not_mem_of_named? fence found)
    · cases read
  · obtain ⟨n, read, -⟩ := Fault.map_eq_ok_iff.mp h
    exact Literal.not_mem_of_read fence read

theorem Literal.unreadable_of_unsigned {token body : Text} {fault : Fault}
    (h : unsigned token body = .error fault) : ∃ flaw, fault = .unreadable token flaw := by
  have magnitude : ∀ {radix flaw digits}, magnitude token radix flaw digits = .error fault →
      ∃ flaw, fault = .unreadable token flaw := by
    intro radix flaw digits h
    unfold Literal.magnitude at h
    split at h
    · cases h
      exact ⟨flaw, rfl⟩
    · split at h <;> cases h
      exact ⟨_, rfl⟩
  unfold unsigned at h
  split at h <;> exact magnitude h

theorem Literal.unreadable_of_read {token : Text} {fault : Fault} (h : read token = .error fault) :
    ∃ flaw, fault = .unreadable token flaw := by
  unfold read at h
  split at h
  all_goals exact unreadable_of_unsigned (Fault.map_eq_error_iff.mp h)

/-- A token with a bracket is no operand; its first character decides how it is refused. -/
theorem Operand.verdict_read_of_bracket {token : Text} (h : '[' ∈ token) :
    verdict (read token) = .error (if token.trim.head? = some '%' then
      kind (.noSuchRegister token) else kind (.unreadable token .emptyLine)) := by
  cases outcome : read token with
  | ok operand => exact absurd h (not_mem_of_read (by decide) outcome)
  | error fault =>
    unfold read at outcome
    split at outcome
    · rename_i name shape
      have unknown := Fault.map_eq_error_iff.mp outcome
      unfold Register.ofName at unknown
      split at unknown <;> cases unknown
      rw [shape]
      rfl
    · rename_i plain
      obtain ⟨flaw, rfl⟩ := Literal.unreadable_of_read (Fault.map_eq_error_iff.mp outcome)
      have bare : token.trim.head? ≠ some '%' := fun first => by
        obtain ⟨name, shape⟩ := List.head?_eq_some_iff.mp first
        exact plain name shape
      rw [if_neg bare]
      rfl

namespace Update

/-- The marks that ask for an update, in front of the base and behind it. -/
def spellings : Update → List (Text × Text)
  | never => [([], [])]
  | before => ["++".toList, "*".toList].map fun mark => (mark, [])
  | after => ["++".toList, "*".toList].map fun mark => ([], mark)

theorem spelled_before_iff {marks : Text × Text} :
    marks ∈ before.spellings ↔ marks = ("++".toList, []) ∨ marks = ("*".toList, []) := by
  simp [spellings]

theorem spelled_after_iff {marks : Text × Text} :
    marks ∈ after.spellings ↔ marks = ([], "++".toList) ∨ marks = ([], "*".toList) := by
  simp [spellings]

theorem split_of_spelling {u : Update} {marks : Text × Text} (spelled : marks ∈ u.spellings)
    {name : Text} (plus : '+' ∉ name) (star : '*' ∉ name) (filled : name ≠ []) :
    split (marks.1 ++ name ++ marks.2) = (u, name) := by
  cases u with
  | never =>
    obtain rfl := List.mem_singleton.mp spelled
    simpa [mark] using split_mark never plus star filled
  | before => rcases spelled_before_iff.mp spelled with rfl | rfl <;> simp [split]
  | after =>
    rcases spelled_after_iff.mp spelled with rfl | rfl
    · simpa [mark] using split_mark after plus star filled
    · -- The base has no mark at its start, so the one behind it counts.
      obtain ⟨first, rest, rfl⟩ := List.exists_cons_of_ne_nil filled
      rw [List.mem_cons, not_or] at plus star
      have front : afterMark? (first :: rest ++ ['*']) = none := by
        unfold afterMark?
        split <;> simp_all
      have back : afterMark? (first :: rest ++ ['*']).reverse = some (first :: rest).reverse :=
        afterMark?_eq_some_iff.mpr (.inr (by simp))
      show split (first :: rest ++ ['*']) = (after, first :: rest)
      rw [split_eq, front, back]
      simp

/-- Whatever is split is the rest between marks that ask for the update. -/
theorem exists_spelling (inside : Text) :
    ∃ marks ∈ (split inside).1.spellings, inside = marks.1 ++ (split inside).2 ++ marks.2 := by
  rw [split_eq]
  cases front : afterMark? inside with
  | some name =>
    rcases afterMark?_eq_some_iff.mp front with rfl | rfl
    · exact ⟨_, spelled_before_iff.mpr (.inl rfl), by simp⟩
    · exact ⟨_, spelled_before_iff.mpr (.inr rfl), by simp⟩
  | none =>
    cases back : afterMark? inside.reverse with
    | some name =>
      rcases afterMark?_eq_some_iff.mp back with shape | shape
      · exact ⟨_, spelled_after_iff.mpr (.inl rfl), by simpa using List.reverse_eq_iff.mp shape⟩
      · exact ⟨_, spelled_after_iff.mpr (.inr rfl), by simpa using List.reverse_eq_iff.mp shape⟩
    | none => exact ⟨([], []), List.mem_singleton.mpr rfl, by simp⟩

theorem not_mem_of_spelling {u : Update} {marks : Text × Text} (spelled : marks ∈ u.spellings)
    {k : Char} (plus : k ≠ '+') (star : k ≠ '*') : k ∉ marks.1 ∧ k ∉ marks.2 := by
  have all : ∀ u ∈ [never, before, after], ∀ marks ∈ u.spellings,
      (marks.1 ++ marks.2).all fun c => c = '+' ∨ c = '*' := by decide
  have none : k ∉ marks.1 ++ marks.2 := fun mem =>
    (of_all (all u (by cases u <;> decide) marks spelled) mem).elim plus star
  rwa [List.mem_append, not_or] at none

/-- Between its marks a text is trimmed up to the name. -/
theorem exists_trim_of_spelling {u : Update} {marks : Text × Text} (spelled : marks ∈ u.spellings)
    (name : Text) : ∃ rest, trim (marks.1 ++ name ++ marks.2) = marks.1 ++ rest ++ marks.2 ∧
      rest.trim = name.trim := by
  have solid : ∀ mark ∈ ["++".toList, "*".toList], Solid mark ∧ mark ≠ [] := by decide
  cases u with
  | never =>
    obtain rfl := List.mem_singleton.mp spelled
    exact ⟨name.trim, by simp, trim_trim name⟩
  | before =>
    obtain ⟨mark, listed, rfl⟩ := List.mem_map.mp spelled
    refine ⟨name.trimEnd, ?_, trim_trimEnd name⟩
    rw [List.append_nil, List.append_nil,
      trim_append_of_solid (solid mark listed).1 (solid mark listed).2]
  | after =>
    obtain ⟨mark, listed, rfl⟩ := List.mem_map.mp spelled
    refine ⟨name.trimStart, ?_, trim_trimStart name⟩
    rw [List.nil_append, List.nil_append,
      trim_append_solid (solid mark listed).1 (solid mark listed).2]

end Update

theorem Operand.read_congr {x y : Text} (h : x.trim = y.trim) : read x = read y := by
  rw [read, h, read]

theorem Operand.ne_nil_of_read {token : Text} {operand : Operand} (h : read token = .ok operand) :
    token ≠ [] := by
  rintro rfl
  cases h

namespace MemoryReference

theorem readOffset_congr {x y : Text} (h : x.trim = y.trim) : readOffset x = readOffset y := by
  rw [readOffset, h, readOffset]

/-- The written parts of a memory operand. -/
structure Parts where
  offset : Text
  marks : Text × Text
  name : Text
  update : Update
  base : Register
  trimmed : offset.trim = offset ∧ name.trim = name
  clean : '[' ∉ offset ∧ ',' ∉ offset
  spelled : marks ∈ update.spellings
  named : Operand.read name = .ok (.register base)

/-- The gaps around and between the parts. -/
structure Spacing where
  start : Text
  offset : Text
  bracket : Text
  mark : Text
  name : Text
  close : Text
  stop : Text
  blank : ∀ gap ∈ [start, offset, bracket, mark, name, close, stop], Gap gap

namespace Parts

variable (p : Parts) (s : Spacing)

def front : Text := s.start ++ p.offset ++ s.offset

def inner : Text :=
  s.bracket ++ (p.marks.1 ++ (s.mark ++ p.name ++ s.name) ++ p.marks.2) ++ s.close

def text : Text := p.front s ++ '[' :: (p.inner s ++ ']' :: s.stop)

theorem trim_text : (p.text s).trim = (p.front s).trimStart ++ '[' :: (p.inner s ++ [']']) :=
  trim_fenced (by decide) (by decide) (s.blank _ (by simp)) _ _

theorem trim_front : (p.front s).trim = p.offset := by
  rw [front, Gap.trim_append_right (s.blank _ (by simp)), Gap.trim_append (s.blank _ (by simp)),
    p.trimmed.1]

theorem bracket_not_mem_front : '[' ∉ p.front s := by
  have blank : ∀ gap, Gap gap → '[' ∉ gap := fun gap h => h.not_mem (by decide)
  simp [front, p.clean.1, blank _ (s.blank s.start (by simp)), blank _ (s.blank s.offset (by simp))]

theorem comma_not_mem_text : ',' ∉ p.text s := by
  have blank : ∀ gap ∈ [s.start, s.offset, s.bracket, s.mark, s.name, s.close, s.stop], ',' ∉ gap :=
    fun gap h => (s.blank gap h).comma_not_mem
  have name := Operand.not_mem_of_read (k := ',') (by decide) p.named
  have marks := Update.not_mem_of_spelling p.spelled (k := ',') (by decide) (by decide)
  simp only [List.forall_mem_cons] at blank
  simp [text, front, inner, p.clean.2, name, marks, blank]

/-- What stands between the brackets splits into the update and the base. -/
theorem split_inner : ∃ name, Update.split (p.inner s).trim = (p.update, name) ∧
    Operand.read name = .ok (.register p.base) := by
  obtain ⟨rest, trimmed, same⟩ :=
    Update.exists_trim_of_spelling p.spelled (s.mark ++ p.name ++ s.name)
  have name : rest.trim = p.name.trim := by
    rw [same, Gap.trim_append_right (s.blank _ (by simp)), Gap.trim_append (s.blank _ (by simp))]
  have read : Operand.read rest = .ok (.register p.base) :=
    (Operand.read_congr name).trans p.named
  refine ⟨rest, ?_, read⟩
  rw [inner, Gap.trim_append_right (s.blank _ (by simp)), Gap.trim_append (s.blank _ (by simp)),
    trimmed]
  exact Update.split_of_spelling p.spelled (Operand.not_mem_of_read (by decide) read)
    (Operand.not_mem_of_read (by decide) read) (Operand.ne_nil_of_read read)

/-- What is read depends on the parts and not on the gaps. -/
theorem read_text : read (p.text s).trim = (readOffset p.offset).map fun offset =>
    { base := p.base, offset, update := p.update } := by
  obtain ⟨name, split, base⟩ := p.split_inner s
  have clean : '[' ∉ (p.front s).trimStart := fun mem =>
    p.bracket_not_mem_front s (mem_of_mem_trimStart mem)
  have offset : readOffset (p.front s).trimStart = readOffset p.offset :=
    readOffset_congr (by rw [trim_trimStart, p.trim_front, p.trimmed.1])
  rw [read, trim_trim, trim_text, cut?_append_cons clean]
  dsimp only
  rw [inside?_concat]
  dsimp only
  rw [split, offset, readBase, base]
  cases readOffset p.offset <;> rfl

theorem head?_trim_text : (p.text s).trim.head? = (p.offset ++ ['[']).head? := by
  have start : (p.front s).trimStart = (p.offset ++ s.offset).trimStart := by
    rw [front, List.append_assoc, Gap.trimStart_append (s.blank _ (by simp))]
  rw [trim_text, start]
  cases shape : p.offset with
  | nil =>
    have empty : s.offset.trimStart = [] := by
      simpa [trimStart] using Gap.trimStart_append (s.blank s.offset (by simp)) []
    rw [List.nil_append, empty]
    rfl
  | cons c rest =>
    have solid : isBlank c = false := (trim_eq_self_iff.mp p.trimmed.1).1 c (by rw [shape]; rfl)
    rw [List.cons_append, trimStart, List.dropWhile_cons_of_neg (by simp [solid])]
    rfl

theorem bracket_mem_trim_text : '[' ∈ (p.text s).trim := by simp [trim_text]

theorem trim_text_ne_nil : (p.text s).trim ≠ [] := List.ne_nil_of_mem (p.bracket_mem_trim_text s)

/-- Two spacings of the same parts are alike. -/
theorem alike (t : Spacing) : Operand.Alike (p.text s).trim (p.text t).trim where
  operand := by
    rw [Operand.verdict_read_of_bracket (p.bracket_mem_trim_text s),
      Operand.verdict_read_of_bracket (p.bracket_mem_trim_text t), trim_trim, trim_trim,
      head?_trim_text, head?_trim_text]
    rfl
  bracket := iff_of_true (p.bracket_mem_trim_text s) (p.bracket_mem_trim_text t)
  reference := by rw [p.read_text s, p.read_text t]
  filled := by
    rw [List.isEmpty_eq_false_iff.mpr (p.trim_text_ne_nil s),
      List.isEmpty_eq_false_iff.mpr (p.trim_text_ne_nil t)]

theorem shape_of_read {token : Text} {m : MemoryReference} (h : read token = .ok m) :
    ∃ front inner, token.trim = front ++ '[' :: (inner ++ [']']) ∧ '[' ∉ front ∧
      Operand.read (Update.split (trim inner)).2 = .ok (.register m.base) := by
  unfold read at h
  split at h
  · cases h
  · rename_i front rest cut
    obtain ⟨shape, clean⟩ := cut?_eq_some_iff.mp cut
    by_cases closed : rest.getLast? = some ']'
    · obtain ⟨inner, rfl⟩ := List.getLast?_eq_some_iff.mp closed
      rw [inside?_concat] at h
      obtain ⟨offset, -, h⟩ := Fault.bind_eq_ok_iff.mp h
      obtain ⟨base, named, h⟩ := Fault.bind_eq_ok_iff.mp h
      cases h
      exact ⟨front, inner, shape, clean, readBase_eq_ok_iff.mp named⟩
    · rw [inside?, if_neg closed] at h
      cases h

/-- Every text that is read as a memory operand has such parts. -/
theorem exists_of_read {token : Text} {m : MemoryReference} (h : read token.trim = .ok m)
    (comma : ',' ∉ token) : ∃ (p : Parts) (s : Spacing), token = p.text s := by
  obtain ⟨front, inner, shape, clean, base⟩ := shape_of_read h
  obtain ⟨marks, spelled, between⟩ := Update.exists_spelling (trim inner)
  obtain ⟨start, stop, hstart, hstop, whole⟩ := exists_trim token
  obtain ⟨a, b, ha, hb, hfront⟩ := exists_trim front
  obtain ⟨c, d, hc, hd, hinner⟩ := exists_trim inner
  obtain ⟨e, f, he, hf, hname⟩ := exists_trim (Update.split (trim inner)).2
  rw [trim_trim] at shape
  have bracket : '[' ∉ trim front := mt (mem_trim_iff (by decide)).mp clean
  have single : ',' ∉ trim front := fun mem => by
    refine comma ((mem_trim_iff (by decide)).mp ?_)
    rw [shape]
    exact List.mem_append_left _ ((mem_trim_iff (by decide)).mp mem)
  have blank : ∀ gap ∈ [start ++ a, b, c, e, f, d, stop], Gap gap := by
    simp [hstart, hstop, ha, hb, hc, hd, he, hf]
  refine ⟨⟨trim front, marks, trim (Update.split (trim inner)).2, _, m.base,
    ⟨trim_trim _, trim_trim _⟩, ⟨bracket, single⟩, spelled,
    (Operand.read_congr (trim_trim _)).trans base⟩, ⟨start ++ a, b, c, e, f, d, stop, blank⟩, ?_⟩
  symm
  calc
    _ = start ++ (a ++ trim front ++ b) ++ '[' ::
        ((c ++ (marks.1 ++ (e ++ trim (Update.split (trim inner)).2 ++ f) ++ marks.2) ++ d) ++
          ']' :: stop) := by simp [text, Parts.front, Parts.inner]
    _ = start ++ front ++ '[' :: (inner ++ ']' :: stop) := by
      rw [← hfront, ← hname, ← between, ← hinner]
    _ = start ++ token.trim ++ stop := by simp [shape]
    _ = token := whole.symm

end Parts
end MemoryReference
end SoftCore
