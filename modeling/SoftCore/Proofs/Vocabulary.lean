import Mathlib.Data.Set.Card
import SoftCore.Proofs.LetterCase
import SoftCore.Proofs.MnemonicNames

/-! The mnemonics as a vocabulary of 54 words: eleven listed names and `sel` with
each of sixteen conditions, all without and with the flag suffix. Reading is a
bijection from the words onto the mnemonics. On a line a word may be written in
letters of either case; the few letters from outside of ASCII that have a lower
case inside of it occur in no word. -/

namespace SoftCore

namespace Text

/-! Lower case from outside of ASCII. -/

set_option maxRecDepth 4000 in
/-- The letters of a run above ASCII have their lower case there, but for the Kelvin sign. -/
theorem lower_of_mem_caseRuns : ∀ run ∈ caseRuns, run.last < 0x80 ∨
    0x80 ≤ run.lower run.first ∧
      (run.lower run.last < 0xD800 ∨ 0xDFFF < run.lower run.first ∧ run.lower run.last < 0x110000) ∨
    run.first = 0x212A ∧ run.last = 0x212A ∧ run.lower 0x212A = 0x6B := by decide

theorem toNat_ofNat_of_valid {n : Nat} (h : n.isValidChar) : (Char.ofNat n).toNat = n := by
  rw [Char.ofNat, dif_pos h]
  rfl

theorem CaseRun.holds_iff {run : CaseRun} {n : Nat} :
    run.holds n ↔ (run.first ≤ n ∧ n ≤ run.last) ∧ (n - run.first) % run.step = 0 := by
  simp [holds]

/-- The lower case of a run keeps the order of the run. -/
theorem CaseRun.lower_mem_of_holds {run : CaseRun} {n : Nat} (h : run.holds n) :
    run.lower run.first ≤ run.lower n ∧ run.lower n ≤ run.lower run.last := by
  obtain ⟨⟨first, last⟩, -⟩ := holds_iff.mp h
  exact ⟨Int.toNat_le_toNat (by omega), Int.toNat_le_toNat (by omega)⟩

theorem lower_of_holds {run : CaseRun} (listed : run ∈ caseRuns) {n : Nat} (foreign : 0x80 ≤ n)
    (h : run.holds n) : (Char.ofNat (run.lower n)).toNat = run.lower n ∧
      (0x80 ≤ run.lower n ∨ Char.ofNat (run.lower n) = 'k') := by
  obtain ⟨least, most⟩ := CaseRun.lower_mem_of_holds h
  obtain ⟨⟨first, last⟩, -⟩ := CaseRun.holds_iff.mp h
  rcases lower_of_mem_caseRuns run listed with ascii | ⟨low, valid⟩ | ⟨start, stop, kelvin⟩
  · omega
  · have char : (run.lower n).isValidChar := by
      rcases valid with below | ⟨above, below⟩
      · exact .inl (by omega)
      · exact .inr ⟨by omega, by omega⟩
    exact ⟨toNat_ofNat_of_valid char, .inl (Nat.le_trans low least)⟩
  · obtain rfl : n = 0x212A := by omega
    rw [kelvin]
    exact ⟨rfl, .inr rfl⟩

/-- A character from outside of ASCII leaves one from there in lower case, or a `k`. -/
theorem exists_foreign_mem_lowerChar {c : Char} (foreign : 0x80 ≤ c.toNat) :
    ∃ d ∈ lowerChar c, 0x80 ≤ d.toNat ∨ d = 'k' := by
  rw [lowerChar, if_neg (by omega)]
  split
  · exact ⟨Char.ofNat 0x307, by simp, .inl (by decide)⟩
  · split
    · rename_i run found
      have holds : run.holds c.toNat := by simpa using List.find?_some found
      obtain ⟨same, outside⟩ := lower_of_holds (List.mem_of_find?_eq_some found) foreign holds
      exact ⟨_, List.mem_singleton.mpr rfl, outside.imp_left fun high => high.trans_eq same.symm⟩
    · exact ⟨c, List.mem_singleton.mpr rfl, .inl foreign⟩

-- A Kelvin sign is a `k` in lower case, and a dotted capital I two characters.
example : lower [Char.ofNat 0x212A, Char.ofNat 0x130] = ['k', 'i', Char.ofNat 0x307] := by decide

/-- Letters that an ASCII text without a `k` is the lower case of are ASCII letters. -/
theorem ascii_of_lowerAfter {before t : Text}
    (h : ∀ d ∈ lowerAfter before t, d.toNat < 0x80 ∧ d ≠ 'k') : ∀ c ∈ t, c.toNat < 0x80 := by
  induction t generalizing before with
  | nil => simp
  | cons c rest ih =>
    rw [lowerAfter] at h
    obtain ⟨here, later⟩ := List.forall_mem_append.mp h
    refine List.forall_mem_cons.mpr ⟨Nat.lt_of_not_le fun foreign => ?_, ih later⟩
    split at here
    · obtain ⟨ascii, -⟩ := here _ (List.mem_singleton.mpr rfl)
      unfold lowerSigma at ascii
      split at ascii <;> exact absurd ascii (by decide)
    · obtain ⟨d, mem, outside⟩ := exists_foreign_mem_lowerChar foreign
      obtain ⟨ascii, other⟩ := here d mem
      rcases outside with high | kelvin
      · omega
      · exact other kelvin

end Text

namespace Mnemonic

open Text

/-- The words without a flag suffix. -/
def stems : List (Text × Family) :=
  table ++ Condition.all.map fun c => ("sel.".toList ++ c.name, .select c)

/-- Every stem stands alone and before the flag suffix. -/
def vocabulary : List (Text × Mnemonic) :=
  stems.flatMap fun (stem, family) =>
    [(stem, { family, flags := false }), (stem ++ ".f".toList, { family, flags := true })]

example : stems.map (String.ofList ·.1) = ["add", "addc", "sub", "subb", "and", "or", "xor", "sh",
    "sha", "ld", "st", "sel.t", "sel.f", "sel.hi", "sel.ls", "sel.cc", "sel.cs", "sel.ne", "sel.eq",
    "sel.vc", "sel.vs", "sel.pl", "sel.mi", "sel.ge", "sel.lt", "sel.gt", "sel.le"] := by decide

theorem length_vocabulary : vocabulary.length = 54 := by decide

theorem text_of_mem_vocabulary : ∀ entry ∈ vocabulary, entry.2.text = entry.1 := by decide

theorem stem_mem_stems (family : Family) : (text ⟨family, false⟩, family) ∈ stems := by
  cases family with
  | arithmetic op => cases op <;> decide
  | select c => exact List.mem_append_right _ (List.mem_map.mpr ⟨c, c.mem_all, by cases c <;> rfl⟩)
  | memory access => cases access <;> decide

theorem text_flags (family : Family) :
    text ⟨family, true⟩ = text ⟨family, false⟩ ++ ".f".toList := by
  cases family with
  | arithmetic op => cases op <;> rfl
  | select c => cases c <;> rfl
  | memory access => cases access <;> rfl

/-- Each mnemonic has its word in the vocabulary. -/
theorem mem_vocabulary_iff {name : Text} {m : Mnemonic} : (name, m) ∈ vocabulary ↔ m.text = name := by
  constructor
  · exact fun mem => text_of_mem_vocabulary _ mem
  · rintro rfl
    obtain ⟨family, flags⟩ := m
    refine List.mem_flatMap.mpr ⟨_, stem_mem_stems family, ?_⟩
    cases flags with
    | false => exact List.mem_cons_self
    | true => simp [text_flags]

theorem read_eq_ok_iff_mem {name : Text} {m : Mnemonic} :
    read name = .ok m ↔ (name, m) ∈ vocabulary := by
  rw [read_eq_ok_iff, mem_vocabulary_iff]

/-! Texts that are no words. -/

/-- The text is `sel`, a dot and a part `c` that a dot or the end of the text follows. -/
def Selects (name c : Text) : Prop :=
  ∃ tail, name = "sel.".toList ++ c ++ tail ∧ '.' ∉ c ∧ ∀ k ∈ tail.head?, k = '.'

theorem selects_iff_pieces {name c : Text} :
    Selects name c ↔ ∃ rest, name.pieces '.' = selectName :: c :: rest := by
  have dotless : '.' ∉ selectName := by decide
  constructor
  · rintro ⟨tail, rfl, clear, stop⟩
    have cut : "sel.".toList ++ c ++ tail = selectName ++ '.' :: (c ++ tail) := by simp [selectName]
    rw [cut, pieces_append_cons dotless]
    cases tail with
    | nil => exact ⟨[], by rw [List.append_nil, pieces_of_not_mem clear]⟩
    | cons k tail =>
      obtain rfl : k = '.' := stop k rfl
      exact ⟨_, by rw [pieces_append_cons clear]⟩
  · rintro ⟨rest, split⟩
    have clear : '.' ∉ c := by
      have mem : c ∈ name.pieces '.' := by simp [split]
      exact not_mem_of_mem_pieces mem
    have joined : name = ['.'].intercalate (selectName :: c :: rest) := by
      rw [← split, intercalate_pieces]
    cases rest with
    | nil => exact ⟨[], by simp [joined, selectName, List.intercalate_cons_cons], clear, nofun⟩
    | cons p rest =>
      refine ⟨'.' :: ['.'].intercalate (p :: rest), ?_, clear, by simp⟩
      simp [joined, selectName, List.intercalate_cons_cons]

/-- A mnemonic whose first part is `sel` has a condition for its second. -/
theorem name_mem_of_parts {m : Mnemonic} {c : Text} {rest : List Text}
    (h : m.parts = selectName :: c :: rest) : c ∈ Condition.all.map Condition.name := by
  obtain ⟨family, flags⟩ := m
  cases family with
  | arithmetic op =>
    have other : op.name ≠ selectName := by cases op <;> decide
    exact absurd (List.head_eq_of_cons_eq h) other
  | select condition =>
    have same : condition.name = c := List.head_eq_of_cons_eq (List.tail_eq_of_cons_eq h)
    exact same ▸ List.mem_map_of_mem condition.mem_all
  | memory access =>
    have other : access.name ≠ selectName := by cases access <;> decide
    exact absurd (List.head_eq_of_cons_eq h) other

theorem complaint_eq_noSuchCondition_iff {name c : Text} :
    complaint name = .noSuchCondition c ↔
      Selects name c ∧ c ∉ Condition.all.map Condition.name := by
  rw [selects_iff_pieces, complaint]
  split
  · rename_i base condition rest split
    rw [split]
    by_cases blamed : base = selectName ∧ condition ∉ Condition.all.map Condition.name
    · rw [if_pos blamed, Fault.noSuchCondition.injEq]
      constructor
      · rintro rfl
        exact ⟨⟨rest, by rw [blamed.1]⟩, blamed.2⟩
      · rintro ⟨⟨_, same⟩, -⟩
        cases same
        rfl
    · rw [if_neg blamed]
      refine iff_of_false Fault.noConfusion ?_
      rintro ⟨⟨_, same⟩, unnamed⟩
      cases same
      exact blamed ⟨rfl, unnamed⟩
  · rename_i short
    refine iff_of_false Fault.noConfusion ?_
    rintro ⟨⟨rest, split⟩, -⟩
    exact short _ _ _ split

theorem read_eq_noSuchCondition_iff {name c : Text} :
    read name = .error (.noSuchCondition c) ↔
      Selects name c ∧ c ∉ Condition.all.map Condition.name := by
  rw [← complaint_eq_noSuchCondition_iff]
  rcases read_cases name with ⟨m, parts, accepted⟩ | refused
  · rw [accepted]
    refine iff_of_false nofun fun blamed => ?_
    obtain ⟨selects, unnamed⟩ := complaint_eq_noSuchCondition_iff.mp blamed
    obtain ⟨rest, split⟩ := selects_iff_pieces.mp selects
    exact unnamed (name_mem_of_parts (parts.symm.trans split))
  · rw [refused, Except.error.injEq]

theorem complaint_cases (name : Text) :
    (∃ c, complaint name = .noSuchCondition c) ∨ complaint name = .noSuchMnemonic name := by
  unfold complaint
  split
  · split
    · exact .inl ⟨_, rfl⟩
    · exact .inr rfl
  · exact .inr rfl

/-! Words on a line. -/

/-- Only small ASCII letters and dots stand in a word, and no `k`. -/
theorem letters_of_mem_vocabulary : ∀ entry ∈ vocabulary,
    entry.1.all fun d => d.toNat < 0x80 ∧ d ≠ 'k' ∧ d.toLower = d := by decide

theorem asciiLower_of_mem_vocabulary {name : Text} {m : Mnemonic} (h : (name, m) ∈ vocabulary) :
    name.asciiLower = name := by
  have letters := letters_of_mem_vocabulary _ h
  exact (List.map_congr_left fun d mem => (of_all letters mem).2.2).trans (List.map_id name)

/-- A text whose lower case is a word has ASCII letters alone. -/
theorem ascii_of_read_lower {t : Text} {m : Mnemonic} (h : read (lower t) = .ok m) :
    ∀ c ∈ t, c.toNat < 0x80 := by
  have letters := letters_of_mem_vocabulary _ (read_eq_ok_iff_mem.mp h)
  refine @ascii_of_lowerAfter [] t fun d mem => ?_
  obtain ⟨ascii, other, -⟩ := of_all letters mem
  exact ⟨ascii, other⟩

theorem read_lower_eq_ok_iff {t : Text} {m : Mnemonic} : read (lower t) = .ok m ↔
    ∃ name, (name, m) ∈ vocabulary ∧ t.asciiLower = name.asciiLower := by
  constructor
  · intro h
    have mem := read_eq_ok_iff_mem.mp h
    have ascii := lower_eq_asciiLower (ascii_of_read_lower h)
    exact ⟨lower t, mem, by rw [asciiLower_of_mem_vocabulary mem, ascii]⟩
  · rintro ⟨name, mem, same⟩
    have letters := letters_of_mem_vocabulary _ mem
    rw [asciiLower_of_mem_vocabulary mem] at same
    have ascii : ∀ c ∈ t, c.toNat < 0x80 := fun c within => by
      have lowered : c.toLower ∈ name := same ▸ List.mem_map_of_mem within
      exact toNat_lt_of_toLower (of_all letters lowered).1
    rw [lower_eq_asciiLower ascii, same]
    exact read_eq_ok_iff_mem.mpr mem

/-! The vocabulary as a whole. -/

theorem words_eq : {name | ∃ m, read name = .ok m} = {name | name ∈ vocabulary.map Prod.fst} := by
  ext name
  simp [read_eq_ok_iff_mem]

theorem nodup_words : (vocabulary.map Prod.fst).Nodup := by decide +kernel

theorem ncard_words : {name | ∃ m, read name = .ok m}.ncard = 54 := by
  rw [words_eq, ← List.coe_toFinset, Set.ncard_coe_finset,
    List.toFinset_card_of_nodup nodup_words, List.length_map, length_vocabulary]

theorem bijOn_read :
    Set.BijOn read {name | ∃ m, read name = .ok m} (Set.range Except.ok) := by
  refine ⟨?_, ?_, ?_⟩
  · rintro name ⟨m, accepted⟩
    exact ⟨m, accepted.symm⟩
  · rintro name ⟨m, accepted⟩ other - same
    rw [← read_eq_ok_iff.mp accepted]
    exact read_eq_ok_iff.mp (same ▸ accepted)
  · rintro _ ⟨m, rfl⟩
    exact ⟨m.text, ⟨m, m.read_text⟩, m.read_text⟩

/-- Reading takes the 54 words of the vocabulary for all mnemonics, one each. Of any other text it
blames the part behind `sel.` where that is no condition, else the whole. The word of a line may be
written in letters of either case, and in no others. -/
theorem read_vocabulary :
    {name | ∃ m, read name = .ok m}.ncard = 54 ∧
    Set.BijOn read {name | ∃ m, read name = .ok m} (Set.range Except.ok) ∧
    (∀ name m, read name = .ok m ↔ (name, m) ∈ vocabulary) ∧
    (∀ name c, read name = .error (.noSuchCondition c) ↔
      Selects name c ∧ c ∉ Condition.all.map Condition.name) ∧
    (∀ name fault, read name = .error fault →
      (∃ c, fault = .noSuchCondition c) ∨ fault = .noSuchMnemonic name) ∧
    ∀ text line, SourceLine.read text = .ok line →
      (∀ m, read line.mnemonic = .ok m ↔ ∃ name, (name, m) ∈ vocabulary ∧
        (SourceLine.firstWord text.trim).asciiLower = name.asciiLower) ∧
      ((∃ m, read line.mnemonic = .ok m) →
        ∀ c ∈ SourceLine.firstWord text.trim, c.toNat < 0x80) := by
  refine ⟨ncard_words, bijOn_read, fun name m => read_eq_ok_iff_mem,
    fun name c => read_eq_noSuchCondition_iff, fun name fault refused => ?_,
    fun text line tokens => ?_⟩
  · rw [(read_eq_error_iff.mp refused).2]
    exact complaint_cases name
  · obtain ⟨-, -, rfl⟩ := SourceLine.read_eq_ok_iff.mp tokens
    exact ⟨fun m => read_lower_eq_ok_iff, fun ⟨m, accepted⟩ => ascii_of_read_lower accepted⟩

/-- The condition `f` in capitals, which asks for no flags. -/
theorem read_vocabulary_capitals :
    SourceLine.read "\tSEL.F %r1, %r2, %r3".toList =
        .ok ⟨"sel.f".toList, ["%r1".toList, "%r2".toList, "%r3".toList]⟩ ∧
      read "sel.f".toList = .ok ⟨.select .f, false⟩ := by
  have tokens : SourceLine.read "\tSEL.F %r1, %r2, %r3".toList =
      .ok ⟨"sel.f".toList, ["%r1".toList, "%r2".toList, "%r3".toList]⟩ := by decide +kernel
  obtain ⟨-, -, -, -, -, lines⟩ := read_vocabulary
  exact ⟨tokens, ((lines _ _ tokens).1 _).mpr ⟨"sel.f".toList, by decide, by decide⟩⟩

end Mnemonic
end SoftCore
