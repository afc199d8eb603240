import SoftCore.Source.Mnemonic

/-! Which texts are mnemonics. A text is one exactly when it is the spelling of
one, so reading and writing are inverse to each other. Of any other text the
condition is blamed where it follows `sel` and is none, else the whole of it. -/

namespace SoftCore.Mnemonic

/-- The fault of a text that is no mnemonic. -/
def complaint (name : Text) : Fault :=
  match name.pieces '.' with
  | base :: condition :: _ =>
    if base = selectName ∧ condition ∉ Condition.all.map Condition.name then
      .noSuchCondition condition
    else .noSuchMnemonic name
  | _ => .noSuchMnemonic name

theorem flagSuffix_cases (name : Text) (suffix : List Text) :
    (∃ flags, suffix = flagParts flags ∧ flagSuffix name suffix = .ok flags) ∨
      flagSuffix name suffix = .error (.noSuchMnemonic name) := by
  unfold flagSuffix
  split
  · exact .inl ⟨false, rfl, rfl⟩
  · exact .inl ⟨true, rfl, rfl⟩
  · exact .inr rfl

theorem ofName_cases (name : Text) :
    (∃ c : Condition, c.name = name ∧ Condition.ofName name = .ok c) ∨
      (name ∉ Condition.all.map Condition.name ∧
        Condition.ofName name = .error (.noSuchCondition name)) := by
  unfold Condition.ofName
  cases found : Condition.named? name with
  | some c => exact .inl ⟨c, Condition.name_of_named? found, rfl⟩
  | none =>
    refine .inr ⟨fun mem => ?_, rfl⟩
    obtain ⟨c, -, rfl⟩ := List.mem_map.mp mem
    rw [Condition.named?_name] at found
    cases found

theorem find?_table_cases (base : Text) :
    (∃ family, familyParts family = [base] ∧ table.find? (·.1 = base) = some (base, family)) ∨
      table.find? (·.1 = base) = none := by
  have listed : ∀ entry ∈ table, familyParts entry.2 = [entry.1] := by decide
  cases found : table.find? (·.1 = base) with
  | some entry =>
    obtain ⟨first, family⟩ := entry
    obtain rfl : first = base := by simpa using List.find?_some found
    exact .inl ⟨family, listed _ (List.mem_of_find?_eq_some found), rfl⟩
  | none => exact .inr rfl

/-- A text is read as the mnemonic that has these parts, or not at all. -/
theorem read_cases (name : Text) :
    (∃ m, name.pieces '.' = m.parts ∧ read name = .ok m) ∨ read name = .error (complaint name) := by
  obtain ⟨base, rest, split⟩ := List.exists_cons_of_ne_nil (Text.pieces_ne_nil '.' name)
  by_cases select : base = selectName
  · subst select
    cases rest with
    | nil =>
      right
      rw [read, complaint, split]
      rfl
    | cons condition suffix =>
      rcases ofName_cases condition with ⟨c, rfl, named⟩ | ⟨unnamed, refused⟩
      · rcases flagSuffix_cases name suffix with ⟨flags, rfl, suffixed⟩ | refused
        · refine .inl ⟨⟨.select c, flags⟩, split, ?_⟩
          simp [read, split, readParts, readSelect, named, suffixed, bind, Except.bind, pure,
            Except.pure]
        · right
          have known : c.name ∈ Condition.all.map Condition.name := List.mem_map_of_mem c.mem_all
          simp [read, complaint, split, readParts, readSelect, named, refused, known, bind,
            Except.bind]
      · right
        simp [read, complaint, split, readParts, readSelect, refused, unnamed, bind, Except.bind]
  · have blamed : complaint name = .noSuchMnemonic name := by
      cases rest <;> simp [complaint, split, select]
    have listed : read name = readListed name base rest := by
      rw [read, split, readParts, if_neg select]
    rw [blamed, listed, readListed]
    rcases find?_table_cases base with ⟨family, parts, found⟩ | missing
    · rcases flagSuffix_cases name rest with ⟨flags, rfl, suffixed⟩ | refused
      · refine .inl ⟨⟨family, flags⟩, ?_, by rw [found, suffixed]; rfl⟩
        rw [split, SoftCore.Mnemonic.parts, parts]
        rfl
      · exact .inr (by rw [found, refused]; rfl)
    · exact .inr (by rw [missing])

theorem text_eq_of_pieces {name : Text} {m : Mnemonic} (h : name.pieces '.' = m.parts) :
    m.text = name := by
  rw [text, ← h, Text.intercalate_pieces]

theorem read_eq_ok_iff {name : Text} {m : Mnemonic} : read name = .ok m ↔ m.text = name := by
  refine ⟨fun h => ?_, fun h => h ▸ m.read_text⟩
  rcases read_cases name with ⟨m', parts, same⟩ | refused
  · rw [h] at same
    cases same
    exact text_eq_of_pieces parts
  · rw [h] at refused
    cases refused

theorem read_eq_error_iff {name : Text} {fault : Fault} :
    read name = .error fault ↔ (∀ m : Mnemonic, m.text ≠ name) ∧ fault = complaint name := by
  constructor
  · intro h
    refine ⟨fun m spelled => ?_, ?_⟩
    · rw [read_eq_ok_iff.mpr spelled] at h
      cases h
    · rcases read_cases name with ⟨m, -, accepted⟩ | refused
      · rw [h] at accepted
        cases accepted
      · rw [h] at refused
        cases refused
        rfl
  · rintro ⟨none, rfl⟩
    rcases read_cases name with ⟨m, -, accepted⟩ | refused
    · exact absurd (read_eq_ok_iff.mp accepted) (none m)
    · exact refused

end SoftCore.Mnemonic
