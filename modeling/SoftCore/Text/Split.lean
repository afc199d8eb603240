import SoftCore.Text.Blank

/-! Splitting at a separator, everywhere or at its first occurrence. The pieces
of a text joined again give the text, no piece holds the separator, and a cut
text is its two sides around the first separator. -/

namespace SoftCore.Text

def pieces (sep : Char) : Text → List Text
  | [] => [[]]
  | c :: r => if c = sep then [] :: pieces sep r else (pieces sep r).modifyHead (c :: ·)

theorem pieces_ne_nil (sep : Char) (t : Text) : pieces sep t ≠ [] := by
  induction t with
  | nil => simp [pieces]
  | cons c r ih => by_cases h : c = sep <;> simp [pieces, h, ih]

theorem intercalate_pieces (sep : Char) (t : Text) : [sep].intercalate (pieces sep t) = t := by
  induction t with
  | nil => rfl
  | cons c r ih =>
    obtain ⟨p, ps, hp⟩ := List.exists_cons_of_ne_nil (pieces_ne_nil sep r)
    rw [hp] at ih
    by_cases h : c = sep
    · simp [pieces, h, hp, List.intercalate_cons_cons, ih]
    · cases ps <;> simp_all [pieces, List.intercalate_cons_cons]

theorem not_mem_of_mem_pieces {sep : Char} {t p : Text} (h : p ∈ pieces sep t) : sep ∉ p := by
  induction t generalizing p with
  | nil => simp_all [pieces]
  | cons c r ih =>
    obtain ⟨q, qs, hq⟩ := List.exists_cons_of_ne_nil (pieces_ne_nil sep r)
    by_cases hc : c = sep
    · rw [pieces, if_pos hc, List.mem_cons] at h
      rcases h with rfl | h
      · simp
      · exact ih h
    · rw [pieces, if_neg hc, hq, List.modifyHead_cons, List.mem_cons] at h
      rcases h with rfl | h
      · simpa [Ne.symm hc] using ih (p := q) (by simp [hq])
      · exact ih (by simp [hq, h])

theorem pieces_of_not_mem {sep : Char} {t : Text} (h : sep ∉ t) : pieces sep t = [t] := by
  induction t with
  | nil => rfl
  | cons c r ih =>
    rw [List.mem_cons, not_or] at h
    simp [pieces, Ne.symm h.1, ih h.2]

theorem pieces_append_cons {sep : Char} {p : Text} (h : sep ∉ p) (t : Text) :
    pieces sep (p ++ sep :: t) = p :: pieces sep t := by
  induction p with
  | nil => simp [pieces]
  | cons c r ih =>
    rw [List.mem_cons, not_or] at h
    simp [pieces, Ne.symm h.1, ih h.2]

theorem pieces_intercalate {sep : Char} {ps : List Text} (filled : ps ≠ [])
    (h : ∀ p ∈ ps, sep ∉ p) : pieces sep ([sep].intercalate ps) = ps := by
  induction ps with
  | nil => exact absurd rfl filled
  | cons p ps ih =>
    have hp : sep ∉ p := h p (by simp)
    cases ps with
    | nil => simpa using pieces_of_not_mem hp
    | cons q qs =>
      have rest := ih (by simp) fun x hx => h x (List.mem_cons_of_mem p hx)
      rw [List.intercalate_cons_cons, List.append_assoc, List.singleton_append,
        pieces_append_cons hp, rest]

/-- The text before the first separator and the text after it. -/
def cut? (sep : Char) : Text → Option (Text × Text)
  | [] => none
  | c :: r => if c = sep then some ([], r) else (cut? sep r).map fun (a, b) => (c :: a, b)

theorem cut?_eq_none_iff {sep : Char} {t : Text} : cut? sep t = none ↔ sep ∉ t := by
  induction t with
  | nil => simp [cut?]
  | cons c r ih =>
    by_cases h : c = sep
    · simp [cut?, h]
    · simp [cut?, h, ih, Ne.symm h]

theorem cut?_append_cons {sep : Char} {a : Text} (h : sep ∉ a) (b : Text) :
    cut? sep (a ++ sep :: b) = some (a, b) := by
  induction a with
  | nil => simp [cut?]
  | cons c r ih =>
    rw [List.mem_cons, not_or] at h
    simp [cut?, Ne.symm h.1, ih h.2]

theorem cut?_eq_some_iff {sep : Char} {t a b : Text} :
    cut? sep t = some (a, b) ↔ t = a ++ sep :: b ∧ sep ∉ a := by
  refine ⟨fun h => ?_, fun ⟨e, h⟩ => e ▸ cut?_append_cons h b⟩
  induction t generalizing a with
  | nil => simp [cut?] at h
  | cons c r ih =>
    by_cases hc : c = sep
    · rw [cut?, if_pos hc] at h
      cases h
      simp [hc]
    · rw [cut?, if_neg hc, Option.map_eq_some_iff] at h
      obtain ⟨⟨x, y⟩, hxy, e⟩ := h
      cases e
      obtain ⟨rfl, hx⟩ := ih hxy
      simp [Ne.symm hc, hx]

/-- The text before the first mark, or all of it where there is none. -/
def upTo (mark : Char) (t : Text) : Text := t.takeWhile (· != mark)

end SoftCore.Text
