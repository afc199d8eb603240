/-! Text as a list of characters, and the characters that count as blank.
Trimming removes blanks from both ends and nothing else: a text is left as it
is exactly when neither of its ends is blank. -/

namespace SoftCore

abbrev Text := List Char

namespace Text

/-- The code points of the Unicode property White_Space, as closed runs. -/
def blankRuns : List (Nat × Nat) :=
  [(0x09, 0x0D), (0x20, 0x20), (0x85, 0x85), (0xA0, 0xA0), (0x1680, 0x1680), (0x2000, 0x200A),
    (0x2028, 0x2029), (0x202F, 0x202F), (0x205F, 0x205F), (0x3000, 0x3000)]

example : (blankRuns.map fun run => run.2 + 1 - run.1).sum = 25 := by decide

def isBlank (c : Char) : Bool := blankRuns.any fun run => run.1 ≤ c.toNat && c.toNat ≤ run.2

theorem isBlank_of_isWhitespace {c : Char} (h : c.isWhitespace) : isBlank c := by
  simp only [Char.isWhitespace, Bool.or_eq_true, decide_eq_true_eq] at h
  rcases h with ((rfl | rfl) | rfl) | rfl <;> decide

def trimStart (t : Text) : Text := t.dropWhile isBlank

def trimEnd (t : Text) : Text := (t.reverse.dropWhile isBlank).reverse

def trim (t : Text) : Text := t.trimStart.trimEnd

theorem dropWhile_eq_self_iff {t : Text} {p : Char → Bool} :
    t.dropWhile p = t ↔ ∀ c ∈ t.head?, p c = false := by
  cases t with
  | nil => simp
  | cons c r =>
    by_cases h : p c
    · have shorter := (List.dropWhile_sublist p (l := r)).length_le
      have unequal : r.dropWhile p ≠ c :: r := fun e => by
        rw [e, List.length_cons] at shorter
        omega
      simp [h, unequal]
    · simp [h]

theorem trimStart_eq_self_iff {t : Text} : t.trimStart = t ↔ ∀ c ∈ t.head?, isBlank c = false :=
  dropWhile_eq_self_iff

theorem trimEnd_eq_self_iff {t : Text} : t.trimEnd = t ↔ ∀ c ∈ t.getLast?, isBlank c = false := by
  rw [trimEnd, ← List.head?_reverse, ← dropWhile_eq_self_iff, List.reverse_eq_iff]

theorem trim_eq_self_iff {t : Text} :
    t.trim = t ↔ (∀ c ∈ t.head?, isBlank c = false) ∧ ∀ c ∈ t.getLast?, isBlank c = false := by
  rw [← trimStart_eq_self_iff, ← trimEnd_eq_self_iff]
  constructor
  · intro h
    have start : t.trimStart = t := by
      have inner := (List.dropWhile_sublist isBlank (l := t.trimStart.reverse)).length_le
      have outer := List.dropWhile_sublist isBlank (l := t)
      have same := congrArg List.length h
      simp only [trim, trimEnd, List.length_reverse] at same inner
      exact outer.eq_of_length_le (by show t.length ≤ t.trimStart.length; omega)
    rw [trim, start] at h
    exact ⟨start, h⟩
  · rintro ⟨start, stop⟩
    rw [trim, start, stop]

end Text
end SoftCore
