import SoftCore.Proofs.Gaps
import SoftCore.Proofs.Vocabulary

/-! Lower case of a text is in lower case. No letter of the case table is the
lower case of another one, so a second pass leaves everything as it is, the two
forms of the small sigma among it. No character is lost on the way and none
becomes a blank. -/

namespace SoftCore.Text

/-- The rows do not meet, the lower case of the first and the second, or they take turns. -/
def CaseRun.apart (a b : CaseRun) : Bool :=
  Nat.blt (a.lower a.last) b.first || Nat.blt b.last (a.lower a.first) ||
    Nat.beq b.step 2 && (Nat.beq a.step 2 || Nat.beq a.first a.last) &&
      Nat.beq ((a.lower a.first + b.first) % 2) 1

theorem CaseRun.holds_lower_of_apart {a b : CaseRun} (h : a.apart b) (above : 0 < a.lower a.first)
    {n : Nat} (here : a.holds n) : b.holds (a.lower n) = false := by
  obtain ⟨least, most⟩ := lower_mem_of_holds here
  simp only [apart, Bool.or_eq_true, Bool.and_eq_true, Nat.blt_eq, Nat.beq_eq] at h
  rw [← Bool.not_eq_true]
  rw [holds_iff] at here ⊢
  rintro ⟨⟨first, last⟩, step⟩
  rcases h with (below | beyond) | ⟨⟨two, alternate⟩, turns⟩
  · omega
  · omega
  · -- Both rows go in steps of two, from places of different parity.
    rw [two] at step
    simp only [lower] at *
    rcases alternate with double | single
    · rw [double] at here
      omega
    · omega

/-- All characters between two. -/
def CaseRun.row (first last : Nat) : CaseRun := ⟨first, last, 1, 0⟩

theorem CaseRun.holds_row {first last n : Nat} : (row first last).holds n ↔ first ≤ n ∧ n ≤ last := by
  simp [holds_iff, row, Nat.mod_one]

/-- The letters that do not stay as they are in lower case, those with a rule of their own first. -/
def movingRuns : List CaseRun := .row 0x130 0x130 :: .row 0x3A3 0x3A3 :: caseRuns

def blankRows : List CaseRun := blankRuns.map fun run => .row run.1 run.2

theorem apart_of_mem_caseRuns : caseRuns.all fun run =>
    (movingRuns ++ blankRows).all run.apart && Nat.blt 0 (run.lower run.first) := by
  decide +kernel

/-- What a letter of a run becomes is neither a blank nor moved once more. -/
theorem holds_lower_of_mem {run other : CaseRun} (listed : run ∈ caseRuns)
    (mem : other ∈ movingRuns ++ blankRows) {n : Nat} (h : run.holds n) :
    other.holds (run.lower n) = false := by
  have row := List.all_eq_true.mp apart_of_mem_caseRuns run listed
  obtain ⟨apart, above⟩ := (Bool.and_eq_true _ _).mp row
  exact CaseRun.holds_lower_of_apart (List.all_eq_true.mp apart other mem) (Nat.blt_eq.mp above) h

/-! One character. -/

/-- A character that lower case leaves as it is, wherever it stands. -/
structure Settled (c : Char) : Prop where
  alone : lowerChar c = [c]
  plain : c.toNat ≠ 0x3A3

variable {c d : Char}

theorem settled_of_not_holds (foreign : 0x80 ≤ c.toNat)
    (h : ∀ run ∈ movingRuns, run.holds c.toNat = false) : Settled c := by
  have single : ∀ n, (CaseRun.row n n).holds c.toNat = false → c.toNat ≠ n := by
    rintro n out rfl
    rw [CaseRun.holds_row.mpr ⟨Nat.le_refl _, Nat.le_refl _⟩] at out
    cases out
  obtain ⟨dotted, sigma, listed⟩ := (List.forall_mem_cons.trans
    (and_congr_right fun _ => List.forall_mem_cons)).mp h
  have none : caseRuns.find? (·.holds c.toNat) = none :=
    List.find?_eq_none.mpr fun run mem => by simp [listed run mem]
  refine ⟨?_, single _ sigma⟩
  rw [lowerChar, if_neg (Nat.not_lt.mpr foreign), if_neg (single _ dotted), none]

theorem settled_toLower (ascii : c.toNat < 0x80) : Settled c.toLower := by
  have below : c.toLower.toNat < 0x80 := by
    have same := apply_toLower (f := fun c => decide (c.toNat < 0x80)) (by decide) c
    rwa [decide_eq_decide.mp same]
  refine ⟨?_, by omega⟩
  rw [lowerChar, if_pos below, toLower_toLower]

/-- The lower case of a character is made of itself, of the small letter of a run, or of the two
characters of the dotted capital I. -/
theorem lowerChar_cases (mem : d ∈ lowerChar c) :
    c.toNat < 0x80 ∧ d = c.toLower ∨ d = 'i' ∨ d = Char.ofNat 0x307 ∨
      (∃ run ∈ caseRuns, 0x80 ≤ c.toNat ∧ run.holds c.toNat ∧
        d = Char.ofNat (run.lower c.toNat)) ∨
      0x80 ≤ c.toNat ∧ c.toNat ≠ 0x130 ∧ (∀ run ∈ caseRuns, run.holds c.toNat = false) ∧ d = c := by
  unfold lowerChar at mem
  split at mem
  · rename_i ascii
    exact .inl ⟨ascii, List.mem_singleton.mp mem⟩
  · rename_i foreign
    rw [Nat.not_lt] at foreign
    split at mem
    · rcases List.mem_cons.mp mem with first | second
      · exact .inr (.inl first)
      · exact .inr (.inr (.inl (List.mem_singleton.mp second)))
    · rename_i undotted
      split at mem
      · rename_i run found
        have holds : run.holds c.toNat := by simpa using List.find?_some found
        exact .inr (.inr (.inr (.inl ⟨run, List.mem_of_find?_eq_some found, foreign, holds,
          List.mem_singleton.mp mem⟩)))
      · rename_i none
        have out : ∀ run ∈ caseRuns, run.holds c.toNat = false := fun run listed => by
          simpa using List.find?_eq_none.mp none run listed
        exact .inr (.inr (.inr (.inr ⟨foreign, undotted, out, List.mem_singleton.mp mem⟩)))

theorem settled_of_mem_lowerChar (plain : c.toNat ≠ 0x3A3) (mem : d ∈ lowerChar c) : Settled d := by
  rcases lowerChar_cases mem with ⟨ascii, rfl⟩ | rfl | rfl | ⟨run, listed, foreign, holds, rfl⟩ |
    ⟨foreign, undotted, out, rfl⟩
  · exact settled_toLower ascii
  · exact ⟨by decide, by decide⟩
  · exact ⟨by decide, by decide⟩
  · obtain ⟨same, high | kelvin⟩ := lower_of_holds listed foreign holds
    · refine settled_of_not_holds (high.trans_eq same.symm) fun other moving => ?_
      rw [same]
      exact holds_lower_of_mem listed (List.mem_append_left _ moving) holds
    · rw [kelvin]
      exact ⟨by decide, by decide⟩
  · refine settled_of_not_holds foreign fun run moving => ?_
    have single : ∀ n, d.toNat ≠ n → (CaseRun.row n n).holds d.toNat = false := fun n other => by
      rw [← Bool.not_eq_true, CaseRun.holds_row]
      omega
    rcases List.mem_cons.mp moving with rfl | moving
    · exact single _ undotted
    · rcases List.mem_cons.mp moving with rfl | listed
      · exact single _ plain
      · exact out run listed

theorem isBlank_of_mem_lowerChar (solid : isBlank c = false) (mem : d ∈ lowerChar c) :
    isBlank d = false := by
  rcases lowerChar_cases mem with ⟨ascii, rfl⟩ | rfl | rfl | ⟨run, listed, foreign, holds, rfl⟩ |
    ⟨foreign, undotted, out, rfl⟩
  · rwa [isBlank_toLower]
  · decide
  · decide
  · obtain ⟨same, -⟩ := lower_of_holds listed foreign holds
    rw [isBlank, List.any_eq_false]
    intro gap mem
    have row : CaseRun.row gap.1 gap.2 ∈ blankRows := List.mem_map.mpr ⟨gap, mem, rfl⟩
    have clear := holds_lower_of_mem listed (List.mem_append_right _ row) holds
    rw [← Bool.not_eq_true, CaseRun.holds_row] at clear
    rw [same]
    simpa using clear
  · exact solid

theorem lowerChar_ne_nil (c : Char) : lowerChar c ≠ [] := by
  unfold lowerChar
  split
  · exact List.cons_ne_nil _ _
  · split
    · exact List.cons_ne_nil _ _
    · split <;> exact List.cons_ne_nil _ _

/-! Whole texts. -/

variable {t : Text}

theorem lowerSigma_cases (before after : Text) :
    lowerSigma before after = Char.ofNat 0x3C2 ∨ lowerSigma before after = Char.ofNat 0x3C3 := by
  unfold lowerSigma
  split
  · exact .inl rfl
  · exact .inr rfl

/-- Where lower case leaves each character as it is, it leaves the text as it is. -/
theorem lowerAfter_of_settled (h : ∀ c ∈ t, Settled c) (before : Text) : lowerAfter before t = t := by
  induction t generalizing before with
  | nil => rfl
  | cons c rest ih =>
    obtain ⟨here, later⟩ := List.forall_mem_cons.mp h
    rw [lowerAfter, if_neg here.plain, here.alone, ih later, List.singleton_append]

theorem settled_of_mem_lowerAfter {before : Text} (mem : d ∈ lowerAfter before t) : Settled d := by
  induction t generalizing before with
  | nil => cases mem
  | cons c rest ih =>
    rw [lowerAfter] at mem
    rcases List.mem_append.mp mem with here | later
    · split at here
      · rw [List.mem_singleton.mp here]
        rcases lowerSigma_cases before rest with final | inner
        · rw [final]
          exact ⟨by decide, by decide⟩
        · rw [inner]
          exact ⟨by decide, by decide⟩
      · rename_i plain
        exact settled_of_mem_lowerChar plain here
    · exact ih later

/-- A text in lower case stays as it is. -/
theorem lower_lower (t : Text) : lower (lower t) = lower t :=
  lowerAfter_of_settled (fun _ mem => settled_of_mem_lowerAfter mem) []

theorem solid_lowerAfter (h : Solid t) (before : Text) : Solid (lowerAfter before t) := by
  induction t generalizing before with
  | nil => exact solid_nil
  | cons c rest ih =>
    obtain ⟨here, later⟩ := solid_cons.mp h
    rw [lowerAfter, solid_append]
    refine ⟨?_, ih later _⟩
    split
    · rcases lowerSigma_cases before rest with final | inner
      · rw [final]
        decide
      · rw [inner]
        decide
    · exact fun d mem => isBlank_of_mem_lowerChar here mem

/-- Lower case makes no blanks. -/
theorem solid_lower (h : Solid t) : Solid (lower t) := solid_lowerAfter h []

theorem lower_ne_nil (filled : t ≠ []) : lower t ≠ [] := by
  obtain ⟨c, rest, rfl⟩ := List.exists_cons_of_ne_nil filled
  rw [lower, lowerAfter]
  split
  · simp
  · simp [lowerChar_ne_nil]

-- The capital sigma is a final one at the end of a word, and both stay what they are.
example : lower (lower "ΣΑΣ".toList) = "σας".toList := by decide +kernel

end SoftCore.Text
