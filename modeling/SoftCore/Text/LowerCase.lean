import SoftCore.Text.CaseTable

/-! Lower case of a text, in the ASCII letters alone or in all of Unicode.
The full mapping depends on its surroundings for one letter only: a capital
sigma at the end of a word becomes the final sigma. A text without non-ASCII
characters is mapped alike by both. -/

namespace SoftCore.Text

def asciiLower (t : Text) : Text := t.map Char.toLower

/-- The first letter in upper case, an ASCII one. -/
def capitalize : Text → Text
  | [] => []
  | c :: rest => c.toUpper :: rest

/-- Lower case of one character on its own, two characters for the dotted capital I. -/
def lowerChar (c : Char) : Text :=
  if c.toNat < 0x80 then [c.toLower]
  else if c.toNat = 0x130 then ['i', Char.ofNat 0x307]
  else match caseRuns.find? (·.holds c.toNat) with
    | some run => [Char.ofNat (run.lower c.toNat)]
    | none => [c]

def isIgnorable (c : Char) : Bool := inRuns ignorableRuns c

def isCased (c : Char) : Bool := inRuns casedRuns c

/-- Whether the first character that is not ignorable is a cased one. -/
def startsCased (t : Text) : Bool := (t.dropWhile isIgnorable).head?.any isCased

def lowerSigma (before after : Text) : Char :=
  if startsCased before && !startsCased after then Char.ofNat 0x3C2 else Char.ofNat 0x3C3

/-- Lower case of a text that follows `before`, which is read backwards. -/
def lowerAfter (before : Text) : Text → Text
  | [] => []
  | c :: rest =>
    (if c.toNat = 0x3A3 then [lowerSigma before rest] else lowerChar c) ++ lowerAfter (c :: before) rest

def lower (t : Text) : Text := lowerAfter [] t

theorem lowerAfter_eq_asciiLower {t : Text} (h : ∀ c ∈ t, c.toNat < 0x80) (before : Text) :
    lowerAfter before t = asciiLower t := by
  induction t generalizing before with
  | nil => rfl
  | cons c r ih =>
    have hc : c.toNat < 0x80 := h c (by simp)
    have hr := ih (fun x hx => h x (by simp [hx])) (c :: before)
    rw [lowerAfter, if_neg (by omega), lowerChar, if_pos hc, hr]
    rfl

theorem lower_eq_asciiLower {t : Text} (h : ∀ c ∈ t, c.toNat < 0x80) : lower t = asciiLower t :=
  lowerAfter_eq_asciiLower h []

end SoftCore.Text
