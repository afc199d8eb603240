import SoftCore.Proofs.Verdict

/-! Lines in either letter case. Every reader takes a text and its lower case
for the same thing, or refuses both for the same kind of reason: mnemonics are
lower-cased anyhow, register names and digits count in both cases, and the marks
between them are no letters. -/

namespace SoftCore

open Fault

namespace Text

/-- What can be computed for each character of a text. -/
theorem of_all {t : Text} {P : Char → Prop} [DecidablePred P] (h : t.all fun c => P c) {c : Char}
    (mem : c ∈ t) : P c :=
  of_decide_eq_true (List.all_eq_true.mp h c mem)

def capitals : Text := "ABCDEFGHIJKLMNOPQRSTUVWXYZ".toList

theorem mem_capitals_or_toLower_eq (c : Char) : c ∈ capitals ∨ c.toLower = c := by
  by_cases upper : c.val ≥ 'A'.val ∧ c.val ≤ 'Z'.val
  · left
    have all : ∀ n ∈ List.range 91, 65 ≤ n → Char.ofNat n ∈ capitals := by decide
    have low : 65 ≤ c.toNat := UInt32.le_iff_toNat_le.mp upper.1
    have high : c.toNat ≤ 90 := UInt32.le_iff_toNat_le.mp upper.2
    rw [← Char.ofNat_toNat c]
    exact all c.toNat (List.mem_range.mpr (by omega)) low
  · exact .inr (dif_neg upper)

/-- What holds of the capitals and their lower case holds of all characters and theirs. -/
theorem apply_toLower {α : Type} {f : Char → α}
    (h : capitals.map (fun c => f c.toLower) = capitals.map f) (c : Char) : f c.toLower = f c := by
  rcases mem_capitals_or_toLower_eq c with capital | same
  · exact List.map_inj_left.mp h c capital
  · rw [same]

theorem toLower_toLower (c : Char) : c.toLower.toLower = c.toLower :=
  apply_toLower (f := Char.toLower) (by decide) c

theorem toNat_lt_of_toLower {c : Char} (h : c.toLower.toNat < 0x80) : c.toNat < 0x80 := by
  rcases mem_capitals_or_toLower_eq c with capital | same
  · have ascii : capitals.all fun c => c.toNat < 0x80 := by decide
    exact of_all ascii capital
  · rwa [same] at h

theorem isBlank_toLower (c : Char) : isBlank c.toLower = isBlank c := apply_toLower (by decide) c

theorem digitValue?_toLower (c : Char) : Radix.digitValue? c.toLower = Radix.digitValue? c :=
  apply_toLower (by decide) c

theorem isCased_toLower (c : Char) : isCased c.toLower = isCased c := apply_toLower (by decide) c

set_option maxRecDepth 4000 in
/-- No letter is ignorable: the runs leave both rows of letters out. -/
theorem isIgnorable_of_letter {c : Char}
    (h : 0x41 ≤ c.toNat ∧ c.toNat ≤ 0x5A ∨ 0x61 ≤ c.toNat ∧ c.toNat ≤ 0x7A) :
    isIgnorable c = false := by
  have clear : ∀ run ∈ ignorableRuns,
      run.2 < 0x41 ∨ (0x5A < run.1 ∧ run.2 < 0x61) ∨ 0x7A < run.1 := by decide
  rw [isIgnorable, inRuns, List.any_eq_false]
  intro run mem
  have apart := clear run mem
  simp only [Bool.and_eq_true, decide_eq_true_eq]
  omega

theorem isIgnorable_toLower (c : Char) : isIgnorable c.toLower = isIgnorable c := by
  have rows : capitals.all fun c => (0x41 ≤ c.toNat ∧ c.toNat ≤ 0x5A) ∧
      0x61 ≤ c.toLower.toNat ∧ c.toLower.toNat ≤ 0x7A := by decide
  refine apply_toLower (List.map_inj_left.mpr fun c capital => ?_) c
  obtain ⟨upper, lower⟩ := of_all rows capital
  rw [isIgnorable_of_letter (.inl upper), isIgnorable_of_letter (.inr lower)]

/-- The characters that lines are cut at, none of them a letter. -/
def marks : Text := ",.%-[]+*0".toList

theorem toLower_eq_mark_iff {c k : Char} (mark : k ∈ marks) : c.toLower = k ↔ c = k := by
  have apart : capitals.all fun c => c ∉ marks ∧ c.toLower ∉ marks := by decide
  rcases mem_capitals_or_toLower_eq c with capital | same
  · have here := of_all apart capital
    exact iff_of_false (fun e => here.2 (e ▸ mark)) fun e => here.1 (e ▸ mark)
  · rw [same]

@[simp] theorem asciiLower_nil : asciiLower [] = [] := rfl

@[simp] theorem asciiLower_cons (c : Char) (t : Text) :
    asciiLower (c :: t) = c.toLower :: asciiLower t := rfl

theorem asciiLower_reverse (t : Text) : asciiLower t.reverse = (asciiLower t).reverse :=
  List.map_reverse

theorem isEmpty_asciiLower (t : Text) : (asciiLower t).isEmpty = t.isEmpty := List.isEmpty_map

theorem asciiLower_asciiLower (t : Text) : t.asciiLower.asciiLower = t.asciiLower := by
  rw [asciiLower, asciiLower, List.map_map]
  exact List.map_congr_left fun c _ => toLower_toLower c

theorem mem_asciiLower_iff {k : Char} (mark : k ∈ marks) {t : Text} : k ∈ t.asciiLower ↔ k ∈ t := by
  induction t with
  | nil => rfl
  | cons c t ih =>
    rw [asciiLower_cons, List.mem_cons, List.mem_cons, ih, eq_comm, toLower_eq_mark_iff mark, eq_comm]

theorem asciiLower_eq_cons_iff {k : Char} (mark : k ∈ marks) {t rest : Text} :
    t.asciiLower = k :: rest ↔ ∃ tail, t = k :: tail ∧ asciiLower tail = rest := by
  cases t with
  | nil => simp
  | cons c t =>
    rw [asciiLower_cons, List.cons.injEq, toLower_eq_mark_iff mark]
    constructor
    · rintro ⟨rfl, rfl⟩
      exact ⟨t, rfl, rfl⟩
    · rintro ⟨tail, shape, rfl⟩
      cases shape
      exact ⟨rfl, rfl⟩

theorem dropWhile_asciiLower {p : Char → Bool} (h : ∀ c, p c.toLower = p c) (t : Text) :
    t.asciiLower.dropWhile p = asciiLower (t.dropWhile p) := by
  have same : p ∘ Char.toLower = p := funext h
  rw [asciiLower, List.dropWhile_map, same, asciiLower]

theorem takeWhile_asciiLower {p : Char → Bool} (h : ∀ c, p c.toLower = p c) (t : Text) :
    t.asciiLower.takeWhile p = asciiLower (t.takeWhile p) := by
  have same : p ∘ Char.toLower = p := funext h
  rw [asciiLower, List.takeWhile_map, same, asciiLower]

theorem trim_asciiLower (t : Text) : t.asciiLower.trim = t.trim.asciiLower := by
  rw [trim, trimStart, dropWhile_asciiLower isBlank_toLower, trimEnd, ← asciiLower_reverse,
    dropWhile_asciiLower isBlank_toLower, ← asciiLower_reverse]
  rfl

theorem pieces_asciiLower {sep : Char} (mark : sep ∈ marks) (t : Text) :
    pieces sep t.asciiLower = (pieces sep t).map asciiLower := by
  induction t with
  | nil => rfl
  | cons c t ih =>
    rw [asciiLower_cons, pieces, pieces, ih]
    by_cases here : c = sep
    · rw [if_pos here, if_pos ((toLower_eq_mark_iff mark).mpr here)]
      rfl
    · rw [if_neg here, if_neg (mt (toLower_eq_mark_iff mark).mp here)]
      cases pieces sep t <;> rfl

theorem cut?_asciiLower {sep : Char} (mark : sep ∈ marks) (t : Text) :
    cut? sep t.asciiLower =
      (cut? sep t).map fun (front, back) => (front.asciiLower, back.asciiLower) := by
  induction t with
  | nil => rfl
  | cons c t ih =>
    rw [asciiLower_cons, cut?, cut?, ih]
    by_cases here : c = sep
    · rw [if_pos here, if_pos ((toLower_eq_mark_iff mark).mpr here)]
      rfl
    · rw [if_neg here, if_neg (mt (toLower_eq_mark_iff mark).mp here)]
      cases cut? sep t <;> rfl

theorem afterHexMark?_eq_some_iff {t digits : Text} :
    afterHexMark? t = some digits ↔ ∃ mark, (mark = 'x' ∨ mark = 'X') ∧ t = '0' :: mark :: digits := by
  unfold afterHexMark?
  split <;> simp_all

theorem afterHexMark?_asciiLower (t : Text) :
    t.asciiLower.afterHexMark? = t.afterHexMark?.map asciiLower := by
  have letter : ∀ c : Char, c.toLower = 'x' ∨ c.toLower = 'X' ↔ c = 'x' ∨ c = 'X' := fun c => by
    rw [← decide_eq_decide]
    exact apply_toLower (f := fun c => decide (c = 'x' ∨ c = 'X')) (by decide) c
  ext digits
  rw [afterHexMark?_eq_some_iff, Option.map_eq_some_iff]
  constructor
  · rintro ⟨mark, isMark, shape⟩
    obtain ⟨tail, rfl, shape⟩ := (asciiLower_eq_cons_iff (by decide)).mp shape
    cases tail with
    | nil => cases shape
    | cons c rest =>
      cases shape
      exact ⟨rest, afterHexMark?_eq_some_iff.mpr ⟨c, (letter c).mp isMark, rfl⟩, rfl⟩
  · rintro ⟨rest, marked, rfl⟩
    obtain ⟨c, isMark, rfl⟩ := afterHexMark?_eq_some_iff.mp marked
    exact ⟨c.toLower, (letter c).mpr isMark, rfl⟩

/-! Lower case in all of Unicode. -/

theorem lowerChar_toLower (c : Char) : lowerChar c.toLower = lowerChar c :=
  apply_toLower (by decide) c

theorem startsCased_asciiLower (t : Text) : startsCased t.asciiLower = startsCased t := by
  rw [startsCased, dropWhile_asciiLower isIgnorable_toLower, startsCased]
  cases t.dropWhile isIgnorable with
  | nil => rfl
  | cons c rest => exact isCased_toLower c

theorem lowerAfter_asciiLower (before t : Text) :
    lowerAfter before.asciiLower t.asciiLower = lowerAfter before t := by
  have sigma : ∀ c : Char, c.toLower.toNat = 0x3A3 ↔ c.toNat = 0x3A3 := fun c => by
    rw [← decide_eq_decide]
    exact apply_toLower (f := fun c => decide (c.toNat = 0x3A3)) (by decide) c
  induction t generalizing before with
  | nil => rfl
  | cons c t ih =>
    have rest := ih (c :: before)
    rw [asciiLower_cons] at rest ⊢
    simp only [lowerAfter, sigma, lowerSigma, startsCased_asciiLower, lowerChar_toLower, rest]

theorem lower_asciiLower (t : Text) : lower t.asciiLower = lower t := lowerAfter_asciiLower [] t

end Text

open Text

/-! Registers and literals. -/

theorem Register.named?_asciiLower (name : Text) : named? name.asciiLower = named? name := by
  rw [named?, asciiLower_asciiLower, named?]

theorem Register.verdict_ofName_asciiLower (name : Text) :
    verdict (ofName name.asciiLower) = verdict (ofName name) := by
  rw [ofName, named?_asciiLower, ofName]
  cases named? name <;> rfl

theorem Radix.accumulate_asciiLower (radix : Radix) (high : Nat) (t : Text) :
    radix.accumulate high t.asciiLower = radix.accumulate high t := by
  induction t generalizing high with
  | nil => rfl
  | cons c t ih =>
    have digit : radix.digit? c.toLower = radix.digit? c := by
      rw [digit?, digitValue?_toLower, digit?]
    simp only [asciiLower_cons, accumulate, digit, ih]

theorem Radix.read?_asciiLower (radix : Radix) (t : Text) :
    radix.read? t.asciiLower = radix.read? t := by
  rw [read?, isEmpty_asciiLower, accumulate_asciiLower, read?]

theorem Literal.verdict_magnitude_asciiLower (token : Text) (radix : Radix) (flaw : Flaw)
    (digits : Text) :
    verdict (magnitude token.asciiLower radix flaw digits.asciiLower) =
      verdict (magnitude token radix flaw digits) := by
  rw [magnitude, Radix.read?_asciiLower, magnitude]
  cases radix.read? digits with
  | none => rfl
  | some n =>
    dsimp only
    split <;> rfl

theorem Literal.verdict_unsigned_asciiLower (token body : Text) :
    verdict (unsigned token.asciiLower body.asciiLower) = verdict (unsigned token body) := by
  rw [unsigned, afterHexMark?_asciiLower, unsigned]
  cases body.afterHexMark? with
  | none => exact verdict_magnitude_asciiLower token .decimal .notRegisterOrLiteral body
  | some digits => exact verdict_magnitude_asciiLower token .hexadecimal .hexDigits digits

theorem Literal.read_of_minus {token body : Text} (h : token.trim = '-' :: body) :
    read token = (unsigned token body).map fun n : Nat => -(n : Int) := by
  rw [read, h]
  rfl

theorem Literal.read_of_not_minus {token : Text} (h : ∀ body, token.trim ≠ '-' :: body) :
    read token = (unsigned token token.trim).map fun n : Nat => (n : Int) := by
  unfold read
  split
  · exact absurd ‹_› (h _)
  · rfl

theorem Literal.verdict_read_asciiLower (token : Text) :
    verdict (read token.asciiLower) = verdict (read token) := by
  by_cases signed : ∃ body, token.trim = '-' :: body
  · obtain ⟨body, minus⟩ := signed
    have lowered : token.asciiLower.trim = '-' :: asciiLower body := by
      rw [trim_asciiLower, minus]
      rfl
    rw [read_of_minus lowered, read_of_minus minus, verdict_map, verdict_map,
      verdict_unsigned_asciiLower]
  · have plain := not_exists.mp signed
    have lowered : ∀ body, token.asciiLower.trim ≠ '-' :: body := fun body e => by
      rw [trim_asciiLower, asciiLower_eq_cons_iff (by decide)] at e
      obtain ⟨tail, minus, -⟩ := e
      exact plain tail minus
    rw [read_of_not_minus lowered, read_of_not_minus plain, verdict_map, verdict_map,
      trim_asciiLower, verdict_unsigned_asciiLower]

theorem Operand.read_of_sigil {token name : Text} (h : token.trim = '%' :: name) :
    read token = (Register.ofName name).map register := by
  rw [read, h]
  rfl

theorem Operand.read_of_not_sigil {token : Text} (h : ∀ name, token.trim ≠ '%' :: name) :
    read token = (Literal.read token.trim).map literal := by
  unfold read
  split
  · exact absurd ‹_› (h _)
  · rfl

theorem Operand.verdict_read_asciiLower (token : Text) :
    verdict (read token.asciiLower) = verdict (read token) := by
  by_cases marked : ∃ name, token.trim = '%' :: name
  · obtain ⟨name, sigil⟩ := marked
    have lowered : token.asciiLower.trim = '%' :: asciiLower name := by
      rw [trim_asciiLower, sigil]
      rfl
    rw [read_of_sigil lowered, read_of_sigil sigil, verdict_map, verdict_map,
      Register.verdict_ofName_asciiLower]
  · have plain := not_exists.mp marked
    have lowered : ∀ name, token.asciiLower.trim ≠ '%' :: name := fun name e => by
      rw [trim_asciiLower, asciiLower_eq_cons_iff (by decide)] at e
      obtain ⟨tail, sigil, -⟩ := e
      exact plain tail sigil
    rw [read_of_not_sigil lowered, read_of_not_sigil plain, verdict_map, verdict_map,
      trim_asciiLower, Literal.verdict_read_asciiLower]

/-! Memory operands. -/

/-- What follows a mark at the start of a text. -/
def Update.afterMark? : Text → Option Text
  | '+' :: '+' :: name => some name
  | '*' :: name => some name
  | _ => none

theorem Update.afterMark?_eq_some_iff {t name : Text} :
    afterMark? t = some name ↔ t = '+' :: '+' :: name ∨ t = '*' :: name := by
  unfold afterMark?
  split <;> simp_all

theorem Update.split_eq (inside : Text) :
    split inside = match afterMark? inside, afterMark? inside.reverse with
      | some name, _ => (before, name)
      | none, some name => (after, name.reverse)
      | none, none => (never, inside) := by
  unfold split
  split
  · rfl
  · rfl
  · rename_i noPlus noStar
    have unmarked : afterMark? inside = none := by
      rw [Option.eq_none_iff_forall_ne_some]
      intro name marked
      rcases afterMark?_eq_some_iff.mp marked with shape | shape
      · exact noPlus name shape
      · exact noStar name shape
    rw [unmarked]
    unfold afterMark?
    split <;> simp_all

theorem Update.afterMark?_asciiLower (t : Text) :
    afterMark? t.asciiLower = (afterMark? t).map asciiLower := by
  have plus : '+' ∈ marks := by decide
  have star : '*' ∈ marks := by decide
  ext name
  rw [afterMark?_eq_some_iff, Option.map_eq_some_iff]
  constructor
  · rintro (shape | shape)
    · obtain ⟨_, rfl, second⟩ := (asciiLower_eq_cons_iff plus).mp shape
      obtain ⟨tail, rfl, rfl⟩ := (asciiLower_eq_cons_iff plus).mp second
      exact ⟨tail, rfl, rfl⟩
    · obtain ⟨tail, rfl, rfl⟩ := (asciiLower_eq_cons_iff star).mp shape
      exact ⟨tail, rfl, rfl⟩
  · rintro ⟨rest, marked, rfl⟩
    rcases afterMark?_eq_some_iff.mp marked with rfl | rfl
    · exact .inl rfl
    · exact .inr rfl

theorem Update.split_asciiLower (inside : Text) :
    split inside.asciiLower = ((split inside).1, asciiLower (split inside).2) := by
  rw [split_eq, split_eq, ← asciiLower_reverse, afterMark?_asciiLower, afterMark?_asciiLower]
  cases afterMark? inside with
  | some name => rfl
  | none =>
    cases afterMark? inside.reverse with
    | some name => simp [asciiLower_reverse]
    | none => rfl

theorem MemoryReference.verdict_readOffset_asciiLower (front : Text) :
    verdict (readOffset front.asciiLower) = verdict (readOffset front) := by
  rw [readOffset, trim_asciiLower, isEmpty_asciiLower, readOffset]
  cases front.trim.isEmpty with
  | true => rfl
  | false =>
    simp only [Bool.false_eq_true, if_false]
    rw [verdict_map, verdict_map, Literal.verdict_read_asciiLower]

theorem MemoryReference.verdict_readBase_asciiLower (token name : Text) :
    verdict (readBase token.asciiLower name.asciiLower) = verdict (readBase token name) := by
  refine verdict_bind_congr (Operand.verdict_read_asciiLower name) fun operand => ?_
  cases operand <;> rfl

theorem MemoryReference.inside?_asciiLower (rest : Text) :
    inside? rest.asciiLower = (inside? rest).map asciiLower := by
  have closed : rest.asciiLower.getLast? = some ']' ↔ rest.getLast? = some ']' := by
    rw [asciiLower, List.getLast?_map]
    cases rest.getLast? with
    | none => rfl
    | some c => simpa using toLower_eq_mark_iff (by decide)
  have front : rest.asciiLower.dropLast = asciiLower rest.dropLast := List.map_dropLast.symm
  simp only [inside?, closed, front, trim_asciiLower]
  split <;> rfl

theorem MemoryReference.verdict_read_asciiLower (token : Text) :
    verdict (read token.asciiLower) = verdict (read token) := by
  rw [read, trim_asciiLower, cut?_asciiLower (by decide), read]
  cases token.trim.cut? '[' with
  | none => rfl
  | some sides =>
    obtain ⟨front, rest⟩ := sides
    simp only [Option.map_some, inside?_asciiLower]
    cases inside? rest with
    | none => rfl
    | some inside =>
      simp only [Option.map_some, Update.split_asciiLower]
      refine verdict_bind_congr (verdict_readOffset_asciiLower front) fun offset => ?_
      exact verdict_bind_congr (verdict_readBase_asciiLower token _) fun base => rfl

/-! Lines. -/

theorem SourceLine.firstWord_asciiLower (t : Text) :
    firstWord t.asciiLower = (firstWord t).asciiLower :=
  takeWhile_asciiLower (fun c => congrArg not (isBlank_toLower c)) t

theorem SourceLine.afterFirstWord_asciiLower (t : Text) :
    afterFirstWord t.asciiLower = (afterFirstWord t).asciiLower := by
  rw [afterFirstWord, dropWhile_asciiLower (fun c => congrArg not (isBlank_toLower c)),
    trim_asciiLower]
  rfl

theorem SourceLine.operandSlots_asciiLower (t : Text) :
    operandSlots t.asciiLower = (operandSlots t).map asciiLower := by
  rw [operandSlots, isEmpty_asciiLower, pieces_asciiLower (by decide), operandSlots]
  cases t.isEmpty with
  | true => rfl
  | false =>
    simp only [Bool.false_eq_true, if_false, List.map_map]
    exact List.map_congr_left fun piece _ => trim_asciiLower piece

theorem Operand.alike_asciiLower (token : Text) : Alike token.asciiLower token where
  operand := verdict_read_asciiLower token
  bracket := mem_asciiLower_iff (by decide)
  reference := MemoryReference.verdict_read_asciiLower token
  filled := isEmpty_asciiLower token

namespace Text

theorem mnemonic_asciiLower (t : Text) : t.asciiLower.mnemonic = t.mnemonic := by
  rw [mnemonic, trim_asciiLower, SourceLine.firstWord_asciiLower, lower_asciiLower, mnemonic]

theorem slots_asciiLower (t : Text) : t.asciiLower.slots = t.slots.map asciiLower := by
  rw [slots, trim_asciiLower, SourceLine.afterFirstWord_asciiLower,
    SourceLine.operandSlots_asciiLower, slots]

theorem alike_asciiLower (t : Text) : Alike t.asciiLower t where
  blank := by rw [trim_asciiLower, isEmpty_asciiLower]
  mnemonic := mnemonic_asciiLower t
  slots := by
    rw [slots_asciiLower, List.forall₂_map_left_iff, List.forall₂_same]
    exact fun token _ => Operand.alike_asciiLower token

/-- Lines that differ in the case of letters have the same word, or faults of the same kind. -/
theorem verdict_lineWord_of_letters {s t : Text} (h : s.asciiLower = t.asciiLower) :
    verdict (Assembly.lineWord s) = verdict (Assembly.lineWord t) :=
  calc
    _ = verdict (Assembly.lineWord s.asciiLower) := s.alike_asciiLower.verdict_lineWord.symm
    _ = verdict (Assembly.lineWord t.asciiLower) := by rw [h]
    _ = _ := t.alike_asciiLower.verdict_lineWord

end Text
end SoftCore
