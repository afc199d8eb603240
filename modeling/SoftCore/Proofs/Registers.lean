import SoftCore.Proofs.Numerals

/-! Which tokens are registers. Behind its sigil stands one of the five second
names or an `r` and a numeral of at most thirty-one, in letters of either case.
A token with the sigil is a register or an unknown one and nothing else. -/

namespace SoftCore

open Text Fault

theorem Text.solid_asciiLower {t : Text} : Solid t.asciiLower ↔ Solid t := by
  simp [Solid, asciiLower, isBlank_toLower]

namespace Register

/-- The second names, each with the number of its register. -/
def secondNames : List (Text × Nat) :=
  [("pc".toList, 2), ("sw".toList, 3), ("rv".toList, 8), ("rr1".toList, 10), ("rr2".toList, 11)]

/-- What the register of a number is called: a second name of it, or an `r` and its numeral. -/
inductive Names (id : Nat) (name : Text) : Prop where
  | numbered {digits : Text} (letters : name.asciiLower = 'r' :: digits)
    (numeral : Radix.decimal.Numeral digits id) (small : id ≤ 31)
  | second (listed : (name.asciiLower, id) ∈ secondNames)

variable {name : Text} {id : Nat} {r : Register}

theorem Names.id_le (h : Names id name) : id ≤ 31 := by
  cases h with
  | numbered letters numeral small => exact small
  | second listed =>
    have small : ∀ entry ∈ secondNames, entry.2 ≤ 31 := by decide
    exact small _ listed

theorem mem_aliases_iff : (name, r) ∈ aliases ↔ (name, r.id.toNat) ∈ secondNames := by
  have numbers : secondNames = aliases.map fun entry => (entry.1, entry.2.id.toNat) := by decide
  have faithful : Function.Injective fun entry : Text × Register =>
      (entry.1, entry.2.id.toNat) := by
    rintro ⟨first, ⟨a⟩⟩ ⟨second, ⟨b⟩⟩ same
    simp only [Prod.mk.injEq, UInt8.toNat_inj] at same
    rw [same.1, same.2]
  rw [numbers]
  exact (List.mem_map_of_injective faithful).symm

theorem Names.solid (h : Names id name) : Solid name := by
  rw [← solid_asciiLower]
  cases h with
  | numbered letters numeral small =>
    rw [letters, solid_cons]
    exact ⟨by decide, numeral.solid⟩
  | second listed =>
    have all : ∀ entry ∈ secondNames, Solid entry.1 := by decide
    exact all _ listed

theorem ofId?_toNat {r : Register} (h : r.Exists) : ofId? r.id.toNat = some r := by
  have small : r.id.toNat < 32 := UInt8.lt_iff_toNat_lt.mp h
  rw [ofId?, if_pos small, UInt8.ofNat_toNat]

/-- No second name is an `r` with digits after it. -/
theorem find?_aliases_of_digits {digits : Text} {n : Nat}
    (value : Radix.decimal.read? digits = some n) : aliases.find? (·.1 = 'r' :: digits) = none := by
  have wordy : ∀ entry ∈ aliases, entry.1.head? = some 'r' →
      Radix.decimal.read? entry.1.tail = none := by decide
  rw [List.find?_eq_none]
  intro entry mem same
  have shape : entry.1 = 'r' :: digits := of_decide_eq_true same
  have none := wordy entry mem (by rw [shape]; rfl)
  rw [shape, List.tail_cons, value] at none
  cases none

theorem Names.named? (h : Names r.id.toNat name) : named? name = some r := by
  have exist : r.Exists := UInt8.lt_iff_toNat_lt.mpr (Nat.lt_succ_of_le h.id_le)
  rw [Register.named?]
  cases h with
  | numbered letters numeral small =>
    have value := Radix.read?_eq_some_iff_numeral.mpr numeral
    rw [letters, find?_aliases_of_digits value, Option.map_none, Option.none_or, numbered?, value]
    exact ofId?_toNat exist
  | second listed =>
    have first : ∀ entry ∈ aliases, aliases.find? (·.1 = entry.1) = some entry := by decide
    rw [first _ (mem_aliases_iff.mpr listed)]
    rfl

/-- A name that is read is one of the register. -/
theorem names_of_named? (h : Register.named? name = some r) : Names r.id.toNat name := by
  have exist : r.id.toNat < 32 := UInt8.lt_iff_toNat_lt.mp (exists_of_named? h)
  rw [Register.named?, Option.or_eq_some_iff] at h
  rcases h with h | ⟨-, h⟩
  · obtain ⟨entry, found, rfl⟩ := Option.map_eq_some_iff.mp h
    have same : entry.1 = name.asciiLower := by simpa using List.find?_some found
    exact .second (mem_aliases_iff.mp (same ▸ List.mem_of_find?_eq_some found))
  · unfold numbered? at h
    split at h
    · rename_i digits letters
      obtain ⟨id, value, made⟩ := Option.bind_eq_some_iff.mp h
      unfold ofId? at made
      split at made
      · cases made
        refine .numbered letters (Radix.read?_eq_some_iff_numeral.mp (value.trans ?_))
          (Nat.le_of_lt_succ exist)
        rw [UInt8.toNat_ofNat', Option.some.injEq]
        omega
      · cases made
    · cases h

theorem named?_eq_some_iff_names : named? name = some r ↔ Names r.id.toNat name :=
  ⟨names_of_named?, Names.named?⟩

theorem named?_eq_none_iff : named? name = none ↔ ∀ id, ¬Names id name := by
  constructor
  · intro none id names
    have kept : (UInt8.ofNat id).toNat = id := by
      have := names.id_le
      rw [UInt8.toNat_ofNat']
      omega
    have found : named? name = some ⟨UInt8.ofNat id⟩ :=
      named?_eq_some_iff_names.mpr (kept.symm ▸ names)
    rw [none] at found
    cases found
  · intro nameless
    rw [Option.eq_none_iff_forall_ne_some]
    exact fun r found => nameless _ (named?_eq_some_iff_names.mp found)

/-! Reading in numbers of eight bits. -/

/-- The register of an `r` and digits, whose number first has to be one of eight bits. -/
def boundedNumbered? : Text → Option Register
  | 'r' :: digits =>
    if Radix.decimal.isDigits digits then
      (Radix.decimal.readUnsigned 0x100 digits).toOption.bind ofId?
    else none
  | _ => none

def boundedNamed? (name : Text) : Option Register :=
  ((aliases.find? (·.1 = name.asciiLower)).map (·.2)).or (boundedNumbered? name.asciiLower)

/-- A number that does not fit in eight bits is that of no register. -/
theorem boundedNumbered?_eq (t : Text) : boundedNumbered? t = numbered? t := by
  unfold boundedNumbered?
  split
  · rename_i digits
    rw [numbered?]
    split
    · rename_i passed
      obtain ⟨n, value⟩ := Radix.isDigits_iff_exists_read?.mp passed
      rw [Radix.readUnsigned_of_isDigits (by decide) passed, value]
      by_cases fits : n < 0x100
      · simp [Option.filter, fits]
      · have beyond : ofId? n = none := if_neg (by omega)
        simp [Option.filter, fits, beyond]
    · rename_i failed
      rw [Radix.read?_eq_none_of_not_isDigits failed]
      rfl
  · rename_i other
    rw [numbered?]
    exact other

theorem boundedNamed?_eq (name : Text) : boundedNamed? name = named? name := by
  rw [boundedNamed?, named?, boundedNumbered?_eq]

end Register

/-- A register is the name of one behind its sigil. -/
theorem Operand.read_eq_register_iff {token : Text} {r : Register} :
    read token = .ok (.register r) ↔
      ∃ name, token.trim = '%' :: name ∧ Register.named? name = some r := by
  constructor
  · intro h
    by_cases sigil : ∃ name, token.trim = '%' :: name
    · obtain ⟨name, shape⟩ := sigil
      rw [read_of_sigil shape] at h
      obtain ⟨s, found, same⟩ := map_eq_ok_iff.mp h
      cases same
      unfold Register.ofName at found
      split at found
      · cases found
        exact ⟨name, shape, ‹_›⟩
      · cases found
    · rw [read_of_not_sigil (not_exists.mp sigil)] at h
      obtain ⟨n, -, same⟩ := map_eq_ok_iff.mp h
      cases same
  · rintro ⟨name, shape, named⟩
    rw [read_of_sigil shape, Register.ofName, named]
    rfl

namespace Operand

/-- A token is a register exactly when it is the sigil and a name of that register, whose number is
below thirty-two. With any other name behind the sigil it is an unknown register, and without the
sigil a literal or unreadable. Numbers of eight bits are enough for reading a name. -/
theorem read_register_iff_names :
    (∀ token r, read token = .ok (register r) ↔
      ∃ name, token.trim = '%' :: name ∧ Register.Names r.id.toNat name) ∧
    (∀ token r, read token = .ok (register r) → r.id < 32) ∧
    (∀ token name, token.trim = '%' :: name → (∀ id, ¬Register.Names id name) →
      read token = .error (.noSuchRegister ('%' :: name))) ∧
    (∀ token name n, token.trim = '%' :: name → read token ≠ .ok (literal n)) ∧
    (∀ token, (∀ name, token.trim ≠ '%' :: name) →
      read token = (Literal.read token.trim).map literal) ∧
    ∀ name, Register.boundedNamed? name = Register.named? name := by
  refine ⟨fun token r => ?_, fun token r => exists_of_read, fun token name sigil nameless => ?_,
    fun token name n sigil => ?_, fun token => read_of_not_sigil, Register.boundedNamed?_eq⟩
  · simp only [read_eq_register_iff, Register.named?_eq_some_iff_names]
  · rw [read_of_sigil sigil, Register.ofName, Register.named?_eq_none_iff.mpr nameless]
    rfl
  · rw [read_of_sigil sigil]
    cases Register.ofName name <;> rintro ⟨⟩

/-- The last register with zeros in front of its number, and a sign in front of one. -/
theorem read_register_iff_names_signed :
    read " %R00031\t".toList = .ok (register ⟨31⟩) ∧
      read "%r+1 ".toList = .error (.noSuchRegister "%r+1".toList) := by
  have last : Register.Names 31 "R00031".toList :=
    .numbered rfl (Radix.read?_eq_some_iff_numeral.mp (by decide)) (by decide)
  have signed : ∀ id, ¬Register.Names id "r+1".toList :=
    Register.named?_eq_none_iff.mp (by decide)
  exact ⟨(read_register_iff_names.1 _ _).mpr ⟨_, by decide, last⟩,
    read_register_iff_names.2.2.1 _ _ (by decide) signed⟩

end Operand
end SoftCore
