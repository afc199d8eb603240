import SoftCore.Fault
import SoftCore.Text.LowerCase

/-! General registers. Thirty-two of them exist and have the names `r0` to
`r31`, five of them a second name; a stored value may hold any eight-bit
number. Names are read in either letter case and without the leading `%`. -/

namespace SoftCore

structure Register where
  id : UInt8
  deriving DecidableEq

namespace Register

/-- A register that the machine has. -/
def Exists (r : Register) : Prop := r.id < 32

instance (r : Register) : Decidable r.Exists := inferInstanceAs (Decidable (r.id < 32))

def ofId? (id : Nat) : Option Register := if id < 32 then some ⟨UInt8.ofNat id⟩ else none

theorem exists_of_ofId? {id : Nat} {r : Register} (h : ofId? id = some r) : r.Exists := by
  unfold ofId? at h
  split at h <;> cases h
  rw [Exists, UInt8.lt_iff_toNat_lt]
  have : id < 32 := ‹_›
  simp
  omega

def aliases : List (Text × Register) :=
  [("pc".toList, ⟨2⟩), ("sw".toList, ⟨3⟩), ("rv".toList, ⟨8⟩), ("rr1".toList, ⟨10⟩),
    ("rr2".toList, ⟨11⟩)]

/-- The register of `r0`, `r1`, …, with any number of leading zeros. -/
def numbered? : Text → Option Register
  | 'r' :: digits => (Radix.decimal.read? digits).bind ofId?
  | _ => none

def named? (name : Text) : Option Register :=
  ((aliases.find? (·.1 = name.asciiLower)).map (·.2)).or (numbered? name.asciiLower)

def ofName (name : Text) : Except Fault Register :=
  match named? name with
  | some r => .ok r
  | none => .error (.noSuchRegister ('%' :: name))

def text (r : Register) : Text := '%' :: 'r' :: Text.ofNat r.id.toNat

theorem exists_of_named? {name : Text} {r : Register} (h : named? name = some r) : r.Exists := by
  rw [named?, Option.or_eq_some_iff] at h
  rcases h with h | ⟨-, h⟩
  · have small : ∀ entry ∈ aliases, entry.2.Exists := by decide
    obtain ⟨entry, found, rfl⟩ := Option.map_eq_some_iff.mp h
    exact small entry (List.mem_of_find?_eq_some found)
  · unfold numbered? at h
    split at h
    · obtain ⟨id, -, h⟩ := Option.bind_eq_some_iff.mp h
      exact exists_of_ofId? h
    · cases h

end Register
end SoftCore
