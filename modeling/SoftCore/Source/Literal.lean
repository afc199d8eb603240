import SoftCore.Fault

/-! Integer literals: an optional minus sign, then decimal digits or hexadecimal
digits after `0x`, blanks around it ignored. The magnitude stays below `2 ^ 63`,
so a literal and its negative are both readable or both refused. -/

namespace SoftCore.Literal

def limit : Nat := 0x8000000000000000

/-- The number of a run of digits, `flaw` being the complaint about anything else. -/
def magnitude (token : Text) (radix : Radix) (flaw : Flaw) (digits : Text) : Except Fault Nat :=
  match radix.read? digits with
  | none => .error (.unreadable token flaw)
  | some n => if n < limit then .ok n else .error (.unreadable token .literalRange)

/-- A literal without its sign. -/
def unsigned (token body : Text) : Except Fault Nat :=
  match body.afterHexMark? with
  | some digits => magnitude token .hexadecimal .hexDigits digits
  | none => magnitude token .decimal .notRegisterOrLiteral body

def read (token : Text) : Except Fault Int :=
  match token.trim with
  | '-' :: body => (unsigned token body).map fun n : Nat => -(n : Int)
  | body => (unsigned token body).map fun n : Nat => (n : Int)

theorem magnitude_eq_ok_iff {token digits : Text} {radix : Radix} {flaw : Flaw} {n : Nat} :
    magnitude token radix flaw digits = .ok n ↔ radix.read? digits = some n ∧ n < limit := by
  unfold magnitude
  cases h : radix.read? digits with
  | none => simp
  | some m =>
    by_cases hm : m < limit
    · simp only [hm, if_true, Except.ok.injEq, Option.some.injEq]
      exact ⟨fun e => ⟨e, e ▸ hm⟩, fun e => e.1⟩
    · simp only [hm, if_false, Option.some.injEq, reduceCtorEq, false_iff, not_and]
      exact fun e => e ▸ hm

theorem natAbs_lt_of_read {token : Text} {n : Int} (h : read token = .ok n) : n.natAbs < limit := by
  have bound : ∀ {body : Text} {m : Nat}, unsigned token body = .ok m → m < limit := by
    intro body m hm
    unfold unsigned at hm
    split at hm <;> exact (magnitude_eq_ok_iff.mp hm).2
  unfold read at h
  split at h
  all_goals
    obtain ⟨m, hm, rfl⟩ := Fault.map_eq_ok_iff.mp h
    simpa using bound hm

end SoftCore.Literal
