import SoftCore.Lowering

/-! The codes of operations, conditions and updates, read back from the fields
that hold them. -/

namespace SoftCore

namespace Operation

theorem code_of_shift {op : Operation} (h : op.isShift) : op.code = 7 := by
  revert h
  cases op <;> decide

theorem code_lt_of_not_shift {op : Operation} (h : op.isShift = false) : op.code < 7 := by
  revert h
  cases op <;> decide

/-- The shifts aside, the extended code has the opcode in its highest bits. -/
theorem extendedCode_of_not_shift {op : Operation} (h : op.isShift = false) :
    op.extendedCode = op.code * 32 := by
  revert h
  cases op <;> decide

/-- The operations with an opcode of their own, in the order of their opcodes. -/
def ofCode? (code : UInt8) : Option Operation := [add, addc, sub, subb, and, or, xor][code.toNat]?

def ofExtendedCode? (code : UInt8) : Option Operation :=
  if code = 0xF0 then some sh
  else if code = 0xF8 then some sha
  else if code % 32 = 0 then ofCode? (code / 32)
  else none

theorem ofCode?_code {op : Operation} (h : op.isShift = false) : ofCode? op.code = some op := by
  revert h
  cases op <;> decide

theorem ofCode?_eq_some {code : UInt8} {op : Operation} (h : ofCode? code = some op) :
    op.code = code ∧ op.isShift = false := by
  have inside : code.toNat < 7 := (List.getElem?_eq_some_iff.mp h).1
  have all : ∀ n ∈ List.range 7, ∀ op ∈ [add, addc, sub, subb, and, or, xor][n]?,
      op.code.toNat = n ∧ op.isShift = false := by decide
  obtain ⟨same, other⟩ := all code.toNat (List.mem_range.mpr inside) op h
  exact ⟨UInt8.toNat_inj.mp same, other⟩

theorem exists_ofCode? {code : UInt8} (h : code < 7) : ∃ op, ofCode? code = some op := by
  have inside : code.toNat < 7 := UInt8.lt_iff_toNat_lt.mp h
  exact ⟨_, List.getElem?_eq_getElem (by exact inside)⟩

theorem ofExtendedCode?_extendedCode (op : Operation) :
    ofExtendedCode? op.extendedCode = some op := by
  cases op <;> decide

theorem ofExtendedCode?_eq_some_iff {code : UInt8} {op : Operation} :
    ofExtendedCode? code = some op ↔ op.extendedCode = code := by
  refine ⟨fun h => ?_, fun h => h ▸ ofExtendedCode?_extendedCode op⟩
  unfold ofExtendedCode? at h
  split at h
  · cases h
    exact Eq.symm ‹_›
  · split at h
    · cases h
      exact Eq.symm ‹_›
    · split at h
      · obtain ⟨same, other⟩ := ofCode?_eq_some h
        rename_i whole
        rw [extendedCode_of_not_shift other, same, ← UInt8.toNat_inj]
        have bound := code.toNat_lt
        have clear : code.toNat % 32 = 0 := congrArg UInt8.toNat whole
        simp
        omega
      · cases h

end Operation

namespace Condition

def ofCode? (code : UInt8) : Option Condition := all[code.toNat]?

theorem ofCode?_code (c : Condition) : ofCode? c.code = some c := by
  cases c <;> decide

theorem ofCode?_eq_some {code : UInt8} {c : Condition} (h : ofCode? code = some c) :
    c.code = code := by
  have inside : code.toNat < 16 := (List.getElem?_eq_some_iff.mp h).1
  have each : ∀ n ∈ List.range 16, ∀ c ∈ all[n]?, c.code.toNat = n := by decide
  exact UInt8.toNat_inj.mp (each code.toNat (List.mem_range.mpr inside) c h)

theorem code_lt (c : Condition) : c.code < 16 := by cases c <;> decide

theorem exists_ofCode? {code : UInt8} (h : code < 16) : ∃ c, ofCode? code = some c := by
  have inside : code.toNat < 16 := UInt8.lt_iff_toNat_lt.mp h
  exact ⟨_, List.getElem?_eq_getElem (by exact inside)⟩

end Condition

namespace AccessBits

/-- The update of an access, read off the two bits that tell its kind. -/
def update (bits : AccessBits) : Update :=
  match bits.p, bits.q with
  | true, true => .before
  | false, true => .after
  | _, false => .never

theorem ofAccess_clear_iff {access : Access} {update : Update} {offset : Int} :
    offset = 0 ↔ (ofAccess access update offset).p = false ∧
      (ofAccess access update offset).q = false := by
  cases update <;> simp [ofAccess]

theorem update_ofAccess {access : Access} {update : Update} {offset : Int}
    (settled : offset = 0 → update = .never) : (ofAccess access update offset).update = update := by
  by_cases none : offset = 0
  · rw [settled none]
    simp [ofAccess, AccessBits.update]
  · cases update <;> simp [ofAccess, AccessBits.update, none]

/-- Bits that go with their offset are those of the access they stand for. -/
theorem ofAccess_update {bits : AccessBits} {offset : UInt64}
    (agree : offset = 0 ↔ bits.p = false ∧ bits.q = false) :
    ofAccess (if bits.store then .store else .load) bits.update offset.toNat = bits := by
  have zero : (offset.toNat : Int) = 0 ↔ offset = 0 := by
    rw [← UInt64.toNat_inj]
    simp
  obtain ⟨store, p, q⟩ := bits
  by_cases none : offset = 0
  · obtain ⟨rfl, rfl⟩ := agree.mp none
    cases store <;> simp [ofAccess, none]
  · cases p <;> cases q <;> cases store <;> simp_all [ofAccess, update]

end AccessBits
end SoftCore
