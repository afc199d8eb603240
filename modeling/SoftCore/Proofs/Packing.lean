import Mathlib.Data.Set.Function
import SoftCore.Machine.Decoding

/-! Which instructions have a word. Packing succeeds exactly when every content
fits its field, and then it is a bijection onto the words that carry the tag of
a format. Otherwise it names the first content that is too wide; the room of the
word itself never runs out. -/

namespace SoftCore

namespace Field

theorem fits_ofBits_iff {name : String} {width : UInt32} {value : UInt64} {n : Nat}
    (narrow : width.toNat < 64) (size : 1 <<< width.toNat = n) :
    (ofBits name width value).fits ↔ value.toNat < n := by
  have short : ¬64 ≤ width := by
    rw [UInt32.le_iff_toNat_le]
    exact Nat.not_le_of_lt narrow
  rw [fits, ofBits, size, decide_eq_false short, Bool.false_or, decide_eq_true_iff]

theorem fits_ofRegister_iff {name : String} {r : Register} :
    (ofRegister name r).fits ↔ r.Exists := by
  rw [Register.Exists, UInt8.lt_iff_toNat_lt, ← UInt8.toNat_toUInt64]
  exact fits_ofBits_iff (by decide) rfl

theorem fits_ofBit (name : String) (b : Bool) : (ofBit name b).fits := by cases b <;> rfl

/-! Looking for the first field that does not fit. -/

theorem find?_cons_of_fits {f : Field} {fields rest : List Field} (fit : f.fits)
    (h : fields.find? (!·.fits) = rest.find? (!·.fits)) :
    (f :: fields).find? (!·.fits) = rest.find? (!·.fits) := by
  rw [List.find?_cons_of_neg (by simpa using fit), h]

theorem find?_cons_congr {f : Field} {fields rest : List Field}
    (h : fields.find? (!·.fits) = rest.find? (!·.fits)) :
    (f :: fields).find? (!·.fits) = (f :: rest).find? (!·.fits) := by
  rw [List.find?_cons, List.find?_cons, h]

end Field

namespace WordWriter

open Filling

/-- Fields whose widths leave room for all of them are refused only for their values. -/
theorem exists_pushAll_of_first_too_wide {fields : List Field} {f : Field} {w : WordWriter}
    (room : w.used.toNat + totalWidth fields ≤ 32) (first : fields.find? (!·.fits) = some f) :
    ∃ v, pushAll fields w = some (.error (.tooWide f.name f.width f.value), v) := by
  induction fields generalizing w with
  | nil => cases first
  | cons g rest ih =>
    rw [totalWidth] at room
    rw [pushAll_cons]
    cases fit : g.fits with
    | false =>
      obtain rfl : g = f := by simpa [List.find?_cons, fit] using first
      exact ⟨w, bind_of_error (push_of_not_fits fit)⟩
    | true =>
      have later : rest.find? (!·.fits) = some f := by simpa [List.find?_cons, fit] using first
      have used := toNat_add_of_lt (a := w.used) (b := g.width) (by omega)
      rw [bind_of_ok (push_of_room fit (by omega))]
      exact ih (by simp only [used]; omega) later

theorem pack_of_first_too_wide {fields : List Field} {f : Field} (room : totalWidth fields ≤ 32)
    (first : fields.find? (!·.fits) = some f) :
    pack fields = some (.error (.tooWide f.name f.width f.value)) := by
  rw [pack_eq_error_iff]
  exact exists_pushAll_of_first_too_wide (by simpa [empty] using room) first

end WordWriter

namespace Instruction

/-- Every content fits the field that it has in the word. -/
def Bounded : Instruction → Prop
  | registerImmediate opcode rd rs _ _ _ => opcode < 8 ∧ rd.Exists ∧ rs.Exists
  | registerRegister rd rs1 rs2 _ _ cond => rd.Exists ∧ rs1.Exists ∧ rs2.Exists ∧ cond < 16
  | registerMemory _ rd rs1 offset => rd.Exists ∧ rs1.Exists ∧ offset.toNat < 0x10000

open SoftCore.Field in
/-- The contents that may be too wide, in the order in which they stand in the word; of a condition
only the high bits can be. -/
def limited : Instruction → List Field
  | registerImmediate opcode rd rs _ _ _ =>
    [ofBits "opcode" 3 opcode.toUInt64, ofRegister "rd" rd, ofRegister "rs" rs]
  | registerRegister rd rs1 rs2 _ _ cond =>
    [ofRegister "rd" rd, ofRegister "rs1" rs1, ofRegister "rs2" rs2,
      ofBits "cond.hi" 3 (cond / 2).toUInt64]
  | registerMemory _ rd rs1 offset =>
    [ofRegister "rd" rd, ofRegister "rs1" rs1, ofBits "offset" 16 offset]

theorem bounded_iff {i : Instruction} : i.Bounded ↔ ∀ f ∈ i.limited, f.fits := by
  cases i with
  | registerImmediate opcode rd rs flags high constant =>
    have opcodeFits : (Field.ofBits "opcode" 3 opcode.toUInt64).fits ↔ opcode.toNat < 8 := by
      rw [← UInt8.toNat_toUInt64]
      exact Field.fits_ofBits_iff (by decide) rfl
    simp [Bounded, limited, Field.fits_ofRegister_iff, opcodeFits, UInt8.lt_iff_toNat_lt]
  | registerRegister rd rs1 rs2 flags ext cond =>
    have condFits : (Field.ofBits "cond.hi" 3 (cond / 2).toUInt64).fits ↔ cond.toNat < 16 := by
      rw [Field.fits_ofBits_iff (by decide) rfl, UInt8.toNat_toUInt64, UInt8.toNat_div]
      exact Nat.div_lt_iff_lt_mul (by decide)
    simp only [Bounded, limited, List.forall_mem_cons, Field.fits_ofRegister_iff, condFits,
      UInt8.lt_iff_toNat_lt, List.not_mem_nil, false_imp_iff, implies_true, and_true]
    rfl
  | registerMemory bits rd rs1 offset =>
    have offsetFits : (Field.ofBits "offset" 16 offset).fits ↔ offset.toNat < 0x10000 :=
      Field.fits_ofBits_iff (by decide) rfl
    simp [Bounded, limited, Field.fits_ofRegister_iff, offsetFits]

open SoftCore.Field in
/-- The tag, the single bits and the contents as wide as their type fit whatever they are. -/
theorem find?_fields (i : Instruction) :
    i.fields.find? (!·.fits) = i.limited.find? (!·.fits) := by
  cases i with
  | registerImmediate opcode rd rs flags high constant =>
    have constantFits : (ofBits "constant" 16 constant.toUInt64).fits := by
      rw [fits_ofBits_iff (n := 0x10000) (by decide) rfl, UInt16.toNat_toUInt64]
      exact constant.toNat_lt
    apply find?_cons_of_fits (by decide)
    apply find?_cons_congr
    apply find?_cons_congr
    apply find?_cons_congr
    apply find?_cons_of_fits (fits_ofBit _ _)
    apply find?_cons_of_fits (fits_ofBit _ _)
    exact find?_cons_of_fits constantFits rfl
  | registerRegister rd rs1 rs2 flags ext cond =>
    have lowFits : (ofBits "cond.lo" 1 (cond % 2).toUInt64).fits := by
      rw [fits_ofBits_iff (n := 2) (by decide) rfl, UInt8.toNat_toUInt64, UInt8.toNat_mod]
      exact Nat.mod_lt _ (by decide)
    have extFits : (ofBits "ext" 8 ext.toUInt64).fits := by
      rw [fits_ofBits_iff (n := 0x100) (by decide) rfl, UInt8.toNat_toUInt64]
      exact ext.toNat_lt
    apply find?_cons_of_fits (by decide)
    apply find?_cons_congr
    apply find?_cons_congr
    apply find?_cons_of_fits (fits_ofBit _ _)
    apply find?_cons_of_fits lowFits
    apply find?_cons_congr
    exact find?_cons_of_fits extFits rfl
  | registerMemory bits rd rs1 offset =>
    apply find?_cons_of_fits (by decide)
    apply find?_cons_of_fits (fits_ofBit _ _)
    apply find?_cons_congr
    apply find?_cons_congr
    apply find?_cons_of_fits (fits_ofBit _ _)
    exact find?_cons_of_fits (fits_ofBit _ _) rfl

theorem exists_toWord_of_bounded {i : Instruction} (h : i.Bounded) : ∃ w, i.toWord = .ok w := by
  have none : i.limited.find? (!·.fits) = none := by simpa using bounded_iff.mp h
  rw [← find?_fields] at none
  obtain ⟨w, packed, -⟩ := exists_toWord_of_fits (i := i) (by simpa using none)
  exact ⟨w, packed⟩

theorem toWord_of_first_too_wide {i : Instruction} {f : Field}
    (first : i.limited.find? (!·.fits) = some f) :
    i.toWord = .error (.tooWide f.name f.width f.value) := by
  have packed := WordWriter.pack_of_first_too_wide (Nat.le_of_eq i.totalWidth_fields)
    (find?_fields i ▸ first)
  rwa [pack_fields, Option.some.injEq] at packed

theorem bounded_or_too_wide (i : Instruction) :
    i.Bounded ∨ ∃ f, i.limited.find? (!·.fits) = some f := by
  cases first : i.limited.find? (!·.fits) with
  | none => exact .inl (bounded_iff.mpr (by simpa using first))
  | some f => exact .inr ⟨f, rfl⟩

theorem exists_toWord_iff {i : Instruction} : (∃ w, i.toWord = .ok w) ↔ i.Bounded := by
  refine ⟨fun ⟨w, packed⟩ => ?_, exists_toWord_of_bounded⟩
  rcases i.bounded_or_too_wide with bounded | ⟨f, first⟩
  · exact bounded
  · rw [toWord_of_first_too_wide first] at packed
    cases packed

theorem toWord_eq_error_iff {i : Instruction} {fault : Fault} :
    i.toWord = .error fault ↔
      ∃ f, i.limited.find? (!·.fits) = some f ∧ fault = .tooWide f.name f.width f.value := by
  constructor
  · intro failed
    rcases i.bounded_or_too_wide with bounded | ⟨f, first⟩
    · obtain ⟨w, packed⟩ := exists_toWord_of_bounded bounded
      rw [packed] at failed
      cases failed
    · rw [toWord_of_first_too_wide first] at failed
      cases failed
      exact ⟨f, first, rfl⟩
  · rintro ⟨f, first, rfl⟩
    exact toWord_of_first_too_wide first

theorem toWord_injective {i j : Instruction} {w : UInt32} (hi : i.toWord = .ok w)
    (hj : j.toWord = .ok w) : i = j := by
  have decoded := ofWord?_of_toWord hi
  rw [ofWord?_of_toWord hj] at decoded
  cases decoded
  rfl

/-- No content is named like the word itself. -/
theorem name_ne_word {i : Instruction} {f : Field} (h : f ∈ i.limited) : f.name ≠ "word".toList := by
  have names : "word".toList ∉ i.limited.map Field.name := by
    cases i <;> simp [limited, Field.ofBits, Field.ofRegister]
  exact fun same => names (same ▸ List.mem_map_of_mem h)

end Instruction

namespace Word

/-- The word begins with the tag of a format. -/
def Tagged (w : UInt32) : Prop := bits w 31 1 = 0 ∨ bits w 28 4 = 12 ∨ bits w 29 3 = 4

instance (w : UInt32) : Decidable (Tagged w) := inferInstanceAs (Decidable (_ ∨ _))

theorem tagged_iff_ofWord? {w : UInt32} : Tagged w ↔ ∃ i, Instruction.ofWord? w = some i := by
  unfold Tagged Instruction.ofWord?
  split <;> simp_all
  split <;> simp_all

theorem tagged_iff {w : UInt32} : Tagged w ↔ ∃ i : Instruction, i.toWord = .ok w := by
  rw [tagged_iff_ofWord?]
  exact exists_congr fun i => ⟨Instruction.toWord_of_ofWord?, Instruction.ofWord?_of_toWord⟩

/-- The highest bits of all other words are 101, 1101 or 111. -/
theorem not_tagged_iff {w : UInt32} :
    ¬Tagged w ↔ bits w 29 3 = 5 ∨ bits w 28 4 = 13 ∨ bits w 29 3 = 7 := by
  simp only [Tagged, bits, Nat.reduceShiftLeft]
  omega

end Word

namespace Instruction

theorem bijOn_toWord : Set.BijOn toWord {i | i.Bounded} (Except.ok '' {w | Word.Tagged w}) := by
  refine ⟨fun i bounded => ?_, fun i bounded j _ same => ?_, ?_⟩
  · obtain ⟨w, packed⟩ := exists_toWord_of_bounded bounded
    exact ⟨w, Word.tagged_iff.mpr ⟨i, packed⟩, packed.symm⟩
  · obtain ⟨w, packed⟩ := exists_toWord_of_bounded bounded
    exact toWord_injective packed (same ▸ packed)
  · rintro _ ⟨w, tagged, rfl⟩
    obtain ⟨i, packed⟩ := Word.tagged_iff.mp tagged
    exact ⟨i, exists_toWord_iff.mp ⟨w, packed⟩, packed⟩

/-- Packing is a bijection from the bounded instructions onto the words with a tag, and names the
first content that is too wide for any other instruction. -/
theorem toWord_bijection_or_first_too_wide :
    (∀ i : Instruction, (∃ w, i.toWord = .ok w) ↔ i.Bounded) ∧
      Set.BijOn toWord {i | i.Bounded} (Except.ok '' {w | Word.Tagged w}) ∧
      (∀ (i j : Instruction) (w : UInt32), i.toWord = .ok w → j.toWord = .ok w → i = j) ∧
      (∀ (i : Instruction) (w : UInt32), i.toWord = .ok w →
        Word.bits w 29 3 ≠ 5 ∧ Word.bits w 28 4 ≠ 13 ∧ Word.bits w 29 3 ≠ 7) ∧
      ∀ (i : Instruction) (fault : Fault), i.toWord = .error fault ↔
        ∃ f, i.limited.find? (!·.fits) = some f ∧ fault = .tooWide f.name f.width f.value ∧
          f.name ≠ "word".toList := by
  refine ⟨fun i => exists_toWord_iff, bijOn_toWord, fun i j w => toWord_injective,
    fun i w packed => ?_, fun i fault => ?_⟩
  · have tagged : Word.Tagged w := Word.tagged_iff.mpr ⟨i, packed⟩
    simpa only [not_or] using mt Word.not_tagged_iff.mpr (not_not_intro tagged)
  · rw [toWord_eq_error_iff]
    refine exists_congr fun f => and_congr_right fun first => ?_
    exact (and_iff_left (name_ne_word (List.mem_of_find?_eq_some first))).symm

example : (registerRegister ⟨40⟩ ⟨1⟩ ⟨33⟩ false 0 255).toWord = .error (.tooWide "rd".toList 5 40) := by
  rfl

end Instruction
end SoftCore
