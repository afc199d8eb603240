import Mathlib.Data.List.Forall2
import SoftCore.Proofs.Accepted

/-! What comes of a line, up to what its fault quotes. Two lines come to the
same when they have the same mnemonic and operands that read alike, slot by
slot. Everything that a change of spelling has to keep is in `Operand.Alike`. -/

namespace SoftCore

namespace Fault

/-- The kind of a fault, whatever it quotes. -/
def kind (fault : Fault) : Nat := fault.ctorIdx

/-- The result of a computation, or the kind of its fault. -/
def verdict {α : Type} (x : Except Fault α) : Except Nat α := x.mapError kind

variable {α β : Type}

/-- Two computations come to the same when they give one result or fail in one way. -/
theorem verdict_eq_verdict_iff {x y : Except Fault α} : verdict x = verdict y ↔
    (∃ a, x = .ok a ∧ y = .ok a) ∨ ∃ f g, x = .error f ∧ y = .error g ∧ f.kind = g.kind := by
  cases x <;> cases y <;> simp [verdict, Except.mapError, eq_comm]

theorem map_eq_error_iff {x : Except Fault α} {f : α → β} {fault : Fault} :
    x.map f = .error fault ↔ x = .error fault := by
  cases x <;> simp [Except.map]

theorem verdict_map (x : Except Fault α) (f : α → β) : verdict (x.map f) = (verdict x).map f := by
  cases x <;> rfl

theorem verdict_bind (x : Except Fault α) (f : α → Except Fault β) :
    verdict (x >>= f) = verdict x >>= fun a => verdict (f a) := by
  cases x <;> rfl

theorem verdict_bind_congr {x y : Except Fault α} {f g : α → Except Fault β}
    (same : verdict x = verdict y) (next : ∀ a, verdict (f a) = verdict (g a)) :
    verdict (x >>= f) = verdict (y >>= g) := by
  rw [verdict_bind, verdict_bind, same]
  exact congrArg (verdict y >>= ·) (funext next)

end Fault

open Fault

/-- Two tokens that every reader of operands takes for the same thing. -/
structure Operand.Alike (x y : Text) : Prop where
  operand : verdict (Operand.read x) = verdict (Operand.read y)
  bracket : '[' ∈ x ↔ '[' ∈ y
  reference : verdict (MemoryReference.read x) = verdict (MemoryReference.read y)
  filled : x.isEmpty = y.isEmpty

theorem Operand.Alike.refl (x : Text) : Alike x x := ⟨rfl, Iff.rfl, rfl, rfl⟩

namespace SourceLine

/-- Two lines of one mnemonic whose operands are alike. -/
structure Alike (s t : SourceLine) : Prop where
  mnemonic : s.mnemonic = t.mnemonic
  operands : List.Forall₂ Operand.Alike s.operands t.operands

variable {s t : SourceLine} {x y : Text}

theorem verdict_readRegister_congr (h : Operand.Alike x y) :
    verdict (s.readRegister x) = verdict (t.readRegister y) :=
  verdict_bind_congr h.operand fun operand => by cases operand <;> rfl

theorem verdict_readReference_congr (h : Operand.Alike x y) :
    verdict (s.readReference x) = verdict (t.readReference y) := by
  simp only [readReference, h.bracket]
  split
  · exact h.reference
  · rfl

end SourceLine

namespace Instruction

open SourceLine

variable {s t : SourceLine}

theorem verdict_ofArithmetic_congr (h : s.Alike t) (op : Operation) (flags : Bool) :
    verdict (ofArithmetic s op flags) = verdict (ofArithmetic t op flags) := by
  obtain ⟨name, xs⟩ := s
  obtain ⟨_, ys⟩ := t
  have slots : List.Forall₂ Operand.Alike xs ys := h.operands
  rcases slots with _ | ⟨first, _ | ⟨second, _ | ⟨destination, _ | _⟩⟩⟩
  case cons.cons.cons.nil =>
    refine verdict_bind_congr (verdict_readRegister_congr first) fun rs1 => ?_
    refine verdict_bind_congr second.operand fun source => ?_
    exact verdict_bind_congr (verdict_readRegister_congr destination) fun rd => rfl
  all_goals rfl

theorem verdict_ofSelect_congr (h : s.Alike t) (condition : Condition) (flags : Bool) :
    verdict (ofSelect s condition flags) = verdict (ofSelect t condition flags) := by
  obtain ⟨name, xs⟩ := s
  obtain ⟨_, ys⟩ := t
  have slots : List.Forall₂ Operand.Alike xs ys := h.operands
  rcases slots with _ | ⟨first, _ | ⟨second, _ | ⟨destination, _ | _⟩⟩⟩
  case cons.cons.cons.nil =>
    refine verdict_bind_congr (verdict_readRegister_congr first) fun rs1 => ?_
    refine verdict_bind_congr (verdict_readRegister_congr second) fun rs2 => ?_
    exact verdict_bind_congr (verdict_readRegister_congr destination) fun rd => rfl
  all_goals rfl

theorem verdict_ofMemory_congr (h : s.Alike t) (access : Access) :
    verdict (ofMemory s access) = verdict (ofMemory t access) := by
  obtain ⟨name, xs⟩ := s
  obtain ⟨_, ys⟩ := t
  have slots : List.Forall₂ Operand.Alike xs ys := h.operands
  rcases slots with _ | ⟨first, _ | ⟨second, _ | _⟩⟩
  case cons.cons.nil =>
    -- The reference is the first slot of a load and the second of a store.
    cases access with
    | load =>
      refine verdict_bind_congr (verdict_readReference_congr first) fun m => ?_
      exact verdict_bind_congr (verdict_readRegister_congr second) fun rd => rfl
    | store =>
      refine verdict_bind_congr (verdict_readReference_congr second) fun m => ?_
      exact verdict_bind_congr (verdict_readRegister_congr first) fun rd => rfl
  all_goals rfl

theorem verdict_ofLine_congr (h : s.Alike t) : verdict (ofLine s) = verdict (ofLine t) := by
  have name : Mnemonic.read s.mnemonic = Mnemonic.read t.mnemonic := by rw [h.mnemonic]
  refine verdict_bind_congr (congrArg verdict name) fun mnemonic => ?_
  cases mnemonic.family with
  | arithmetic op => exact verdict_ofArithmetic_congr h op mnemonic.flags
  | select condition => exact verdict_ofSelect_congr h condition mnemonic.flags
  | memory access => exact verdict_ofMemory_congr h access

end Instruction

namespace Text

/-- The mnemonic of a line, in lower case. -/
def mnemonic (line : Text) : Text := lower (SourceLine.firstWord line.trim)

/-- The tokens between the commas of a line. -/
def slots (line : Text) : List Text :=
  SourceLine.operandSlots (SourceLine.afterFirstWord line.trim)

/-- Two lines that are cut into alike parts. -/
structure Alike (s t : Text) : Prop where
  blank : s.trim.isEmpty = t.trim.isEmpty
  mnemonic : s.mnemonic = t.mnemonic
  slots : List.Forall₂ Operand.Alike s.slots t.slots

end Text

namespace SourceLine

theorem any_isEmpty_congr {xs ys : List Text} (h : List.Forall₂ Operand.Alike xs ys) :
    xs.any List.isEmpty = ys.any List.isEmpty := by
  induction h with
  | nil => rfl
  | cons head _ ih => rw [List.any_cons, List.any_cons, head.filled, ih]

theorem read_eq (text : Text) : read text =
    if text.trim.isEmpty then .error (.unreadable text .emptyLine)
    else if text.slots.any List.isEmpty then .error (.unreadable text .emptyOperand)
    else .ok { mnemonic := text.mnemonic, operands := text.slots } := rfl

theorem read_eq_ok_iff {text : Text} {line : SourceLine} : read text = .ok line ↔
    text.trim ≠ [] ∧ [] ∉ text.slots ∧ line = { mnemonic := text.mnemonic, operands := text.slots } := by
  rw [read_eq]
  constructor
  · intro h
    split at h
    · cases h
    · rename_i filled
      split at h
      · cases h
      · rename_i full
        cases h
        refine ⟨fun empty => filled (List.isEmpty_iff.mpr empty), fun mem => full ?_, rfl⟩
        exact List.any_eq_true.mpr ⟨[], mem, rfl⟩
  · rintro ⟨filled, full, rfl⟩
    rw [if_neg (mt List.isEmpty_iff.mp filled), if_neg]
    rintro missing
    obtain ⟨slot, mem, empty⟩ := List.any_eq_true.mp missing
    exact full (List.isEmpty_iff.mp empty ▸ mem)

end SourceLine

/-- Lines of alike parts have the same word, or faults of the same kind. -/
theorem Text.Alike.verdict_lineWord {s t : Text} (h : s.Alike t) :
    verdict (Assembly.lineWord s) = verdict (Assembly.lineWord t) := by
  rw [Assembly.lineWord_eq, Assembly.lineWord_eq, SourceLine.read_eq, SourceLine.read_eq, h.blank,
    SourceLine.any_isEmpty_congr h.slots]
  split
  · rfl
  · split
    · rfl
    · have alike : SourceLine.Alike ⟨s.mnemonic, s.slots⟩ ⟨t.mnemonic, t.slots⟩ :=
        ⟨h.mnemonic, h.slots⟩
      show verdict (Instruction.ofLine _ >>= _) = verdict (Instruction.ofLine _ >>= _)
      exact verdict_bind_congr (Instruction.verdict_ofLine_congr alike) fun i => rfl

end SoftCore
