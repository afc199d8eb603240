import SoftCore.Fault
import SoftCore.Text.Split

/-! Mnemonics `base[.condition][.f]`. The condition belongs to `sel` alone and
must stand there, so `sel.f` selects on the condition that is never true; a
flag suffix comes last. Each mnemonic has one spelling, `Mnemonic.text`. -/

namespace SoftCore

/-- Arithmetic and logic; `sh` shifts logically and `sha` arithmetically. -/
inductive Operation where
  | add
  | addc
  | sub
  | subb
  | and
  | or
  | xor
  | sh
  | sha
  deriving DecidableEq

/-- Predicates on the status word, in the order of their codes. -/
inductive Condition where
  | t
  | f
  | hi
  | ls
  | cc
  | cs
  | ne
  | eq
  | vc
  | vs
  | pl
  | mi
  | ge
  | lt
  | gt
  | le
  deriving DecidableEq

inductive Access where
  | load
  | store
  deriving DecidableEq

inductive Family where
  | arithmetic (op : Operation)
  | select (condition : Condition)
  | memory (access : Access)
  deriving DecidableEq

/-- A family together with the suffix that asks for the status word to be set. -/
structure Mnemonic where
  family : Family
  flags : Bool
  deriving DecidableEq

namespace Operation

def name : Operation → Text
  | add => "add".toList
  | addc => "addc".toList
  | sub => "sub".toList
  | subb => "subb".toList
  | and => "and".toList
  | or => "or".toList
  | xor => "xor".toList
  | sh => "sh".toList
  | sha => "sha".toList

def all : List Operation := [add, addc, sub, subb, and, or, xor, sh, sha]

theorem mem_all (op : Operation) : op ∈ all := by cases op <;> decide

/-- The code in three bits. Both shifts have the same one. -/
def code : Operation → UInt8
  | add => 0
  | addc => 1
  | sub => 2
  | subb => 3
  | and => 4
  | or => 5
  | xor => 6
  | sh => 7
  | sha => 7

/-- The code in eight bits, which tells the shifts apart. -/
def extendedCode : Operation → UInt8
  | sh => 0xF0
  | sha => 0xF8
  | op => op.code * 32

def isShift : Operation → Bool
  | sh => true
  | sha => true
  | _ => false

theorem extendedCode_injective {a b : Operation} (h : a.extendedCode = b.extendedCode) : a = b := by
  revert h
  cases a <;> cases b <;> decide

end Operation

namespace Condition

def all : List Condition := [t, f, hi, ls, cc, cs, ne, eq, vc, vs, pl, mi, ge, lt, gt, le]

def name : Condition → Text
  | t => "t".toList
  | f => "f".toList
  | hi => "hi".toList
  | ls => "ls".toList
  | cc => "cc".toList
  | cs => "cs".toList
  | ne => "ne".toList
  | eq => "eq".toList
  | vc => "vc".toList
  | vs => "vs".toList
  | pl => "pl".toList
  | mi => "mi".toList
  | ge => "ge".toList
  | lt => "lt".toList
  | gt => "gt".toList
  | le => "le".toList

theorem mem_all (c : Condition) : c ∈ all := by cases c <;> decide

/-- Codes count the conditions from zero. -/
def code (c : Condition) : UInt8 := UInt8.ofNat (all.idxOf c)

def named? (name : Text) : Option Condition := all.find? (·.name = name)

def ofName (name : Text) : Except Fault Condition :=
  match named? name with
  | some c => .ok c
  | none => .error (.noSuchCondition name)

theorem named?_name (c : Condition) : named? c.name = some c := by cases c <;> decide

theorem name_of_named? {name : Text} {c : Condition} (h : named? name = some c) : c.name = name := by
  simpa using List.find?_some h

end Condition

namespace Access

def name : Access → Text
  | load => "ld".toList
  | store => "st".toList

end Access

namespace Mnemonic

def selectName : Text := "sel".toList

/-- The base names other than `sel`, in the order in which they are listed. -/
def table : List (Text × Family) :=
  Operation.all.map (fun op => (op.name, .arithmetic op)) ++
    [Access.load, .store].map fun access => (access.name, .memory access)

/-- Whether the parts after the family ask for flags; anything but one `f` is refused. -/
def flagSuffix (name : Text) : List Text → Except Fault Bool
  | [] => .ok false
  | [['f']] => .ok true
  | _ => .error (.noSuchMnemonic name)

def readSelect (name : Text) : List Text → Except Fault Mnemonic
  | [] => .error (.noSuchMnemonic name)
  | condition :: suffix => do
    let c ← Condition.ofName condition
    let flags ← flagSuffix name suffix
    pure { family := .select c, flags }

def readListed (name base : Text) (suffix : List Text) : Except Fault Mnemonic :=
  match table.find? (·.1 = base) with
  | none => .error (.noSuchMnemonic name)
  | some (_, family) => (flagSuffix name suffix).map fun flags => { family, flags }

def readParts (name : Text) : List Text → Except Fault Mnemonic
  | [] => .error (.noSuchMnemonic name)
  | base :: suffix => if base = selectName then readSelect name suffix else readListed name base suffix

def read (name : Text) : Except Fault Mnemonic := readParts name (name.pieces '.')

def flagParts (flags : Bool) : List Text := if flags then [['f']] else []

def familyParts : Family → List Text
  | .select c => [selectName, c.name]
  | .arithmetic op => [op.name]
  | .memory access => [access.name]

def parts (m : Mnemonic) : List Text := familyParts m.family ++ flagParts m.flags

/-- The spelling that is read as this mnemonic. -/
def text (m : Mnemonic) : Text := ['.'].intercalate m.parts

theorem flagSuffix_flagParts (name : Text) (flags : Bool) :
    flagSuffix name (flagParts flags) = .ok flags := by
  cases flags <;> rfl

theorem find?_table_operation (op : Operation) :
    table.find? (·.1 = op.name) = some (op.name, .arithmetic op) := by
  cases op <;> rfl

theorem find?_table_access (access : Access) :
    table.find? (·.1 = access.name) = some (access.name, .memory access) := by
  cases access <;> rfl

theorem readParts_parts (name : Text) (m : Mnemonic) : readParts name m.parts = .ok m := by
  rcases m with ⟨op | c | access, flags⟩
  · have other : op.name ≠ selectName := by cases op <;> decide
    simp [parts, familyParts, readParts, other, readListed, find?_table_operation,
      flagSuffix_flagParts, Except.map]
  · simp [parts, familyParts, readParts, readSelect, Condition.ofName, Condition.named?_name,
      flagSuffix_flagParts, bind, Except.bind, pure, Except.pure]
  · have other : access.name ≠ selectName := by cases access <;> decide
    simp [parts, familyParts, readParts, other, readListed, find?_table_access,
      flagSuffix_flagParts, Except.map]

theorem dot_not_mem_of_mem_parts {m : Mnemonic} {p : Text} (h : p ∈ m.parts) : '.' ∉ p := by
  rcases m with ⟨op | c | access, flags⟩
  · have clean : '.' ∉ op.name := by cases op <;> decide
    cases flags <;> simp_all [parts, familyParts, flagParts]
    rcases h with rfl | rfl <;> simp [clean]
  · have clean : '.' ∉ c.name := by cases c <;> decide
    have dotless : '.' ∉ selectName := by decide
    cases flags <;> simp_all [parts, familyParts, flagParts]
    · rcases h with rfl | rfl <;> simp [clean, dotless]
    · rcases h with rfl | rfl | rfl <;> simp [clean, dotless]
  · have clean : '.' ∉ access.name := by cases access <;> decide
    cases flags <;> simp_all [parts, familyParts, flagParts]
    rcases h with rfl | rfl <;> simp [clean]

theorem read_text (m : Mnemonic) : read m.text = .ok m := by
  have filled : m.parts ≠ [] := by
    rcases m with ⟨op | c | access, flags⟩ <;> simp [parts, familyParts]
  rw [read, text, Text.pieces_intercalate filled fun p hp => dot_not_mem_of_mem_parts hp,
    readParts_parts]

end Mnemonic
end SoftCore
