import SoftCore.Machine.Image
import SoftCore.Machine.Instruction

/-! Runs that report what they do. The events of a run stand in order, and
those before a fault remain. -/

namespace SoftCore

inductive Event where
  | encoded (word : UInt32) (mnemonic : Text) (format : Format)
  | placed (p : Placement)
  | assembled (count capacity : Nat)
  deriving DecidableEq

structure Traced (α : Type) where
  events : List Event
  outcome : Except Fault α

namespace Event

def text : Event → Text
  | encoded word mnemonic format =>
    "DEBUG lanai_asm::assembler: ".toList ++ Text.ofHex 8 word.toNat ++ " mnemonic=".toList ++
      mnemonic ++ " format=".toList ++ format.name
  | placed p =>
    "TRACE lanai_asm::memory: place addr=".toList ++ Text.ofNat p.address.toNat ++
      " word=".toList ++ Text.ofNat p.word.toNat
  | assembled count capacity =>
    "DEBUG lanai_asm::assembler: assembled count=".toList ++ Text.ofNat count ++
      " capacity=".toList ++ Text.ofNat capacity

end Event

namespace Traced

def ofExcept {α : Type} (x : Except Fault α) : Traced α := ⟨[], x⟩

def emit (e : Event) : Traced Unit := ⟨[e], .ok ()⟩

/-- Go on with the value of `x`, unless it failed. -/
def andThen {α β : Type} (x : Traced α) (next : α → Traced β) : Traced β :=
  match x.outcome with
  | .ok a => ⟨x.events ++ (next a).events, (next a).outcome⟩
  | .error fault => ⟨x.events, .error fault⟩

def mapFault {α : Type} (x : Traced α) (f : Fault → Fault) : Traced α :=
  ⟨x.events, x.outcome.mapError f⟩

instance : Monad Traced where
  pure a := ofExcept (.ok a)
  bind := andThen

theorem outcome_bind {α β : Type} (x : Traced α) (next : α → Traced β) :
    (x >>= next).outcome = x.outcome >>= fun a => (next a).outcome := by
  show (x.andThen next).outcome = _
  unfold andThen
  cases x.outcome <;> rfl

theorem events_bind_of_ok {α β : Type} {x : Traced α} {a : α} (h : x.outcome = .ok a)
    (next : α → Traced β) : (x >>= next).events = x.events ++ (next a).events := by
  show (x.andThen next).events = _
  simp [andThen, h]

theorem events_bind_of_error {α β : Type} {x : Traced α} {fault : Fault}
    (h : x.outcome = .error fault) (next : α → Traced β) : (x >>= next).events = x.events := by
  show (x.andThen next).events = _
  simp [andThen, h]

/-- A value made of the outcome adds no event. -/
theorem events_bind_pure {α β : Type} (x : Traced α) (f : α → β) :
    (x >>= fun a => pure (f a)).events = x.events := by
  cases h : x.outcome with
  | ok a =>
    rw [events_bind_of_ok h]
    exact List.append_nil _
  | error fault => exact events_bind_of_error h _

end Traced
end SoftCore
