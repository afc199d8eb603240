import SoftCore.Lowering
import SoftCore.Program
import SoftCore.Trace

/-! Assembling a list of lines into an image. All lines are encoded before any
address is looked at, and all addresses before any word is written, so a run
that fails has written nothing. The fault names the first line at which the run
cannot go on. -/

namespace SoftCore

/-- A line at its address with the word it encodes to. -/
structure Row where
  address : UInt32
  word : UInt32
  text : Text
  deriving DecidableEq

structure Encoding where
  mnemonic : Text
  format : Format
  word : UInt32
  deriving DecidableEq

def Row.placement (row : Row) : Placement := ⟨row.address, row.word⟩

def Entry.fault (e : Entry) (cause : Fault) : Fault := .inLine e.address e.text cause

def Row.fault (row : Row) (cause : Fault) : Fault := .inLine row.address row.text cause

namespace Encoding

def ofText (text : Text) : Except Fault Encoding := do
  let line ← SourceLine.read text
  let instruction ← Instruction.ofLine line
  let word ← instruction.toWord
  pure { mnemonic := line.mnemonic, format := instruction.format, word }

def event (e : Encoding) : Event := .encoded e.word e.mnemonic e.format

theorem ofText_eq_ok_iff {text : Text} {x : Encoding} :
    ofText text = .ok x ↔ ∃ line i, SourceLine.read text = .ok line ∧
      Instruction.ofLine line = .ok i ∧ i.toWord = .ok x.word ∧ x.mnemonic = line.mnemonic ∧
      x.format = i.format := by
  constructor
  · intro h
    obtain ⟨line, read, h⟩ := Fault.bind_eq_ok_iff.mp h
    obtain ⟨i, lowered, h⟩ := Fault.bind_eq_ok_iff.mp h
    obtain ⟨word, packed, h⟩ := Fault.bind_eq_ok_iff.mp h
    cases h
    exact ⟨line, i, read, lowered, packed, rfl, rfl⟩
  · rcases x with ⟨mnemonic, format, word⟩
    rintro ⟨line, i, read, lowered, packed, rfl, rfl⟩
    simp [ofText, read, lowered, packed, bind, Except.bind, pure, Except.pure]

end Encoding

namespace Assembly

def lineWord (text : Text) : Except Fault UInt32 := (Encoding.ofText text).map Encoding.word

def encodeAll : List Entry → Traced (List Row)
  | [] => pure []
  | e :: rest => do
    let encoding ← Traced.ofExcept ((Encoding.ofText e.text).mapError e.fault)
    Traced.emit encoding.event
    let rows ← encodeAll rest
    pure ({ address := e.address, word := encoding.word, text := e.text } :: rows)

def placeEach (image : Image) : List Placement → Traced Image
  | [] => pure image
  | p :: rest => do
    let next ← Traced.ofExcept (image.write p)
    Traced.emit (.placed p)
    placeEach next rest

def placeAll (image : Image) (placements : List Placement) : Traced Image :=
  match placements.find? (!image.fits ·.address) with
  | some p => Traced.ofExcept (.error (.outOfImage p.address image.capacity))
  | none => placeEach image placements

/-- The fault of placing rows, which knows an address alone, at the first row with that address. -/
def locate (rows : List Row) (fault : Fault) : Fault :=
  match fault with
  | .outOfImage address _ =>
    match rows.find? (·.address = address) with
    | some row => row.fault fault
    | none => fault
  | _ => fault

/-- The run that assembles the lines into an image of `size` bytes. -/
def run (entries : List Entry) (size : Nat) : Traced Image := do
  let rows ← encodeAll entries
  let image ← (placeAll (Image.zeroed size) (rows.map Row.placement)).mapFault (locate rows)
  Traced.emit (.assembled rows.length image.capacity)
  pure image

def assemble (entries : List Entry) (size : Nat) : Except Fault Image := (run entries size).outcome

theorem placeEach_of_fits {image : Image} {placements : List Placement}
    (h : ∀ p ∈ placements, image.fits p.address) :
    placeEach image placements = ⟨placements.map .placed, .ok (image.storeAll placements)⟩ := by
  induction placements generalizing image with
  | nil => rfl
  | cons p rest ih =>
    rw [placeEach, Image.write_of_fits (h p List.mem_cons_self), Image.storeAll_cons]
    have fit : ∀ q ∈ rest, (image.store p).fits q.address := fun q hq => by
      simpa using h q (List.mem_cons_of_mem p hq)
    show (Traced.emit (.placed p)).andThen (fun _ => placeEach (image.store p) rest) = _
    rw [ih fit]
    rfl

/-- Placing words reports each of them and otherwise writes them all. -/
theorem outcome_placeAll (image : Image) (placements : List Placement) :
    (placeAll image placements).outcome = image.writeAll placements := by
  unfold placeAll Image.writeAll
  cases h : placements.find? (!image.fits ·.address) with
  | some p => rfl
  | none =>
    have fit : ∀ p ∈ placements, image.fits p.address := by simpa using h
    rw [placeEach_of_fits fit, Image.writeEach_of_fits fit]

end Assembly
end SoftCore
