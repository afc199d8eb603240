import Mathlib.Data.List.Forall2
import SoftCore.Proofs.Assembled

/-! The order in which an assembly does its work, as its events show it. First
the lines are encoded, up to the first that does not encode. Only if all of them
do and all words lie inside the image, the words are placed, and then the run
is summed up. So a run that fails has placed nothing, and the words that a
successful run says it placed make up its image. -/

namespace SoftCore

def Event.placement? : Event → Option Placement
  | placed p => some p
  | _ => none

/-- The number of entries and the capacity in an event that sums a run up. -/
def Event.summary? : Event → Option (Nat × Nat)
  | assembled count capacity => some (count, capacity)
  | _ => none

/-- Place again what the events say was placed, in their order. -/
def Image.replay (image : Image) (events : List Event) : Except Fault Image :=
  image.writeEach (events.filterMap Event.placement?)

namespace Entry

/-- The line reads, lowers and packs to the encoding. -/
def EncodesTo (e : Entry) (x : Encoding) : Prop :=
  ∃ line i, SourceLine.read e.text = .ok line ∧ Instruction.ofLine line = .ok i ∧
    i.toWord = .ok x.word ∧ x.mnemonic = line.mnemonic ∧ x.format = i.format

theorem encodesTo_iff {e : Entry} {x : Encoding} :
    e.EncodesTo x ↔ Encoding.ofText e.text = .ok x := Encoding.ofText_eq_ok_iff.symm

/-- The word of the encoding at the address of the entry. -/
def placement (e : Entry) (x : Encoding) : Placement := ⟨e.address, x.word⟩

theorem EncodesTo.lineWord {e : Entry} {x : Encoding} (h : e.EncodesTo x) :
    Assembly.lineWord e.text = .ok x.word := by
  rw [Assembly.lineWord, encodesTo_iff.mp h]
  rfl

theorem EncodesTo.placement_row {e : Entry} {x : Encoding} (h : e.EncodesTo x) :
    e.row.placement = e.placement x := by
  rw [Row.placement, row, h.lineWord]
  rfl

theorem exists_encodesTo_iff {e : Entry} : (∃ x, e.EncodesTo x) ↔ e.Encodes := by
  constructor
  · rintro ⟨x, h⟩
    exact ⟨x.word, h.lineWord⟩
  · rintro ⟨word, h⟩
    obtain ⟨x, h, -⟩ := Fault.map_eq_ok_iff.mp h
    exact ⟨x, encodesTo_iff.mpr h⟩

end Entry

namespace Assembly

/-- The longest front of `entries` whose lines all encode, and what they encode to. -/
structure EncodedFront (entries front : List Entry) (encodings : List Encoding) : Prop where
  encoded : List.Forall₂ Entry.EncodesTo front encodings
  longest : front = entries ∨ ∃ e rest, entries = front ++ e :: rest ∧ ¬e.Encodes

theorem exists_encodedFront (entries : List Entry) :
    ∃ front encodings, EncodedFront entries front encodings := by
  induction entries with
  | nil => exact ⟨[], [], .nil, .inl rfl⟩
  | cons e rest ih =>
    by_cases here : e.Encodes
    · obtain ⟨x, encoded⟩ := Entry.exists_encodesTo_iff.mpr here
      obtain ⟨front, encodings, all, longest⟩ := ih
      refine ⟨e :: front, x :: encodings, .cons encoded all, ?_⟩
      rcases longest with rfl | ⟨next, later, rfl, stuck⟩
      · exact .inl rfl
      · exact .inr ⟨next, later, rfl, stuck⟩
    · exact ⟨[], [], .nil, .inr ⟨e, rest, rfl, here⟩⟩

section

variable {entries front : List Entry} {encodings : List Encoding}

theorem encodes_of_forall₂ (h : List.Forall₂ Entry.EncodesTo front encodings) :
    ∀ e ∈ front, e.Encodes := by
  induction h with
  | nil => simp
  | cons encoded _ ih => exact List.forall_mem_cons.mpr ⟨Entry.exists_encodesTo_iff.mp ⟨_, encoded⟩, ih⟩

theorem placements_of_forall₂ (h : List.Forall₂ Entry.EncodesTo front encodings) :
    List.zipWith Entry.placement front encodings = front.map fun e => e.row.placement := by
  induction h with
  | nil => rfl
  | cons encoded _ ih => rw [List.zipWith_cons_cons, List.map_cons, ih, encoded.placement_row]

theorem EncodedFront.whole_iff (h : EncodedFront entries front encodings) :
    front = entries ↔ ∀ e ∈ entries, e.Encodes := by
  constructor
  · rintro rfl
    exact encodes_of_forall₂ h.encoded
  · intro all
    rcases h.longest with whole | ⟨e, rest, rfl, stuck⟩
    · exact whole
    · exact absurd (all e (by simp)) stuck

/-! Encoding. -/

/-- A line that encodes reports itself before the lines after it. -/
theorem events_encodeAll_cons {e : Entry} {x : Encoding} (h : e.EncodesTo x) (rest : List Entry) :
    (encodeAll (e :: rest)).events = x.event :: (encodeAll rest).events := by
  have encoded : (Traced.ofExcept ((Encoding.ofText e.text).mapError e.fault)).outcome = .ok x := by
    rw [Entry.encodesTo_iff.mp h]
    rfl
  rw [encodeAll, Traced.events_bind_of_ok encoded,
    Traced.events_bind_of_ok (x := Traced.emit x.event) rfl, Traced.events_bind_pure]
  rfl

theorem events_encodeAll_of_not_encodes {e : Entry} (h : ¬e.Encodes) (rest : List Entry) :
    (encodeAll (e :: rest)).events = [] := by
  cases fault : Encoding.ofText e.text with
  | ok x => exact absurd (Entry.exists_encodesTo_iff.mp ⟨x, Entry.encodesTo_iff.mpr fault⟩) h
  | error cause =>
    rw [encodeAll, fault]
    exact Traced.events_bind_of_error rfl _

theorem events_encodeAll_append (h : List.Forall₂ Entry.EncodesTo front encodings)
    (rest : List Entry) :
    (encodeAll (front ++ rest)).events =
      encodings.map Encoding.event ++ (encodeAll rest).events := by
  induction h with
  | nil => rfl
  | cons encoded _ ih =>
    rw [List.cons_append, events_encodeAll_cons encoded, ih]
    rfl

/-- Each line of the front reports what it encodes to, and nothing else is reported. -/
theorem EncodedFront.events (h : EncodedFront entries front encodings) :
    (encodeAll entries).events = encodings.map Encoding.event := by
  rcases h.longest with rfl | ⟨e, rest, rfl, stuck⟩
  · simpa [encodeAll, pure, Traced.ofExcept] using events_encodeAll_append h.encoded []
  · rw [events_encodeAll_append h.encoded, events_encodeAll_of_not_encodes stuck, List.append_nil]

/-! Placing. -/

theorem placeAll_of_fits {image : Image} {placements : List Placement}
    (h : ∀ p ∈ placements, image.fits p.address) :
    placeAll image placements = ⟨placements.map .placed, .ok (image.storeAll placements)⟩ := by
  have none : placements.find? (!image.fits ·.address) = none := by simpa using h
  rw [placeAll, none]
  exact placeEach_of_fits h

theorem placeAll_of_not_fits {image : Image} {placements : List Placement}
    (h : ¬∀ p ∈ placements, image.fits p.address) :
    ∃ fault, placeAll image placements = ⟨[], .error fault⟩ := by
  cases found : placements.find? (!image.fits ·.address) with
  | none => exact absurd (by simpa using found) h
  | some p => exact ⟨.outOfImage p.address image.capacity, by rw [placeAll, found]; rfl⟩

/-! What is found among the events of the phases. -/

section

variable (encodings : List Encoding) (placements : List Placement) (count capacity : Nat)

/-- The placements stand in the middle alone. -/
theorem filterMap_placement?_phases :
    (encodings.map Encoding.event ++ placements.map Event.placed ++
      [Event.assembled count capacity]).filterMap Event.placement? = placements := by
  simp [Encoding.event, Event.placement?, List.filterMap_map, Function.comp_def]

/-- Nothing but the last event sums a run up. -/
theorem filterMap_summary?_phases :
    (encodings.map Encoding.event ++ placements.map Event.placed ++
      [Event.assembled count capacity]).filterMap Event.summary? = [(count, capacity)] := by
  simp [Encoding.event, Event.summary?, List.filterMap_map, Function.comp_def]

end

/-- Replaying passes over what is not a placement. -/
theorem replay_of_fits {image : Image} {placements : List Placement} (count capacity : Nat)
    (fit : ∀ p ∈ placements, image.fits p.address) :
    image.replay (encodings.map Encoding.event ++ placements.map .placed ++
      [.assembled count capacity]) = .ok (image.storeAll placements) := by
  rw [Image.replay, filterMap_placement?_phases]
  exact Image.writeEach_of_fits fit

/-! The whole run. -/

theorem events_run_of_fits {size : Nat} (encode : ∀ e ∈ entries, e.Encodes)
    (fit : ∀ e ∈ entries, e.Fits size) :
    (run entries size).events = (encodeAll entries).events ++
      (entries.map fun e => e.row.placement).map .placed ++ [.assembled entries.length size] := by
  have placed := placeAll_of_fits (fits_placement_of_fits fit)
  rw [run, Traced.events_bind_of_ok (outcome_encodeAll_of_encodes encode), placed,
    Traced.events_bind_of_ok (x := Traced.mapFault _ _) rfl, Traced.events_bind_pure,
    List.append_assoc]
  simp [Traced.mapFault, Traced.emit, Function.comp_def]

/-- A run that stops at a line reports the lines before it and nothing more. -/
theorem events_run_of_stops {size : Nat} {e : Entry} {cause : Fault}
    (h : Stops entries size e cause) : (run entries size).events = (encodeAll entries).events := by
  cases h with
  | unencoded split before fault =>
    subst split
    exact Traced.events_bind_of_error (outcome_encodeAll_of_fault before fault) _
  | outside split encode _ beyond =>
    have outside : ¬∀ p ∈ (entries.map Entry.row).map Row.placement,
        (Image.zeroed size).fits p.address := fun all =>
      beyond (fits_zeroed_iff.mp (all e.row.placement (by simp [split])))
    obtain ⟨fault, failed⟩ := placeAll_of_not_fits outside
    rw [run, Traced.events_bind_of_ok (outcome_encodeAll_of_encodes encode), failed,
      Traced.events_bind_of_error (x := Traced.mapFault _ _) rfl]
    exact List.append_nil _

/-- The phases of a run: the front of lines that encode is reported, each line with its word, its
mnemonic and its format. Then, only if it is all of them and all of their words fit, each placement
follows and one summary. A run that fails reports no placement and no summary. -/
theorem run_phases (entries : List Entry) (size : Nat) :
    ∃ front encodings, EncodedFront entries front encodings ∧
      ((front = entries ∧ (∀ e ∈ entries, e.Fits size) ∧
          (run entries size).events =
            (encodings.map fun x => Event.encoded x.word x.mnemonic x.format) ++
              (List.zipWith Entry.placement entries encodings).map .placed ++
              [.assembled entries.length size] ∧
          (run entries size).events.filterMap Event.summary? = [(entries.length, size)] ∧
          ∃ image, (run entries size).outcome = .ok image ∧ image.capacity = size ∧
            (Image.zeroed size).replay (run entries size).events = .ok image) ∨
        (¬(front = entries ∧ ∀ e ∈ entries, e.Fits size) ∧
          (run entries size).events =
            (encodings.map fun x => Event.encoded x.word x.mnemonic x.format) ∧
          (∀ p, Event.placed p ∉ (run entries size).events) ∧
          (∀ count capacity, Event.assembled count capacity ∉ (run entries size).events) ∧
          ∃ fault, (run entries size).outcome = .error fault)) := by
  obtain ⟨front, encodings, split⟩ := exists_encodedFront entries
  refine ⟨front, encodings, split, ?_⟩
  rcases fits_or_stops entries size with ⟨encode, fit⟩ | ⟨e, cause, stop⟩
  · obtain rfl := split.whole_iff.mpr encode
    have events := events_run_of_fits encode fit
    rw [split.events] at events
    have inside := fits_placement_of_fits fit
    rw [List.map_map] at inside
    refine .inl ⟨rfl, fit, ?_, ?_, _, assemble_of_fits encode fit, by simp, ?_⟩
    · rw [placements_of_forall₂ split.encoded, events]
      rfl
    · rw [events, filterMap_summary?_phases]
    · rw [events]
      exact replay_of_fits _ _ inside
  · have failed := assemble_of_stops stop
    have events := (events_run_of_stops stop).trans split.events
    refine .inr ⟨?_, events, ?_, ?_, _, failed⟩
    · rintro ⟨whole, fit⟩
      rw [assemble_of_fits (split.whole_iff.mp whole) fit] at failed
      cases failed
    · simp [events, Encoding.event]
    · simp [events, Encoding.event]

end

end Assembly
end SoftCore
