import SoftCore.Proofs.LineFaults
import SoftCore.Proofs.Overlay

/-! What an assembly does with its lines. It succeeds exactly when every line
encodes and every word lies inside the image, and each byte is then that of the
last entry whose word covers it. Otherwise it stops at one line: the first that
does not encode or, where all of them do, the first whose word lies outside. -/

namespace SoftCore

namespace Image

theorem writeAll_of_fits {image : Image} {placements : List Placement}
    (h : ∀ p ∈ placements, image.fits p.address) :
    image.writeAll placements = .ok (image.storeAll placements) := by
  have none : placements.find? (!image.fits ·.address) = none := by simpa using h
  rw [writeAll, none]
  exact writeEach_of_fits h

theorem writeAll_of_not_fits {image : Image} {front back : List Placement} {p : Placement}
    (before : ∀ q ∈ front, image.fits q.address) (beyond : image.fits p.address = false) :
    image.writeAll (front ++ p :: back) = .error (.outOfImage p.address image.capacity) := by
  have none : front.find? (!image.fits ·.address) = none := by simpa using before
  rw [writeAll, List.find?_append, none, Option.none_or, List.find?_cons_of_pos (by simp [beyond])]

end Image

namespace Entry

/-- The line encodes to a word. -/
def Encodes (e : Entry) : Prop := ∃ word, Assembly.lineWord e.text = .ok word

/-- The four bytes of the word lie in an image of `size` bytes. -/
def Fits (e : Entry) (size : Nat) : Prop := e.address.toNat + 4 ≤ size

/-- The row of the entry; its word is zero for a line that does not encode. -/
def row (e : Entry) : Row :=
  { address := e.address, word := (Assembly.lineWord e.text).toOption.getD 0, text := e.text }

end Entry

namespace Assembly

theorem outcome_encodeAll_cons (e : Entry) (rest : List Entry) :
    (encodeAll (e :: rest)).outcome =
      ((lineWord e.text).mapError e.fault) >>= fun word =>
        (encodeAll rest).outcome.map ({ address := e.address, word, text := e.text } :: ·) := by
  simp only [encodeAll, Traced.outcome_bind, Traced.ofExcept, lineWord]
  cases Encoding.ofText e.text with
  | error fault => rfl
  | ok encoding =>
    show _ = (encodeAll rest).outcome.map _
    cases (encodeAll rest).outcome <;> rfl

theorem outcome_encodeAll_of_encodes {entries : List Entry} (h : ∀ e ∈ entries, e.Encodes) :
    (encodeAll entries).outcome = .ok (entries.map Entry.row) := by
  induction entries with
  | nil => rfl
  | cons e rest ih =>
    obtain ⟨word, encoded⟩ := h e List.mem_cons_self
    rw [outcome_encodeAll_cons, ih fun x hx => h x (List.mem_cons_of_mem e hx), List.map_cons,
      Entry.row, encoded]
    rfl

theorem outcome_encodeAll_of_fault {front back : List Entry} {e : Entry} {cause : Fault}
    (before : ∀ x ∈ front, x.Encodes) (h : lineWord e.text = .error cause) :
    (encodeAll (front ++ e :: back)).outcome = .error (e.fault cause) := by
  induction front with
  | nil =>
    rw [List.nil_append, outcome_encodeAll_cons, h]
    rfl
  | cons x front ih =>
    obtain ⟨word, encoded⟩ := before x List.mem_cons_self
    rw [List.cons_append, outcome_encodeAll_cons,
      ih fun y hy => before y (List.mem_cons_of_mem x hy), encoded]
    rfl

theorem assemble_eq (entries : List Entry) (size : Nat) :
    assemble entries size = (encodeAll entries).outcome >>= fun rows =>
      ((Image.zeroed size).writeAll (rows.map Row.placement)).mapError (locate rows) := by
  simp only [assemble, run, Traced.outcome_bind, Traced.mapFault, outcome_placeAll]
  cases (encodeAll entries).outcome with
  | error fault => rfl
  | ok rows =>
    simp only [bind, Except.bind]
    cases Except.mapError (locate rows) ((Image.zeroed size).writeAll (rows.map Row.placement)) <;>
      rfl

theorem locate_row {front back : List Row} {row : Row} {capacity : Nat}
    (h : ∀ r ∈ front, r.address ≠ row.address) :
    locate (front ++ row :: back) (.outOfImage row.address capacity) =
      row.fault (.outOfImage row.address capacity) := by
  have absent : front.find? (·.address = row.address) = none := by simpa using h
  simp only [locate, List.find?_append, absent, Option.none_or]
  rw [List.find?_cons_of_pos (by simp)]

theorem fits_zeroed_iff {e : Entry} {size : Nat} :
    (Image.zeroed size).fits e.address = true ↔ e.Fits size := by
  simp [Image.fits, Entry.Fits]

theorem fits_placement_of_fits {entries : List Entry} {size : Nat}
    (fit : ∀ e ∈ entries, e.Fits size) :
    ∀ p ∈ (entries.map Entry.row).map Row.placement, (Image.zeroed size).fits p.address := by
  simp only [List.map_map, List.mem_map]
  rintro _ ⟨e, he, rfl⟩
  exact fits_zeroed_iff.mpr (fit e he)

theorem assemble_of_fits {entries : List Entry} {size : Nat} (encode : ∀ e ∈ entries, e.Encodes)
    (fit : ∀ e ∈ entries, e.Fits size) :
    assemble entries size =
      .ok ((Image.zeroed size).storeAll (entries.map fun e => e.row.placement)) := by
  rw [assemble_eq, outcome_encodeAll_of_encodes encode]
  show Except.mapError _ _ = _
  rw [Image.writeAll_of_fits (fits_placement_of_fits fit), List.map_map]
  rfl

theorem assemble_of_fault {front back : List Entry} {e : Entry} {cause : Fault} {size : Nat}
    (before : ∀ x ∈ front, x.Encodes) (h : lineWord e.text = .error cause) :
    assemble (front ++ e :: back) size = .error (e.fault cause) := by
  rw [assemble_eq, outcome_encodeAll_of_fault before h]
  rfl

/-- The row found again by its address is the one that does not fit, since an earlier row with that
address would not fit either. -/
theorem assemble_of_not_fits {front back : List Entry} {e : Entry} {size : Nat}
    (encode : ∀ x ∈ front ++ e :: back, x.Encodes) (before : ∀ x ∈ front, x.Fits size)
    (beyond : ¬e.Fits size) :
    assemble (front ++ e :: back) size = .error (e.fault (.outOfImage e.address size)) := by
  have outside : (Image.zeroed size).fits e.row.placement.address = false := by
    rw [← Bool.not_eq_true]
    exact fun h => beyond (fits_zeroed_iff.mp h)
  have elsewhere : ∀ r ∈ front.map Entry.row, r.address ≠ e.row.address := by
    simp only [List.mem_map]
    rintro _ ⟨x, hx, rfl⟩ (same : x.address = e.address)
    have fit := before x hx
    rw [Entry.Fits, same] at fit
    exact beyond fit
  rw [assemble_eq, outcome_encodeAll_of_encodes encode]
  show Except.mapError _ _ = _
  rw [List.map_append, List.map_append, List.map_cons, List.map_cons,
    Image.writeAll_of_not_fits (fits_placement_of_fits before) outside, Image.capacity_zeroed]
  exact congrArg Except.error (locate_row elsewhere)

/-- The line at which an assembly into `size` bytes stops, and the cause. -/
inductive Stops (entries : List Entry) (size : Nat) : Entry → Fault → Prop where
  | unencoded {front back : List Entry} {e : Entry} {cause : Fault}
      (split : entries = front ++ e :: back) (before : ∀ x ∈ front, x.Encodes)
      (fault : lineWord e.text = .error cause) : Stops entries size e cause
  | outside {front back : List Entry} {e : Entry} (split : entries = front ++ e :: back)
      (encode : ∀ x ∈ entries, x.Encodes) (before : ∀ x ∈ front, x.Fits size)
      (beyond : ¬e.Fits size) : Stops entries size e (.outOfImage e.address size)

theorem fits_or_stops (entries : List Entry) (size : Nat) :
    ((∀ e ∈ entries, e.Encodes) ∧ ∀ e ∈ entries, e.Fits size) ∨
      ∃ e cause, Stops entries size e cause := by
  rcases all_or_first Entry.Encodes entries with encode | ⟨front, e, back, split, before, stuck⟩
  · rcases all_or_first (Entry.Fits · size) entries with fit | ⟨front, e, back, split, before, beyond⟩
    · exact .inl ⟨encode, fit⟩
    · exact .inr ⟨e, _, .outside split encode before beyond⟩
  · cases h : lineWord e.text with
    | ok word => exact absurd ⟨word, h⟩ stuck
    | error cause => exact .inr ⟨e, cause, .unencoded split before h⟩

theorem assemble_of_stops {entries : List Entry} {size : Nat} {e : Entry} {cause : Fault}
    (h : Stops entries size e cause) : assemble entries size = .error (e.fault cause) := by
  cases h with
  | unencoded split before fault =>
    subst split
    exact assemble_of_fault before fault
  | outside split encode before beyond =>
    subst split
    exact assemble_of_not_fits encode before beyond

theorem ne_inLine_of_stops {entries : List Entry} {size : Nat} {e : Entry} {cause : Fault}
    (h : Stops entries size e cause) (address : UInt32) (text : Text) (inner : Fault) :
    cause ≠ .inLine address text inner := by
  cases h with
  | unencoded _ _ fault =>
    exact (staysLocal_lineWord e.text cause fault).ne_inLine address text inner
  | outside => exact Fault.noConfusion

theorem assemble_eq_ok_iff {entries : List Entry} {size : Nat} {image : Image} :
    assemble entries size = .ok image ↔
      ((∀ e ∈ entries, e.Encodes) ∧ ∀ e ∈ entries, e.Fits size) ∧
        image = (Image.zeroed size).storeAll (entries.map fun e => e.row.placement) := by
  rcases fits_or_stops entries size with ⟨encode, fit⟩ | ⟨e, cause, stop⟩
  · rw [assemble_of_fits encode fit, Except.ok.injEq]
    exact ⟨fun h => ⟨⟨encode, fit⟩, h.symm⟩, fun h => h.2.symm⟩
  · have stopped := assemble_of_stops stop
    constructor
    · intro h
      rw [stopped] at h
      cases h
    · rintro ⟨⟨encode, fit⟩, -⟩
      rw [assemble_of_fits encode fit] at stopped
      cases stopped

theorem exists_assemble_iff {entries : List Entry} {size : Nat} :
    (∃ image, assemble entries size = .ok image) ↔
      (∀ e ∈ entries, e.Encodes) ∧ ∀ e ∈ entries, e.Fits size := by
  simp only [assemble_eq_ok_iff, exists_and_left, exists_eq, and_true]

theorem getElem?_of_lastOver {entries : List Entry} {size i : Nat} {image : Image} {e : Entry}
    (h : assemble entries size = .ok image) (last : Word.LastOver Entry.address entries i e) :
    ∃ word, lineWord e.text = .ok word ∧
      image.bytes[i]? = some (Word.byte word (i - e.address.toNat)) := by
  obtain ⟨⟨encode, fit⟩, rfl⟩ := assemble_eq_ok_iff.mp h
  have placed : Word.LastOver Placement.address (entries.map fun e => e.row.placement) i
      e.row.placement := last.map fun _ => rfl
  obtain ⟨front, back, rfl, covers, -⟩ := last
  obtain ⟨word, encoded⟩ := encode e (by simp)
  have inside : i < (Image.zeroed size).bytes.size := by
    have whole : e.address.toNat + 4 ≤ size := fit e (by simp)
    have reach := covers.2
    simp only [Image.zeroed, Array.size_replicate]
    omega
  refine ⟨word, encoded, ?_⟩
  rw [Image.getElem?_storeAll_of_lastOver placed inside]
  simp [Row.placement, Entry.row, encoded, Except.toOption]

theorem getElem?_of_uncovered {entries : List Entry} {size i : Nat} {image : Image}
    (h : assemble entries size = .ok image) (uncovered : ∀ e ∈ entries, ¬Word.Covers e.address i) :
    image.bytes[i]? = (Image.zeroed size).bytes[i]? := by
  obtain ⟨-, rfl⟩ := assemble_eq_ok_iff.mp h
  refine Image.getElem?_storeAll_of_not_covers ?_
  simp only [List.forall_mem_map]
  exact uncovered

/-- The image of an assembly, byte by byte. -/
theorem assembled_bytes (entries : List Entry) (size : Nat) :
    ((∃ image, assemble entries size = .ok image) ↔ ∀ e ∈ entries, e.Encodes ∧ e.Fits size) ∧
      ∀ image, assemble entries size = .ok image →
        image.bytes.size = size ∧ ∀ i < size,
          (∀ e, Word.LastOver Entry.address entries i e → ∃ word, lineWord e.text = .ok word ∧
            image.bytes[i]? = some (Word.byte word (i - e.address.toNat))) ∧
          ((∀ e ∈ entries, ¬Word.Covers e.address i) → image.bytes[i]? = some 0) := by
  refine ⟨?_, fun image h => ⟨?_, fun i inside => ⟨fun e => getElem?_of_lastOver h, ?_⟩⟩⟩
  · rw [exists_assemble_iff]
    constructor
    · rintro ⟨encode, fit⟩ e mem
      exact ⟨encode e mem, fit e mem⟩
    · intro each
      exact ⟨fun e mem => (each e mem).1, fun e mem => (each e mem).2⟩
  · obtain ⟨-, rfl⟩ := assemble_eq_ok_iff.mp h
    rw [Image.size_bytes_storeAll]
    exact Image.capacity_zeroed size
  · intro uncovered
    rw [getElem?_of_uncovered h uncovered, Image.getElem?_zeroed inside]

/-- An assembly that fails blames the line at which it stops, directly around the cause. -/
theorem assemble_eq_error_iff (entries : List Entry) (size : Nat) (fault : Fault) :
    assemble entries size = .error fault ↔
      ∃ e cause, Stops entries size e cause ∧ fault = .inLine e.address e.text cause ∧
        fault.innermost = cause ∧ ∀ address text inner, cause ≠ .inLine address text inner := by
  constructor
  · intro failed
    rcases fits_or_stops entries size with ⟨encode, fit⟩ | ⟨e, cause, stop⟩
    · rw [assemble_of_fits encode fit] at failed
      cases failed
    · have bare := ne_inLine_of_stops stop
      rw [assemble_of_stops stop, Except.error.injEq] at failed
      subst failed
      exact ⟨e, cause, stop, rfl, Fault.innermost_of_ne_inLine bare, bare⟩
  · rintro ⟨e, cause, stop, rfl, -, -⟩
    exact assemble_of_stops stop

end Assembly

end SoftCore
