import SoftCore.Machine.Request
import SoftCore.Proofs.Assembled

/-! What requests to a memory leave behind. A request is served exactly when all
words that it names lie inside the image, and one that is not has changed
nothing: its addresses are checked before the first word is written, and writing
moves no bound, so none of the later checks can fail. After any requests the
image is therefore the first one under the words of those that were served, and
reading gives the bytes that were written last. -/

namespace SoftCore

namespace InPlace

theorem bind_of_ok {α β : Type} {x : InPlace α} {next : α → InPlace β} {image image' : Image}
    {a : α} (h : x image = .ok a image') : (x >>= next) image = next a image' := by
  show EStateM.bind x next image = _
  simp [EStateM.bind, h]

theorem bind_of_error {α β : Type} {x : InPlace α} {next : α → InPlace β} {image image' : Image}
    {fault : Fault} (h : x image = .error fault image') :
    (x >>= next) image = .error fault image' := by
  show EStateM.bind x next image = _
  simp [EStateM.bind, h]

theorem write_of_fits {image : Image} {p : Placement} (h : image.fits p.address) :
    write p image = .ok () (image.store p) := bind_of_ok (check_of_fits h)

theorem write_of_not_fits {image : Image} {p : Placement} (h : image.fits p.address = false) :
    write p image = .error (.outOfImage p.address image.capacity) image :=
  bind_of_error (check_of_not_fits h)

section

variable {image : Image} {placements front back : List Placement}

theorem checkEach_of_fits (h : ∀ p ∈ placements, image.fits p.address) :
    placements.forM (check ·.address) image = .ok () image := by
  induction placements with
  | nil => rfl
  | cons p rest ih =>
    obtain ⟨here, later⟩ := List.forall_mem_cons.mp h
    exact (bind_of_ok (check_of_fits here)).trans (ih later)

theorem checkEach_of_not_fits {p : Placement} (before : ∀ q ∈ front, image.fits q.address)
    (beyond : image.fits p.address = false) :
    (front ++ p :: back).forM (check ·.address) image =
      .error (.outOfImage p.address image.capacity) image := by
  induction front with
  | nil => exact bind_of_error (check_of_not_fits beyond)
  | cons q front ih =>
    obtain ⟨here, later⟩ := List.forall_mem_cons.mp before
    exact (bind_of_ok (check_of_fits here)).trans (ih later)

/-- Words that fit before the first write pass every later check. -/
theorem writeEach_of_fits (h : ∀ p ∈ placements, image.fits p.address) :
    placements.forM write image = .ok () (image.storeAll placements) := by
  induction placements generalizing image with
  | nil => rfl
  | cons p rest ih =>
    obtain ⟨here, later⟩ := List.forall_mem_cons.mp h
    rw [Image.storeAll_cons, ← ih fun q mem => by simpa using later q mem]
    exact bind_of_ok (write_of_fits here)

theorem writeAll_of_fits (h : ∀ p ∈ placements, image.fits p.address) :
    writeAll placements image = .ok () (image.storeAll placements) :=
  (bind_of_ok (checkEach_of_fits h)).trans (writeEach_of_fits h)

theorem writeAll_of_not_fits {p : Placement} (before : ∀ q ∈ front, image.fits q.address)
    (beyond : image.fits p.address = false) :
    writeAll (front ++ p :: back) image = .error (.outOfImage p.address image.capacity) image :=
  bind_of_error (checkEach_of_not_fits before beyond)

end

/-- All of the work or nothing: the image as it was is left where there is a fault. -/
def allOrNothing (image : Image) (x : Except Fault Image) : EStateM.Result Fault Image Unit :=
  match x with
  | .ok next => .ok () next
  | .error fault => .error fault image

theorem write_eq (image : Image) (p : Placement) :
    write p image = allOrNothing image (image.write p) := by
  cases fit : image.fits p.address with
  | true => rw [write_of_fits fit, Image.write_of_fits fit, allOrNothing]
  | false => rw [write_of_not_fits fit, Image.write, if_neg (by simp [fit]), allOrNothing]

theorem writeAll_eq (image : Image) (placements : List Placement) :
    writeAll placements image = allOrNothing image (image.writeAll placements) := by
  rcases all_or_first (fun p : Placement => image.fits p.address = true) placements with
    fit | ⟨front, p, back, rfl, before, beyond⟩
  · rw [writeAll_of_fits fit, Image.writeAll_of_fits fit, allOrNothing]
  · rw [Bool.not_eq_true] at beyond
    rw [writeAll_of_not_fits before beyond, Image.writeAll_of_not_fits before beyond, allOrNothing]

theorem read_of_ok {image : Image} {address word : UInt32} (h : image.read address = .ok word) :
    read address image = .ok word image := by
  show (ofExcept (image.read address) : InPlace UInt32) image = _
  rw [h]
  rfl

theorem read_of_not_fits {image : Image} {address : UInt32} (h : image.fits address = false) :
    read address image = .error (.outOfImage address image.capacity) image := by
  show (ofExcept (image.read address) : InPlace UInt32) image = _
  rw [Image.read, Image.read?_eq_none_iff.mpr h]
  rfl

end InPlace

namespace Request

/-- The addresses of the words that a request is about, in their order. -/
def addresses : Request → List UInt32
  | write p => [p.address]
  | writeAll placements => placements.map (·.address)
  | read address => [address]

/-- The words that a request asks to be stored. -/
def placements : Request → List Placement
  | write p => [p]
  | writeAll placements => placements
  | read _ => []

/-- The first of the addresses at which a word does not lie inside `size` bytes. -/
def FirstBeyond (r : Request) (size : Nat) (address : UInt32) : Prop :=
  ∃ front back, r.addresses = front ++ address :: back ∧
    (∀ a ∈ front, a.toNat + 4 ≤ size) ∧ size < address.toNat + 4

variable {r : Request} {image : Image}

theorem serve_of_fits (h : ∀ a ∈ r.addresses, image.fits a) :
    ∃ reply, r.serve image = .ok reply (image.storeAll r.placements) := by
  cases r with
  | write p =>
    exact ⟨.done, InPlace.bind_of_ok (InPlace.write_of_fits (h p.address List.mem_cons_self))⟩
  | writeAll placements =>
    exact ⟨.done, InPlace.bind_of_ok (InPlace.writeAll_of_fits (List.forall_mem_map.mp h))⟩
  | read address =>
    obtain ⟨word, found⟩ := Image.exists_read_of_fits (h address List.mem_cons_self)
    exact ⟨.word word, InPlace.bind_of_ok (InPlace.read_of_ok found)⟩

theorem not_fits_of_lt {address : UInt32} (h : image.capacity < address.toNat + 4) :
    image.fits address = false := by
  rw [← Bool.not_eq_true, Image.fits_iff]
  exact Nat.not_le.mpr h

/-- A request that is refused names its first address outside and leaves the image alone. -/
theorem serve_of_firstBeyond {address : UInt32} (h : r.FirstBeyond image.capacity address) :
    r.serve image = .error (.outOfImage address image.capacity) image := by
  obtain ⟨front, back, split, before, beyond⟩ := h
  have outside := not_fits_of_lt beyond
  cases r with
  | write p =>
    obtain ⟨rfl, rfl, rfl⟩ : front = [] ∧ address = p.address ∧ back = [] := by
      simpa [addresses, List.cons_eq_append_iff] using split
    exact InPlace.bind_of_error (InPlace.write_of_not_fits outside)
  | writeAll placements =>
    obtain ⟨early, p, late, rfl, rfl, rfl, rfl⟩ : ∃ early p late,
        placements = early ++ p :: late ∧ early.map (·.address) = front ∧ p.address = address ∧
          late.map (·.address) = back := by
      obtain ⟨early, rest, rfl, first, tail⟩ := List.map_eq_append_iff.mp split
      obtain ⟨p, late, rfl, here, last⟩ := List.map_eq_cons_iff.mp tail
      exact ⟨early, p, late, rfl, first, here, last⟩
    have fit : ∀ q ∈ early, image.fits q.address := fun q mem =>
      Image.fits_iff.mpr (before q.address (List.mem_map_of_mem mem))
    exact InPlace.bind_of_error (InPlace.writeAll_of_not_fits fit outside)
  | read a =>
    obtain ⟨rfl, rfl, rfl⟩ : front = [] ∧ address = a ∧ back = [] := by
      simpa [addresses, List.cons_eq_append_iff] using split
    exact InPlace.bind_of_error (InPlace.read_of_not_fits outside)

theorem fits_or_firstBeyond (r : Request) (image : Image) :
    (∀ a ∈ r.addresses, image.fits a) ∨ ∃ address, r.FirstBeyond image.capacity address := by
  rcases all_or_first (fun a => image.fits a = true) r.addresses with
    fit | ⟨front, a, back, split, before, beyond⟩
  · exact .inl fit
  · rw [Image.fits_iff, Nat.not_le] at beyond
    exact .inr ⟨a, front, back, split, fun x mem => Image.fits_iff.mp (before x mem), beyond⟩

/-- The words that a request has stored when it is over. -/
def stored (r : Request) (image : Image) : List Placement :=
  match r.reply image with
  | .ok _ => r.placements
  | .error _ => []

theorem left_eq_storeAll (r : Request) (image : Image) :
    r.left image = image.storeAll (r.stored image) := by
  unfold left stored reply
  rcases r.fits_or_firstBeyond image with fit | ⟨address, beyond⟩
  · obtain ⟨reply, served⟩ := serve_of_fits fit
    rw [served]
  · rw [serve_of_firstBeyond beyond]
    rfl

end Request

namespace Image

/-- The words that requests have stored, in the order in which they were stored. -/
def written (image : Image) : List Request → List Placement
  | [] => []
  | r :: rest => r.stored image ++ (r.left image).written rest

theorem after_append (image : Image) (past later : List Request) :
    image.after (past ++ later) = (image.after past).after later := List.foldl_append

/-- A session leaves the first image under the words that its requests have stored. -/
theorem after_eq_storeAll (image : Image) (requests : List Request) :
    image.after requests = image.storeAll (image.written requests) := by
  induction requests generalizing image with
  | nil => rfl
  | cons r rest ih =>
    have step : image.after (r :: rest) = (r.left image).after rest := rfl
    rw [step, ih, written, storeAll_append, ← Request.left_eq_storeAll]

@[simp] theorem capacity_after (image : Image) (requests : List Request) :
    (image.after requests).capacity = image.capacity := by
  rw [after_eq_storeAll, capacity_storeAll]

/-- Words that fit are left alike by single requests. -/
theorem after_writes_of_fits {image : Image} {placements : List Placement}
    (h : ∀ p ∈ placements, image.fits p.address) :
    image.after (placements.map .write) = image.storeAll placements := by
  induction placements generalizing image with
  | nil => rfl
  | cons p rest ih =>
    obtain ⟨here, later⟩ := List.forall_mem_cons.mp h
    have step : (Request.write p).left image = image.store p := by
      have served : (Request.write p).serve image = .ok .done (image.store p) :=
        InPlace.bind_of_ok (InPlace.write_of_fits here)
      rw [Request.left, served]
    calc image.after ((p :: rest).map .write)
      _ = ((Request.write p).left image).after (rest.map .write) := rfl
      _ = (image.store p).storeAll rest := by rw [step, ih fun q mem => by simpa using later q mem]
      _ = image.storeAll (p :: rest) := (storeAll_cons image p rest).symm

/-- The byte that the last word over it has put there, or the first image where there is none. -/
theorem getElem?_after {image : Image} {requests : List Request} {i : Nat} {b : UInt8}
    (h : (image.after requests).bytes[i]? = some b) :
    (∃ p, Word.LastOver Placement.address (image.written requests) i p ∧ b = Word.byte p.word (i - p.address.toNat)) ∨
      (∀ p ∈ image.written requests, ¬Word.Covers p.address i) ∧ image.bytes[i]? = some b := by
  rw [after_eq_storeAll] at h
  have inside : i < image.bytes.size := by
    obtain ⟨bound, -⟩ := Array.getElem?_eq_some_iff.mp h
    rwa [size_bytes_storeAll] at bound
  rcases Word.lastOver_or_uncovered Placement.address (image.written requests) i with
    ⟨p, last⟩ | uncovered
  · rw [getElem?_storeAll_of_lastOver last inside, Option.some.injEq] at h
    exact .inl ⟨p, last, h.symm⟩
  · rw [getElem?_storeAll_of_not_covers uncovered] at h
    exact .inr ⟨uncovered, h⟩

end Image

namespace Request

variable {r : Request} {image : Image}

theorem exists_fault_iff : (∃ fault, r.reply image = .error fault) ↔
    ∃ a ∈ r.addresses, image.capacity < a.toNat + 4 := by
  rcases r.fits_or_firstBeyond image with fit | ⟨address, beyond⟩
  · obtain ⟨reply, served⟩ := serve_of_fits fit
    have inside : ∀ a ∈ r.addresses, ¬image.capacity < a.toNat + 4 := fun a mem =>
      Nat.not_lt.mpr (Image.fits_iff.mp (fit a mem))
    simpa [Request.reply, served] using inside
  · have refused : r.reply image = .error (.outOfImage address image.capacity) := by
      rw [Request.reply, serve_of_firstBeyond beyond]
    obtain ⟨front, back, split, -, outside⟩ := beyond
    exact iff_of_true ⟨_, refused⟩ ⟨address, by simp [split], outside⟩

theorem refused_of_reply {fault : Fault} (h : r.reply image = .error fault) :
    r.left image = image ∧
      ∃ address, r.FirstBeyond image.capacity address ∧
        fault = .outOfImage address image.capacity := by
  rcases r.fits_or_firstBeyond image with fit | ⟨address, beyond⟩
  · obtain ⟨reply, served⟩ := serve_of_fits fit
    simp [Request.reply, served] at h
  · rw [Request.reply, serve_of_firstBeyond beyond, Except.error.injEq] at h
    exact ⟨by rw [left, serve_of_firstBeyond beyond], address, beyond, h.symm⟩

theorem fits_of_reply {reply : Reply} (h : r.reply image = .ok reply) :
    ∀ a ∈ r.addresses, image.fits a := by
  rcases r.fits_or_firstBeyond image with fit | ⟨address, beyond⟩
  · exact fit
  · rw [Request.reply, serve_of_firstBeyond beyond] at h
    cases h

theorem read_of_reply {address : UInt32} {reply : Reply}
    (h : (Request.read address).reply image = .ok reply) :
    ∃ word, reply = .word word ∧ image.read address = .ok word := by
  obtain ⟨word, found⟩ := Image.exists_read_of_fits (fits_of_reply h address List.mem_cons_self)
  have served : (Request.read address).serve image = .ok (.word word) image :=
    InPlace.bind_of_ok (InPlace.read_of_ok found)
  rw [Request.reply, served, Except.ok.injEq] at h
  exact ⟨word, h.symm, found⟩

/-- A list of words that is written leaves what its words leave when they are written singly. -/
theorem left_writeAll_of_reply {placements : List Placement} {reply : Reply}
    (h : (Request.writeAll placements).reply image = .ok reply) :
    (Request.writeAll placements).left image = image.after (placements.map .write) := by
  have fit : ∀ p ∈ placements, image.fits p.address := fun p mem =>
    fits_of_reply h p.address (List.mem_map_of_mem mem)
  rw [left_eq_storeAll, stored, h, Image.after_writes_of_fits fit]
  rfl

/-- Any request after any others. It fails exactly when one of its words lies outside, and then it
has changed nothing and names the first of them. -/
theorem reply_after (image : Image) (past : List Request) (r : Request) :
    (image.after past).capacity = image.capacity ∧
      ((∃ fault, r.reply (image.after past) = .error fault) ↔
        ∃ a ∈ r.addresses, image.capacity < a.toNat + 4) ∧
      (∀ fault, r.reply (image.after past) = .error fault →
        image.after (past ++ [r]) = image.after past ∧
          ∃ address, r.FirstBeyond image.capacity address ∧
            fault = .outOfImage address image.capacity) ∧
      (∀ placements reply, r = .writeAll placements → r.reply (image.after past) = .ok reply →
        image.after (past ++ [r]) = image.after (past ++ placements.map .write)) ∧
      ∀ address reply, r = .read address → r.reply (image.after past) = .ok reply →
        ∃ word, reply = .word word ∧ ∀ k ≤ 3,
          (∃ p, Word.LastOver Placement.address (image.written past) (address.toNat + k) p ∧
            Word.byte word k = Word.byte p.word (address.toNat + k - p.address.toNat)) ∨
          (∀ p ∈ image.written past, ¬Word.Covers p.address (address.toNat + k)) ∧
            image.bytes[address.toNat + k]? = some (Word.byte word k) := by
  have next : image.after (past ++ [r]) = r.left (image.after past) := image.after_append past [r]
  have size := image.capacity_after past
  refine ⟨size, ?_, fun fault refused => ?_, fun placements reply named served => ?_,
    fun address reply named served => ?_⟩
  · rw [exists_fault_iff, size]
  · rw [next, ← size]
    exact refused_of_reply refused
  · subst named
    rw [next, left_writeAll_of_reply served, image.after_append]
  · subst named
    obtain ⟨word, answer, found⟩ := read_of_reply served
    exact ⟨word, answer, fun k small => Image.getElem?_after (Image.getElem?_of_read found small)⟩

-- A list that reaches outside stores none of its words, not even the one that fits.
example : (Request.read 1).reply ((Image.zeroed 6).after [.write ⟨0, 0x11223344⟩,
    .writeAll [⟨1, 7⟩, ⟨3, 8⟩], .write ⟨2, 0xAABBCCDD⟩]) = .ok (.word 0x22AABBCC) := rfl

end Request
end SoftCore
