import SoftCore.Fault
import SoftCore.Machine.Bytes

/-! The contents of program memory: a fixed number of bytes in which words stand
at any byte address, the highest byte first. A word that does not fit whole is
neither read nor written, and a list of words is written only if all of them
fit. Read in order, the bytes make words of four, the last one filled up with
zeros. -/

namespace SoftCore

structure Image where
  bytes : Array UInt8
  deriving DecidableEq

/-- A word and the address at which it is to stand. -/
structure Placement where
  address : UInt32
  word : UInt32
  deriving DecidableEq

namespace Image

def defaultSize : Nat := 32768

def zeroed (size : Nat) : Image := ⟨Array.replicate size 0⟩

def capacity (image : Image) : Nat := image.bytes.size

def fits (image : Image) (address : UInt32) : Bool := address.toNat + 4 ≤ image.capacity

/-- The word at an address where four bytes stand. -/
def read? (image : Image) (address : UInt32) : Option UInt32 := do
  let a ← image.bytes[address.toNat]?
  let b ← image.bytes[address.toNat + 1]?
  let c ← image.bytes[address.toNat + 2]?
  let d ← image.bytes[address.toNat + 3]?
  pure (Word.ofBytes a b c d)

def read (image : Image) (address : UInt32) : Except Fault UInt32 :=
  match image.read? address with
  | some word => .ok word
  | none => .error (.outOfImage address image.capacity)

/-- Put the four bytes of a word in place; bytes outside the image are lost. -/
def store (image : Image) (p : Placement) : Image :=
  ⟨(((image.bytes.setIfInBounds p.address.toNat (Word.byte p.word 0)).setIfInBounds
      (p.address.toNat + 1) (Word.byte p.word 1)).setIfInBounds
      (p.address.toNat + 2) (Word.byte p.word 2)).setIfInBounds
      (p.address.toNat + 3) (Word.byte p.word 3)⟩

def write (image : Image) (p : Placement) : Except Fault Image :=
  if image.fits p.address then .ok (image.store p)
  else .error (.outOfImage p.address image.capacity)

def storeAll (image : Image) (placements : List Placement) : Image := placements.foldl store image

/-- Write words in order up to the first that does not fit. -/
def writeEach (image : Image) : List Placement → Except Fault Image
  | [] => .ok image
  | p :: rest => image.write p >>= (writeEach · rest)

def writeAll (image : Image) (placements : List Placement) : Except Fault Image :=
  match placements.find? (!image.fits ·.address) with
  | some p => .error (.outOfImage p.address image.capacity)
  | none => image.writeEach placements

/-- Words of four bytes each, a shorter rest filled up with zeros. -/
def wordsOfBytes : List UInt8 → List UInt32
  | a :: b :: c :: d :: rest => Word.ofBytes a b c d :: wordsOfBytes rest
  | [a, b, c] => [Word.ofBytes a b c 0]
  | [a, b] => [Word.ofBytes a b 0 0]
  | [a] => [Word.ofBytes a 0 0 0]
  | [] => []

def words (image : Image) : List UInt32 := wordsOfBytes image.bytes.toList

def summary (image : Image) : Text :=
  "MemoryImage \x7b capacity: ".toList ++ Text.ofNat image.capacity ++ ", nonzero_bytes: ".toList ++
    Text.ofNat (image.bytes.toList.countP (· ≠ 0)) ++ " \x7d".toList

@[simp] theorem capacity_zeroed (size : Nat) : (zeroed size).capacity = size := by
  simp [zeroed, capacity]

@[simp] theorem capacity_store (image : Image) (p : Placement) :
    (image.store p).capacity = image.capacity := by
  simp [store, capacity]

theorem storeAll_cons (image : Image) (p : Placement) (ps : List Placement) :
    image.storeAll (p :: ps) = (image.store p).storeAll ps := by
  rw [storeAll, List.foldl_cons, storeAll]

@[simp] theorem capacity_storeAll (image : Image) (placements : List Placement) :
    (image.storeAll placements).capacity = image.capacity := by
  induction placements generalizing image with
  | nil => rfl
  | cons p ps ih => rw [storeAll_cons, ih, capacity_store]

theorem fits_iff {image : Image} {address : UInt32} :
    image.fits address ↔ address.toNat + 4 ≤ image.bytes.size := decide_eq_true_iff

@[simp] theorem fits_store (image : Image) (p : Placement) (address : UInt32) :
    (image.store p).fits address = image.fits address := by
  simp [fits]

theorem write_of_fits {image : Image} {p : Placement} (h : image.fits p.address) :
    image.write p = .ok (image.store p) := if_pos h

/-- Words that fit before the first write fit before every later one. -/
theorem writeEach_of_fits {image : Image} {placements : List Placement}
    (h : ∀ p ∈ placements, image.fits p.address) :
    image.writeEach placements = .ok (image.storeAll placements) := by
  induction placements generalizing image with
  | nil => rfl
  | cons p rest ih =>
    rw [writeEach, write_of_fits (h p List.mem_cons_self), storeAll_cons]
    exact ih fun q hq => by simpa using h q (List.mem_cons_of_mem p hq)

theorem read?_of_fits {image : Image} {address : UInt32}
    (h : address.toNat + 4 ≤ image.bytes.size) :
    image.read? address = some (Word.ofBytes image.bytes[address.toNat]
      image.bytes[address.toNat + 1] image.bytes[address.toNat + 2]
      image.bytes[address.toNat + 3]) := by
  rw [read?, Array.getElem?_eq_getElem (by omega), Array.getElem?_eq_getElem (by omega),
    Array.getElem?_eq_getElem (by omega), Array.getElem?_eq_getElem (by omega)]
  rfl

theorem read?_eq_none_iff {image : Image} {address : UInt32} :
    image.read? address = none ↔ image.fits address = false := by
  rw [← Bool.not_eq_true, fits_iff]
  constructor
  · intro h fit
    rw [read?_of_fits fit] at h
    cases h
  · intro h
    have last : image.bytes[address.toNat + 3]? = none := Array.getElem?_eq_none (by omega)
    rw [read?, last]
    simp

end Image
end SoftCore
