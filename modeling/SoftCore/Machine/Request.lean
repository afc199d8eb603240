import SoftCore.Machine.Image

/-! Requests to a memory, served in place one after the other. A fault ends a
request and undoes nothing: what was stored before it stays stored, and the next
request is served on what the one before has left. -/

namespace SoftCore

/-- Work on an image in place. -/
abbrev InPlace := EStateM Fault Image

namespace InPlace

def check (address : UInt32) : InPlace Unit := do
  let image ← get
  unless image.fits address do
    throw (.outOfImage address image.capacity)

def write (p : Placement) : InPlace Unit := do
  check p.address
  modify (·.store p)

/-- All addresses are checked before the first word is written, and each again at its turn. -/
def writeAll (placements : List Placement) : InPlace Unit := do
  placements.forM (check ·.address)
  placements.forM write

def read (address : UInt32) : InPlace UInt32 := do
  let image ← get
  ofExcept (image.read address)

theorem check_of_fits {image : Image} {address : UInt32} (h : image.fits address) :
    check address image = .ok () image := by
  show (unless image.fits address do throw (.outOfImage address image.capacity) : InPlace Unit)
    image = _
  rw [h]
  rfl

theorem check_of_not_fits {image : Image} {address : UInt32} (h : image.fits address = false) :
    check address image = .error (.outOfImage address image.capacity) image := by
  show (unless image.fits address do throw (.outOfImage address image.capacity) : InPlace Unit)
    image = _
  rw [h]
  rfl

end InPlace

inductive Request where
  | write (p : Placement)
  | writeAll (placements : List Placement)
  | read (address : UInt32)
  deriving DecidableEq

/-- The answer to a request that was served. -/
inductive Reply where
  | done
  | word (word : UInt32)
  deriving DecidableEq

namespace Request

def serve : Request → InPlace Reply
  | write p => do
    InPlace.write p
    pure .done
  | writeAll placements => do
    InPlace.writeAll placements
    pure .done
  | read address => do
    let word ← InPlace.read address
    pure (.word word)

def reply (r : Request) (image : Image) : Except Fault Reply :=
  match r.serve image with
  | .ok reply _ => .ok reply
  | .error fault _ => .error fault

/-- The image after a request, whether it was served or failed. -/
def left (r : Request) (image : Image) : Image :=
  match r.serve image with
  | .ok _ next => next
  | .error _ next => next

end Request

/-- The image after requests in their order, those that failed among them. -/
def Image.after (image : Image) (requests : List Request) : Image :=
  requests.foldl (fun image r => r.left image) image

end SoftCore
