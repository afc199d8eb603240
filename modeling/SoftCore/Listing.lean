import SoftCore.Program
import SoftCore.Text.Numeral
import SoftCore.Text.Split

/-! Programs written as listings, `ADDRESS: instruction` on each line. A `#`
starts a comment, blank lines do not matter, and an address is given once. An
address is a decimal number or a hexadecimal one after `0x`, with a plus sign
allowed before its digits. -/

namespace SoftCore

inductive ListingFault where
  | missingColon (line : Nat)
  | badAddress (line : Nat) (text : Text) (flaw : NumberFlaw)
  | repeated (line : Nat) (address : UInt32)
  deriving DecidableEq

namespace ListingFault

def onLine (line : Nat) (complaint : Text) : Text :=
  "line ".toList ++ Text.ofNat line ++ ": ".toList ++ complaint

/-- The messages from the outermost inwards. -/
def chain : ListingFault → List Text
  | missingColon line => [onLine line "expected `ADDR: instruction`".toList]
  | badAddress line text flaw =>
    [onLine line ("bad address `".toList ++ text ++ "`".toList), flaw.message]
  | repeated line address =>
    [onLine line ("address ".toList ++ Text.ofHex 1 address.toNat ++ " given twice".toList)]

end ListingFault

namespace Address

def readTrimmed (t : Text) : Except NumberFlaw Nat :=
  match t.afterHexMark? with
  | some digits => Radix.hexadecimal.readUnsigned 0x100000000 digits
  | none => Radix.decimal.readUnsigned 0x100000000 t

def read (t : Text) : Except NumberFlaw UInt32 := (readTrimmed t.trim).map UInt32.ofNat

end Address

namespace Listing

def readLine (number : Nat) (p : Program) (line : Text) : Except ListingFault Program :=
  let body := Text.trim (line.upTo '#')
  if body.isEmpty then .ok p
  else
    match body.cut? ':' with
    | none => .error (.missingColon number)
    | some (front, back) =>
      match Address.read front with
      | .error flaw => .error (.badAddress number front.trim flaw)
      | .ok address =>
        if (p.lookup address).isSome then .error (.repeated number address)
        else .ok (p.insert { address, text := back.trim })

/-- Read lines in order, the first of which has the given number. -/
def readLines (number : Nat) (p : Program) : List Text → Except ListingFault Program
  | [] => .ok p
  | line :: rest =>
    match readLine number p line with
    | .error fault => .error fault
    | .ok next => readLines (number + 1) next rest

def read (t : Text) : Except ListingFault Program := readLines 1 Program.empty (t.pieces '\n')

end Listing
end SoftCore
