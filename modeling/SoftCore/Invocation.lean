import SoftCore.ProgramFile
import SoftCore.Report

/-! One run of the command: a program file, the size of the image, what to
report and where to. The program is loaded, then assembled, then reported; the
first of these that fails ends the run with its message and the causes below it,
and nothing is reported. -/

namespace SoftCore

inductive ListingForm where
  | text
  | json
  deriving DecidableEq

inductive Command where
  | hex
  | bin
  | listing (form : ListingForm)
  deriving DecidableEq

structure Invocation where
  size : Nat
  input : Text
  command : Command
  out : Option Text
  deriving DecidableEq

inductive Failure where
  | loading (fault : LoadFault)
  | assembling (name : Text) (fault : Fault)
  | listing (fault : Fault)
  | writing (name : Text)
  deriving DecidableEq

/-- What a run leaves behind. -/
structure Outcome where
  success : Bool
  stdout : List UInt8
  stderr : Text
  saved : Option (List UInt8)
  deriving DecidableEq

namespace Failure

/-- The messages from the outermost inwards. -/
def chain : Failure → List Text
  | loading fault => fault.chain
  | assembling name fault => ("assembling ".toList ++ name) :: fault.chain
  | listing fault => fault.chain
  | writing name => ["writing ".toList ++ name, LoadFault.noSuchFile]

def indented (margin : Nat) (message : Text) : Text :=
  message.flatMap fun c => if c = '\n' then '\n' :: List.replicate margin ' ' else [c]

def numbered (number : Nat) : List Text → Text
  | [] => []
  | cause :: rest =>
    List.replicate 4 ' ' ++ Text.ofNat number ++ ": ".toList ++ indented 7 cause ++
      '\n' :: numbered (number + 1) rest

def causes : List Text → Text
  | [] => []
  | [cause] => "\nCaused by:\n".toList ++ List.replicate 4 ' ' ++ indented 4 cause ++ ['\n']
  | several => "\nCaused by:\n".toList ++ numbered 0 several

/-- The report of a failure: its outermost message, and the causes below it. -/
def report (failure : Failure) : Text :=
  match failure.chain with
  | [] => []
  | top :: below => "Error: ".toList ++ top ++ '\n' :: causes below

end Failure

namespace Command

/-- The bytes that a command reports. -/
def report (image : Image) (p : Program) : Command → Except Fault (List UInt8)
  | hex => .ok (Report.hexLines image).utf8
  | bin => .ok image.bytes.toList
  | listing .text => (Report.rows image p.entries).map fun rows => (Report.rowsText rows).utf8
  | listing .json =>
    (Report.rows image p.entries).map fun rows => (Report.rowsJson rows ++ ['\n']).utf8

end Command

namespace Invocation

/-- The bytes to report, given the contents of the program file. -/
def run (i : Invocation) (contents : Option (List UInt8)) : Except Failure (List UInt8) := do
  let p ← (ProgramFile.load i.input contents).mapError Failure.loading
  let image ← (Assembly.assemble p.entries i.size).mapError (Failure.assembling i.input)
  (i.command.report image p).mapError Failure.listing

def failed (failure : Failure) : Outcome :=
  { success := false, stdout := [], stderr := failure.report, saved := none }

/-- The outcome of a run; `writable` tells whether the file to write to can be made. -/
def outcome (i : Invocation) (contents : Option (List UInt8)) (writable : Bool) : Outcome :=
  match i.run contents with
  | .error failure => failed failure
  | .ok bytes =>
    match i.out with
    | none => { success := true, stdout := bytes, stderr := [], saved := none }
    | some name =>
      if writable then { success := true, stdout := [], stderr := [], saved := some bytes }
      else failed (.writing name)

end Invocation
end SoftCore
