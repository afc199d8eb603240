import SoftCore.Interchange.Program
import SoftCore.Json.Reader
import SoftCore.Listing
import SoftCore.Text.LowerCase
import SoftCore.Text.Utf8

/-! Program files. The extension of the name tells the form: `json` in either
letter case for a JSON object, anything else for a listing. -/

namespace SoftCore

inductive LoadFault where
  | missing (name : Text)
  | notUtf8 (name : Text)
  | notJson (name : Text)
  | listing (fault : ListingFault)
  deriving DecidableEq

namespace LoadFault

def noSuchFile : Text := "No such file or directory (os error 2)".toList

/-- The messages from the outermost inwards. -/
def chain : LoadFault → List Text
  | missing name => ["reading ".toList ++ name, noSuchFile]
  | notUtf8 name => ["reading ".toList ++ name, "stream did not contain valid UTF-8".toList]
  | notJson name => ["parsing ".toList ++ name]
  | listing fault => fault.chain

end LoadFault

namespace ProgramFile

/-- The last part of a path. -/
def baseName (path : Text) : Text := ((path.reverse.dropWhile (· = '/')).takeWhile (· ≠ '/')).reverse

/-- What follows the last dot of a name, unless only that dot precedes it or the name is `..`. -/
def extension? (path : Text) : Option Text :=
  if baseName path = ['.', '.'] then none
  else
    match Text.cut? '.' (baseName path).reverse with
    | none => none
    | some (back, front) => if front.isEmpty then none else some back.reverse

def isJson (path : Text) : Bool := (extension? path).any (·.asciiLower = "json".toList)

/-- The program that a text stands for, in the form that the name tells. -/
def ofText (name text : Text) : Except LoadFault Program :=
  if isJson name then
    match (Json.read? text).bind Program.ofJson? with
    | some p => .ok p
    | none => .error (.notJson name)
  else
    match Listing.read text with
    | .ok p => .ok p
    | .error fault => .error (.listing fault)

/-- The program in a file of the given contents, `none` standing for a file that is not there. -/
def load (name : Text) (contents : Option (List UInt8)) : Except LoadFault Program :=
  match contents with
  | none => .error (.missing name)
  | some bytes =>
    match Text.ofUtf8? bytes with
    | none => .error (.notUtf8 name)
    | some text => ofText name text

end ProgramFile
end SoftCore
