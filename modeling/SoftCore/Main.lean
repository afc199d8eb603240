import SoftCore.CommandLine

/-! The command itself: reads the program file, runs the library, and writes
what the run leaves behind. -/

namespace SoftCore.Terminal

/-- The bytes of a file, `none` if there is none. -/
def contentsOf (path : String) : IO (Option (List UInt8)) := do
  try
    let bytes ← IO.FS.readBinFile path
    pure (some bytes.toList)
  catch _ => pure none

/-- Write the bytes, and tell whether that was possible. -/
def save (path : String) (bytes : List UInt8) : IO Bool := do
  try
    IO.FS.writeBinFile path ⟨bytes.toArray⟩
    pure true
  catch _ => pure false

def serve (i : Invocation) : IO UInt32 := do
  let contents ← contentsOf (String.ofList i.input)
  let planned := i.outcome contents true
  let writable ← match i.out, planned.saved with
    | some name, some bytes => save (String.ofList name) bytes
    | _, _ => pure true
  let outcome := i.outcome contents writable
  (← IO.getStdout).write ⟨outcome.stdout.toArray⟩
  (← IO.getStderr).putStr (String.ofList outcome.stderr)
  pure (if outcome.success then 0 else 1)

end SoftCore.Terminal

open SoftCore in
def main (words : List String) : IO UInt32 := do
  match CommandLine.read (words.map String.toList) with
  | some i => Terminal.serve i
  | none =>
    (← IO.getStderr).putStr (String.ofList CommandLine.usage)
    pure 2
