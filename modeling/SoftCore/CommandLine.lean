import SoftCore.Invocation

/-! The words of the command line: options for the size, a program file, then a
subcommand with its own options. -/

namespace SoftCore.CommandLine

def usage : Text :=
  "Usage: [--size N] PROGRAM hex|bin [--out FILE]\n       [--size N] PROGRAM listing [--format text|json] [--out FILE]\n".toList

/-- The subcommand with the options that follow it. -/
def readOptions (i : Invocation) : List Text → Option Invocation
  | [] => some i
  | option :: value :: rest =>
    if option = "--out".toList then readOptions { i with out := some value } rest
    else if option = "--format".toList then
      match i.command with
      | .listing _ =>
        if value = "text".toList then readOptions { i with command := .listing .text } rest
        else if value = "json".toList then readOptions { i with command := .listing .json } rest
        else none
      | _ => none
    else none
  | _ => none

def command? (name : Text) : Option Command :=
  if name = "hex".toList then some .hex
  else if name = "bin".toList then some .bin
  else if name = "listing".toList then some (.listing .text)
  else none

def readProgram (size : Nat) : List Text → Option Invocation
  | input :: name :: options => do
    let command ← command? name
    readOptions { size, input, command, out := none } options
  | _ => none

def read : List Text → Option Invocation
  | option :: size :: rest =>
    if option = "--size".toList then
      (Radix.decimal.read? size).bind fun n => readProgram n rest
    else readProgram Image.defaultSize (option :: size :: rest)
  | _ => none

end SoftCore.CommandLine
