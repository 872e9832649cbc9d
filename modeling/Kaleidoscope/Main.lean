/-
  Kaleidoscope.Main — the command.
-/

import Kaleidoscope.CommandLine

namespace Kaleidoscope.CommandLine

/-- More steps than any run takes. -/
def budget : Nat := Nat.pow 2 62

def failureOf : IO.Error → ReadFailure
  | .noFileOrDirectory .. => .missing
  | .inappropriateType .. => .directory
  | e => .other (toString e)

def readSource (path : String) : IO (Except ReadFailure String) := do
  try
    let bytes ← IO.FS.readBinFile path
    return decode bytes
  catch e => return .error (failureOf e)

end Kaleidoscope.CommandLine

open Kaleidoscope.CommandLine in
def main (args : List String) : IO UInt32 := do
  let stderr ← IO.getStderr
  match parse? args with
  | none =>
    stderr.putStr usage
    return 2
  | some o =>
    match run o budget (← readSource o.path) with
    | none => return 1
    | some exit =>
      stderr.write (ByteArray.mk exit.output.toArray)
      stderr.flush
      return exit.code
