/-
  Kaleidoscope.CommandLine — what the command does, up to reading the file.

  The command runs one source file. Reports, what builtins write and, at the end, the
  open unit go to one channel in the order they arise. A fatal failure, or a source that
  cannot be read, is told last and gives the exit code 1; the open unit is not shown
  then.
-/

import Kaleidoscope.Session.Transcript

namespace Kaleidoscope.CommandLine

structure Options where
  path : String
  /-- Show every function once it is compiled. -/
  showIr : Bool := false
  /-- Do not show the open unit at the end. -/
  noFinalUnit : Bool := false
  deriving DecidableEq, Repr

/-- Why a source cannot be read. -/
inductive ReadFailure where
  | missing
  | directory
  | notText
  | other (cause : String)
  deriving DecidableEq, Repr

def ReadFailure.message : ReadFailure → String
  | missing => "No such file or directory (os error 2)"
  | directory => "Is a directory (os error 21)"
  | notText => "stream did not contain valid UTF-8"
  | other cause => cause

structure Exit where
  code : UInt32
  output : List UInt8
  deriving DecidableEq, Repr

/-- The text of a file. -/
def decode (bytes : ByteArray) : Except ReadFailure String :=
  match String.fromUTF8? bytes with
  | some text => .ok text
  | none => .error .notText

/-- The command on what was read. -/
def run (o : Options) (budget : Nat) (source : Except ReadFailure String) : Option Exit :=
  match source with
  | .error f =>
    let d : Diagnostic := { stage := .io, text := o.path, cause := some f.message }
    some ⟨1, d.line.toUTF8.toList⟩
  | .ok text =>
    ((Session.ofText text).run o.showIr budget).map fun t =>
      let shown := t.events.flatMap Event.output
      match t.fatal with
      | some e => ⟨1, shown ++ (Error.engine e).diagnostic.line.toUTF8.toList⟩
      | none => ⟨0, shown ++ (if o.noFinalUnit then [] else t.session.unit.text.toUTF8.toList)⟩

def usage : String := "usage: kaleidoscope [--dump-ir] [--no-final-dump] SOURCE\n"

/-- The options that arguments ask for; nothing unless they name one source. -/
def parseFrom (showIr noFinalUnit : Bool) (path : Option String) : List String → Option Options
  | [] => path.map fun p => ⟨p, showIr, noFinalUnit⟩
  | arg :: args =>
    if arg = "--dump-ir" then parseFrom true noFinalUnit path args
    else if arg = "--no-final-dump" then parseFrom showIr true path args
    else if arg.startsWith "-" || path.isSome then none
    else parseFrom showIr noFinalUnit (some arg) args

def parse? (args : List String) : Option Options := parseFrom false false none args

end Kaleidoscope.CommandLine
