/-
  Kaleidoscope.Error — everything that can go wrong, and how it is told.

  A text that cannot be read or lowered costs one statement. A failure of the engine, or
  a source that cannot be opened, ends the session. Each is told as a diagnostic: at
  which stage, with what text, and for a source why it could not be opened.
-/

import Kaleidoscope.Parser.Error
import Kaleidoscope.Lowering.Basic
import Kaleidoscope.Engine.Basic

namespace Kaleidoscope

inductive Stage where
  | lex
  | parse
  | codegen
  | session
  /-- Opening the source. -/
  | io
  deriving DecidableEq, Repr

/-- Whether a failure at this stage ends the session. -/
def Stage.isFatal : Stage → Bool
  | session => true
  | io => true
  | _ => false

structure Diagnostic where
  stage : Stage
  text : String
  cause : Option String := none
  deriving DecidableEq, Repr

namespace Diagnostic

/-- The diagnostic without its cause. -/
def message (d : Diagnostic) : String :=
  match d.stage with
  | .lex => s!"lex error: {d.text}"
  | .parse => s!"parse error: {d.text}"
  | .codegen => s!"codegen error: {d.text}"
  | .session => s!"session error: {d.text}"
  | .io => s!"failed to read '{d.text}'"

def line (d : Diagnostic) : String :=
  let cause := (d.cause.map fun c => s!": {c}").getD ""
  s!"Error: {d.message}{cause}\n"

end Diagnostic

inductive Error where
  | read (e : ReadError)
  | lowering (e : LoweringError)
  | engine (e : EngineError)
  deriving DecidableEq, Repr

def Error.diagnostic : Error → Diagnostic
  | read (.lexical e) => { stage := .lex, text := e.message }
  | read (.grammar e) => { stage := .parse, text := e.message }
  | lowering e => { stage := .codegen, text := e.message }
  | engine e => { stage := .session, text := e.message }

end Kaleidoscope
