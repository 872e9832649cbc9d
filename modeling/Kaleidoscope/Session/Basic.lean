/-
  Kaleidoscope.Session.Basic — a text run statement by statement.

  Each turn handles the statement at the current token:
    `def …`      lowered into the open unit, which is then loaded for good
    `extern …`   declared in the open unit
    an expression  wrapped into a function, loaded, run and unloaded
    a terminator   passed
  A statement that cannot be read or lowered is given up: the turn fails and, after a
  failure to read, one more token is passed, so that the next statement starts later. A
  failure of the engine is fatal; the caller may go on all the same.

  Tokens come from any source, and by default from a text that was lexed ahead.
-/

import Kaleidoscope.Parser.Statement
import Kaleidoscope.Lowering.Function
import Kaleidoscope.Engine.Machine
import Kaleidoscope.Error

namespace Kaleidoscope

inductive Outcome where
  | defined (f : Ir.Function)
  | declared (f : Ir.Function)
  /-- An expression and its value; its wrapper is unloaded already. -/
  | evaluated (wrapper : Ir.Function) (x : Float)
  | skipped
  | failed (e : Error)

inductive Turn where
  /-- The text is at its end. -/
  | over
  | done (o : Outcome)
  | fatal (e : EngineError)

structure Session (σ : Type := Parser) where
  parser : σ
  ops : Operator.Precedences := Operator.builtin
  registry : Registry := []
  /-- The open unit. -/
  unit : Ir.CompilationUnit
  engine : Engine := {}
  /-- How many units were handed to the engine. -/
  units : Nat := 0

/-- What one turn leaves: how it went, the builtins it called, the session after it. -/
structure Handled (σ : Type := Parser) where
  turn : Turn
  calls : Array Invocation := #[]
  session : Session σ

namespace Session

def newUnit (n : Nat) : Ir.CompilationUnit := { name := s!"kscope.{n}" }

def ofText (source : String) (σ : Type := Parser) [TokenSource σ] : Session σ :=
  { parser := TokenSource.ofText source, unit := newUnit 0 }

variable {σ α : Type} [TokenSource σ]

/-! ## Parts of a turn -/

/-- Reads with `x`; if that fails, one more token is passed. -/
def read (s : Session σ) (x : ReadM σ α) : Except ReadError α × Session σ :=
  match x s.parser with
  | .ok a p => (.ok a, { s with parser := p })
  | .error e p => (.error e, { s with parser := Parser.left (Parser.advance p) })

/-- Lowers with `x` into the open unit. -/
def lower (s : Session σ) (x : Lower α) : Except LoweringError α × Session σ :=
  match x { unit := s.unit, registry := s.registry, ops := s.ops } with
  | .ok a l => (.ok a, { s with unit := l.unit, registry := l.registry, ops := l.ops })
  | .error e l => (.error e, { s with unit := l.unit, registry := l.registry, ops := l.ops })

/-- Hands the open unit to the engine and opens a new one. -/
def load (s : Session σ) (tracker : Option Tracker) : Except EngineError Unit × Session σ :=
  let next := { s with unit := newUnit (s.units + 1), units := s.units + 1 }
  match s.engine.add s.unit tracker with
  | .ok () engine => (.ok (), { next with engine })
  | .error e engine => (.error e, { next with engine })

def fail (s : Session σ) (e : Error) : Handled σ := { turn := .done (.failed e), session := s }

def fault (s : Session σ) (e : EngineError) (calls : Array Invocation) : Handled σ :=
  { turn := .fatal e, calls, session := s }

/-! ## Statements -/

def handleTerminator (s : Session σ) : Handled σ :=
  match Parser.advance s.parser with
  | .ok () p => { turn := .done .skipped, session := { s with parser := p } }
  | .error e p => fail { s with parser := p } (.read e)

def handleDefinition (s : Session σ) : Handled σ :=
  match s.read (Parser.definition s.ops) with
  | (.error e, s) => s.fail (.read e)
  | (.ok d, s) =>
    match s.lower (Lowering.define d) with
    | (.error e, s) => s.fail (.lowering e)
    | (.ok f, s) =>
      match s.load none with
      | (.error e, s) => s.fault e #[]
      | (.ok (), s) => { turn := .done (.defined f), session := s }

def handleDeclaration (s : Session σ) : Handled σ :=
  match s.read Parser.declaration with
  | (.error e, s) => s.fail (.read e)
  | (.ok p, s) =>
    match s.lower (Lowering.declare p) with
    | (.error e, s) => s.fail (.lowering e)
    | (.ok f, s) => { turn := .done (.declared f), session := s }

/-- Loads the open unit under a tracker of its own, runs function `f` of it and unloads
    it again. A failure on the way leaves it loaded. -/
def evaluate (budget : Nat) (s : Session σ) (f : Ir.Function) : Option (Handled σ) :=
  let (tracker, engine) := s.engine.newTracker
  match ({ s with engine } : Session σ).load (some tracker) with
  | (.error e, s) => some (s.fault e #[])
  | (.ok (), s) =>
    match s.engine.lookup f.name with
    | .error e => some (s.fault e #[])
    | .ok symbol =>
      (s.engine.invoke budget symbol []).map fun ran =>
        match ran.result with
        | .error e => s.fault e ran.calls
        | .ok x =>
          { turn := .done (.evaluated f x)
            calls := ran.calls
            session := { s with
              engine := s.engine.release tracker
              registry := s.registry.erase f.name } }

def handleExpression (budget : Nat) (s : Session σ) : Option (Handled σ) :=
  match s.read (Parser.wrapper s.ops) with
  | (.error e, s) => some (s.fail (.read e))
  | (.ok d, s) =>
    match s.lower (Lowering.define d) with
    | (.error e, s) => some (s.fail (.lowering e))
    | (.ok f, s) => s.evaluate budget f

/-- One turn. An expression may take `budget` steps to run; `none` says that it was not
    enough. -/
def next (budget : Nat) (s : Session σ) : Option (Handled σ) :=
  match TokenSource.cur s.parser with
  | .eof => some { turn := .over, session := s }
  | .terminator => some s.handleTerminator
  | .keyword .defWord => some s.handleDefinition
  | .keyword .externWord => some s.handleDeclaration
  | _ => s.handleExpression budget

end Session

end Kaleidoscope
