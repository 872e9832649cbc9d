/-
  Kaleidoscope.Lowering.Basic — the state in which functions are lowered.

  A unit is open and takes the functions; the registry and the operator table belong to
  the session. The other three describe the function in progress: its builder, the slot
  of each variable in sight, and, for each open block, what its variables hide, so that
  the end of the block brings it back.
-/

import Kaleidoscope.Ir.Builder
import Kaleidoscope.Ir.Check
import Kaleidoscope.Operator
import Kaleidoscope.Registry

namespace Kaleidoscope

inductive LoweringError where
  | unknownVariable (name : String)
  | unknownUnary (op : Char)
  | unknownBinary (op : String)
  | unknownFunction (name : String)
  | assignmentTarget
  | argumentCount (callee : String) (wanted found : Nat)
  | conflictingDeclaration (name : String) (known found : Nat)
  | redefinition (name : String)
  | parameterCount (name : String) (found declared : Nat)
  | invalidFunction (name : String) (defect : Ir.Defect)
  deriving DecidableEq, Repr

def LoweringError.message : LoweringError → String
  | unknownVariable name => s!"unknown variable name '{name}'"
  | unknownUnary op => s!"unknown unary operator '{op}'"
  | unknownBinary op => s!"unknown binary operator '{op}'"
  | unknownFunction name => s!"unknown function referenced '{name}'"
  | assignmentTarget => "destination of '=' must be a variable"
  | argumentCount callee wanted found =>
    s!"incorrect number of arguments passed to '{callee}': expected {wanted}, got {found}"
  | conflictingDeclaration name known found =>
    s!"conflicting declaration of '{name}': expected {known} parameters, got {found}"
  | redefinition name => s!"function '{name}' cannot be redefined"
  | parameterCount name found declared =>
    s!"definition of '{name}' takes {found} parameters but it was declared with {declared}"
  | invalidFunction name defect => s!"invalid function '{name}': {defect.message}"

structure Lowering where
  unit : Ir.CompilationUnit
  registry : Registry := []
  ops : Operator.Precedences := Operator.builtin
  builder : Ir.Builder := {}
  /-- The slots of the variables in sight. -/
  locals : Bindings Nat := []
  /-- What the variables of each open block hide, innermost block first and in it the
      latest variable first. -/
  scopes : List (List (String × Option Nat)) := []

/-- The state reached is kept also on failure. -/
abbrev Lower (α : Type) := EStateM LoweringError Lowering α

namespace Lowering

variable {α : Type}

def build (f : Ir.Builder → α × Ir.Builder) : Lower α := fun s =>
  .ok (f s.builder).1 { s with builder := (f s.builder).2 }

def emit (f : Ir.Builder → Ir.Builder) : Lower Unit := fun s => .ok () { s with builder := f s.builder }

/-- Runs `x` and then `after`, also if `x` fails. -/
def ensuring (x : Lower α) (after : Lowering → Lowering) : Lower α := fun s =>
  match x s with
  | .ok a s' => .ok a (after s')
  | .error e s' => .error e (after s')

/-- How many arguments the function called `name` takes. It is looked for in the unit,
    then in the registry; in the latter case it gets declared in the unit. -/
def resolve? (name : String) : Lower (Option Nat) := fun s =>
  match s.unit.find? name with
  | some f => .ok (some f.arity) s
  | none =>
    match s.registry.proto? name with
    | some p =>
      let declared := s.unit.declare p.name p.params
      .ok (some declared.1.arity) { s with unit := declared.2 }
    | none => .ok none s

def slotOf (name : String) : Lower Nat := do
  match (← get).locals.find? name with
  | some slot => pure slot
  | none => throw (.unknownVariable name)

/-! ## Variables in sight -/

def bind (name : String) (slot : Nat) (s : Lowering) : Lowering :=
  { s with locals := s.locals.insert name slot }

def restore (name : String) (hidden : Option Nat) (s : Lowering) : Lowering :=
  { s with locals := s.locals.restore name hidden }

/-- Binds a variable for the rest of the innermost open block. -/
def introduce (name : String) (slot : Nat) (s : Lowering) : Lowering :=
  let scopes := match s.scopes with
    | [] => []
    | scope :: outer => ((name, s.locals.find? name) :: scope) :: outer
  { s.bind name slot with scopes }

def openScope (s : Lowering) : Lowering := { s with scopes := [] :: s.scopes }

/-- Ends the innermost open block: what its variables hid comes back, latest first. -/
def closeScope (s : Lowering) : Lowering :=
  match s.scopes with
  | [] => s
  | scope :: outer =>
    { s with scopes := outer, locals := scope.foldl (fun l h => l.restore h.1 h.2) s.locals }

end Lowering

end Kaleidoscope
