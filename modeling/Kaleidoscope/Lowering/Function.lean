/-
  Kaleidoscope.Lowering.Function — declarations and definitions.

  A definition is registered, and the precedence of a binary operator set, before its
  body is lowered, so that the body may use them; if the definition fails, both are as
  they were before, and the function is taken out of the unit.
-/

import Kaleidoscope.Lowering.Expression

namespace Kaleidoscope.Lowering

open Ir (Builder)

/-- The number of parameters a name is known with. -/
def knownArity? (s : Lowering) (name : String) : Option Nat :=
  ((s.registry.proto? name).map Prototype.arity).or ((s.unit.find? name).map Ir.Function.arity)

/-- Declares a function in the unit and in the registry, where a function that has its
    body keeps its prototype. -/
def declare (p : Prototype) : Lower Ir.Function := fun s =>
  match (s.knownArity? p.name).filter (· ≠ p.arity) with
  | some known => .error (.conflictingDeclaration p.name known p.arity) s
  | none =>
    let declared := s.unit.declare p.name p.params
    let registry := if s.registry.isDefined p.name then s.registry else s.registry.register p
    .ok declared.1 { s with unit := declared.2, registry }

/-- A slot for each parameter, the first of them being parameter `i`. -/
def enterParams : Nat → List String → Lower Unit
  | _, [] => pure ()
  | i, param :: params => do
    let slot ← build (Builder.alloca param)
    emit (Builder.store (.param i) slot)
    modify (bind param slot)
    enterParams (i + 1) params

/-- The body of a function, from the first block to the return. -/
def lowerBody (params : List String) (body : Expr) : Lower Ir.Body := do
  modify fun s => { s with builder := {}, locals := [], scopes := [] }
  let entry ← build (Builder.appendBlock "entry")
  emit (Builder.position entry)
  enterParams 0 params
  let ret ← build (Builder.alloca "ret")
  let v ← lower body
  emit (Builder.store v ret)
  let v ← build (Builder.load ret)
  emit (Builder.ret v)
  let built := (← get).builder.body
  modify fun s => { s with builder := {} }
  pure built

/-- Lowers a function into the unit and checks it there. -/
def lowerFunction (d : Definition) : Lower Ir.Function := do
  let declared := (← get).unit.declare d.proto.name d.proto.params
  modify fun s => { s with unit := declared.2 }
  if declared.1.arity = d.proto.arity then
    let body ← lowerBody d.proto.params d.body
    let f : Ir.Function := { name := d.proto.name, params := d.proto.params, body := some body }
    modify fun s => { s with unit := s.unit.put f }
    match (← get).unit.check f with
    | .ok () => pure f
    | .error defect => throw (.invalidFunction f.name defect)
  else throw (.parameterCount d.proto.name d.proto.arity declared.1.arity)

/-- The operator whose precedence a definition sets. -/
def operatorOf? (p : Prototype) : Option String := if p.kind = .binary then p.operator? else none

def hasBody (s : Lowering) (name : String) : Bool :=
  (s.unit.find? name).any (!·.isDeclaration) || s.registry.isDefined name

/-- Registers a function and sets its precedence. -/
def announce (p : Prototype) (s : Lowering) : Lowering :=
  let ops := match operatorOf? p with
    | some op => s.ops.insert op p.precedence
    | none => s.ops
  { s with registry := s.registry.register p, ops }

/-- Undoes `announce`, `before` being the state in which it was done, and takes the
    function out of the unit. -/
def withdraw (s : Lowering) (p : Prototype) (before : Lowering) : Lowering :=
  let ops := match operatorOf? p with
    | some op => s.ops.restore op (before.ops.find? op)
    | none => s.ops
  { s with
    unit := s.unit.remove p.name
    registry := s.registry.restore p.name (before.registry.find? p.name)
    ops }

def define (d : Definition) : Lower Ir.Function := fun s =>
  if s.hasBody d.proto.name then .error (.redefinition d.proto.name) s
  else
    match lowerFunction d (s.announce d.proto) with
    | .ok f s' => .ok f { s' with registry := s'.registry.markDefined d.proto.name }
    | .error e s' => .error e (s'.withdraw d.proto s)

end Kaleidoscope.Lowering
