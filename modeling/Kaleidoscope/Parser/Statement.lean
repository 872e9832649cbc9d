/-
  Kaleidoscope.Parser.Statement — prototypes and statements from tokens.

    prototype    name, `unary@c` or `binary@op` with an optional precedence, then the
                 parameters in parentheses, parted by blanks or commas
    definition   `def`, a prototype, an expression
    declaration  `extern`, a prototype
    wrapper      any other expression, as the body of a fresh function without parameters
-/

import Kaleidoscope.Parser.Expression
import Kaleidoscope.Prototype

namespace Kaleidoscope.Parser

open Source

variable {σ : Type} [TokenSource σ]

/-! ## Prototypes -/

/-- What stands before the parameters. -/
inductive Head where
  | function (name : String)
  | unary (op : Char)
  | binary (op : String) (precedence : Nat)
  deriving DecidableEq, Repr

def defaultPrecedence : Nat := 30

/-- A precedence is a number from 1 to 100; its fraction is dropped. -/
def precedenceHere : ReadM σ Nat := do
  match ← current with
  | .number x =>
    if x < 1 || 100 < x then fail .precedenceRange
    else do
      advance
      pure x.toUInt32.toNat
  | _ => pure defaultPrecedence

def head : ReadM σ Head := do
  match ← current with
  | .name name => do
    advance
    pure (.function name)
  | .keyword .unaryWord => do
    advance
    expect (.punct '@') .unaryMarker
    match ← current with
    | .punct c =>
      if c.toNat < 128 && c != '(' then do
        advance
        pure (.unary c)
      else fail .unaryOperator
    | _ => fail .unaryOperator
  | .keyword .binaryWord => do
    advance
    expect (.punct '@') .binaryMarker
    match ← takeOperator with
    | some op => do
      let precedence ← precedenceHere
      pure (.binary op precedence)
    | none => fail .binaryOperator
  | _ => fail .functionName

/-- The parameters from here on; a comma stands only between two of them (`after`: one
    came before). -/
def parametersWithin : Nat → Bool → ReadM σ (List String)
  | 0, _ => pure []
  | n + 1, after => do
    match ← current with
    | .name param => do
      advance
      let params ← parametersWithin n true
      pure (param :: params)
    | .punct ',' =>
      if after then do
        advance
        match ← current with
        | .name _ => parametersWithin n true
        | _ => fail .parameterName
      else pure []
    | _ => pure []

def parameters : ReadM σ (List String) := do
  parametersWithin (TokenSource.size (← get)) false

def prototypeOf : Head → List String → ReadM σ Prototype
  | .function name, params => pure (.function name params)
  | .unary op, [param] => pure (.unary op param)
  | .binary op precedence, [lhs, rhs] => pure (.binary op precedence lhs rhs)
  | _, _ => fail .operandCount

def prototype : ReadM σ Prototype := do
  let head ← head
  expect (.punct '(') .parameterList
  let params ← parameters
  expect (.punct ')') .parameterListEnd
  prototypeOf head params

/-! ## Statements -/

def definition (ops : Operator.Precedences) : ReadM σ Definition := do
  advance
  let proto ← prototype
  let body ← expression ops
  pure ⟨proto, body⟩

def declaration : ReadM σ Prototype := do
  advance
  prototype

def wrapperName (n : Nat) : String := s!"__anon_expr_{n}"

/-- Wrappers are numbered in the order they are read. -/
def wrapper (ops : Operator.Precedences) : ReadM σ Definition := do
  let body ← expression ops
  let n ← TokenSource.countWrapper
  pure ⟨.function (wrapperName n) [], body⟩

end Kaleidoscope.Parser
