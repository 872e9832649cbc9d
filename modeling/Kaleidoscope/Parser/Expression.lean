/-
  Kaleidoscope.Parser.Expression — expressions from tokens.

  The grammar, an operator table given:
    expression  operand, then operators and operands by precedence, left to right
    operand     any ASCII punctuation but `(` `,` `{` before an operand, or a primary
    primary     number, name, call, `if`, `for`, `var`, parenthesis, block
  `if` and `for` take the terminator that follows them; the other members of a block
  need one, unless the block ends there.

  Every rule is a reader that is given the reader of nested expressions, and every loop
  counts down. `expressionWithin n` is right for every source with `size ≤ n`: each
  nested expression and each turn of a loop comes after a token was passed, and what a
  rule does when its count runs out is what it does at the end of input.
-/

import Kaleidoscope.Parser.Basic
import Kaleidoscope.Expr

namespace Kaleidoscope.Parser

open Source

variable {σ : Type} [TokenSource σ]

/-! ## Names and calls -/

/-- The arguments of a call, from the first one to before the closing parenthesis. -/
def argumentsWithin (nested : ReadM σ Expr) : Nat → ReadM σ (List Expr)
  | 0 => fail .notAnExpression
  | n + 1 => do
    let e ← nested
    match ← current with
    | .punct ')' => pure [e]
    | .punct ',' => do
      advance
      let es ← argumentsWithin nested n
      pure (e :: es)
    | _ => fail .argumentSeparator

def reference (nested : ReadM σ Expr) (n : Nat) (name : String) : ReadM σ Expr := do
  advance
  if (← current) = .punct '(' then
    advance
    let args ← if (← current) = .punct ')' then pure [] else argumentsWithin nested n
    advance
    pure (.call name args)
  else pure (.ref name)

/-! ## Parentheses, variables, conditionals, loops -/

def parenthesis (nested : ReadM σ Expr) : ReadM σ Expr := do
  advance
  let e ← nested
  expect (.punct ')') .closingParen
  pure e

def variableDecl (nested : ReadM σ Expr) : ReadM σ Expr := do
  advance
  match ← current with
  | .name name => do
    advance
    if (← current) = .punct '=' then
      advance
      let init ← nested
      pure (.var name (some init))
    else pure (.var name none)
  | _ => fail .variableName

def conditional (nested : ReadM σ Expr) : ReadM σ Expr := do
  advance
  let test ← nested
  passIf (.keyword .thenWord)
  let yes ← nested
  passIf .terminator
  if (← current) = .keyword .elseWord then
    advance
    let no ← nested
    passIf .terminator
    pure (.cond test yes (some no))
  else pure (.cond test yes none)

def loop (nested : ReadM σ Expr) : ReadM σ Expr := do
  advance
  match ← current with
  | .name name => do
    advance
    expect (.punct '=') .loopAssignment
    let start ← nested
    expect .terminator .loopStartEnd
    let stop ← nested
    expect .terminator .loopStopEnd
    let step ← if (← current) = .punct '{' then pure none else some <$> nested
    if (← current) = .punct '{' then
      let body ← nested
      passIf .terminator
      pure (.loop name start stop step body)
    else fail .loopBody
  | _ => fail .loopVariable

/-! ## Blocks -/

/-- What must follow a member that has not taken its terminator. -/
def memberEnd : ReadM σ Unit := do
  match ← current with
  | .terminator => advance
  | .punct '}' => pure ()
  | _ => fail .memberEnd

/-- The members of a block, to before the closing brace. -/
def membersWithin (nested : ReadM σ Expr) : Nat → ReadM σ (List Expr)
  | 0 => fail .closingBrace
  | n + 1 => do
    match ← current with
    | .punct '}' => pure []
    | .eof => fail .closingBrace
    | _ => do
      let e ← nested
      if e.takesTerminator then pure () else memberEnd
      let es ← membersWithin nested n
      pure (e :: es)

def block (nested : ReadM σ Expr) (n : Nat) : ReadM σ Expr := do
  advance
  let members ← membersWithin nested n
  advance
  pure (.block members)

/-! ## Operands -/

def primary (nested : ReadM σ Expr) (n : Nat) : ReadM σ Expr := do
  match ← current with
  | .name name => reference nested n name
  | .number x => do
    advance
    pure (.number x)
  | .keyword .ifWord => conditional nested
  | .keyword .forWord => loop nested
  | .keyword .varWord => variableDecl nested
  | .punct '(' => parenthesis nested
  | .punct '{' => block nested n
  | .text _ => fail .textLiteral
  | _ => fail .notAnExpression

/-- The operator a token is in front of an operand. -/
def unaryOperator? : Token → Option Char
  | .punct c => if c.toNat < 128 && c != '(' && c != ',' && c != '{' then some c else none
  | _ => none

def operandWithin (primary : ReadM σ Expr) : Nat → ReadM σ Expr
  | 0 => fail .notAnExpression
  | n + 1 => do
    match unaryOperator? (← current) with
    | some op => do
      advance
      let operand ← operandWithin primary n
      pure (.unary op operand)
    | none => primary

/-! ## Operators by precedence -/

/-- Extends `lhs` by every operator that binds at least as tightly as `least`. An
    operator that binds more tightly than the one before it takes the operand between
    them. -/
def climbWithin (ops : Operator.Precedences) (operand : ReadM σ Expr) : Nat → Nat → Expr → ReadM σ Expr
  | 0, _, lhs => pure lhs
  | n + 1, least, lhs => do
    match ← nextPrecedence? ops with
    | none => pure lhs
    | some prec =>
      if prec < least then pure lhs
      else do
        match ← takeOperator with
        | none => pure lhs
        | some op => do
          let rhs ← operand
          let rhs ← match ← nextPrecedence? ops with
            | some next => if prec < next then climbWithin ops operand n (prec + 1) rhs else pure rhs
            | none => pure rhs
          climbWithin ops operand n least (.binary op lhs rhs)

def expressionWithin (ops : Operator.Precedences) : Nat → ReadM σ Expr
  | 0 => fail .notAnExpression
  | n + 1 => do
    let operand := operandWithin (primary (expressionWithin ops n) (n + 1)) (n + 1)
    let lhs ← operand
    climbWithin ops operand (n + 1) 0 lhs

def expression (ops : Operator.Precedences) : ReadM σ Expr := do
  expressionWithin ops (TokenSource.size (← get))

end Kaleidoscope.Parser
