/-
  Kaleidoscope.Prototype — what is known of a function before its body.

  Operators are functions too: `unary@c` with one parameter and `binary@op` with two.
  They share one namespace with plain functions, whose names hold no `@`, and with the
  wrappers of top-level expressions.
-/

import Kaleidoscope.Expr

namespace Kaleidoscope

inductive Prototype.Kind where
  | function
  | unary
  | binary
  deriving DecidableEq, Repr

structure Prototype where
  name : String
  params : List String
  kind : Prototype.Kind
  /-- Of a binary operator; otherwise 0. -/
  precedence : Nat
  deriving DecidableEq, Repr

namespace Prototype

/-- The number of operands an operator takes. -/
def Kind.arity? : Kind → Option Nat
  | function => none
  | unary => some 1
  | binary => some 2

/-- What stands before an operator in its function's name. -/
def Kind.marker : Kind → String
  | function => ""
  | unary => "unary@"
  | binary => "binary@"

def unaryName (op : Char) : String := Kind.unary.marker.push op

def binaryName (op : String) : String := Kind.binary.marker ++ op

def function (name : String) (params : List String) : Prototype := ⟨name, params, .function, 0⟩

def unary (op : Char) (param : String) : Prototype := ⟨unaryName op, [param], .unary, 0⟩

def binary (op : String) (precedence : Nat) (lhs rhs : String) : Prototype :=
  ⟨binaryName op, [lhs, rhs], .binary, precedence⟩

/-- What follows the first `n` bytes; nothing if they end inside a character or past the
    end of the text. -/
def dropBytes? : Nat → List Char → Option (List Char)
  | 0, cs => some cs
  | _ + 1, [] => none
  | n + 1, c :: cs => if c.utf8Size ≤ n + 1 then dropBytes? (n + 1 - c.utf8Size) cs else none

/-- The spelling of the operator that a prototype defines: its name without as many
    bytes as the marker has. -/
def operator? (p : Prototype) : Option String :=
  if p.kind = .function then none
  else (dropBytes? p.kind.marker.utf8ByteSize p.name.toList).map String.ofList

def arity (p : Prototype) : Nat := p.params.length

end Prototype

/-- A function with its body. -/
structure Definition where
  proto : Prototype
  body : Expr

end Kaleidoscope
