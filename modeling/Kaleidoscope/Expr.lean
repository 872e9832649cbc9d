/-
  Kaleidoscope.Expr — expressions.

  Everything is an expression and every expression has a value, a double. A missing
  initial value, `else` branch or step is kept as missing.
-/

namespace Kaleidoscope

inductive Expr where
  | number (x : Float)
  | ref (name : String)
  /-- A new variable, visible from here to the end of the block. -/
  | var (name : String) (init : Option Expr)
  | unary (op : Char) (operand : Expr)
  | binary (op : String) (lhs rhs : Expr)
  | call (callee : String) (args : List Expr)
  | cond (test yes : Expr) (no : Option Expr)
  /-- The loop runs while `stop` is not zero; `step` is the variable's next value. -/
  | loop (name : String) (start stop : Expr) (step : Option Expr) (body : Expr)
  | block (members : List Expr)
  deriving Repr, Inhabited

namespace Expr

/-- Conditionals and loops take the terminator that follows them. -/
def takesTerminator : Expr → Bool
  | cond .. => true
  | loop .. => true
  | _ => false

end Expr

end Kaleidoscope
