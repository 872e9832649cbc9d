/-
  Kaleidoscope.Operator — operator spellings and their precedences.

  The catalogue of spellings is fixed; a precedence makes a spelling a binary operator,
  and definitions may set precedences for the rest of a session. No spelling has more
  than three characters.
-/

import Kaleidoscope.Bindings

namespace Kaleidoscope.Operator

def spellings : List String :=
  ["<<=", ">>=", "==", "!=", "+=", "-=", "*=", "/=", "%=", ">=", "<=", "^=", "&=", "|=", "&&",
   "||", "<<", ">>", "=", "+", "-", "*", "/", "%", ">", "<", "^", "&", "|", ","]

def longestLength : Nat := 3

example : spellings.all (fun op => op.length ≤ longestLength) = true := by decide

def isSpelling (op : String) : Bool := spellings.contains op

/-- The longest spelling a run of characters begins with. -/
def longest? (cs : List Char) : Option String :=
  ([3, 2, 1].map fun n => String.ofList (cs.take n)).find? isSpelling

/-- The precedence of each binary operator. -/
abbrev Precedences := Bindings Nat

def builtin : Precedences := [("=", 2), ("<", 10), ("+", 20), ("-", 20), ("*", 40)]

end Kaleidoscope.Operator
