/-
  Kaleidoscope.Decimal.Literal — the number a run of digits and points denotes.

  A literal is well formed when it has at least one digit and at most one point. Its
  value is the nearest double, a tie going to the even one; a literal past the largest
  double is infinite.
-/

namespace Kaleidoscope.Decimal

def digitsValue (ds : List Char) : Nat := ds.foldl (fun n d => 10 * n + (d.toNat - '0'.toNat)) 0

def literal? (cs : List Char) : Option Float :=
  let whole := cs.takeWhile Char.isDigit
  match cs.dropWhile Char.isDigit with
  | [] => if whole.isEmpty then none else some (Float.ofScientific (digitsValue whole) false 0)
  | c :: part =>
    if c == '.' && part.all Char.isDigit && !(whole.isEmpty && part.isEmpty) then
      some (Float.ofScientific (digitsValue (whole ++ part)) true part.length)
    else none

end Kaleidoscope.Decimal
