/-
  Kaleidoscope.Decimal.Fixed — a fixed number of decimal places.

  The exact value is rounded to the nearest multiple of the last place; of two equally
  near multiples the even one is taken.
-/

import Kaleidoscope.Decimal.Binary64

namespace Kaleidoscope.Decimal

/-- The natural nearest to `num / den`, of two the even one. -/
def roundDiv (num den : Nat) : Nat :=
  let whole := num / den
  let twice := 2 * (num % den)
  if twice < den || (twice == den && whole % 2 == 0) then whole else whole + 1

def padLeft (n : Nat) (cs : List Char) : List Char := List.replicate (n - cs.length) '0' ++ cs

/-- Writes `n` units of the last place: that many digits stand after the point. -/
def placed (places n : Nat) : String :=
  toString (n / Nat.pow 10 places) ++ "." ++
    String.ofList (padLeft places (Nat.toDigits 10 (n % Nat.pow 10 places)))

def fixed (places : Nat) (x : Float) : String :=
  match Binary64.ofFloat x with
  | .nan => "NaN"
  | .infinite negative => signed negative "inf"
  | .finite negative m q =>
    let (num, den) := scaled m 2 q
    signed negative (placed places (roundDiv (num * Nat.pow 10 places) den))

example : fixed 6 (-0.0) = "-0.000000" := by decide +kernel

example : fixed 2 0.125 = "0.12" := by decide +kernel

end Kaleidoscope.Decimal
