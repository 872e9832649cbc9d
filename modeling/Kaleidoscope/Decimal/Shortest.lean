/-
  Kaleidoscope.Decimal.Shortest — the fewest digits that read back, with an exponent.

  The reals that round to a double `m · 2^q` form an interval, whose ends belong to it
  when `m` is even. For one digit, two digits and so on, the two neighbours of the
  double on that decimal grid are tried; the first grid with a neighbour in the
  interval gives the digits, of two such neighbours the nearer, of two equally near the
  greater. Numbers are kept as fourfold mantissas `4m · 2^(q-2)`, so that the ends of
  the interval are whole.
-/

import Kaleidoscope.Decimal.Binary64

namespace Kaleidoscope.Decimal

/-- A decimal `digits · 10^power`. -/
structure Numeral where
  digits : Nat
  power : Int
  deriving DecidableEq, Repr

/-- The fourfold mantissas of the interval's ends, and whether they belong to it. The
    gap below a power of two is half as wide, unless the double is subnormal. -/
structure Interval where
  low : Nat
  high : Nat
  closed : Bool

def interval (m : Nat) (q : Int) : Interval :=
  { low := 4 * m - (if m = Nat.pow 2 52 ∧ -1074 < q then 1 else 2)
    high := 4 * m + 2
    closed := m % 2 == 0 }

def decimalLength (n : Nat) : Nat := (Nat.toDigits 10 n).length

/-- The `e` with `10^e ≤ num / den < 10^(e+1)`, for a positive quotient. -/
def decade (num den : Nat) : Int :=
  let e : Int := decimalLength num - decimalLength den
  let (n, d) := scaled den 10 e
  if n ≤ num * d then e else e - 1

/-- Compares `d · 10^power` with `v · 2^(q-2)`: both, times one factor, as whole numbers. -/
def sides (d : Nat) (power : Int) (v : Nat) (q : Int) : Nat × Nat :=
  let (dn, dd) := scaled d 10 power
  let (vn, vd) := scaled v 2 (q - 2)
  (dn * vd, vn * dd)

/-- Whether a decimal reads back as the double. -/
def Interval.has (i : Interval) (q : Int) (d : Nat) (power : Int) : Bool :=
  let (a, low) := sides d power i.low q
  let (b, high) := sides d power i.high q
  if i.closed then low ≤ a && b ≤ high else low < a && b < high

/-- The neighbour to take on one grid, if one reads back. -/
def onGrid? (m : Nat) (q power : Int) : Option Nat :=
  let i := interval m q
  let (unit, v) := sides 1 power (4 * m) q
  let below := v / unit
  let above := below + 1
  match i.has q below power, i.has q above power with
  | false, false => none
  | true, false => some below
  | false, true => some above
  | true, true => some (if 2 * (v - below * unit) < unit then below else above)

/-- Tries grids of `count`, `count + 1`, … digits. -/
def searchGrids (m : Nat) (q top : Int) : Nat → Nat → Numeral
  | 0, _ => ⟨0, 0⟩
  | fuel + 1, count =>
    let power := top - (count : Int) + 1
    match onGrid? m q power with
    | some d => ⟨d, power⟩
    | none => searchGrids m q top fuel (count + 1)

/-- Seventeen digits tell every double from its neighbours. -/
def shortest (m : Nat) (q : Int) : Numeral :=
  let (num, den) := scaled m 2 q
  searchGrids m q (decade num den) 17 1

def dropZeros : List Char → List Char := fun ds => (ds.reverse.dropWhile (· == '0')).reverse

/-- One digit, the others after a point, and the exponent: `1e0`, `1.5e-7`. -/
def Numeral.scientific (d : Numeral) : String :=
  let ds := Nat.toDigits 10 d.digits
  let exponent : Int := d.power + ds.length - 1
  let digits := match dropZeros ds with
    | [] => "0"
    | [c] => String.singleton c
    | c :: cs => String.ofList (c :: '.' :: cs)
  digits ++ "e" ++ toString exponent

def scientific (x : Float) : String :=
  match Binary64.ofFloat x with
  | .nan => "NaN"
  | .infinite negative => signed negative "inf"
  | .finite negative m q => signed negative (if m = 0 then "0e0" else (shortest m q).scientific)

example : scientific 1.5e-7 = "1.5e-7" := by decide +kernel

example : scientific 5e-324 = "5e-324" := by decide +kernel

end Kaleidoscope.Decimal
