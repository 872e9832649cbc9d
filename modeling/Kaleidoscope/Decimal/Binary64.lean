/-
  Kaleidoscope.Decimal.Binary64 — a double as an exact number.

  A finite double is `m · 2^q` with its sign; a sign stands also before a zero. The
  numbers of this folder's printers are exact: naturals, and quotients of naturals.
-/

namespace Kaleidoscope.Decimal

inductive Binary64 where
  | nan
  | infinite (negative : Bool)
  /-- The number `m · 2^q`, negated if `negative`. -/
  | finite (negative : Bool) (m : Nat) (q : Int)
  deriving DecidableEq, Repr

namespace Binary64

def ofBits (bits : Nat) : Binary64 :=
  let negative := bits / Nat.pow 2 63 % 2 == 1
  let exponent : Nat := bits / Nat.pow 2 52 % Nat.pow 2 11
  let fraction : Nat := bits % Nat.pow 2 52
  if exponent = 2047 then (if fraction = 0 then infinite negative else nan)
  else if exponent = 0 then finite negative fraction (-1074)
  else finite negative (Nat.pow 2 52 + fraction) ((exponent : Int) - 1075)

def ofFloat (x : Float) : Binary64 := ofBits x.toBits.toNat

end Binary64

/-- The number `n · base^e` as a quotient. -/
def scaled (n base : Nat) (e : Int) : Nat × Nat :=
  if 0 ≤ e then (n * base.pow e.toNat, 1) else (n, base.pow (-e).toNat)

/-- A sign is written before every negative number, zero included. -/
def signed (negative : Bool) (text : String) : String := if negative then "-" ++ text else text

end Kaleidoscope.Decimal
