/-
  Kaleidoscope.Builtin — the functions that write.

  Compiled code may call these four once they are declared. Each returns zero; what it
  writes is a function of its arguments, so a run is described by the calls it made.
-/

namespace Kaleidoscope

inductive Builtin where
  | putchard
  | tab
  | endl
  | printNum
  deriving DecidableEq, Repr

namespace Builtin

def all : List Builtin := [putchard, tab, endl, printNum]

def name : Builtin → String
  | putchard => "putchard"
  | tab => "tab"
  | endl => "endl"
  | printNum => "printNum"

def ofName? (n : String) : Option Builtin := all.find? (·.name == n)

def arity : Builtin → Nat
  | putchard => 1
  | tab => 0
  | endl => 0
  | printNum => 1

end Builtin

/-- The integer part of a double, held within 32 bits with a sign; zero for a NaN. -/
def integerPart (x : Float) : Int :=
  if x < 0 then -((min (-x).toUInt32.toNat (Nat.pow 2 31) : Nat) : Int)
  else (min x.toUInt32.toNat (Nat.pow 2 31 - 1) : Nat)

/-- One call of a builtin. -/
structure Invocation where
  builtin : Builtin
  args : List Float
  deriving DecidableEq, Repr

namespace Invocation

/-- The value of the call, if it has as many arguments as the builtin takes. -/
def result? (i : Invocation) : Option Float := if i.args.length = i.builtin.arity then some 0.0 else none

/-- The bytes the call writes. `putchard` holds its argument within a byte. -/
def output (i : Invocation) : List UInt8 :=
  match i.builtin, i.args with
  | .putchard, [x] => [x.toUInt8]
  | .tab, [] => [9]
  | .endl, [] => [10]
  | .printNum, [x] => (toString (integerPart x)).toUTF8.toList
  | _, _ => []

end Invocation

end Kaleidoscope
