/-
  Kaleidoscope.Ir.Basic — the code that expressions are lowered to.

  A function takes doubles and returns a double. Its body is a list of blocks of
  instructions over registers, each written once, and slots, the storage of its
  variables. A comparison leaves a truth value in a register; every other value is a
  double. Branches meet through slots. Slots, registers and blocks are named by number.

  A compilation unit holds functions in the order they were first named. A function
  without a body is a declaration.
-/

namespace Kaleidoscope.Ir

inductive Ty where
  | double
  | bool
  deriving DecidableEq, Repr

inductive Value where
  | const (x : Float)
  | param (i : Nat)
  | reg (r : Nat)
  deriving DecidableEq, Repr

inductive Arith where
  | add
  | sub
  | mul
  deriving DecidableEq, Repr

inductive Comparison where
  /-- Less, or not comparable. -/
  | unorderedLess
  /-- Comparable and different. -/
  | orderedUnequal
  deriving DecidableEq, Repr

inductive Inst where
  | load (dest slot : Nat)
  | store (v : Value) (slot : Nat)
  | arith (dest : Nat) (op : Arith) (lhs rhs : Value)
  | compare (dest : Nat) (cmp : Comparison) (lhs rhs : Value)
  /-- A truth value as 1 or 0. -/
  | toDouble (dest : Nat) (v : Value)
  | call (dest : Nat) (callee : String) (args : List Value)
  | branch (target : Nat)
  | condBranch (test : Value) (yes no : Nat)
  | ret (v : Value)
  deriving DecidableEq, Repr

def Inst.isTerminator : Inst → Bool
  | branch _ => true
  | condBranch .. => true
  | ret _ => true
  | _ => false

structure Block where
  label : String
  insts : Array Inst := #[]
  deriving DecidableEq, Repr

structure Body where
  /-- The name of each slot. -/
  slots : Array String := #[]
  /-- The type of each register. -/
  regs : Array Ty := #[]
  /-- The first block is where a call starts. -/
  blocks : Array Block := #[]
  deriving DecidableEq, Repr

structure Function where
  name : String
  params : List String
  body : Option Body := none
  deriving DecidableEq, Repr

namespace Function

def arity (f : Function) : Nat := f.params.length

def isDeclaration (f : Function) : Bool := f.body.isNone

end Function

structure CompilationUnit where
  name : String
  functions : List Function := []
  deriving DecidableEq, Repr

namespace CompilationUnit

def find? (u : CompilationUnit) (name : String) : Option Function := u.functions.find? (·.name == name)

def index? (u : CompilationUnit) (name : String) : Option Nat := u.functions.findIdx? (·.name == name)

/-- Puts a function in the place of the one with its name, or last. -/
def putIn (f : Function) : List Function → List Function
  | [] => [f]
  | g :: rest => if g.name = f.name then f :: rest else g :: putIn f rest

def put (u : CompilationUnit) (f : Function) : CompilationUnit := { u with functions := putIn f u.functions }

/-- The function called `name`, declared with `params` unless the unit has it already. -/
def declare (u : CompilationUnit) (name : String) (params : List String) : Function × CompilationUnit :=
  match u.find? name with
  | some f => (f, u)
  | none => let f : Function := { name, params }; (f, { u with functions := u.functions ++ [f] })

def remove (u : CompilationUnit) (name : String) : CompilationUnit :=
  { u with functions := u.functions.eraseP (·.name == name) }

end CompilationUnit

end Kaleidoscope.Ir
