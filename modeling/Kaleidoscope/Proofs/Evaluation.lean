/-
  Kaleidoscope.Proofs.Evaluation — what a definition means, without any code.

  A tree is evaluated in a world: the contents of the cells, all zero at first but for the
  arguments, and the calls made so far. Operands are evaluated from left to right. `=` and
  `var` store a value and have it. A conditional has the value of one branch, the first
  one if the test is comparable to zero and different from it. A loop stores its start
  value; then, as long as its test holds, it evaluates its body and stores its step. It has
  the value zero. What a called function returns is up to a meaning, which may go by the
  calls made before; a function without a result ends the evaluation.

  Each loop may take as many turns as it is given; `Definition.Evaluates` says that some
  number of turns is enough.
-/

import Kaleidoscope.Proofs.Resolution

namespace Kaleidoscope

/-- One call of a function. -/
structure Call where
  callee : String
  args : List Float
  deriving DecidableEq, Repr

/-- What a call returns after the calls before it, if it returns. -/
abbrev Meaning := List Call → Call → Option Float

structure World where
  cells : Nat → Float
  calls : List Call := []

/-- Why there is no value. -/
inductive Halt where
  | noResult
  | outOfTurns
  deriving DecidableEq, Repr

abbrev Eval (α : Type) := EStateM Halt World α

namespace World

def store (c : Nat) (x : Float) (w : World) : World :=
  { w with cells := fun d => if d = c then x else w.cells d }

/-- The world in which a function starts. -/
def ofArgs (args : List Float) : World := { cells := fun c => args.getD c 0 }

end World

namespace Eval

def perform (M : Meaning) (c : Call) : Eval Float := fun w =>
  match M w.calls c with
  | some x => .ok x { w with calls := w.calls ++ [c] }
  | none => .error .noResult w

/-- Comparable to zero and different. -/
def holds (x : Float) : Bool := decide (x < 0) || decide (0 < x)

/-- Takes turns as long as the test holds. -/
def repeatWithin (test : Eval Float) (turn : Eval Unit) : Nat → Eval Unit
  | 0 => throw .outOfTurns
  | n + 1 => do
    if holds (← test) then
      turn
      repeatWithin test turn n
    else pure ()

end Eval

namespace Tree

open Eval

def apply : Ir.Arith → Float → Float → Float
  | .add, x, y => x + y
  | .sub, x, y => x - y
  | .mul, x, y => x * y

mutual

/-- Every loop may take `n` turns. -/
@[simp] def eval (M : Meaning) (n : Nat) : Tree → Eval Float
  | .const x => pure x
  | .read c => do
    let w ← get
    pure (w.cells c)
  | .assign c t => do
    let x ← eval M n t
    modify (World.store c x)
    pure x
  | .declare c _ t => do
    let x ← eval M n t
    modify (World.store c x)
    pure x
  | .arith op l r => do
    let x ← eval M n l
    let y ← eval M n r
    pure (apply op x y)
  | .less l r => do
    let x ← eval M n l
    let y ← eval M n r
    -- also true if the two are not comparable
    pure (if y ≤ x then 0 else 1)
  | .call callee args => do
    let xs ← evalArguments M n args
    perform M ⟨callee, xs⟩
  | .cond _ t y e => do
    if holds (← eval M n t) then eval M n y else eval M n e
  | .loop c _ start stop body step => do
    let x ← eval M n start
    modify (World.store c x)
    repeatWithin (eval M n stop)
      (do
        let _ ← eval M n body
        let y ← eval M n step
        modify (World.store c y))
      n
    pure 0
  | .seq ts => evalMembers M n ts 0

@[simp] def evalArguments (M : Meaning) (n : Nat) : List Tree → Eval (List Float)
  | [] => pure []
  | t :: ts => do
    let x ← eval M n t
    let xs ← evalArguments M n ts
    pure (x :: xs)

/-- The value of the last member; `last` if there is none. -/
@[simp] def evalMembers (M : Meaning) (n : Nat) : List Tree → Float → Eval Float
  | [], last => pure last
  | t :: ts, _ => do
    let x ← eval M n t
    evalMembers M n ts x

end

end Tree

namespace Definition

/-- The value of a call and the calls it makes, if every loop is done in `n` turns. -/
def evaluateWithin (d : Definition) (M : Meaning) (n : Nat) (args : List Float) : Option (Float × List Call) :=
  match d.resolve? with
  | none => none
  | some t =>
    match t.eval M n (World.ofArgs args) with
    | .ok x w => some (x, w.calls)
    | .error _ _ => none

/-- Called with `args`, the function returns `x` and has made `calls`. -/
def Evaluates (d : Definition) (M : Meaning) (args : List Float) (x : Float) (calls : List Call) : Prop :=
  ∃ n, d.evaluateWithin M n args = some (x, calls)

end Definition

end Kaleidoscope
