/-
  Kaleidoscope.Engine.Frame — one call of a compiled function.

  A frame has the arguments, the slots and the registers of the call, the latter two
  zero at first, and where it is in the body. `step` runs one instruction. Calls and
  returns are left to whoever holds the frame: `step` says what is asked for.
-/

import Kaleidoscope.Engine.Basic

namespace Kaleidoscope

structure Frame where
  function : String
  body : Ir.Body
  args : Array Float
  slots : Array Float
  regs : Array Float
  block : Nat := 0
  pc : Nat := 0

namespace Frame

open Ir (Value Inst Arith Comparison)

def enter (f : Ir.Function) (args : List Float) : Except EngineError Frame :=
  match f.body with
  | none => .error (.noBody f.name)
  | some body =>
    if args.length = f.arity then
      .ok {
        function := f.name
        body
        args := args.toArray
        slots := Array.replicate body.slots.size 0
        regs := Array.replicate body.regs.size 0 }
    else .error (.callArity f.name args.length f.arity)

/-- What a frame does next. -/
inductive Action where
  /-- It goes on. -/
  | next (f : Frame)
  /-- It calls, and goes on as `f` with the result in register `dest`. -/
  | call (f : Frame) (dest : Nat) (callee : String) (args : List Float)
  | ret (x : Float)
  | fault (e : EngineError)

def operand? (f : Frame) : Value → Option Float
  | .const x => some x
  | .param i => f.args[i]?
  | .reg r => f.regs[r]?

def write? (f : Frame) (r : Nat) (x : Float) : Option Frame :=
  if h : r < f.regs.size then some { f with regs := f.regs.set r x h } else none

def store? (f : Frame) (s : Nat) (x : Float) : Option Frame :=
  if h : s < f.slots.size then some { f with slots := f.slots.set s x h } else none

def jump (f : Frame) (block : Nat) : Frame := { f with block, pc := 0 }

def arith : Arith → Float → Float → Float
  | .add, l, r => l + r
  | .sub, l, r => l - r
  | .mul, l, r => l * r

def compare : Comparison → Float → Float → Bool
  | .unorderedLess, l, r => !decide (r ≤ l)
  | .orderedUnequal, l, r => decide (l < r) || decide (r < l)

/-- A truth value as it is kept in a register. -/
def ofBool (b : Bool) : Float := if b then 1 else 0

def truth (x : Float) : Bool := x != 0

/-- Nothing if the instruction names a place that is not there. -/
def exec? (f : Frame) : Inst → Option Action
  | .load r s => do
    let x ← f.slots[s]?
    .next <$> f.write? r x
  | .store v s => do
    let x ← f.operand? v
    .next <$> f.store? s x
  | .arith r op lhs rhs => do
    let x ← f.operand? lhs
    let y ← f.operand? rhs
    .next <$> f.write? r (arith op x y)
  | .compare r cmp lhs rhs => do
    let x ← f.operand? lhs
    let y ← f.operand? rhs
    .next <$> f.write? r (ofBool (compare cmp x y))
  | .toDouble r v => do
    let x ← f.operand? v
    .next <$> f.write? r (ofBool (truth x))
  | .call r callee args => do
    let xs ← args.mapM f.operand?
    pure (.call f r callee xs)
  | .branch target => pure (.next (f.jump target))
  | .condBranch test yes no => do
    let x ← f.operand? test
    pure (.next (f.jump (if truth x then yes else no)))
  | .ret v => do
    let x ← f.operand? v
    pure (.ret x)

def step (f : Frame) : Action :=
  match f.body.blocks[f.block]? with
  | none => .fault (.badIndex f.function)
  | some b =>
    match b.insts[f.pc]? with
    | none => .fault (.noTerminator f.function)
    | some i => (({ f with pc := f.pc + 1 } : Frame).exec? i).getD (.fault (.badIndex f.function))

end Frame

end Kaleidoscope
