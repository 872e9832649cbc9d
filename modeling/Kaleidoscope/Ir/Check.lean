/-
  Kaleidoscope.Ir.Check — what makes a body sound within its unit.

  Every block ends in its only terminator; operands, slots and branch targets exist and
  operands have the type their place asks for; a callee is declared and gets as many
  arguments as it takes. Blocks are checked in order and the first defect is reported.
  Which registers an instruction may write is not checked: a builder decides that.
-/

import Kaleidoscope.Ir.Basic

namespace Kaleidoscope.Ir

inductive Defect where
  | noEntry
  | noTerminator (label : String)
  | earlyTerminator (label : String)
  | parameter (i : Nat)
  | register (r : Nat)
  | operandType (found wanted : Ty)
  | slot (s : Nat)
  | block (b : Nat)
  | undeclared (callee : String)
  | argumentCount (callee : String) (found wanted : Nat)
  deriving DecidableEq, Repr

def Ty.name : Ty → String
  | double => "Double"
  | bool => "Bool"

def Defect.message : Defect → String
  | noEntry => "no entry block"
  | noTerminator label => s!"block '{label}' lacks a terminator"
  | earlyTerminator label => s!"terminator in the middle of block '{label}'"
  | parameter i => s!"parameter {i} out of range"
  | register r => s!"undefined register %{r}"
  | operandType found wanted => s!"operand has type {found.name}, expected {wanted.name}"
  | slot s => s!"undefined slot {s}"
  | block b => s!"undefined block {b}"
  | undeclared callee => s!"call to undeclared function '{callee}'"
  | argumentCount callee found wanted => s!"call to '{callee}' with {found} arguments, expected {wanted}"

/-- The type of an operand in a function with `arity` parameters. -/
def Value.type (arity : Nat) (body : Body) : Value → Except Defect Ty
  | const _ => .ok .double
  | param i => if i < arity then .ok .double else .error (.parameter i)
  | reg r =>
    match body.regs[r]? with
    | some ty => .ok ty
    | none => .error (.register r)

def Value.check (arity : Nat) (body : Body) (wanted : Ty) (v : Value) : Except Defect Unit := do
  let found ← v.type arity body
  if found = wanted then pure () else throw (.operandType found wanted)

def Body.checkSlot (body : Body) (s : Nat) : Except Defect Unit :=
  if s < body.slots.size then .ok () else .error (.slot s)

def Body.checkBlock (body : Body) (b : Nat) : Except Defect Unit :=
  if b < body.blocks.size then .ok () else .error (.block b)

def Inst.check (u : CompilationUnit) (arity : Nat) (body : Body) : Inst → Except Defect Unit
  | load _ s => body.checkSlot s
  | store v s => do
    v.check arity body .double
    body.checkSlot s
  | arith _ _ l r => do
    l.check arity body .double
    r.check arity body .double
  | compare _ _ l r => do
    l.check arity body .double
    r.check arity body .double
  | toDouble _ v => v.check arity body .bool
  | call _ callee args =>
    match u.find? callee with
    | none => .error (.undeclared callee)
    | some f =>
      if f.arity = args.length then args.forM (·.check arity body .double)
      else .error (.argumentCount callee args.length f.arity)
  | branch b => body.checkBlock b
  | condBranch v t e => do
    v.check arity body .bool
    body.checkBlock t
    body.checkBlock e
  | ret v => v.check arity body .double

def Block.check (u : CompilationUnit) (arity : Nat) (body : Body) (b : Block) : Except Defect Unit :=
  let insts := b.insts.toList
  if !(insts.getLast?.any Inst.isTerminator) then .error (.noTerminator b.label)
  else if insts.dropLast.any Inst.isTerminator then .error (.earlyTerminator b.label)
  else insts.forM (·.check u arity body)

def Body.check (u : CompilationUnit) (arity : Nat) (body : Body) : Except Defect Unit :=
  if body.blocks.isEmpty then .error .noEntry
  else body.blocks.toList.forM (·.check u arity body)

/-- A declaration has nothing to check. -/
def CompilationUnit.check (u : CompilationUnit) (f : Function) : Except Defect Unit :=
  match f.body with
  | some body => body.check u f.arity
  | none => .ok ()

end Kaleidoscope.Ir
