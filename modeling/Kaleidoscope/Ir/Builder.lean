/-
  Kaleidoscope.Ir.Builder — a body under construction.

  Instructions go to the end of the current block. An instruction with a result gets a
  fresh register, of the type of its result.
-/

import Kaleidoscope.Ir.Basic

namespace Kaleidoscope.Ir

structure Builder where
  body : Body := {}
  current : Nat := 0
  deriving DecidableEq, Repr

namespace Builder

def appendBlock (label : String) (b : Builder) : Nat × Builder :=
  (b.body.blocks.size, { b with body.blocks := b.body.blocks.push { label } })

def position (block : Nat) (b : Builder) : Builder := { b with current := block }

/-- A new slot. -/
def alloca (name : String) (b : Builder) : Nat × Builder :=
  (b.body.slots.size, { b with body.slots := b.body.slots.push name })

def push (i : Inst) (b : Builder) : Builder :=
  { b with body.blocks := b.body.blocks.modify b.current fun k => { k with insts := k.insts.push i } }

/-- Emits an instruction that writes a fresh register. -/
def emit (ty : Ty) (inst : Nat → Inst) (b : Builder) : Value × Builder :=
  let r := b.body.regs.size
  (.reg r, ({ b with body.regs := b.body.regs.push ty } : Builder).push (inst r))

def load (slot : Nat) : Builder → Value × Builder := emit .double (.load · slot)

def arith (op : Arith) (lhs rhs : Value) : Builder → Value × Builder := emit .double (.arith · op lhs rhs)

def compare (cmp : Comparison) (lhs rhs : Value) : Builder → Value × Builder :=
  emit .bool (.compare · cmp lhs rhs)

def toDouble (v : Value) : Builder → Value × Builder := emit .double (.toDouble · v)

def call (callee : String) (args : List Value) : Builder → Value × Builder :=
  emit .double (.call · callee args)

def store (v : Value) (slot : Nat) : Builder → Builder := push (.store v slot)

def branch (target : Nat) : Builder → Builder := push (.branch target)

def condBranch (test : Value) (yes no : Nat) : Builder → Builder := push (.condBranch test yes no)

def ret (v : Value) : Builder → Builder := push (.ret v)

end Builder

end Kaleidoscope.Ir
