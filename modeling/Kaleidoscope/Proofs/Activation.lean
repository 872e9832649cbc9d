/-
  Kaleidoscope.Proofs.Activation — one call of a compiled function, under a meaning.

  An activation runs its frame as the machine does, but what a called function returns is
  up to the meaning, and every call is recorded. There is no limit to it but the number of
  steps it is given: `Ir.Function.Returns` says that some number is enough.
  - `runWithin_steps`: a run may be taken up after any of its steps.
  - `steps_lt`: a run that returns is longer than any sequence of steps from its start.
  - `step_load` .. `step_ret`: what each instruction does, once its operands are there.
-/

import Kaleidoscope.Engine.Frame
import Kaleidoscope.Proofs.Evaluation
import Kaleidoscope.Proofs.Growth

namespace Kaleidoscope

open Ir (Body Inst Value)

structure Activation where
  frame : Frame
  calls : List Call := []

namespace Activation

inductive Progress where
  | running (a : Activation)
  | returned (x : Float) (calls : List Call)
  | halted

def step (M : Meaning) (a : Activation) : Progress :=
  match a.frame.step with
  | .next f => .running { a with frame := f }
  | .call f dest callee args =>
    match M a.calls ⟨callee, args⟩ with
    | none => .halted
    | some x =>
      match f.write? dest x with
      | none => .halted
      | some f => .running ⟨f, a.calls ++ [⟨callee, args⟩]⟩
  | .ret x => .returned x a.calls
  | .fault _ => .halted

def runWithin (M : Meaning) : Nat → Activation → Option (Float × List Call)
  | 0, _ => none
  | n + 1, a =>
    match a.step M with
    | .running b => runWithin M n b
    | .returned x calls => some (x, calls)
    | .halted => none

end Activation

/-- Called with `args`, the compiled function returns `x` and has made `calls`. -/
def Ir.Function.Returns (f : Ir.Function) (M : Meaning) (args : List Float) (x : Float) (calls : List Call) : Prop :=
  ∃ frame n, Frame.enter f args = .ok frame ∧ Activation.runWithin M n { frame } = some (x, calls)

namespace Activation

variable {M : Meaning} {a b c : Activation}

/-! ## Sequences of steps -/

inductive Steps (M : Meaning) : Nat → Activation → Activation → Prop
  | refl (a : Activation) : Steps M 0 a a
  | head {n : Nat} {a b c : Activation} : a.step M = .running b → Steps M n b c → Steps M (n + 1) a c

theorem Steps.one (h : a.step M = .running b) : Steps M 1 a b := .head h (.refl b)

theorem Steps.trans {m n : Nat} (h : Steps M m a b) (h' : Steps M n b c) : Steps M (m + n) a c := by
  induction h with
  | refl a => simpa using h'
  | head hs _ ih =>
    have := Steps.head hs (ih h')
    rwa [Nat.succ_add_eq_add_succ]

theorem runWithin_steps {k : Nat} (h : Steps M k a b) (n : Nat) : runWithin M (k + n) a = runWithin M n b := by
  induction h with
  | refl a => simp
  | head hs _ ih =>
    rw [Nat.succ_add, runWithin, hs]
    exact ih

theorem steps_lt {k n : Nat} {r : Float × List Call} (h : Steps M k a b) (hr : runWithin M n a = some r) : k < n := by
  induction h generalizing n with
  | refl a =>
    cases n with
    | zero => cases hr
    | succ n => exact Nat.succ_pos n
  | head hs _ ih =>
    cases n with
    | zero => cases hr
    | succ n =>
      rw [runWithin, hs] at hr
      exact Nat.succ_lt_succ (ih hr)

/-- A run that is given more steps does not change its result. -/
theorem runWithin_add {n : Nat} {r : Float × List Call} (h : runWithin M n a = some r) (m : Nat) :
    runWithin M (n + m) a = some r := by
  induction n generalizing a with
  | zero => cases h
  | succ n ih =>
    rw [Nat.succ_add]
    simp only [runWithin] at h ⊢
    split at h
    · exact ih h
    · exact h
    · cases h

/-! ## What instructions do -/

/-- The activation after an instruction that leaves `x` in register `r`. -/
def write (r : Nat) (x : Float) (a : Activation) : Activation :=
  { a with frame := { a.frame with pc := a.frame.pc + 1, regs := a.frame.regs.setIfInBounds r x } }

/-- The activation after an instruction that stores `x` in slot `s`. -/
def put (s : Nat) (x : Float) (a : Activation) : Activation :=
  { a with frame := { a.frame with pc := a.frame.pc + 1, slots := a.frame.slots.setIfInBounds s x } }

/-- The activation at the start of block `k`. -/
def goto (k : Nat) (a : Activation) : Activation := { a with frame := a.frame.jump k }

/-- The activation with one more call. -/
def record (c : Call) (a : Activation) : Activation := { a with calls := a.calls ++ [c] }

/-- The next instruction is `i`. -/
def Fetches (a : Activation) (i : Inst) : Prop := a.frame.body.inst? a.frame.block a.frame.pc = some i

theorem Fetches.step {i : Inst} (h : a.Fetches i) : a.frame.step =
    (({ a.frame with pc := a.frame.pc + 1 } : Frame).exec? i).getD (.fault (.badIndex a.frame.function)) := by
  unfold Fetches Body.inst? at h
  obtain ⟨block, hb, hi⟩ := Option.bind_eq_some_iff.mp h
  simp only [Frame.step, hb, hi]

theorem write?_eq (f : Frame) {r : Nat} (h : r < f.regs.size) (x : Float) :
    f.write? r x = some { f with regs := f.regs.setIfInBounds r x } := by
  simp [Frame.write?, h, Array.setIfInBounds]

theorem store?_eq (f : Frame) {s : Nat} (h : s < f.slots.size) (x : Float) :
    f.store? s x = some { f with slots := f.slots.setIfInBounds s x } := by
  simp [Frame.store?, h, Array.setIfInBounds]

/-- Operands do not depend on where a frame is. -/
theorem operand?_pc (f : Frame) (n : Nat) (v : Value) : ({ f with pc := n } : Frame).operand? v = f.operand? v := by
  cases v <;> rfl

section

variable {r s k k' : Nat} {x y : Float} {v u : Value}

/-- An instruction that leaves `x` in register `r`. -/
theorem Fetches.step_write {i : Inst} (h : a.Fetches i) (hr : r < a.frame.regs.size)
    (hx : ({ a.frame with pc := a.frame.pc + 1 } : Frame).exec? i =
      Frame.Action.next <$> ({ a.frame with pc := a.frame.pc + 1 } : Frame).write? r x) :
    a.step M = .running (a.write r x) := by
  simp only [Activation.step, h.step, hx, write?_eq ({ a.frame with pc := a.frame.pc + 1 } : Frame) hr]
  rfl

theorem step_load (h : a.Fetches (.load r s)) (hr : r < a.frame.regs.size) (hx : a.frame.slots[s]? = some x) :
    a.step M = .running (a.write r x) :=
  h.step_write hr (by simp [Frame.exec?, hx])

theorem step_arith {op : Ir.Arith} (h : a.Fetches (.arith r op v u)) (hr : r < a.frame.regs.size)
    (hx : a.frame.operand? v = some x) (hy : a.frame.operand? u = some y) :
    a.step M = .running (a.write r (Frame.arith op x y)) :=
  h.step_write hr (by simp [Frame.exec?, operand?_pc, hx, hy])

theorem step_compare {cmp : Ir.Comparison} (h : a.Fetches (.compare r cmp v u)) (hr : r < a.frame.regs.size)
    (hx : a.frame.operand? v = some x) (hy : a.frame.operand? u = some y) :
    a.step M = .running (a.write r (Frame.ofBool (Frame.compare cmp x y))) :=
  h.step_write hr (by simp [Frame.exec?, operand?_pc, hx, hy])

theorem step_toDouble (h : a.Fetches (.toDouble r v)) (hr : r < a.frame.regs.size) (hx : a.frame.operand? v = some x) :
    a.step M = .running (a.write r (Frame.ofBool (Frame.truth x))) :=
  h.step_write hr (by simp [Frame.exec?, operand?_pc, hx])

theorem step_store (h : a.Fetches (.store v s)) (hs : s < a.frame.slots.size) (hx : a.frame.operand? v = some x) :
    a.step M = .running (a.put s x) := by
  have he : ({ a.frame with pc := a.frame.pc + 1 } : Frame).exec? (.store v s) = some (.next (a.put s x).frame) := by
    simp [Frame.exec?, operand?_pc, hx, store?_eq ({ a.frame with pc := a.frame.pc + 1 } : Frame) hs, put]
  simp only [step, h.step, he]
  rfl

theorem step_branch (h : a.Fetches (.branch k)) : a.step M = .running (a.goto k) := by
  simp only [step, h.step]
  rfl

theorem step_condBranch (h : a.Fetches (.condBranch v k k')) (hx : a.frame.operand? v = some x) :
    a.step M = .running (a.goto (if Frame.truth x then k else k')) := by
  simp only [step, h.step, Frame.exec?, operand?_pc, hx]
  rfl

theorem step_ret (h : a.Fetches (.ret v)) (hx : a.frame.operand? v = some x) : a.step M = .returned x a.calls := by
  simp only [step, h.step, Frame.exec?, operand?_pc, hx]
  rfl

variable {callee : String} {vs : List Value} {xs : List Float}

theorem Fetches.step_call (h : a.Fetches (.call r callee vs)) (hxs : vs.mapM a.frame.operand? = some xs) :
    a.frame.step = .call { a.frame with pc := a.frame.pc + 1 } r callee xs := by
  have hops : ({ a.frame with pc := a.frame.pc + 1 } : Frame).operand? = a.frame.operand? := funext (operand?_pc _ _)
  simp only [h.step, Frame.exec?, hops, hxs]
  rfl

theorem step_call (h : a.Fetches (.call r callee vs)) (hr : r < a.frame.regs.size)
    (hxs : vs.mapM a.frame.operand? = some xs) (hx : M a.calls ⟨callee, xs⟩ = some x) :
    a.step M = .running ((a.write r x).record ⟨callee, xs⟩) := by
  simp only [step, h.step_call hxs, hx, write?_eq ({ a.frame with pc := a.frame.pc + 1 } : Frame) hr]
  rfl

theorem step_call_halted (h : a.Fetches (.call r callee vs)) (hxs : vs.mapM a.frame.operand? = some xs)
    (hx : M a.calls ⟨callee, xs⟩ = none) : a.step M = .halted := by
  simp only [step, h.step_call hxs, hx]

end

end Activation

end Kaleidoscope
