/-
  Kaleidoscope.Proofs.Resolution — expressions whose names are resolved.

  A tree is an expression in which every variable is a cell. There is one cell for each
  parameter and for each occurrence of `var` and `for`; which of them a name means is
  settled in the order in which an expression is read:
  - `var` binds its name from there to the end of the innermost block, also past the end
    of a branch or a loop that it stands in;
  - `for` binds its name in the test, the body and the step, and then gives the name back
    what it meant before;
  - the end of a block gives back what its variables hid, latest first.

  Cells are numbered as they come up. A conditional passes over one number, and so does a
  function after its parameters.
-/

import Kaleidoscope.Bindings
import Kaleidoscope.Expr
import Kaleidoscope.Ir.Basic
import Kaleidoscope.Prototype

namespace Kaleidoscope

inductive Tree where
  | const (x : Float)
  | read (cell : Nat)
  /-- `=`: stores a value and has it. -/
  | assign (cell : Nat) (value : Tree)
  /-- `var`: like `assign`, to a cell of its own. -/
  | declare (cell : Nat) (name : String) (init : Tree)
  | arith (op : Ir.Arith) (lhs rhs : Tree)
  | less (lhs rhs : Tree)
  /-- Also an operator that is a function. -/
  | call (callee : String) (args : List Tree)
  | cond (place : Nat) (test yes no : Tree)
  | loop (cell : Nat) (name : String) (start stop body step : Tree)
  | seq (members : List Tree)
  deriving Inhabited

/-- What names mean at some point of a function. -/
structure Scope where
  /-- The cells of the variables in sight. -/
  seen : Bindings Nat := []
  /-- What the variables of each open block hide, innermost block first and in it the
      latest variable first. -/
  hidden : List (List (String × Option Nat)) := []
  /-- The next number. -/
  next : Nat := 0

namespace Scope

/-- Passes over a number. -/
def pass (s : Scope) : Scope := { s with next := s.next + 1 }

def bind (name : String) (cell : Nat) (s : Scope) : Scope := { s with seen := s.seen.insert name cell }

def restore (name : String) (hidden : Option Nat) (s : Scope) : Scope :=
  { s with seen := s.seen.restore name hidden }

/-- Binds a name for the rest of the innermost open block. -/
def introduce (name : String) (cell : Nat) (s : Scope) : Scope :=
  let hidden := match s.hidden with
    | [] => []
    | block :: outer => ((name, s.seen.find? name) :: block) :: outer
  { s.bind name cell with hidden }

def openBlock (s : Scope) : Scope := { s with hidden := [] :: s.hidden }

def closeBlock (s : Scope) : Scope :=
  match s.hidden with
  | [] => s
  | block :: outer => { s with hidden := outer, seen := block.foldl (fun l h => l.restore h.1 h.2) s.seen }

/-- The parameters, the first of them being cell `s.next`. -/
def enter (params : List String) (s : Scope) : Scope :=
  params.foldl (fun s param => (s.bind param s.next).pass) s

end Scope

/-- Nothing, if a name is not in sight or an assignment is not to a name. -/
abbrev Resolve (α : Type) := StateT Scope Option α

namespace Resolve

def fresh : Resolve Nat := fun s => some (s.next, s.pass)

def cellOf (name : String) : Resolve Nat := fun s => (s.seen.find? name).map fun c => (c, s)

variable {α β : Type}

theorem bind_some {x : Resolve α} {f : α → Resolve β} {s t : Scope} {a : α} (h : x s = some (a, t)) :
    (x >>= f) s = f a t := by
  show StateT.bind x f s = _
  simp only [StateT.bind, h]
  rfl

theorem bind_some_iff {x : Resolve α} {f : α → Resolve β} {s t : Scope} {b : β} :
    (x >>= f) s = some (b, t) ↔ ∃ a u, x s = some (a, u) ∧ f a u = some (b, t) := by
  cases h : x s with
  | none =>
    show StateT.bind x f s = _ ↔ _
    simp [StateT.bind, h]
  | some p =>
    rw [bind_some h]
    constructor
    · intro hf
      exact ⟨p.1, p.2, rfl, hf⟩
    · rintro ⟨_, _, ha, hf⟩
      cases ha
      exact hf

theorem pure_some_iff {a b : α} {s t : Scope} : (pure a : Resolve α) s = some (b, t) ↔ a = b ∧ s = t := by
  show some (a, s) = _ ↔ _
  simp

theorem failure_some_iff {b : α} {s t : Scope} : (failure : Resolve α) s = some (b, t) ↔ False := by
  show none = _ ↔ _
  simp

theorem cellOf_some_iff {name : String} {c : Nat} {s t : Scope} :
    cellOf name s = some (c, t) ↔ s.seen.find? name = some c ∧ s = t := by
  unfold cellOf
  cases s.seen.find? name <;> simp

theorem get_run (f : Scope → Resolve β) (s : Scope) : (get >>= f) s = f s s := rfl

theorem modify_run (g : Scope → Scope) (f : PUnit → Resolve β) (s : Scope) : (modify g >>= f) s = f ⟨⟩ (g s) := rfl

theorem fresh_run (f : Nat → Resolve β) (s : Scope) : (fresh >>= f) s = f s.next s.pass := rfl

end Resolve

open Resolve

/-- The tree of an operator on two trees. -/
def Tree.combine (op : String) (l r : Tree) : Tree :=
  match op with
  | "+" => .arith .add l r
  | "-" => .arith .sub l r
  | "*" => .arith .mul l r
  | "<" => .less l r
  | _ => .call (Prototype.binaryName op) [l, r]

namespace Expr

mutual

def resolve : Expr → Resolve Tree
  | .number x => pure (.const x)
  | .ref name => do
    let c ← cellOf name
    pure (.read c)
  | .var name init => do
    let t ← resolveOption init
    let c ← fresh
    modify (Scope.introduce name c)
    pure (.declare c name t)
  | .unary op operand => do
    let t ← resolve operand
    pure (.call (Prototype.unaryName op) [t])
  | .binary op lhs rhs => do
    if op = "=" then
      match lhs with
      | .ref name => do
        let t ← resolve rhs
        let c ← cellOf name
        pure (.assign c t)
      | _ => failure
    else
      let l ← resolve lhs
      let r ← resolve rhs
      pure (.combine op l r)
  | .call callee args => do
    let ts ← resolveArguments args
    pure (.call callee ts)
  | .cond test yes no => do
    let place ← fresh
    let t ← resolve test
    let y ← resolve yes
    let n ← resolveOption no
    pure (.cond place t y n)
  | .loop name start stop step body => do
    let c ← fresh
    let s ← resolve start
    let hidden := (← get).seen.find? name
    modify (Scope.bind name c)
    let t ← resolve stop
    let b ← resolve body
    let n ← resolveOption step
    modify (Scope.restore name hidden)
    pure (.loop c name s t b n)
  | .block members => do
    modify Scope.openBlock
    let ts ← resolveArguments members
    modify Scope.closeBlock
    pure (.seq ts)

/-- What is left out is zero. -/
def resolveOption : Option Expr → Resolve Tree
  | none => pure (.const 0)
  | some e => resolve e

def resolveArguments : List Expr → Resolve (List Tree)
  | [] => pure []
  | e :: es => do
    let t ← resolve e
    let ts ← resolveArguments es
    pure (t :: ts)

end

end Expr

/-- The tree of a function's body. The parameters are the first cells, and one number is
    passed over after them. -/
def Definition.resolve? (d : Definition) : Option Tree :=
  (d.body.resolve (Scope.enter d.proto.params {}).pass).map (·.1)

/-! ## Induction over expressions and trees -/

theorem Expr.induction {P : Expr → Prop}
    (number : ∀ x, P (.number x))
    (ref : ∀ name, P (.ref name))
    (var : ∀ name init, (∀ e ∈ init, P e) → P (.var name init))
    (unary : ∀ op e, P e → P (.unary op e))
    (binary : ∀ op l r, P l → P r → P (.binary op l r))
    (call : ∀ callee args, (∀ e ∈ args, P e) → P (.call callee args))
    (cond : ∀ t y n, P t → P y → (∀ e ∈ n, P e) → P (.cond t y n))
    (loop : ∀ name start stop step body, P start → P stop → (∀ e ∈ step, P e) → P body →
      P (.loop name start stop step body))
    (block : ∀ es, (∀ e ∈ es, P e) → P (.block es)) (e : Expr) : P e :=
  @Expr.rec P (fun o => ∀ e ∈ o, P e) (fun es => ∀ e ∈ es, P e) number ref var unary binary call cond loop block
    (fun _ h => nomatch h) (fun _ h _ he => by cases he; exact h) (fun _ h => nomatch h)
    (fun _ _ h hs e he => by
      rcases List.mem_cons.mp he with rfl | he
      · exact h
      · exact hs e he) e

theorem Tree.induction {P : Tree → Prop}
    (const : ∀ x, P (.const x))
    (read : ∀ c, P (.read c))
    (assign : ∀ c t, P t → P (.assign c t))
    (declare : ∀ c name t, P t → P (.declare c name t))
    (arith : ∀ op l r, P l → P r → P (.arith op l r))
    (less : ∀ l r, P l → P r → P (.less l r))
    (call : ∀ callee ts, (∀ t ∈ ts, P t) → P (.call callee ts))
    (cond : ∀ place t y n, P t → P y → P n → P (.cond place t y n))
    (loop : ∀ c name start stop body step, P start → P stop → P body → P step →
      P (.loop c name start stop body step))
    (seq : ∀ ts, (∀ t ∈ ts, P t) → P (.seq ts)) (t : Tree) : P t :=
  @Tree.rec P (fun ts => ∀ t ∈ ts, P t) const read assign declare arith less call cond loop seq
    (fun _ h => nomatch h)
    (fun _ _ h hs t ht => by
      rcases List.mem_cons.mp ht with rfl | ht
      · exact h
      · exact hs t ht) t

end Kaleidoscope
