/-
  Kaleidoscope.Proofs.Composition — lowering, put together from its parts.

  Lowering reads and changes the variables in sight, builds code, resolves names, and
  fails. A property that these parts have, and that putting parts together keeps, holds of
  all lowering. `Closed` says what is to be shown for that; the inductions over expressions
  and parameters are done here once, in `Closed.lower` and `Closed.lowerBody`.

  A property may hold only of expressions whose binary operators are known. What it says of
  the operators is therefore asked for those of the expression alone (`Expr.Uses`).
-/

import Kaleidoscope.Proofs.Emission

namespace Kaleidoscope

/-! ## The binary operators of an expression -/

namespace Expr

mutual

/-- The operators of all binary nodes. -/
def operators : Expr → List String
  | .number _ => []
  | .ref _ => []
  | .var _ init => operatorsOption init
  | .unary _ e => operators e
  | .binary op l r => op :: (operators l ++ operators r)
  | .call _ es => operatorsOf es
  | .cond t y n => operators t ++ (operators y ++ operatorsOption n)
  | .loop _ start stop step body => operators start ++ (operators stop ++ (operatorsOption step ++ operators body))
  | .block es => operatorsOf es

def operatorsOption : Option Expr → List String
  | none => []
  | some e => operators e

def operatorsOf : List Expr → List String
  | [] => []
  | e :: es => operators e ++ operatorsOf es

end

variable {P : String → Prop}

/-- All binary operators have the property. -/
def Uses (P : String → Prop) (e : Expr) : Prop := ∀ op ∈ e.operators, P op

theorem forall_operatorsOption {o : Option Expr} : (∀ op ∈ operatorsOption o, P op) ↔ ∀ e ∈ o, e.Uses P := by
  cases o with
  | none => simp [operatorsOption]
  | some e => simp [operatorsOption, Uses]

theorem forall_operatorsOf {es : List Expr} : (∀ op ∈ operatorsOf es, P op) ↔ ∀ e ∈ es, e.Uses P := by
  induction es with
  | nil => simp [operatorsOf]
  | cons e es ih => simp only [operatorsOf, List.forall_mem_append, ih, List.forall_mem_cons, Uses]

@[simp] theorem uses_number (x : Float) : (number x).Uses P := by simp [Uses, operators]

@[simp] theorem uses_ref (name : String) : (ref name).Uses P := by simp [Uses, operators]

@[simp] theorem uses_var {name : String} {init : Option Expr} : (var name init).Uses P ↔ ∀ e ∈ init, e.Uses P := by
  rw [Uses, operators, forall_operatorsOption]

@[simp] theorem uses_unary {op : Char} {e : Expr} : (unary op e).Uses P ↔ e.Uses P := by
  rw [Uses, operators, Uses]

@[simp] theorem uses_binary {op : String} {l r : Expr} : (binary op l r).Uses P ↔ P op ∧ l.Uses P ∧ r.Uses P := by
  rw [Uses, operators, List.forall_mem_cons, List.forall_mem_append, Uses, Uses]

@[simp] theorem uses_call {callee : String} {es : List Expr} : (call callee es).Uses P ↔ ∀ e ∈ es, e.Uses P := by
  rw [Uses, operators, forall_operatorsOf]

@[simp] theorem uses_cond {t y : Expr} {n : Option Expr} :
    (cond t y n).Uses P ↔ t.Uses P ∧ y.Uses P ∧ ∀ e ∈ n, e.Uses P := by
  rw [Uses, operators, List.forall_mem_append, List.forall_mem_append, forall_operatorsOption, Uses, Uses]

@[simp] theorem uses_loop {name : String} {start stop body : Expr} {step : Option Expr} :
    (loop name start stop step body).Uses P ↔
      start.Uses P ∧ stop.Uses P ∧ (∀ e ∈ step, e.Uses P) ∧ body.Uses P := by
  rw [Uses, operators, List.forall_mem_append, List.forall_mem_append, List.forall_mem_append,
    forall_operatorsOption, Uses, Uses, Uses]

@[simp] theorem uses_block {es : List Expr} : (block es).Uses P ↔ ∀ e ∈ es, e.Uses P := by
  rw [Uses, operators, forall_operatorsOf]

end Expr

namespace Lowering

open Ir (Builder Value)

/-! ## Changes to the function in progress -/

/-- The function changes the function in progress only, and does not look at the unit. -/
structure Local (g : Lowering → Lowering) : Prop where
  registry : ∀ s, (g s).registry = s.registry
  ops : ∀ s, (g s).ops = s.ops
  exchange : ∀ s u, g { s with unit := u } = { g s with unit := u }

theorem Local.unit {g : Lowering → Lowering} (hg : Local g) (s : Lowering) : (g s).unit = s.unit := by
  have h : g s = { g s with unit := s.unit } := hg.exchange s s.unit
  rw [h]

theorem local_bind (name : String) (slot : Nat) : Local (bind name slot) :=
  ⟨fun _ => rfl, fun _ => rfl, fun _ _ => rfl⟩

theorem local_restore (name : String) (hidden : Option Nat) : Local (restore name hidden) :=
  ⟨fun _ => rfl, fun _ => rfl, fun _ _ => rfl⟩

theorem local_introduce (name : String) (slot : Nat) : Local (introduce name slot) :=
  ⟨fun _ => rfl, fun _ => rfl, fun _ _ => rfl⟩

theorem local_openScope : Local openScope := ⟨fun _ => rfl, fun _ => rfl, fun _ _ => rfl⟩

theorem local_closeScope : Local closeScope := by
  refine ⟨fun s => ?_, fun s => ?_, fun s u => ?_⟩
  · unfold closeScope
    split
    · rfl
    · rfl
  · unfold closeScope
    split
    · rfl
    · rfl
  · obtain ⟨unit, registry, ops, builder, locals, scopes⟩ := s
    cases scopes with
    | nil => rfl
    | cons scope outer => rfl

/-! ## Closed properties -/

/-- The parts of lowering have the property, and it is kept when they are put together. Of
    the failures, an unknown binary operator is left out. -/
structure Closed (P : (α : Type) → Lower α → Prop) : Prop where
  pure {α : Type} (a : α) : P α (Pure.pure a)
  throw {α : Type} {e : LoweringError} : (∀ op, e ≠ .unknownBinary op) → P α (MonadExcept.throw e)
  bind {α β : Type} {x : Lower α} {f : α → Lower β} : P α x → (∀ a, P β (f a)) → P β (x >>= f)
  /-- The rest of the computation reads the state, but not its unit. -/
  get {β : Type} {f : Lowering → Lower β} : (∀ s, P β (f s)) → (∀ s u, f { s with unit := u } = f s) →
    P β (MonadState.get >>= f)
  modify {g : Lowering → Lowering} : Local g → P PUnit (modify g)
  ensuring {α : Type} {x : Lower α} {after : Lowering → Lowering} : P α x → Local after →
    P α (Lowering.ensuring x after)
  build {α : Type} (f : Builder → α × Builder) : P α (Lowering.build f)
  resolve? (name : String) : P (Option Nat) (Lowering.resolve? name)

namespace Closed

variable {P : (α : Type) → Lower α → Prop} (hP : Closed P)

include hP

theorem emit (f : Builder → Builder) : P Unit (Lowering.emit f) := hP.build fun b => ((), f b)

theorem slotOf (name : String) : P Nat (Lowering.slotOf name) := by
  refine hP.get (fun s => ?_) fun _ _ => rfl
  split
  · exact hP.pure _
  · exact hP.throw (by simp)

theorem combine {op : String} (hop : P Value (MonadExcept.throw (.unknownBinary op))) (x y : Value) :
    P Value (Lowering.combine op x y) := by
  unfold Lowering.combine
  split
  · exact hP.build _
  · exact hP.build _
  · exact hP.build _
  · exact hP.bind (hP.build _) fun _ => hP.build _
  · refine hP.bind (hP.resolve? _) fun o => ?_
    split
    · exact hP.build _
    · exact hop

theorem lowerOption {o : Option Expr} (h : ∀ e ∈ o, P Value (Lowering.lower e)) :
    P Value (Lowering.lowerOption o) := by
  cases o with
  | none => simpa only [Lowering.lowerOption] using hP.pure _
  | some e => simpa only [Lowering.lowerOption] using h e rfl

theorem lowerArguments {es : List Expr} (h : ∀ e ∈ es, P Value (Lowering.lower e)) :
    P (List Value) (Lowering.lowerArguments es) := by
  induction es with
  | nil => simpa only [Lowering.lowerArguments] using hP.pure _
  | cons e es ih =>
    simp only [Lowering.lowerArguments]
    have hes := ih fun e he => h e (List.mem_cons_of_mem _ he)
    exact hP.bind (h e List.mem_cons_self) fun _ => hP.bind hes fun _ => hP.pure _

theorem lowerMembers {es : List Expr} (h : ∀ e ∈ es, P Value (Lowering.lower e)) (last : Value) :
    P Value (Lowering.lowerMembers es last) := by
  induction es generalizing last with
  | nil => simpa only [Lowering.lowerMembers] using hP.pure _
  | cons e es ih =>
    simp only [Lowering.lowerMembers]
    exact hP.bind (h e List.mem_cons_self) fun v => ih (fun e he => h e (List.mem_cons_of_mem _ he)) v

/-- A closed property holds of an expression's lowering if it holds of its operators. -/
theorem lower (e : Expr) (h : e.Uses fun op => op ≠ "=" → ∀ x y, P Value (Lowering.combine op x y)) :
    P Value (Lowering.lower e) := by
  induction e using Expr.induction with
  | number x => simpa only [Lowering.lower] using hP.pure _
  | ref name =>
    simp only [Lowering.lower]
    exact hP.bind (hP.slotOf name) fun _ => hP.build _
  | var name init ih =>
    have hinit := hP.lowerOption fun e he => ih e he (Expr.uses_var.mp h e he)
    simp only [Lowering.lower]
    refine hP.bind hinit fun v => hP.bind (hP.build _) fun slot => hP.bind (hP.emit _) fun _ => ?_
    exact hP.bind (hP.modify (local_introduce name slot)) fun _ => hP.pure _
  | unary op operand ih =>
    simp only [Lowering.lower]
    refine hP.bind (ih (Expr.uses_unary.mp h)) fun v => hP.bind (hP.resolve? _) fun o => ?_
    split
    · exact hP.build _
    · exact hP.throw (by simp)
  | binary op lhs rhs ihl ihr =>
    obtain ⟨hcombine, hl, hr⟩ := Expr.uses_binary.mp h
    by_cases hop : op = "="
    · cases lhs with
      | ref name =>
        simp only [Lowering.lower, if_pos hop]
        refine hP.bind (ihr hr) fun v => hP.bind (hP.slotOf name) fun _ => ?_
        exact hP.bind (hP.emit _) fun _ => hP.pure _
      | _ => simpa only [Lowering.lower, if_pos hop] using hP.throw (by simp)
    · simp only [Lowering.lower, if_neg hop]
      exact hP.bind (ihl hl) fun x => hP.bind (ihr hr) fun y => hcombine hop x y
  | call callee args ih =>
    have hargs := hP.lowerArguments fun e he => ih e he (Expr.uses_call.mp h e he)
    simp only [Lowering.lower]
    refine hP.bind (hP.resolve? callee) fun o => ?_
    split
    · exact hP.throw (by simp)
    · split
      · exact hP.bind hargs fun _ => hP.build _
      · exact hP.throw (by simp)
  | cond test yes no iht ihy ihn =>
    obtain ⟨ht, hy, hn⟩ := Expr.uses_cond.mp h
    have hno := hP.lowerOption fun e he => ihn e he (hn e he)
    rw [lower_cond]
    refine hP.bind (hP.build _) fun place => hP.bind (iht ht) fun t => hP.bind (hP.build _) fun k => ?_
    refine hP.bind (ihy hy) fun y => hP.bind (hP.emit _) fun _ => hP.bind hno fun n => ?_
    exact hP.bind (hP.emit _) fun _ => hP.build _
  | loop name start stop step body ihstart ihstop ihstep ihbody =>
    obtain ⟨hstart, hstop, hs, hbody⟩ := Expr.uses_loop.mp h
    have hstep := hP.lowerOption fun e he => ihstep e he (hs e he)
    rw [lower_loop]
    refine hP.bind (hP.build _) fun cell => hP.bind (ihstart hstart) fun v => hP.bind (hP.build _) fun k => ?_
    refine hP.get (fun s => hP.bind (hP.modify (local_bind name cell)) fun _ => ?_) fun _ _ => rfl
    refine hP.bind (hP.ensuring ?_ (local_restore name _)) fun _ => hP.pure _
    refine hP.bind (ihstop hstop) fun t => hP.bind (hP.emit _) fun _ => hP.bind (ihbody hbody) fun _ => ?_
    exact hP.bind hstep fun next => hP.emit _
  | block members ih =>
    have hmembers := hP.lowerMembers (fun e he => ih e he (Expr.uses_block.mp h e he)) zero
    simp only [Lowering.lower]
    exact hP.bind (hP.modify local_openScope) fun _ => hP.ensuring hmembers local_closeScope

theorem enterParams (i : Nat) (params : List String) : P Unit (Lowering.enterParams i params) := by
  induction params generalizing i with
  | nil => exact hP.pure _
  | cons param params ih =>
    simp only [Lowering.enterParams]
    refine hP.bind (hP.build _) fun slot => hP.bind (hP.emit _) fun _ => ?_
    exact hP.bind (hP.modify (local_bind param slot)) fun _ => ih (i + 1)

theorem lowerBody (params : List String) (body : Expr)
    (h : body.Uses fun op => op ≠ "=" → ∀ x y, P Value (Lowering.combine op x y)) :
    P Ir.Body (Lowering.lowerBody params body) := by
  unfold Lowering.lowerBody
  refine hP.bind (hP.modify ⟨fun _ => rfl, fun _ => rfl, fun _ _ => rfl⟩) fun _ => ?_
  refine hP.bind (hP.build _) fun entry => hP.bind (hP.emit _) fun _ => ?_
  refine hP.bind (hP.enterParams 0 params) fun _ => hP.bind (hP.build _) fun ret => ?_
  refine hP.bind (hP.lower body h) fun v => hP.bind (hP.emit _) fun _ => hP.bind (hP.build _) fun v => ?_
  refine hP.bind (hP.emit _) fun _ => hP.get (fun _ => ?_) fun _ _ => rfl
  exact hP.bind (hP.modify ⟨fun _ => rfl, fun _ => rfl, fun _ _ => rfl⟩) fun _ => hP.pure _

end Closed

end Lowering

end Kaleidoscope
