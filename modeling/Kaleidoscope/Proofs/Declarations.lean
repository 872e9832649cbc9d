/-
  Kaleidoscope.Proofs.Declarations — what lowering does to unit, registry and operators.

  Lowering a body leaves registry and operators alone, and all it does to the unit is to
  declare functions that the registry knows and the unit lacks (`lowerBody_extends`). That
  is so whether it succeeds or fails: each construct is put together from parts of which it
  holds.

  For a statement this says everything there is to know of what it leaves: `define_ok`,
  `define_error` and `declare_ok`.
-/

import Mathlib.Logic.Relation
import Kaleidoscope.Proofs.Composition

namespace Kaleidoscope

/-- Functions that the registry knows and the unit lacked were declared in it. -/
def Registry.Declares (r : Registry) : Ir.CompilationUnit → Ir.CompilationUnit → Prop :=
  Relation.ReflTransGen fun u v =>
    ∃ n p, u.find? n = none ∧ r.proto? n = some p ∧ v = (u.declare p.name p.params).2

namespace Lowering

open Ir (Builder Value)

variable {α β : Type}

/-- What a computation leaves, whether it succeeds or fails. -/
def left : EStateM.Result LoweringError Lowering α → Lowering
  | .ok _ s => s
  | .error _ s => s

/-- Of what outlives a function, only the unit changed, and that by declarations. -/
structure Extends (s s' : Lowering) : Prop where
  registry : s'.registry = s.registry
  ops : s'.ops = s.ops
  unit : s.registry.Declares s.unit s'.unit

theorem Extends.refl (s : Lowering) : Extends s s := ⟨rfl, rfl, .refl⟩

theorem Extends.trans {s t u : Lowering} (h : Extends s t) (h' : Extends t u) : Extends s u :=
  ⟨h'.registry.trans h.registry, h'.ops.trans h.ops, h.unit.trans (h.registry ▸ h'.unit)⟩

theorem extends_of_local {g : Lowering → Lowering} (hg : Local g) (s : Lowering) : Extends s (g s) := by
  refine ⟨hg.registry s, hg.ops s, ?_⟩
  rw [hg.unit s]
  exact .refl

/-! ## Putting computations together -/

def Extending (x : Lower α) : Prop := ∀ s, Extends s (left (x s))

namespace Extending

variable {x : Lower α} {f : α → Lower β}

theorem pure (a : α) : Extending (Pure.pure a : Lower α) := fun s => .refl s

theorem throw (e : LoweringError) : Extending (MonadExcept.throw e : Lower α) := fun s => .refl s

theorem bind (hx : Extending x) (hf : ∀ a, Extending (f a)) : Extending (x >>= f) := by
  intro s
  have h := hx s
  cases hs : x s with
  | ok a t =>
    rw [hs] at h
    rw [bind_of_ok hs]
    exact h.trans (hf a t)
  | error e t =>
    rw [hs] at h
    rw [bind_of_error hs]
    exact h

theorem get {f : Lowering → Lower β} (hf : ∀ s, Extending (f s)) : Extending (MonadState.get >>= f) := fun s => hf s s

theorem modify {g : Lowering → Lowering} (hg : Local g) : Extending (modify g : Lower PUnit) := extends_of_local hg

theorem build (f : Builder → α × Builder) : Extending (Lowering.build f) := fun _ => ⟨rfl, rfl, .refl⟩

theorem ensuring (hx : Extending x) {after : Lowering → Lowering} (hafter : Local after) :
    Extending (Lowering.ensuring x after) := by
  intro s
  have h := hx s
  unfold Lowering.ensuring
  cases hs : x s with
  | ok a t =>
    rw [hs] at h
    exact h.trans (extends_of_local hafter t)
  | error e t =>
    rw [hs] at h
    exact h.trans (extends_of_local hafter t)

theorem resolve? (name : String) : Extending (Lowering.resolve? name) := by
  intro s
  unfold Lowering.resolve?
  split
  · exact .refl s
  · rename_i hu
    split
    · rename_i p hp
      exact ⟨rfl, rfl, .single ⟨name, p, hu, hp, rfl⟩⟩
    · exact .refl s

end Extending

theorem closed_extending : Closed @Extending where
  pure := .pure
  throw _ := .throw _
  bind := .bind
  get hf _ := .get hf
  modify := .modify
  ensuring hx hafter := .ensuring hx hafter
  build := .build
  resolve? := .resolve?

theorem combine_extends (op : String) (x y : Value) : Extending (combine op x y) :=
  closed_extending.combine (.throw _) x y

theorem lowerBody_extends (params : List String) (body : Expr) : Extending (lowerBody params body) :=
  closed_extending.lowerBody params body fun op _ _ => combine_extends op

/-! ## Statements -/

variable {d : Definition} {s s' : Lowering} {f : Ir.Function} {e : LoweringError}

/-- A unit with a function in its place is checked, or the function goes again: what it was
    put over makes no difference then. -/
theorem remove_put (u : Ir.CompilationUnit) (f : Ir.Function) : (u.put f).remove f.name = u.remove f.name := by
  have h : ∀ fs : List Ir.Function,
      (Ir.CompilationUnit.putIn f fs).eraseP (·.name == f.name) = fs.eraseP (·.name == f.name) := by
    intro fs
    induction fs with
    | nil => simp [Ir.CompilationUnit.putIn]
    | cons g fs ih =>
      unfold Ir.CompilationUnit.putIn
      split
      · rename_i hg
        simp [hg]
      · rename_i hg
        simp [hg, ih]
  simp only [Ir.CompilationUnit.remove, Ir.CompilationUnit.put, h]

/-- The state in which the body of a definition is lowered: its function is declared. -/
def opened (d : Definition) (s : Lowering) : Lowering :=
  { s with unit := (s.unit.declare d.proto.name d.proto.params).2 }

def compiled (d : Definition) (body : Ir.Body) : Ir.Function :=
  { name := d.proto.name, params := d.proto.params, body := some body }

/-- The body is lowered if the unit has declared the function with as many parameters, and
    kept if it passes the check. -/
theorem lowerFunction_run (d : Definition) (s : Lowering) : lowerFunction d s =
    if (s.unit.declare d.proto.name d.proto.params).1.arity = d.proto.arity then
      match lowerBody d.proto.params d.body (opened d s) with
      | .error e t => .error e t
      | .ok body t =>
        match (t.unit.put (compiled d body)).check (compiled d body) with
        | .ok () => .ok (compiled d body) { t with unit := t.unit.put (compiled d body) }
        | .error defect =>
          .error (.invalidFunction d.proto.name defect) { t with unit := t.unit.put (compiled d body) }
    else
      .error (.parameterCount d.proto.name d.proto.arity (s.unit.declare d.proto.name d.proto.params).1.arity)
        (opened d s) := by
  simp only [lowerFunction, get_bind_run, modify_bind_run]
  split
  · show (lowerBody d.proto.params d.body >>= _) (opened d s) = _
    cases hbody : lowerBody d.proto.params d.body (opened d s) with
    | error e t => rw [bind_of_error hbody]
    | ok body t =>
      rw [bind_of_ok hbody]
      simp only [modify_bind_run, get_bind_run, compiled]
      generalize Ir.CompilationUnit.check _ _ = checked
      cases checked <;> rfl
  · rfl

theorem lowerFunction_ok (h : lowerFunction d s = .ok f s') :
    (s.unit.declare d.proto.name d.proto.params).1.arity = d.proto.arity ∧ (∃ body, f = compiled d body) ∧
    s'.registry = s.registry ∧ (∃ u, s.registry.Declares (opened d s).unit u ∧ s'.unit = u.put f) ∧
    s'.unit.check f = .ok () := by
  have hext := lowerBody_extends d.proto.params d.body (opened d s)
  rw [lowerFunction_run] at h
  split at h
  · rename_i harity
    split at h
    · cases h
    · rename_i body t hbody
      rw [hbody] at hext
      split at h
      · rename_i hcheck
        cases h
        exact ⟨harity, ⟨body, rfl⟩, hext.registry, ⟨t.unit, hext.unit, rfl⟩, hcheck⟩
      · cases h
  · cases h

theorem lowerFunction_error (h : lowerFunction d s = .error e s') :
    s'.registry = s.registry ∧
    ∃ u, s.registry.Declares (opened d s).unit u ∧ s'.unit.remove d.proto.name = u.remove d.proto.name := by
  have hext := lowerBody_extends d.proto.params d.body (opened d s)
  rw [lowerFunction_run] at h
  split at h
  · split at h
    · rename_i t hbody
      rw [hbody] at hext
      cases h
      exact ⟨hext.registry, s'.unit, hext.unit, rfl⟩
    · rename_i body t hbody
      rw [hbody] at hext
      split at h
      · cases h
      · cases h
        exact ⟨hext.registry, t.unit, hext.unit, remove_put t.unit (compiled d body)⟩
  · cases h
    exact ⟨rfl, _, .refl, rfl⟩

/-- What a definition leaves that succeeds. -/
structure Defines (d : Definition) (s : Lowering) (f : Ir.Function) (s' : Lowering) : Prop where
  fresh : s.hasBody d.proto.name = false
  arity : (s.unit.declare d.proto.name d.proto.params).1.arity = d.proto.arity
  function : ∃ body, f = compiled d body
  registry : s'.registry = (s.registry.register d.proto).markDefined d.proto.name
  unit : ∃ u, (s.registry.register d.proto).Declares (opened d s).unit u ∧ s'.unit = u.put f
  check : s'.unit.check f = .ok ()

theorem define_ok (h : define d s = .ok f s') : Defines d s f s' := by
  unfold define at h
  split at h
  · cases h
  · rename_i hfresh
    split at h
    · rename_i g t hg
      obtain ⟨harity, hf, hregistry, hunit, hcheck⟩ := lowerFunction_ok hg
      cases h
      refine ⟨by simpa using hfresh, harity, hf, ?_, hunit, hcheck⟩
      simp only [hregistry]
      rfl
    · cases h

/-- A definition that fails leaves its function out of the unit and undoes what it announced. -/
theorem define_error (h : define d s = .error e s') :
    s' = s ∨ s'.registry = (s.registry.register d.proto).restore d.proto.name (s.registry.find? d.proto.name) ∧
      ∃ u, (s.registry.register d.proto).Declares (opened d s).unit u ∧ s'.unit = u.remove d.proto.name := by
  unfold define at h
  split at h
  · cases h
    exact .inl rfl
  · split at h
    · cases h
    · rename_i t hg
      obtain ⟨hregistry, u, hu, hremove⟩ := lowerFunction_error hg
      cases h
      refine .inr ⟨?_, u, hu, hremove⟩
      simp only [withdraw, hregistry]
      rfl

/-- The state after a declaration that is accepted. -/
def declared (p : Prototype) (s : Lowering) : Lowering :=
  { s with
    unit := (s.unit.declare p.name p.params).2
    registry := if s.registry.isDefined p.name then s.registry else s.registry.register p }

theorem declare_ok {p : Prototype} (h : declare p s = .ok f s') :
    (∀ k, s.knownArity? p.name = some k → k = p.arity) ∧ f = (s.unit.declare p.name p.params).1 ∧
      s' = declared p s := by
  unfold declare at h
  split at h
  · cases h
  · rename_i hknown
    cases h
    refine ⟨fun k hk => ?_, rfl, rfl⟩
    simpa [hk, Option.filter] using hknown

theorem declare_error {p : Prototype} (h : declare p s = .error e s') : s' = s := by
  unfold declare at h
  split at h
  · cases h
    rfl
  · cases h

end Lowering

end Kaleidoscope
