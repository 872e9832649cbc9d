/-
  Kaleidoscope.Proofs.OpenUnit — what the open unit has to say.

  A name is looked for in the open unit before the registry. The unit holds what statements
  have declared in it, also those that failed, so the answer might depend on the history of
  the unit. It does not: between turns, whatever stands in the unit is a declaration with
  as many parameters as it is registered with, so to ask the unit is to ask the registry
  (`resolve?_covered`). Lowering keeps it so while it runs. Two states that differ only in
  their units therefore lower every body to the same code, or fail on it with the same
  error (`lowerBody_oblivious`).

  `Run.open_unit` says it of every run.
-/

import Kaleidoscope.Proofs.WellFormed

namespace Kaleidoscope

namespace Lowering

open Ir (Builder CompilationUnit)

variable {α β : Type} {s : Lowering} {u : CompilationUnit}

/-- A name can be called exactly if it is registered, and with as many arguments. -/
theorem resolve?_covered (hr : s.registry.Named) (hc : s.registry.Covers none s.unit) (n : String) :
    ∃ v, resolve? n s = .ok (s.registry.arity? n) { s with unit := v } ∧ s.registry.Covers none v := by
  unfold resolve?
  cases hu : s.unit.find? n with
  | some f =>
    obtain ⟨hmem, rfl⟩ := CompilationUnit.find?_some hu
    rw [(hc.declared f hmem (by simp)).2]
    exact ⟨s.unit, rfl, hc⟩
  | none =>
    cases hp : s.registry.proto? n with
    | none => exact ⟨s.unit, by simp only [Registry.arity?, hp]; rfl, hc⟩
    | some p =>
      refine ⟨(s.unit.declare p.name p.params).2, ?_, hc.declares hr (.single ⟨n, p, hu, hp, rfl⟩)⟩
      have harity : (s.unit.declare p.name p.params).1.arity = p.arity := by
        simp only [CompilationUnit.declare, hr n p hp, hu]
        rfl
      simp only [harity, Registry.arity?, hp, Option.map_some]

/-! ## States that differ in their units -/

/-- The unit of the state may be exchanged for `u`: both are covered. -/
structure Exchangeable (s : Lowering) (u : CompilationUnit) : Prop where
  named : s.registry.Named
  own : s.registry.Covers none s.unit
  other : s.registry.Covers none u

/-- The same result, in states that differ only in their units. -/
inductive Matches : EStateM.Result LoweringError Lowering α → EStateM.Result LoweringError Lowering α → Prop
  | ok {a : α} {s : Lowering} {u : CompilationUnit} : s.Exchangeable u → Matches (.ok a s) (.ok a { s with unit := u })
  | error {e : LoweringError} {s : Lowering} {u : CompilationUnit} :
      s.Exchangeable u → Matches (.error e s) (.error e { s with unit := u })

/-- What a computation does depends on the registry, not on the unit. -/
def Oblivious (x : Lower α) : Prop := ∀ s u, s.Exchangeable u → Matches (x s) (x { s with unit := u })

theorem Local.exchangeable {g : Lowering → Lowering} (hg : Local g) (h : s.Exchangeable u) : (g s).Exchangeable u := by
  refine ⟨?_, ?_, ?_⟩
  · rw [hg.registry]
    exact h.named
  · rw [hg.registry, hg.unit]
    exact h.own
  · rw [hg.registry]
    exact h.other

namespace Oblivious

variable {x : Lower α} {f : α → Lower β}

theorem pure (a : α) : Oblivious (Pure.pure a : Lower α) := fun _ _ h => .ok h

theorem throw (e : LoweringError) : Oblivious (MonadExcept.throw e : Lower α) := fun _ _ h => .error h

theorem bind (hx : Oblivious x) (hf : ∀ a, Oblivious (f a)) : Oblivious (x >>= f) := by
  intro s u h
  have hmatches := hx s u h
  generalize hs : x s = y at hmatches
  generalize ht : x { s with unit := u } = z at hmatches
  cases hmatches with
  | @ok a s' v h' =>
    rw [bind_of_ok hs, bind_of_ok ht]
    exact hf a s' v h'
  | error h' =>
    rw [bind_of_error hs, bind_of_error ht]
    exact .error h'

/-- The rest of the computation reads the state, but not its unit. -/
theorem get {f : Lowering → Lower β} (hf : ∀ s, Oblivious (f s)) (hunit : ∀ s u, f { s with unit := u } = f s) :
    Oblivious (MonadState.get >>= f) := by
  intro s u h
  show Matches (f s s) (f { s with unit := u } { s with unit := u })
  rw [hunit s u]
  exact hf s s u h

theorem modify {g : Lowering → Lowering} (hg : Local g) : Oblivious (modify g : Lower PUnit) := by
  intro s u h
  show Matches (.ok PUnit.unit (g s)) (.ok PUnit.unit (g { s with unit := u }))
  rw [hg.exchange s u]
  exact .ok (hg.exchangeable h)

theorem build (f : Builder → α × Builder) : Oblivious (Lowering.build f) := fun s _ h =>
  .ok (s := { s with builder := (f s.builder).2 }) ⟨h.named, h.own, h.other⟩

theorem ensuring (hx : Oblivious x) {after : Lowering → Lowering} (hafter : Local after) :
    Oblivious (Lowering.ensuring x after) := by
  intro s u h
  have hmatches := hx s u h
  unfold Lowering.ensuring
  generalize x s = y at hmatches
  generalize x { s with unit := u } = z at hmatches
  cases hmatches with
  | @ok a s' v h' =>
    show Matches (.ok a (after s')) (.ok a (after { s' with unit := v }))
    rw [hafter.exchange s' v]
    exact .ok (hafter.exchangeable h')
  | @error e s' v h' =>
    show Matches (.error e (after s')) (.error e (after { s' with unit := v }))
    rw [hafter.exchange s' v]
    exact .error (hafter.exchangeable h')

theorem resolve? (n : String) : Oblivious (Lowering.resolve? n) := by
  intro s u h
  obtain ⟨v, hv, hcv⟩ := resolve?_covered h.named h.own n
  obtain ⟨w, hw, hcw⟩ := resolve?_covered (s := { s with unit := u }) h.named h.other n
  rw [hv, hw]
  exact .ok (s := { s with unit := v }) ⟨h.named, hcv, hcw⟩

end Oblivious

theorem closed_oblivious : Closed @Oblivious where
  pure := .pure
  throw _ := .throw _
  bind := .bind
  get := .get
  modify := .modify
  ensuring hx hafter := .ensuring hx hafter
  build := .build
  resolve? := .resolve?

theorem lowerBody_oblivious (params : List String) (body : Expr) : Oblivious (lowerBody params body) :=
  closed_oblivious.lowerBody params body fun _ _ _ => closed_oblivious.combine (.throw _)

/-- What a computation returned or failed with. -/
def answer : EStateM.Result LoweringError Lowering α → Except LoweringError α
  | .ok a _ => .ok a
  | .error e _ => .error e

theorem Matches.answer_eq {x y : EStateM.Result LoweringError Lowering α} (h : Matches x y) : answer x = answer y := by
  cases h with
  | ok _ => rfl
  | error _ => rfl

end Lowering

/-! ## Main statement -/

namespace Session

open Lowering (answer lowerBody resolve?)

variable {s : Session} {past : List (Session × Handled)}

/-- In every session of every run, the functions of the open unit have distinct names and
    no bodies, and are registered with as many parameters. A name can be called exactly if
    it is registered, with the number of arguments that it is registered with. Every body
    is lowered to the same code, or fails with the same error, as if the unit were empty. -/
theorem Run.open_unit {source : String} (hrun : Run source past s) :
    s.unit.Distinct ∧
    (∀ g ∈ s.unit.functions, g.isDeclaration = true ∧ s.registry.arity? g.name = some g.arity) ∧
    (∀ n, answer (resolve? n s.lowering) = .ok (s.registry.arity? n)) ∧
    (∀ params body, answer (lowerBody params body s.lowering) =
      answer (lowerBody params body { s.lowering with unit := newUnit s.units })) := by
  have hs := hrun.wellFormed
  refine ⟨hs.unit.distinct, fun g hg => hs.unit.declared g hg (by simp), fun n => ?_, fun params body => ?_⟩
  · obtain ⟨v, hv, -⟩ := Lowering.resolve?_covered (s := s.lowering) hs.named hs.unit n
    rw [hv]
    rfl
  · exact (Lowering.lowerBody_oblivious params body s.lowering (newUnit s.units)
      ⟨hs.named, hs.unit, Registry.covers_empty rfl⟩).answer_eq

/-! A definition that fails after it has declared what it calls. -/

def leftBehind : String := "def f(x) x; extern g(a b); def h(x) f(g(x, y));"

theorem open_unit_leftBehind : ∃ past s, Run leftBehind past s ∧
    s.unit.functions.map Ir.Function.name = ["g", "f"] ∧ (∀ g ∈ s.unit.functions, g.isDeclaration = true) ∧
    answer (resolve? "f" s.lowering) = .ok (some 1) ∧ answer (resolve? "h" s.lowering) = .ok none := by
  have hturns : ((takeTurns 0 6 ([], ofText leftBehind)).any fun x =>
      x.2.unit.functions.map Ir.Function.name == ["g", "f"] && x.2.registry.arity? "f" == some 1 &&
        x.2.registry.arity? "h" == none) = true := by decide +kernel
  obtain ⟨x, hx, hturns⟩ := (Option.any_eq_true _ _).mp hturns
  have hrun : Run leftBehind x.1 x.2 := Run.start.takeTurns hx
  simp only [Bool.and_eq_true, beq_iff_eq] at hturns
  obtain ⟨⟨hnames, hf⟩, hh⟩ := hturns
  obtain ⟨-, hunit, hresolve, -⟩ := hrun.open_unit
  refine ⟨x.1, x.2, hrun, hnames, fun g hg => (hunit g hg).1, ?_, ?_⟩
  · rw [hresolve, hf]
  · rw [hresolve, hh]

end Session

end Kaleidoscope
