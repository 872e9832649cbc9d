/-
  Kaleidoscope.Proofs.Turns — what a turn can do.

  A turn reads a statement, lowers what it read and hands the unit to the engine; it ends
  where one of these fails. `Takes` lists the ways a turn may go, each with the steps that
  went well, the one that did not, and the session that is left. Every turn is one of them
  (`next_takes`), so what holds of sessions is shown case by case from here on.

  `Run` are the sessions that a text leads to, with all the turns before: a session goes on
  also after a turn that was fatal.
-/

import Kaleidoscope.Session.Basic

namespace Kaleidoscope.Session

section

variable {α σ τ : Type}

/-! ## Sessions on the way -/

/-- The session with what reading left. -/
def passed (s : Session σ) (p : τ) : Session τ := { s with parser := p }

/-- The state in which a statement is lowered. -/
def lowering (s : Session σ) : Lowering := { unit := s.unit, registry := s.registry, ops := s.ops }

@[simp] theorem passed_lowering (s : Session σ) (p : τ) : (s.passed p).lowering = s.lowering := rfl

/-- The session with what lowering left. -/
def lowered (s : Session σ) (l : Lowering) : Session σ :=
  { s with unit := l.unit, registry := l.registry, ops := l.ops }

/-- The open unit is gone and a new one is open. -/
def handedOver (s : Session σ) (e : Engine) : Session σ :=
  { s with unit := newUnit (s.units + 1), units := s.units + 1, engine := e }

/-- The tracker that the next wrapper is loaded under. -/
def tracker (s : Session σ) : Tracker := s.engine.newTracker.1

/-- The engine that has it. -/
def tracking (s : Session σ) : Engine := s.engine.newTracker.2

/-- A wrapper's unit and its registration are gone again. -/
def released (s : Session σ) (t : Tracker) (wrapper : String) : Session σ :=
  { s with engine := s.engine.release t, registry := s.registry.erase wrapper }

theorem read_eq [TokenSource σ] (s : Session σ) (x : ReadM σ α) :
    s.read x = match x s.parser with
      | .ok a p => (.ok a, s.passed p)
      | .error e p => (.error e, s.passed (Parser.left (Parser.advance p))) := by
  rw [read]
  cases x s.parser <;> rfl

theorem lower_eq (s : Session σ) (x : Lower α) :
    s.lower x = match x s.lowering with
      | .ok a l => (.ok a, s.lowered l)
      | .error e l => (.error e, s.lowered l) := rfl

theorem load_eq (s : Session σ) (t : Option Tracker) :
    s.load t = match s.engine.add s.unit t with
      | .ok () e => (.ok (), s.handedOver e)
      | .error err e => (.error err, s.handedOver e) := rfl

end

theorem next_eq (s : Session) (budget : Nat) :
    s.next budget = match s.parser.cur with
      | .eof => some { turn := .over, session := s }
      | .terminator => some s.handleTerminator
      | .keyword .defWord => some s.handleDefinition
      | .keyword .externWord => some s.handleDeclaration
      | _ => s.handleExpression budget := rfl

/-! ## The ways a turn may go -/

/-- A statement's reader failed, and left the parser as it is. -/
inductive Unread (s : Session) (e : ReadError) (p : Parser) : Prop
  | definition : Parser.definition s.ops s.parser = .error e p → Unread s e p
  | declaration : Parser.declaration s.parser = .error e p → Unread s e p
  | wrapper : Parser.wrapper s.ops s.parser = .error e p → Unread s e p

/-- How running a wrapper can go, once its unit is loaded. -/
inductive Evaluates (s : Session) (t : Tracker) (f : Ir.Function) : Handled → Prop
  | unlinked {e : EngineError} : s.engine.lookup f.name = .error e → Evaluates s t f (s.fault e #[])
  | stopped {symbol : Symbol} {budget : Nat} {ran : Ran} {e : EngineError} :
      s.engine.lookup f.name = .ok symbol → s.engine.invoke budget symbol [] = some ran → ran.result = .error e →
      Evaluates s t f (s.fault e ran.calls)
  | returned {symbol : Symbol} {budget : Nat} {ran : Ran} {x : Float} :
      s.engine.lookup f.name = .ok symbol → s.engine.invoke budget symbol [] = some ran → ran.result = .ok x →
      Evaluates s t f { turn := .done (.evaluated f x), calls := ran.calls, session := s.released t f.name }

inductive Takes (s : Session) : Handled → Prop
  | ended : s.parser.cur = .eof → Takes s { turn := .over, session := s }
  | skipped {p : Parser} : Parser.advance s.parser = .ok () p →
      Takes s { turn := .done .skipped, session := s.passed p }
  | unpassed {e : ReadError} {p : Parser} : Parser.advance s.parser = .error e p →
      Takes s ((s.passed p).fail (.read e))
  | unread {e : ReadError} {p : Parser} : s.Unread e p →
      Takes s ((s.passed (Parser.left (Parser.advance p))).fail (.read e))
  | undeclared {proto : Prototype} {p : Parser} {e : LoweringError} {l : Lowering} :
      Parser.declaration s.parser = .ok proto p → Lowering.declare proto s.lowering = .error e l →
      Takes s (((s.passed p).lowered l).fail (.lowering e))
  | declared {proto : Prototype} {p : Parser} {f : Ir.Function} {l : Lowering} :
      Parser.declaration s.parser = .ok proto p → Lowering.declare proto s.lowering = .ok f l →
      Takes s { turn := .done (.declared f), session := (s.passed p).lowered l }
  | undefined {d : Definition} {p : Parser} {e : LoweringError} {l : Lowering} :
      (Parser.definition s.ops s.parser = .ok d p ∨ Parser.wrapper s.ops s.parser = .ok d p) →
      Lowering.define d s.lowering = .error e l →
      Takes s (((s.passed p).lowered l).fail (.lowering e))
  | rejected {d : Definition} {p : Parser} {f : Ir.Function} {l : Lowering} {err : EngineError} {e : Engine} :
      Parser.definition s.ops s.parser = .ok d p → Lowering.define d s.lowering = .ok f l →
      s.engine.add l.unit none = .error err e →
      Takes s ((((s.passed p).lowered l).handedOver e).fault err #[])
  | defined {d : Definition} {p : Parser} {f : Ir.Function} {l : Lowering} {e : Engine} :
      Parser.definition s.ops s.parser = .ok d p → Lowering.define d s.lowering = .ok f l →
      s.engine.add l.unit none = .ok () e →
      Takes s { turn := .done (.defined f), session := ((s.passed p).lowered l).handedOver e }
  | wrapperRejected {d : Definition} {p : Parser} {f : Ir.Function} {l : Lowering} {err : EngineError} {e : Engine} :
      Parser.wrapper s.ops s.parser = .ok d p → Lowering.define d s.lowering = .ok f l →
      s.tracking.add l.unit (some s.tracker) = .error err e →
      Takes s ((((s.passed p).lowered l).handedOver e).fault err #[])
  | evaluated {d : Definition} {p : Parser} {f : Ir.Function} {l : Lowering} {e : Engine} {h : Handled} :
      Parser.wrapper s.ops s.parser = .ok d p → Lowering.define d s.lowering = .ok f l →
      s.tracking.add l.unit (some s.tracker) = .ok () e →
      Evaluates (((s.passed p).lowered l).handedOver e) s.tracker f h → Takes s h

theorem handleTerminator_takes (s : Session) : Takes s s.handleTerminator := by
  unfold handleTerminator
  split
  · rename_i p hp
    exact .skipped hp
  · rename_i e p hp
    exact .unpassed hp

theorem handleDeclaration_takes (s : Session) : Takes s s.handleDeclaration := by
  unfold handleDeclaration
  rw [read_eq]
  cases hread : Parser.declaration s.parser with
  | error e p => exact .unread (.declaration hread)
  | ok proto p =>
    simp only [lower_eq, passed_lowering]
    cases hlower : Lowering.declare proto s.lowering with
    | error e l => exact .undeclared hread hlower
    | ok f l => exact .declared hread hlower

theorem handleDefinition_takes (s : Session) : Takes s s.handleDefinition := by
  unfold handleDefinition
  rw [read_eq]
  cases hread : Parser.definition s.ops s.parser with
  | error e p => exact .unread (.definition hread)
  | ok d p =>
    simp only [lower_eq, passed_lowering]
    cases hlower : Lowering.define d s.lowering with
    | error e l => exact .undefined (.inl hread) hlower
    | ok f l =>
      simp only [load_eq]
      cases hadd : ((s.passed p).lowered l).engine.add ((s.passed p).lowered l).unit none with
      | error err e => exact .rejected hread hlower hadd
      | ok u e => exact .defined hread hlower hadd

theorem evaluate_some {s : Session} {budget : Nat} {f : Ir.Function} {h : Handled} (hn : s.evaluate budget f = some h) :
    (∃ err e, s.tracking.add s.unit (some s.tracker) = .error err e ∧ h = (s.handedOver e).fault err #[]) ∨
    ∃ e, s.tracking.add s.unit (some s.tracker) = .ok () e ∧ Evaluates (s.handedOver e) s.tracker f h := by
  simp only [evaluate, load_eq] at hn
  cases hadd : s.tracking.add s.unit (some s.tracker) with
  | error err e =>
    simp only [show s.engine.newTracker.2.add s.unit (some s.engine.newTracker.1) = _ from hadd] at hn
    cases hn
    exact .inl ⟨err, e, rfl, rfl⟩
  | ok u e =>
    simp only [show s.engine.newTracker.2.add s.unit (some s.engine.newTracker.1) = _ from hadd] at hn
    refine .inr ⟨e, rfl, ?_⟩
    split at hn
    · rename_i err hlookup
      cases hn
      exact .unlinked hlookup
    · rename_i symbol hlookup
      obtain ⟨ran, hran, rfl⟩ := Option.map_eq_some_iff.mp hn
      split
      · rename_i err herr
        exact .stopped hlookup hran herr
      · rename_i x hx
        exact .returned hlookup hran hx

theorem handleExpression_takes {s : Session} {budget : Nat} {h : Handled} (hn : s.handleExpression budget = some h) :
    Takes s h := by
  unfold handleExpression at hn
  rw [read_eq] at hn
  cases hread : Parser.wrapper s.ops s.parser with
  | error e p =>
    rw [hread] at hn
    cases hn
    exact .unread (.wrapper hread)
  | ok d p =>
    simp only [hread, lower_eq, passed_lowering] at hn
    cases hlower : Lowering.define d s.lowering with
    | error e l =>
      rw [hlower] at hn
      cases hn
      exact .undefined (.inr hread) hlower
    | ok f l =>
      simp only [hlower] at hn
      rcases evaluate_some hn with ⟨err, e, hadd, rfl⟩ | ⟨e, hadd, heval⟩
      · exact .wrapperRejected hread hlower hadd
      · exact .evaluated hread hlower hadd heval

theorem next_takes {s : Session} {budget : Nat} {h : Handled} (hn : s.next budget = some h) : Takes s h := by
  unfold next at hn
  split at hn
  · rename_i hcur
    cases hn
    exact .ended hcur
  · cases hn
    exact handleTerminator_takes s
  · cases hn
    exact handleDefinition_takes s
  · cases hn
    exact handleDeclaration_takes s
  · exact handleExpression_takes hn

/-- A turn that fails and lets the session go on has met no fatal error; all that the engine
    fails with is fatal. -/
theorem Takes.isFatal {s : Session} {h : Handled} (ht : Takes s h) :
    (∀ e, h.turn = .done (.failed e) → e.diagnostic.stage.isFatal = false) ∧
      ∀ e, h.turn = .fatal e → (Error.engine e).diagnostic.stage.isFatal = true := by
  have hread : ∀ e : ReadError, (Error.read e).diagnostic.stage.isFatal = false := by
    intro e
    cases e <;> rfl
  refine ⟨fun e he => ?_, fun _ _ => rfl⟩
  cases ht with
  | unpassed _ =>
    cases he
    exact hread _
  | unread _ =>
    cases he
    exact hread _
  | undeclared _ _ =>
    cases he
    rfl
  | undefined _ _ =>
    cases he
    rfl
  | evaluated _ _ _ heval => cases heval <;> cases he
  | _ => cases he

/-! ## Runs -/

/-- A session a text leads to, and the turns before it: each with the session it was taken
    in and what it left. -/
inductive Run {σ : Type} [TokenSource σ] (source : String) : List (Session σ × Handled σ) → Session σ → Prop
  | start : Run source [] (ofText source σ)
  | turn {past : List (Session σ × Handled σ)} {s : Session σ} {h : Handled σ} (budget : Nat) :
      Run source past s → s.next budget = some h → Run source (past ++ [(s, h)]) h.session

section

variable {σ : Type} [TokenSource σ]

/-- The next `n` turns, each expression being given `budget` steps. -/
def takeTurns (budget : Nat) :
    Nat → List (Session σ × Handled σ) × Session σ → Option (List (Session σ × Handled σ) × Session σ)
  | 0, x => some x
  | n + 1, (past, s) => (s.next budget).bind fun h => takeTurns budget n (past ++ [(s, h)], h.session)

theorem Run.takeTurns {source : String} {budget n : Nat} {x y : List (Session σ × Handled σ) × Session σ}
    (h : Run source x.1 x.2) (hy : Session.takeTurns budget n x = some y) : Run source y.1 y.2 := by
  induction n generalizing x with
  | zero =>
    cases hy
    exact h
  | succ n ih =>
    obtain ⟨r, hr, hy⟩ := Option.bind_eq_some_iff.mp hy
    exact ih (h.turn budget hr) hy

/-- Whether the turn found an expression to be `x`. -/
def evaluatesTo (x : Float) (r : Handled σ) : Bool :=
  match r.turn with
  | .done (.evaluated _ y) => y == x
  | _ => false

end

end Kaleidoscope.Session
