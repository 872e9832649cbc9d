/-
  Kaleidoscope.Proofs.WellFormed — what holds of every session.

  Between turns, tokens are as a text can have them, prototypes are registered under their
  own names, names that no text can spell only without parameters and those of operators
  with one for each operand, the open unit is covered by the registry, and the engine was
  given units that pass the check. Each turn keeps all of it, whether it succeeds, fails or is
  fatal (`WellFormed.takes`), so it holds of every run (`Run.wellFormed`).
-/

import Kaleidoscope.Proofs.Coverage
import Kaleidoscope.Proofs.Naming
import Kaleidoscope.Proofs.Turns

namespace Kaleidoscope

/-- Every function passes the check. -/
def Ir.CompilationUnit.Checks (u : CompilationUnit) : Prop := ∀ f ∈ u.functions, u.check f = .ok ()

/-- What a name says of the number of parameters. -/
structure Admissible (n : String) (k : Nat) : Prop where
  wrapper : Reserved n → k = 0
  operator : OperatorArity n k

def Definition.Admissible (d : Definition) : Prop := Kaleidoscope.Admissible d.proto.name d.proto.arity

namespace Session

variable {s : Session} {p : Parser} {d : Definition} {f : Ir.Function} {l : Lowering} {e : Engine}

structure WellFormed (s : Session) : Prop where
  lexed : s.parser.Lexed
  named : s.registry.Named
  arities : ∀ n k, s.registry.arity? n = some k → Admissible n k
  unit : s.registry.Covers none s.unit
  engine : s.engine.Reached Ir.CompilationUnit.Checks

theorem wellFormed_ofText (source : String) : (ofText source).WellFormed where
  lexed := Parser.lexed_ofText source
  named := by
    intro n p h
    cases h
  arities := by
    intro n k h
    cases h
  unit := Registry.covers_empty rfl
  engine := .new

theorem WellFormed.wrappers (hs : s.WellFormed) (n : String) (k : Nat) (hn : Reserved n)
    (hk : s.registry.arity? n = some k) : k = 0 := (hs.arities n k hk).wrapper hn

/-! ## Reading -/

theorem lexed_definition (hs : s.WellFormed) : (Parser.left (Parser.definition s.ops s.parser)).Lexed :=
  hs.lexed.left (Parser.definition_same s.parser.size)

theorem lexed_declaration (hs : s.WellFormed) : (Parser.left (Parser.declaration s.parser)).Lexed :=
  hs.lexed.left (Parser.declaration_same s.parser.size)

theorem lexed_wrapper (hs : s.WellFormed) : (Parser.left (Parser.wrapper s.ops s.parser)).Lexed :=
  Parser.wrapper_lexed hs.lexed

theorem lexed_of_ok {α : Type} {x : EStateM.Result ReadError Parser α} {a : α} (hx : (Parser.left x).Lexed)
    (h : x = .ok a p) : p.Lexed := by
  subst h
  exact hx

theorem lexed_of_error {α : Type} {x : EStateM.Result ReadError Parser α} {err : ReadError} (hx : (Parser.left x).Lexed)
    (h : x = .error err p) : p.Lexed := by
  subst h
  exact hx

theorem lexed_of_unread {err : ReadError} (hs : s.WellFormed) (h : s.Unread err p) : p.Lexed := by
  cases h with
  | definition h => exact lexed_of_error (lexed_definition hs) h
  | declaration h => exact lexed_of_error (lexed_declaration hs) h
  | wrapper h => exact lexed_of_error (lexed_wrapper hs) h

theorem admissible_of_definition (hs : s.WellFormed) (h : Parser.definition s.ops s.parser = .ok d p) : d.Admissible :=
  ⟨fun hres => absurd hres (Parser.definition_not_reserved hs.lexed h), Parser.definition_operatorArity hs.lexed h⟩

theorem admissible_of_declaration {proto : Prototype} (hs : s.WellFormed)
    (h : Parser.declaration s.parser = .ok proto p) : Admissible proto.name proto.arity :=
  ⟨fun hres => absurd hres (Parser.declaration_not_reserved hs.lexed h), Parser.declaration_operatorArity hs.lexed h⟩

theorem reserved_of_wrapper (h : Parser.wrapper s.ops s.parser = .ok d p) : Reserved d.proto.name ∧ d.Admissible := by
  obtain ⟨q, -, hproto, -⟩ := Parser.wrapper_ok h
  rw [Definition.Admissible, hproto]
  have hres := reserved_wrapperName q.wrapped
  exact ⟨hres, fun _ => rfl, operatorArity_of_reserved hres _⟩

theorem WellFormed.passed (hs : s.WellFormed) (hp : p.Lexed) : (s.passed p).WellFormed :=
  ⟨hp, hs.named, hs.arities, hs.unit, hs.engine⟩

/-! ## Lowering -/

/-- A definition that failed leaves every registration as it was. -/
theorem WellFormed.define_error {err : LoweringError} (hs : s.WellFormed)
    (h : Lowering.define d s.lowering = .error err l) : (s.lowered l).WellFormed := by
  obtain ⟨hfind, hcovers⟩ := Lowering.covers_define_error hs.named hs.unit h
  refine ⟨hs.lexed, fun n q hq => ?_, fun n k hk => ?_, hcovers, hs.engine⟩
  · refine hs.named n q ?_
    rw [← hq]
    exact congrArg (Option.map _) (hfind n).symm
  · refine hs.arities n k ?_
    rw [← hk]
    exact (Registry.arity?_congr (hfind n)).symm

theorem WellFormed.declared {proto : Prototype} (hs : s.WellFormed) (hp : Admissible proto.name proto.arity)
    (h : Lowering.declare proto s.lowering = .ok f l) : (s.lowered l).WellFormed := by
  obtain ⟨hknown, -, rfl⟩ := Lowering.declare_ok h
  refine ⟨hs.lexed, ?_, fun n k hk => ?_, Lowering.covers_declared hknown hs.unit, hs.engine⟩
  · show Registry.Named (if s.registry.isDefined proto.name then s.registry else s.registry.register proto)
    split
    · exact hs.named
    · exact hs.named.register proto
  · have hk := (Lowering.arity?_declared hknown n).symm.trans hk
    split at hk
    · rename_i hname
      cases hk
      exact hname ▸ hp
    · exact hs.arities n k hk

/-- A definition that succeeded, once its unit was handed over. -/
theorem WellFormed.defines (hs : s.WellFormed) (hd : d.Admissible) (h : Lowering.Defines d s.lowering f l)
    (he : e.Reached Ir.CompilationUnit.Checks) : ((s.lowered l).handedOver e).WellFormed := by
  refine ⟨hs.lexed, fun n q hq => ?_, fun n k hk => ?_, Registry.covers_empty rfl, he⟩
  · have hq : l.registry.proto? n = some q := hq
    rw [Registry.proto?, h.find?] at hq
    split at hq
    · rename_i hname
      cases hq
      exact hname
    · exact hs.named n q hq
  · have hk : l.registry.arity? n = some k := hk
    rw [Registry.arity?, Registry.proto?, h.find?] at hk
    split at hk
    · rename_i hname
      cases hk
      exact hname ▸ hd
    · exact hs.arities n k hk

theorem WellFormed.released (hs : s.WellFormed) (hunit : s.unit.functions = []) (t : Tracker) (n : String) :
    (s.released t n).WellFormed := by
  have hfind : ∀ m, n ≠ m → (s.released t n).registry.find? m = s.registry.find? m := fun m hne => by
    show Bindings.find? (s.registry.erase n) m = _
    rw [Bindings.find?_erase, if_neg hne]
  have hnone : (s.released t n).registry.find? n = none := by
    show Bindings.find? (s.registry.erase n) n = _
    rw [Bindings.find?_erase, if_pos rfl]
  refine ⟨hs.lexed, fun m q hq => ?_, fun m k hk => ?_, Registry.covers_empty hunit, hs.engine.release t⟩
  · by_cases hne : n = m
    · subst hne
      simp [Registry.proto?, hnone] at hq
    · refine hs.named m q ?_
      rwa [Registry.proto?, hfind m hne] at hq
  · by_cases hne : n = m
    · subst hne
      simp [Registry.arity?, Registry.proto?, hnone] at hk
    · refine hs.arities m k ?_
      rwa [Registry.arity?_congr (hfind m hne)] at hk

/-! ## Turns -/

theorem WellFormed.definition (hs : s.WellFormed) (hp : Parser.definition s.ops s.parser = .ok d p)
    (hl : Lowering.define d s.lowering = .ok f l) (he : e.Reached Ir.CompilationUnit.Checks) :
    (((s.passed p).lowered l).handedOver e).WellFormed :=
  (hs.passed (lexed_of_ok (lexed_definition hs) hp)).defines (admissible_of_definition hs hp) (Lowering.define_ok hl) he

theorem WellFormed.wrapper (hs : s.WellFormed) (hp : Parser.wrapper s.ops s.parser = .ok d p)
    (hl : Lowering.define d s.lowering = .ok f l) (he : e.Reached Ir.CompilationUnit.Checks) :
    (((s.passed p).lowered l).handedOver e).WellFormed :=
  (hs.passed (lexed_of_ok (lexed_wrapper hs) hp)).defines (reserved_of_wrapper hp).2 (Lowering.define_ok hl) he

theorem WellFormed.checks (hs : s.WellFormed) (h : Lowering.define d s.lowering = .ok f l) : l.unit.Checks :=
  fun _ hg => (Lowering.define_ok h).checks hs.named hs.unit hg

theorem WellFormed.takes {h : Handled} (hs : s.WellFormed) (ht : s.Takes h) : h.session.WellFormed := by
  cases ht with
  | ended _ => exact hs
  | skipped hp => exact hs.passed (lexed_of_ok hs.lexed.advance hp)
  | unpassed hp => exact hs.passed (lexed_of_error hs.lexed.advance hp)
  | unread hp => exact hs.passed (lexed_of_unread hs hp).advance
  | undeclared hp hl =>
    cases Lowering.declare_error hl
    exact hs.passed (lexed_of_ok (lexed_declaration hs) hp)
  | declared hp hl =>
    have hadm := admissible_of_declaration hs hp
    exact (hs.passed (lexed_of_ok (lexed_declaration hs) hp)).declared hadm hl
  | undefined hp hl =>
    rcases hp with hp | hp
    · exact (hs.passed (lexed_of_ok (lexed_definition hs) hp)).define_error hl
    · exact (hs.passed (lexed_of_ok (lexed_wrapper hs) hp)).define_error hl
  | rejected hp hl hadd =>
    obtain rfl := Engine.add_error_eq hadd
    exact hs.definition hp hl hs.engine
  | defined hp hl hadd => exact hs.definition hp hl (hs.engine.add (hs.checks hl) hadd)
  | wrapperRejected hp hl hadd =>
    obtain rfl := Engine.add_error_eq hadd
    exact hs.wrapper hp hl hs.engine.newTracker
  | evaluated hp hl hadd heval =>
    have hloaded := hs.wrapper hp hl (hs.engine.newTracker.add (hs.checks hl) hadd)
    cases heval with
    | unlinked _ => exact hloaded
    | stopped _ _ _ => exact hloaded
    | returned _ _ _ => exact hloaded.released rfl _ _

theorem Run.wellFormed {source : String} {past : List (Session × Handled)} (h : Run source past s) : s.WellFormed := by
  induction h with
  | start => exact wellFormed_ofText source
  | turn budget _ hn ih => exact ih.takes (next_takes hn)

end Session

end Kaleidoscope
