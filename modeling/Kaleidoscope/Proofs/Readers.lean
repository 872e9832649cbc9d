/-
  Kaleidoscope.Proofs.Readers — what holds of all readers.

  The readers of statements are put together from a few parts: to give a value, to fail, to
  look at the source and to pass a token. A relation between the readers of two sources that
  their parts are in, and that is kept by doing one after the other (`Closed`), holds of every
  reader; one lemma per rule of the grammar says so, with the reader of nested expressions
  given. Where both sources are the same, it may be a property of one reader.

  So a reader passes tokens that can be lexed and nothing else, until it succeeds, fails for
  the token it has come to, or fails for a literal that it used up (`closed_proceeds`).
-/

import Kaleidoscope.Parser.Statement
import Kaleidoscope.Proofs.Continuation

namespace Kaleidoscope.Parser

open Source

/-! ## Closed relations -/

section

variable {σ τ : Type} [TokenSource σ] [TokenSource τ]

/-- The parts of readers are related, and it is kept when they are put together. -/
structure Closed (R : (α : Type) → ReadM σ α → ReadM τ α → Prop) : Prop where
  pure {α : Type} (a : α) : R α (Pure.pure a) (Pure.pure a)
  fail {α : Type} (e : ParseError) : R α (Parser.fail e) (Parser.fail e)
  bind {α β : Type} {x : ReadM σ α} {y : ReadM τ α} {f : α → ReadM σ β} {g : α → ReadM τ β} :
    R α x y → (∀ a, R β (f a) (g a)) → R β (x >>= f) (y >>= g)
  current : R Token Parser.current Parser.current
  advance : R Unit Parser.advance Parser.advance
  operator? : R (Option String) TokenSource.operator? TokenSource.operator?

namespace Closed

variable {R : (α : Type) → ReadM σ α → ReadM τ α → Prop} (hR : Closed R)

omit [TokenSource σ] [TokenSource τ] in
theorem either {α : Type} {c : Prop} [Decidable c] {x x' : ReadM σ α} {y y' : ReadM τ α} (h : R α x y)
    (h' : R α x' y') :
    R α (if c then x else x') (if c then y else y') := by
  split
  · exact h
  · exact h'

include hR

theorem expect (t : Token) (e : ParseError) : R Unit (Parser.expect t e) (Parser.expect t e) :=
  hR.bind hR.current fun _ => either hR.advance (hR.fail e)

theorem passIf (t : Token) : R Unit (Parser.passIf t) (Parser.passIf t) :=
  hR.bind hR.current fun _ => either hR.advance (hR.pure _)

theorem advanceBy (n : Nat) : R Unit (Parser.advanceBy n) (Parser.advanceBy n) := by
  induction n with
  | zero => exact hR.pure _
  | succ n ih => exact hR.bind hR.advance fun _ => ih

theorem nextPrecedence? (ops : Operator.Precedences) :
    R (Option Nat) (Parser.nextPrecedence? ops) (Parser.nextPrecedence? ops) :=
  hR.bind hR.operator? fun o => hR.pure (o.bind ops.find?)

theorem takeOperator : R (Option String) Parser.takeOperator Parser.takeOperator := by
  refine hR.bind hR.operator? fun o => ?_
  split
  · exact hR.pure _
  · exact hR.bind (hR.advanceBy _) fun _ => hR.pure _

section

variable {nested : ReadM σ Expr} {nested' : ReadM τ Expr} (h : R Expr nested nested')

include h

theorem argumentsWithin (n : Nat) :
    R (List Expr) (Parser.argumentsWithin nested n) (Parser.argumentsWithin nested' n) := by
  induction n with
  | zero => exact hR.fail _
  | succ n ih =>
    refine hR.bind h fun e => hR.bind hR.current fun t => ?_
    split
    · exact hR.pure _
    · exact hR.bind hR.advance fun _ => hR.bind ih fun _ => hR.pure _
    · exact hR.fail _

theorem reference (n : Nat) (name : String) :
    R Expr (Parser.reference nested n name) (Parser.reference nested' n name) := by
  have hcall : ∀ args, R Expr (Parser.advance >>= fun _ => Pure.pure (.call name args))
      (Parser.advance >>= fun _ => Pure.pure (.call name args)) := fun args =>
    hR.bind hR.advance fun _ => hR.pure _
  refine hR.bind hR.advance fun _ => hR.bind hR.current fun _ => either ?_ (hR.pure _)
  refine hR.bind hR.advance fun _ => hR.bind hR.current fun _ => either ?_ ?_
  · exact hR.bind (hR.pure []) hcall
  · exact hR.bind (hR.argumentsWithin h n) hcall

theorem variableDecl : R Expr (Parser.variableDecl nested) (Parser.variableDecl nested') := by
  refine hR.bind hR.advance fun _ => hR.bind hR.current fun t => ?_
  split
  · refine hR.bind hR.advance fun _ => hR.bind hR.current fun _ => either ?_ (hR.pure _)
    exact hR.bind hR.advance fun _ => hR.bind h fun _ => hR.pure _
  · exact hR.fail _

theorem conditional : R Expr (Parser.conditional nested) (Parser.conditional nested') := by
  refine hR.bind hR.advance fun _ => hR.bind h fun _ => hR.bind (hR.passIf _) fun _ => ?_
  refine hR.bind h fun _ => hR.bind (hR.passIf _) fun _ => hR.bind hR.current fun _ => either ?_ (hR.pure _)
  exact hR.bind hR.advance fun _ => hR.bind h fun _ => hR.bind (hR.passIf _) fun _ => hR.pure _

theorem loop : R Expr (Parser.loop nested) (Parser.loop nested') := by
  refine hR.bind hR.advance fun _ => hR.bind hR.current fun t => ?_
  split
  · rename_i name
    refine hR.bind hR.advance fun _ => hR.bind (hR.expect _ _) fun _ => hR.bind h fun start => ?_
    refine hR.bind (hR.expect _ _) fun _ => hR.bind h fun stop => hR.bind (hR.expect _ _) fun _ => ?_
    have hbody : ∀ step : Option Expr, R Expr (do
        if (← Parser.current) = .punct '{' then
          let body ← nested
          Parser.passIf .terminator
          Pure.pure (.loop name start stop step body)
        else Parser.fail .loopBody) (do
        if (← Parser.current) = .punct '{' then
          let body ← nested'
          Parser.passIf .terminator
          Pure.pure (.loop name start stop step body)
        else Parser.fail .loopBody) := fun step =>
      hR.bind hR.current fun _ => either (hR.bind h fun _ => hR.bind (hR.passIf _) fun _ => hR.pure _) (hR.fail _)
    refine hR.bind hR.current fun _ => either (hR.bind (hR.pure none) hbody) ?_
    have hstep : R (Option Expr) (some <$> nested) (some <$> nested') := hR.bind h fun e => hR.pure (some e)
    exact hR.bind hstep hbody
  · exact hR.fail _

theorem membersWithin (n : Nat) : R (List Expr) (Parser.membersWithin nested n) (Parser.membersWithin nested' n) := by
  induction n with
  | zero => exact hR.fail _
  | succ n ih =>
    have hend : R Unit memberEnd memberEnd := by
      refine hR.bind hR.current fun t => ?_
      split
      · exact hR.advance
      · exact hR.pure _
      · exact hR.fail _
    refine hR.bind hR.current fun t => ?_
    split
    · exact hR.pure _
    · exact hR.fail _
    · refine hR.bind h fun e => ?_
      have hrest : R (List Expr) (Parser.membersWithin nested n >>= fun es => Pure.pure (e :: es))
          (Parser.membersWithin nested' n >>= fun es => Pure.pure (e :: es)) := hR.bind ih fun _ => hR.pure _
      exact either hrest (hR.bind hend fun _ => hrest)

theorem primary (n : Nat) : R Expr (Parser.primary nested n) (Parser.primary nested' n) := by
  refine hR.bind hR.current fun t => ?_
  split
  · exact hR.reference h n _
  · exact hR.bind hR.advance fun _ => hR.pure _
  · exact hR.conditional h
  · exact hR.loop h
  · exact hR.variableDecl h
  · exact hR.bind hR.advance fun _ => hR.bind h fun _ => hR.bind (hR.expect _ _) fun _ => hR.pure _
  · exact hR.bind hR.advance fun _ => hR.bind (hR.membersWithin h n) fun _ => hR.bind hR.advance fun _ => hR.pure _
  · exact hR.fail _
  · exact hR.fail _

theorem operandWithin (n : Nat) : R Expr (Parser.operandWithin nested n) (Parser.operandWithin nested' n) := by
  induction n with
  | zero => exact hR.fail _
  | succ n ih =>
    refine hR.bind hR.current fun t => ?_
    split
    · exact hR.bind hR.advance fun _ => hR.bind ih fun _ => hR.pure _
    · exact h

theorem climbWithin (ops : Operator.Precedences) (n least : Nat) (lhs : Expr) :
    R Expr (Parser.climbWithin ops nested n least lhs) (Parser.climbWithin ops nested' n least lhs) := by
  induction n generalizing least lhs with
  | zero => exact hR.pure _
  | succ n ih =>
    refine hR.bind (hR.nextPrecedence? ops) fun o => ?_
    split
    · exact hR.pure _
    · refine either (hR.pure _) (hR.bind hR.takeOperator fun o => ?_)
      split
      · exact hR.pure _
      · refine hR.bind h fun rhs => hR.bind (hR.nextPrecedence? ops) fun o => ?_
        split
        · exact either (hR.bind (ih _ rhs) fun _ => ih _ _) (ih _ _)
        · exact ih _ _

end

theorem expressionWithin (ops : Operator.Precedences) (n : Nat) :
    R Expr (Parser.expressionWithin ops n) (Parser.expressionWithin ops n) := by
  induction n with
  | zero => exact hR.fail _
  | succ n ih =>
    have hoperand := hR.operandWithin (hR.primary ih (n + 1)) (n + 1)
    exact hR.bind hoperand fun lhs => hR.climbWithin hoperand ops (n + 1) 0 lhs

theorem head : R Head Parser.head Parser.head := by
  refine hR.bind hR.current fun t => ?_
  split
  · exact hR.bind hR.advance fun _ => hR.pure _
  · refine hR.bind hR.advance fun _ => hR.bind (hR.expect _ _) fun _ => hR.bind hR.current fun t => ?_
    split
    · exact either (hR.bind hR.advance fun _ => hR.pure _) (hR.fail _)
    · exact hR.fail _
  · have hprecedence : R Nat precedenceHere precedenceHere := by
      refine hR.bind hR.current fun t => ?_
      split
      · exact either (hR.fail _) (hR.bind hR.advance fun _ => hR.pure _)
      · exact hR.pure _
    refine hR.bind hR.advance fun _ => hR.bind (hR.expect _ _) fun _ => hR.bind hR.takeOperator fun o => ?_
    split
    · exact hR.bind hprecedence fun _ => hR.pure _
    · exact hR.fail _
  · exact hR.fail _

theorem parametersWithin (n : Nat) (after : Bool) :
    R (List String) (Parser.parametersWithin n after) (Parser.parametersWithin n after) := by
  induction n generalizing after with
  | zero => exact hR.pure _
  | succ n ih =>
    refine hR.bind hR.current fun t => ?_
    split
    · exact hR.bind hR.advance fun _ => hR.bind (ih true) fun _ => hR.pure _
    · refine either (hR.bind hR.advance fun _ => hR.bind hR.current fun t => ?_) (hR.pure _)
      split
      · exact ih true
      · exact hR.fail _
    · exact hR.pure _

/-! The counts of two sources need not be the same, so what their counts bound is given. -/

theorem prototype (hparameters : R (List String) parameters parameters) :
    R Prototype Parser.prototype Parser.prototype := by
  refine hR.bind hR.head fun head => hR.bind (hR.expect _ _) fun _ => hR.bind hparameters fun params => ?_
  refine hR.bind (hR.expect _ _) fun _ => ?_
  unfold prototypeOf
  split
  · exact hR.pure _
  · exact hR.pure _
  · exact hR.pure _
  · exact hR.fail _

theorem declaration (hparameters : R (List String) parameters parameters) :
    R Prototype Parser.declaration Parser.declaration :=
  hR.bind hR.advance fun _ => hR.prototype hparameters

theorem definition {ops : Operator.Precedences} (hparameters : R (List String) parameters parameters)
    (hexpression : R Expr (expression ops) (expression ops)) :
    R Definition (Parser.definition ops) (Parser.definition ops) :=
  hR.bind hR.advance fun _ => hR.bind (hR.prototype hparameters) fun _ => hR.bind hexpression fun _ => hR.pure _

end Closed

end

/-! ## What readers pass -/

/-- From `p`, tokens were passed that could be lexed, up to where a reader failed: for the
    token there, or for a literal that it used up. -/
def Stops (p : Parser) (e : ReadError) (q : Parser) : Prop :=
  match e with
  | .grammar _ => Clears p q
  | .lexical e => ∃ r, Clears p r ∧ advance r = .error (.lexical e) q

/-- From `p`, a reader passed tokens that could be lexed and no others. -/
def Proceeds {α : Type} (p : Parser) : EStateM.Result ReadError Parser α → Prop
  | .ok _ q => Clears p q
  | .error e q => p.Stops e q

theorem Clears.stops {p q r : Parser} {e : ReadError} (hp : Clears p q) (h : q.Stops e r) : p.Stops e r := by
  cases e with
  | grammar e => exact hp.trans h
  | lexical e =>
    obtain ⟨m, hm, hr⟩ := h
    exact ⟨m, hp.trans hm, hr⟩

theorem closed_proceeds : Closed fun α (x _ : Parse α) => ∀ p : Parser, p.Proceeds (x p) where
  pure a p := .refl
  fail e p := .refl
  current p := .refl
  operator? p := .refl
  bind {α β x _ f _} hx hf p := by
    have hxp := hx p
    cases h : x p with
    | ok a q =>
      rw [h] at hxp
      rw [bind_of_ok h]
      have hfq := hf a q
      cases hy : f a q with
      | ok b r =>
        rw [hy] at hfq
        exact hxp.trans hfq
      | error e r =>
        rw [hy] at hfq
        exact Clears.stops hxp hfq
    | error e q =>
      rw [h] at hxp
      rw [bind_of_error h]
      exact hxp
  advance p := by
    obtain ⟨cur, _ | ⟨⟨t | e, adjoins⟩, rest⟩, wrapped⟩ := p
    · exact .single rfl
    · exact ⟨_, .refl, rfl⟩
    · exact .single rfl

section

variable (ops : Operator.Precedences) (p : Parser)

theorem expression_proceeds : p.Proceeds (expression ops p) := closed_proceeds.expressionWithin ops p.size p

theorem parameters_proceeds : p.Proceeds (parameters p) := closed_proceeds.parametersWithin p.size false p

theorem declaration_proceeds : p.Proceeds (declaration p) := closed_proceeds.declaration parameters_proceeds p

theorem definition_proceeds : p.Proceeds (definition ops p) :=
  closed_proceeds.definition parameters_proceeds (expression_proceeds ops) p

end

theorem wrapper_stops {ops : Operator.Precedences} {p q : Parser} {e : ReadError} (h : wrapper ops p = .error e q) :
    p.Stops e q := by
  have hbody := expression_proceeds ops p
  cases hx : expression ops p with
  | ok body r =>
    rw [wrapper, bind_of_ok hx] at h
    cases h
  | error e' r =>
    rw [wrapper, bind_of_error hx] at h
    cases h
    rw [hx] at hbody
    exact hbody

end Kaleidoscope.Parser
