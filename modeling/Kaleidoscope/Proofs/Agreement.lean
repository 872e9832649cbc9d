/-
  Kaleidoscope.Proofs.Agreement — one text, read from items and from positions.

  The grammar and the sessions are the same whatever they read from. From items and from
  positions in the text they also do the same.
  - The rules of the grammar are put together from parts that agree (`Parser.closed_agree`).
    The counts that bound them do not: a scanner counts bytes. But any count will do that is
    not less than the tokens left (`InStep.size_le`, `InStep.expression`).
  - A statement that cannot be read is given up in step, too (`InStep.read`). Past its reader
    a turn leaves the source alone, so the turns of sessions in step go the same way and
    leave sessions in step (`InStep.next`).
  - What two sessions do in step they do for whole runs (`Run.lockstep`), and to the end of
    the text (`InStep.runWithin`).
-/

import Mathlib.Data.List.Forall2
import Kaleidoscope.Proofs.Lookahead

namespace Kaleidoscope

open Source

/-! ## Counts -/

namespace Source.Lexer

/-- Every result before the end of input takes a byte. -/
theorem length_items_sub_le (source : String) (n : Nat) :
    (ofText source).items.length - n ≤ width ((ofText source).after n).rest := by
  induction hk : (ofText source).items.length - n generalizing n with
  | zero => exact Nat.zero_le _
  | succ k ih =>
    have hne := (getElem?_items (show n < (ofText source).items.length by omega)).1
    exact Nat.lt_of_le_of_lt (ih (n + 1) (by omega)) (width_next hne)

end Source.Lexer

namespace Parser

variable {source : String} {ops : Operator.Precedences} {n : Nat} {p : Parser} {r : Scanner}

/-- There are no more tokens left than bytes. -/
theorem InStep.size_le (h : InStep source n p r) : p.size ≤ TokenSource.size r := by
  obtain ⟨before, htext, hstop⟩ := Lexer.exists_before source n
  have hbytes : source.utf8ByteSize = width before + width ((Lexer.ofText source).after n).rest := by
    rw [← width_toList, htext, width_append]
  have hleft : (Lexer.ofText source).items.length - n ≤ source.utf8ByteSize - width before := by
    have hle := Lexer.length_items_sub_le source n
    omega
  have hcursor : TokenSource.size r = source.utf8ByteSize - width before + 1 := by
    rw [← hstop, h.eq]
    rfl
  have hsize := Kaleidoscope.Parser.size_le p
  rw [h.rest, List.length_drop] at hsize
  omega

/-! ## Statements -/

theorem InStep.expression (h : InStep source n p r) :
    Agree source (Parser.expression ops p) (Parser.expression ops r) := by
  have hwithin := (closed_agree source).expressionWithin ops (TokenSource.size r) h
  rwa [expressionWithin_eq ops h.size_le] at hwithin

theorem InStep.parameters (h : InStep source n p r) : Agree source (Parser.parameters p) (Parser.parameters r) := by
  have hwithin := (closed_agree source).parametersWithin (TokenSource.size r) false h
  rwa [parametersWithin_eq h.size_le] at hwithin

theorem InStep.declaration (h : InStep source n p r) : Agree source (Parser.declaration p) (Parser.declaration r) :=
  (closed_agree source).declaration InStep.parameters h

theorem InStep.definition (h : InStep source n p r) :
    Agree source (Parser.definition ops p) (Parser.definition ops r) :=
  (closed_agree source).definition InStep.parameters InStep.expression h

theorem InStep.wrapper (h : InStep source n p r) : Agree source (Parser.wrapper ops p) (Parser.wrapper ops r) := by
  refine h.expression.bind fun body m q s hstep => ?_
  have hcount : (TokenSource.countWrapper : Scanner.Scan Nat) s =
      .ok q.wrapped { s with wrapped := q.wrapped + 1 } := by
    rw [← hstep.wrapped]
    rfl
  rw [countWrapper_bind_run, bind_of_ok hcount]
  exact .ok _ ⟨hstep.rest, hstep.cur, hstep.cursor, rfl, hstep.start, hstep.ended⟩

/-- Whichever way they went, they are in step again. -/
theorem Agree.left {α : Type} {x : EStateM.Result ReadError Parser α} {y : EStateM.Result ReadError Scanner α}
    (h : Agree source x y) : ∃ n, InStep source n (left x) (left y) := by
  cases h with
  | ok _ hstep => exact ⟨_, hstep⟩
  | error _ hstep => exact ⟨_, hstep⟩

end Parser

/-! ## Turns -/

/-- One session reads the items of a text, the other the text; nothing else is different. -/
def Session.InStep (source : String) (s : Session) (t : Session Scanner) : Prop :=
  ∃ n r, Parser.InStep source n s.parser r ∧ t = s.passed r

/-- Both turns went the same way. -/
structure Handled.InStep (source : String) (h : Handled) (k : Handled Scanner) : Prop where
  turn : k.turn = h.turn
  calls : k.calls = h.calls
  session : h.session.InStep source k.session

namespace Session

variable {α : Type} {source : String} {s : Session} {t : Session Scanner}

theorem inStep_ofText (source : String) : (ofText source).InStep source (ofText source Scanner) :=
  ⟨0, _, ⟨rfl, rfl, rfl, rfl, fun _ => rfl, iff_of_false Token.noConfusion (Nat.not_lt_zero _)⟩, rfl⟩

/-- Both give the same, and leave sessions in step. -/
def Both (source : String) {ε : Type} (x : Except ε α × Session) (y : Except ε α × Session Scanner) : Prop :=
  ∃ result s t, x = (result, s) ∧ y = (result, t) ∧ s.InStep source t

namespace InStep

theorem ops (h : s.InStep source t) : t.ops = s.ops := by
  obtain ⟨n, r, -, rfl⟩ := h
  rfl

theorem engine (h : s.InStep source t) : t.engine = s.engine := by
  obtain ⟨n, r, -, rfl⟩ := h
  rfl

theorem cur (h : s.InStep source t) : TokenSource.cur t.parser = TokenSource.cur s.parser := by
  obtain ⟨n, r, hparser, rfl⟩ := h
  exact hparser.cur

theorem withEngine (h : s.InStep source t) (e : Engine) :
    Session.InStep source { s with engine := e } { t with engine := e } := by
  obtain ⟨n, r, hparser, rfl⟩ := h
  exact ⟨n, r, hparser, rfl⟩

/-! ### Parts of a turn -/

theorem read {x : Parse α} {y : Scanner.Scan α} (h : s.InStep source t)
    (hxy : ∀ {n p r}, Parser.InStep source n p r → Parser.Agree source (x p) (y r)) :
    Both source (s.read x) (t.read y) := by
  obtain ⟨n, r, hparser, rfl⟩ := h
  have hagree := hxy hparser
  rw [read_eq, read_eq, show (s.passed r).parser = r from rfl]
  generalize x s.parser = xp at hagree
  generalize y r = yr at hagree
  cases hagree with
  | ok a hstep => exact ⟨_, _, _, rfl, rfl, _, _, hstep, rfl⟩
  | error e hstep =>
    -- whatever becomes of the token that is passed, it is passed in step
    obtain ⟨n, hpassed⟩ := hstep.advance.left
    exact ⟨_, _, _, rfl, rfl, n, _, hpassed, rfl⟩

theorem lower (h : s.InStep source t) (x : Lower α) : Both source (s.lower x) (t.lower x) := by
  obtain ⟨n, r, hparser, rfl⟩ := h
  rw [lower_eq, lower_eq, passed_lowering]
  cases x s.lowering with
  | ok a l => exact ⟨_, _, _, rfl, rfl, n, r, hparser, rfl⟩
  | error e l => exact ⟨_, _, _, rfl, rfl, n, r, hparser, rfl⟩

theorem load (h : s.InStep source t) (tracker : Option Tracker) : Both source (s.load tracker) (t.load tracker) := by
  obtain ⟨n, r, hparser, rfl⟩ := h
  rw [load_eq, load_eq, show (s.passed r).engine.add (s.passed r).unit tracker = s.engine.add s.unit tracker from rfl]
  cases s.engine.add s.unit tracker with
  | ok u e => exact ⟨_, _, _, rfl, rfl, n, r, hparser, rfl⟩
  | error err e => exact ⟨_, _, _, rfl, rfl, n, r, hparser, rfl⟩

theorem fail (h : s.InStep source t) (e : Error) : (s.fail e).InStep source (t.fail e) := ⟨rfl, rfl, h⟩

theorem fault (h : s.InStep source t) (e : EngineError) (calls : Array Invocation) :
    (s.fault e calls).InStep source (t.fault e calls) := ⟨rfl, rfl, h⟩

/-! ### Statements -/

theorem handleTerminator (h : s.InStep source t) : s.handleTerminator.InStep source t.handleTerminator := by
  obtain ⟨n, r, hparser, rfl⟩ := h
  have hagree := hparser.advance
  unfold Session.handleTerminator
  rw [show (s.passed r).parser = r from rfl]
  generalize Parser.advance s.parser = xp at hagree
  generalize Parser.advance r = yr at hagree
  cases hagree with
  | ok a hstep => exact ⟨rfl, rfl, _, _, hstep, rfl⟩
  | error e hstep => exact ⟨rfl, rfl, _, _, hstep, rfl⟩

theorem handleDefinition (h : s.InStep source t) : s.handleDefinition.InStep source t.handleDefinition := by
  obtain ⟨_ | d, s₁, t₁, hs₁, ht₁, h₁⟩ := h.read (x := Parser.definition s.ops) Parser.InStep.definition
  · simp only [Session.handleDefinition, h.ops, hs₁, ht₁]
    exact h₁.fail _
  obtain ⟨_ | f, s₂, t₂, hs₂, ht₂, h₂⟩ := h₁.lower (Lowering.define d)
  · simp only [Session.handleDefinition, h.ops, hs₁, ht₁, hs₂, ht₂]
    exact h₂.fail _
  obtain ⟨_ | u, s₃, t₃, hs₃, ht₃, h₃⟩ := h₂.load none
  · simp only [Session.handleDefinition, h.ops, hs₁, ht₁, hs₂, ht₂, hs₃, ht₃]
    exact h₃.fault _ _
  · simp only [Session.handleDefinition, h.ops, hs₁, ht₁, hs₂, ht₂, hs₃, ht₃]
    exact ⟨rfl, rfl, h₃⟩

theorem handleDeclaration (h : s.InStep source t) : s.handleDeclaration.InStep source t.handleDeclaration := by
  obtain ⟨_ | proto, s₁, t₁, hs₁, ht₁, h₁⟩ := h.read Parser.InStep.declaration
  · simp only [Session.handleDeclaration, hs₁, ht₁]
    exact h₁.fail _
  obtain ⟨_ | f, s₂, t₂, hs₂, ht₂, h₂⟩ := h₁.lower (Lowering.declare proto)
  · simp only [Session.handleDeclaration, hs₁, ht₁, hs₂, ht₂]
    exact h₂.fail _
  · simp only [Session.handleDeclaration, hs₁, ht₁, hs₂, ht₂]
    exact ⟨rfl, rfl, h₂⟩

theorem evaluate (h : s.InStep source t) (budget : Nat) (f : Ir.Function) :
    Option.Rel (Handled.InStep source) (s.evaluate budget f) (t.evaluate budget f) := by
  obtain ⟨_ | u, s₁, t₁, hs₁, ht₁, h₁⟩ := (h.withEngine s.engine.newTracker.2).load (some s.engine.newTracker.1)
  · simp only [Session.evaluate, h.engine, hs₁, ht₁]
    exact .some (h₁.fault _ _)
  simp only [Session.evaluate, h.engine, hs₁, ht₁]
  obtain ⟨n, r, hparser, rfl⟩ := id h₁
  rw [show (s₁.passed r).engine = s₁.engine from rfl]
  cases s₁.engine.lookup f.name with
  | error e => exact .some (h₁.fault _ _)
  | ok symbol =>
    simp only
    cases s₁.engine.invoke budget symbol [] with
    | none => exact .none
    | some ran =>
      simp only [Option.map_some]
      rcases ran.result with e | x
      · exact .some (h₁.fault _ _)
      · exact .some ⟨rfl, rfl, n, r, hparser, rfl⟩

theorem handleExpression (h : s.InStep source t) (budget : Nat) :
    Option.Rel (Handled.InStep source) (s.handleExpression budget) (t.handleExpression budget) := by
  obtain ⟨_ | d, s₁, t₁, hs₁, ht₁, h₁⟩ := h.read (x := Parser.wrapper s.ops) Parser.InStep.wrapper
  · simp only [Session.handleExpression, h.ops, hs₁, ht₁]
    exact .some (h₁.fail _)
  obtain ⟨_ | f, s₂, t₂, hs₂, ht₂, h₂⟩ := h₁.lower (Lowering.define d)
  · simp only [Session.handleExpression, h.ops, hs₁, ht₁, hs₂, ht₂]
    exact .some (h₂.fail _)
  · simp only [Session.handleExpression, h.ops, hs₁, ht₁, hs₂, ht₂]
    exact h₂.evaluate budget f

/-- Sessions in step take the same turn, and are in step again. -/
theorem next (h : s.InStep source t) (budget : Nat) :
    Option.Rel (Handled.InStep source) (s.next budget) (t.next budget) := by
  unfold Session.next
  rw [h.cur]
  cases TokenSource.cur s.parser with
  | eof => exact .some ⟨rfl, rfl, h⟩
  | terminator => exact .some h.handleTerminator
  | keyword k =>
    cases k with
    | defWord => exact .some h.handleDefinition
    | externWord => exact .some h.handleDeclaration
    | _ => exact h.handleExpression budget
  | _ => exact h.handleExpression budget

end InStep

/-! ## Runs -/

/-- What two sessions do in step, they do for as many turns as either of them takes. -/
theorem Run.lockstep {σ τ : Type} [TokenSource σ] [TokenSource τ] {a b : String} {R : Session σ → Session τ → Prop}
    {Q : Handled σ → Handled τ → Prop} (hstart : R (ofText a σ) (ofText b τ))
    (hnext : ∀ s t budget, R s t → Option.Rel Q (s.next budget) (t.next budget))
    (hsession : ∀ h k, Q h k → R h.session k.session) {past : List (Session σ × Handled σ)} {s : Session σ}
    (hrun : Run a past s) :
    ∃ past' t, Run b past' t ∧ List.Forall₂ (fun x y => R x.1 y.1 ∧ Q x.2 y.2) past past' ∧ R s t := by
  induction hrun with
  | start => exact ⟨[], _, .start, .nil, hstart⟩
  | @turn past s h budget _ hn ih =>
    obtain ⟨past', t, hrun', hpast, hst⟩ := ih
    have hrel := hnext s t budget hst
    rw [hn] at hrel
    generalize hn' : t.next budget = o at hrel
    cases hrel with
    | @some _ k hk =>
      exact ⟨past' ++ [(t, k)], k.session, hrun'.turn budget hn',
        List.rel_append hpast (.cons ⟨hst, hk⟩ .nil), hsession _ _ hk⟩

end Session

/-- Both show the same, and ended alike. -/
structure Transcript.InStep (source : String) (t : Transcript) (u : Transcript Scanner) : Prop where
  events : u.events = t.events
  fatal : u.fatal = t.fatal
  session : t.session.InStep source u.session

namespace Session

variable {source : String} {s : Session} {t : Session Scanner}

theorem InStep.runWithin (h : s.InStep source t) (showIr : Bool) (budget m : Nat) :
    Option.Rel (Transcript.InStep source) (runWithin showIr budget m s) (runWithin showIr budget m t) := by
  induction m generalizing s t with
  | zero => exact .some ⟨rfl, rfl, h⟩
  | succ m ih =>
    have hrel := h.next budget
    generalize hs : s.next budget = x at hrel
    generalize ht : t.next budget = y at hrel
    cases hrel with
    | none =>
      simp only [Session.runWithin, hs, ht]
      exact .none
    | @some r k hk =>
      rcases hr : r.turn with _ | o | e
      · rw [runWithin_over hs hr, runWithin_over ht (hk.turn.trans hr)]
        exact .some ⟨rfl, rfl, hk.session⟩
      · rw [runWithin_done hs hr, runWithin_done ht (hk.turn.trans hr), hk.calls]
        have hlater := ih hk.session
        generalize Session.runWithin showIr budget m r.session = x at hlater
        generalize Session.runWithin showIr budget m k.session = y at hlater
        cases hlater with
        | none => exact .none
        | some hlater => exact .some ⟨by simp only [Transcript.cons, hlater.events], hlater.fatal, hlater.session⟩
      · rw [runWithin_fatal hs hr, runWithin_fatal ht (hk.turn.trans hr), hk.calls]
        exact .some ⟨rfl, rfl, hk.session⟩

/-- There may be turns for every byte, and not only for every token. -/
theorem InStep.run (h : s.InStep source t) (showIr : Bool) (budget : Nat) :
    Option.Rel (Transcript.InStep source) (s.run showIr budget) (t.run showIr budget) := by
  obtain ⟨n, r, hparser, rfl⟩ := id h
  have hrun : s.run showIr budget = Session.runWithin showIr budget (TokenSource.size r + 1) s :=
    runWithin_congr (Nat.lt_succ_self _) (Nat.lt_succ_of_le hparser.size_le)
  rw [hrun]
  exact h.runWithin showIr budget _

/-! ## Main statement -/

/-- It makes no difference whether a text was lexed ahead or is lexed as it is read: the runs
    of the one session and of the other are the same, turn by turn, and so are the
    transcripts. -/
theorem Run.agree (source : String) :
    (∀ past (s : Session), Run source past s → ∃ past' t, Run source past' t ∧
      List.Forall₂ (fun x y => x.1.InStep source y.1 ∧ x.2.InStep source y.2) past past' ∧ s.InStep source t) ∧
    (∀ past' (t : Session Scanner), Run source past' t → ∃ past s, Run source past s ∧
      List.Forall₂ (fun x y => x.1.InStep source y.1 ∧ x.2.InStep source y.2) past past' ∧ s.InStep source t) ∧
    ∀ showIr budget, Option.Rel (Transcript.InStep source) ((ofText source).run showIr budget)
      ((ofText source Scanner).run showIr budget) := by
  refine ⟨fun past s hrun => ?_, fun past' t hrun => ?_, (inStep_ofText source).run⟩
  · exact hrun.lockstep (inStep_ofText source) (fun s t budget h => h.next budget) fun h k hk => hk.session
  · have hnext : ∀ (t : Session Scanner) (s : Session) budget, s.InStep source t →
        Option.Rel (fun k h => Handled.InStep source h k) (t.next budget) (s.next budget) := by
      intro t s budget h
      have hrel := h.next budget
      generalize s.next budget = x at hrel ⊢
      generalize t.next budget = y at hrel ⊢
      cases hrel with
      | none => exact .none
      | some hk => exact .some hk
    obtain ⟨past, s, hrun', hpast, hst⟩ :=
      hrun.lockstep (R := fun t s => s.InStep source t) (inStep_ofText source) hnext fun k h hk => hk.session
    exact ⟨past, s, hrun', hpast.flip, hst⟩

end Session

end Kaleidoscope
