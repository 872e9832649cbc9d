/-
  Kaleidoscope.Proofs.Progress — every turn passes a token.

  `Parser.ahead` is the number of bytes that the lexer has not come to, and one more until
  the end of input was read. Passing a token makes it smaller before the end of input, also
  where the token cannot be lexed, and leaves it at the end (`On.ahead_advance`,
  `On.ahead_reaches`).

  A turn passes the current token and goes on from there, if at all (`Takes.passes`):
  a definition or a declaration passes its first word, an expression passes a token because
  it is not empty, and one more token is passed after what could not be read. So every turn
  makes `ahead` smaller, whether it succeeds, fails or is fatal.

  A turn need not end, as the expression that it runs need not. `Invokes` says what a turn
  calls, and `next_cases` that nothing else takes steps; with more steps a turn goes the
  same way, so a text has one run only (`Run.unique`). That run comes to the end of the text
  exactly if all it calls returns, and within as many turns as the text has bytes, and one.
-/

import Kaleidoscope.Proofs.Position
import Kaleidoscope.Proofs.Concord
import Kaleidoscope.Session.Transcript

namespace Kaleidoscope

/-! ## Steps -/

theorem Machine.run_mono {e : Engine} {m : Machine} {ran : Ran} {n k : Nat} (h : run e n m = some ran) (hk : n ≤ k) :
    run e k m = some ran := by
  induction n generalizing m k with
  | zero => cases h
  | succ n ih =>
    obtain ⟨k, rfl⟩ := Nat.exists_eq_add_of_le' (Nat.le_trans (Nat.succ_pos n) hk)
    unfold run at h ⊢
    split
    · rename_i m' hstep
      rw [hstep] at h
      exact ih h (Nat.le_of_succ_le_succ hk)
    · rename_i ran' hstep
      rw [hstep] at h
      exact h

/-- A call that returned does so with more steps, too. -/
theorem Engine.invoke_mono {e : Engine} {symbol : Symbol} {args : List Float} {ran : Ran} {n k : Nat}
    (h : e.invoke n symbol args = some ran) (hk : n ≤ k) : e.invoke k symbol args = some ran := by
  unfold invoke execute at h ⊢
  split at h
  · exact h
  · split at h
    · exact h
    · exact Machine.run_mono h hk

namespace Session

variable {σ : Type} {s : Session σ} {r : Handled σ} {n k : Nat}

theorem evaluate_mono {f : Ir.Function} (h : s.evaluate n f = some r) (hk : n ≤ k) : s.evaluate k f = some r := by
  simp only [evaluate] at h ⊢
  rcases hload : ({ s with engine := s.engine.newTracker.2 } : Session σ).load (some s.engine.newTracker.1)
    with ⟨e | u, t⟩
  · rwa [hload] at h
  simp only [hload] at h ⊢
  rcases hlookup : t.engine.lookup f.name with e | symbol
  · rwa [hlookup] at h
  simp only [hlookup] at h ⊢
  obtain ⟨ran, hran, hr⟩ := Option.map_eq_some_iff.mp h
  rw [Engine.invoke_mono hran hk]
  exact congrArg some hr

theorem handleExpression_mono [TokenSource σ] (h : s.handleExpression n = some r) (hk : n ≤ k) :
    s.handleExpression k = some r := by
  unfold handleExpression at h ⊢
  rcases hread : s.read (Parser.wrapper s.ops) with ⟨e | d, t⟩
  · rwa [hread] at h
  simp only [hread] at h ⊢
  rcases hlower : t.lower (Lowering.define d) with ⟨e | f, t'⟩
  · rwa [hlower] at h
  simp only [hlower] at h ⊢
  exact evaluate_mono h hk

/-- A turn that was taken goes the same way with more steps. -/
theorem next_mono [TokenSource σ] (h : s.next n = some r) (hk : n ≤ k) : s.next k = some r := by
  unfold next at h ⊢
  split at h
  · exact h
  · exact h
  · exact h
  · exact h
  · exact handleExpression_mono h hk

/-- Two runs of a text with as many turns are the same. -/
theorem Run.unique [TokenSource σ] {source : String} {past past' : List (Session σ × Handled σ)} {s' : Session σ}
    (h : Run source past s) (h' : Run source past' s') (hlength : past.length = past'.length) :
    past = past' ∧ s = s' := by
  induction h generalizing past' s' with
  | start =>
    cases h' with
    | start => exact ⟨rfl, rfl⟩
    | turn _ _ _ => simp at hlength
  | @turn past s r n hrun hn ih =>
    cases h' with
    | start => simp at hlength
    | @turn past' s' r' n' hrun' hn' =>
      obtain ⟨rfl, rfl⟩ := ih hrun' (by simpa using hlength)
      have hr := next_mono hn (Nat.le_max_left n n')
      rw [next_mono hn' (Nat.le_max_right n n')] at hr
      cases hr
      exact ⟨rfl, rfl⟩

end Session

namespace Parser

open Source

variable {source : String} {ops : Operator.Precedences} {p q : Parser}

/-! ## Bytes ahead -/

/-- The bytes that the lexer has not come to, and one until the end of input was read. -/
def ahead (source : String) (p : Parser) : Nat := width (p.lexer source).rest + if p.cur = .eof then 0 else 1

theorem ahead_ofText (source : String) : (ofText source).ahead source = source.utf8ByteSize + 1 := by
  have hlexer : (ofText source).lexer source = Lexer.ofText source := by
    simp only [lexer, used, ofText, Nat.sub_self, reduceCtorEq, if_false]
    rfl
  rw [ahead, hlexer, ← width_toList]
  rfl

theorem On.ahead_advance (h : p.On source) (hcur : p.cur ≠ .eof) :
    (left (Parser.advance p)).ahead source < p.ahead source := by
  have hscan := h.scan_lexer hcur
  simp only [ahead, h.lexer_advance hcur, if_neg hcur]
  -- the last result may take no bytes, but then it is the end of input
  rcases Lexer.scan_rest (p.used source != 0) (p.lexer source) with ⟨heof, hnil⟩ | ⟨hne, -⟩
  · have hpassed : (left (Parser.advance p)).cur = .eof := by
      rw [Parser.advance_run, hscan.trans hnil]
      rfl
    rw [if_pos hpassed, Lexer.rest_of_eof heof]
    exact Nat.succ_pos _
  · have hwidth := Lexer.width_next hne
    split <;> omega

theorem On.ahead_reaches (h : p.On source) (hq : Reaches p q) : q.ahead source ≤ p.ahead source := by
  induction hq with
  | refl => exact Nat.le_refl _
  | @tail r _ hr hstep ih =>
    subst hstep
    have hon := h.reaches hr
    by_cases hcur : r.cur = .eof
    · rw [hon.advance_of_eof hcur]
      exact ih
    · exact Nat.le_trans (Nat.le_of_lt (hon.ahead_advance hcur)) ih

/-! ## Readers pass the current token -/

/-- The one passes its current token and comes to where the other is. -/
def Passes (p q : Parser) : Prop := ∃ r, Reaches (left (advance p)) r ∧ q.cur = r.cur ∧ q.rest = r.rest

theorem Reaches.passes (h : Reaches (left (advance p)) q) : p.Passes q := ⟨q, h, rfl, rfl⟩

theorem Reaches.advance (h : Reaches p q) : Reaches (left (Parser.advance p)) (left (Parser.advance q)) := by
  induction h with
  | refl => exact .refl
  | @tail r _ _ hstep ih =>
    subst hstep
    exact ih.tail rfl

theorem Passes.on (h : p.Passes q) (hp : p.On source) : q.On source := by
  obtain ⟨r, hr, hcur, hrest⟩ := h
  have hon := hp.advance.reaches hr
  refine ⟨hrest ▸ hon.rest, fun heof => hrest ▸ hon.eof (hcur ▸ heof), fun hzero => ?_⟩
  rw [used, hcur, hrest] at hzero
  exact hcur.trans (hon.start hzero)

theorem Passes.ahead_lt (h : p.Passes q) (hp : p.On source) (hcur : p.cur ≠ .eof) : q.ahead source < p.ahead source := by
  obtain ⟨r, hr, hcur', hrest⟩ := h
  have hsame : q.ahead source = r.ahead source := by simp only [ahead, lexer, used, hcur', hrest]
  rw [hsame]
  exact Nat.lt_of_le_of_lt (hp.advance.ahead_reaches hr) (hp.ahead_advance hcur)

theorem Passes.size_lt (h : p.Passes q) (hcur : p.cur ≠ .eof) : q.size < p.size := by
  obtain ⟨r, hr, hcur', hrest⟩ := h
  have hsame : q.size = r.size := by simp only [size, hcur', hrest]
  rw [hsame]
  exact Nat.lt_of_le_of_lt hr.shrinks (size_advance p (size_pos_of_cur hcur))

/-- A reader that begins by passing a token goes on from there. -/
theorem passes_of_advance {α : Type} {f : Unit → Parse α} {a : α} (hf : ∀ s, Same s (f ()) (f ()))
    (h : (advance >>= f) p = .ok a q) : p.Passes q := by
  obtain ⟨⟨⟩, r, hr, hq⟩ := bind_ok_iff.mp h
  have hreaches : Reaches (left (advance p)) q := by
    rw [hr]
    exact reaches_of_ok (hf _) hq
  exact hreaches.passes

theorem declaration_passes {proto : Prototype} (h : declaration p = .ok proto q) : p.Passes q :=
  passes_of_advance (fun s => prototype_same s) h

theorem definition_passes {d : Definition} (h : definition ops p = .ok d q) : p.Passes q :=
  passes_of_advance
    (fun s => (prototype_same s).bind fun _ => (expression_same ops s).bind fun _ => .pure _) h

/-- An expression is not empty, so its reader has passed the current token. -/
theorem expression_passes {e : Expr} (h : expression ops p = .ok e q) : p.Passes q := by
  have hlt := expression_consumes ops p.size (Nat.le_refl _) h
  rcases (reaches_of_ok (expression_same ops p.size) h).cases_head with heq | ⟨r, hr, hreaches⟩
  · rw [heq] at hlt
    exact absurd hlt (Nat.lt_irrefl _)
  · subst hr
    exact Reaches.passes hreaches

theorem wrapper_passes {d : Definition} (h : wrapper ops p = .ok d q) : p.Passes q := by
  obtain ⟨r, hbody, -, rfl⟩ := wrapper_ok h
  obtain ⟨r', hreaches, hcur, hrest⟩ := expression_passes hbody
  exact ⟨r', hreaches, hcur, hrest⟩

end Parser

namespace Session

variable {source : String} {past : List (Session × Handled)} {s : Session} {r : Handled} {showIr : Bool}

/-! ## Turns pass the current token -/

theorem Unread.reaches {e : ReadError} {p : Parser} (h : s.Unread e p) : Parser.Reaches s.parser p := by
  cases h with
  | definition h => exact Parser.reaches_of_error (Parser.definition_same _) h
  | declaration h => exact Parser.reaches_of_error (Parser.declaration_same _) h
  | wrapper h => exact Parser.wrapper_reaches h

/-- Every turn before the end passes the current token, however it goes. -/
theorem Takes.passes (h : s.Takes r) (hcur : s.parser.cur ≠ .eof) : s.parser.Passes r.session.parser := by
  have hadvance : ∀ {x p}, Parser.advance s.parser = x → Parser.left x = p → s.parser.Passes p := by
    rintro _ _ rfl rfl
    exact Parser.Reaches.passes .refl
  cases h with
  | ended heof => exact absurd heof hcur
  | skipped hp => exact hadvance hp rfl
  | unpassed hp => exact hadvance hp rfl
  | unread hp => exact hp.reaches.advance.passes
  | undeclared hp _ => exact Parser.declaration_passes hp
  | declared hp _ => exact Parser.declaration_passes hp
  | undefined hp _ =>
    rcases hp with hp | hp
    · exact Parser.definition_passes hp
    · exact Parser.wrapper_passes hp
  | rejected hp _ _ => exact Parser.definition_passes hp
  | defined hp _ _ => exact Parser.definition_passes hp
  | wrapperRejected hp _ _ => exact Parser.wrapper_passes hp
  | evaluated hp _ _ heval =>
    have hpasses := Parser.wrapper_passes hp
    cases heval with
    | unlinked _ => exact hpasses
    | stopped _ _ _ => exact hpasses
    | returned _ _ _ => exact hpasses

end Session

def Turn.isOver : Turn → Bool
  | .over => true
  | _ => false

namespace Session

variable {source : String} {past : List (Session × Handled)} {s : Session} {r : Handled} {showIr : Bool}

theorem next_of_eof {budget : Nat} (h : s.parser.cur = .eof) : s.next budget = some { turn := .over, session := s } := by
  rw [next_eq, h]

theorem Takes.over (h : s.Takes r) (hr : r.turn = .over) : s.parser.cur = .eof ∧ r.session = s := by
  cases h with
  | ended heof => exact ⟨heof, rfl⟩
  | evaluated _ _ _ heval => cases heval <;> cases hr
  | _ => cases hr

theorem next_over_iff {budget : Nat} (hn : s.next budget = some r) : r.turn = .over ↔ s.parser.cur = .eof := by
  constructor
  · exact fun hr => ((next_takes hn).over hr).1
  · intro heof
    rw [next_of_eof heof] at hn
    cases hn
    rfl

theorem Run.on (h : Run source past s) : s.parser.On source := by
  induction h with
  | start => exact Parser.on_ofText source
  | @turn past s r budget hrun hn ih =>
    by_cases heof : s.parser.cur = .eof
    · rw [next_of_eof heof] at hn
      cases hn
      exact ih
    · exact ((next_takes hn).passes heof).on ih

/-- One is left over for each turn that was taken. -/
theorem Run.count_turns (h : Run source past s) :
    past.countP (!·.2.turn.isOver) + s.parser.ahead source ≤ source.utf8ByteSize + 1 := by
  induction h with
  | start =>
    show 0 + (Parser.ofText source).ahead source ≤ _
    rw [Parser.ahead_ofText]
    omega
  | @turn past s r budget hrun hn ih =>
    rw [List.countP_append, List.countP_singleton]
    by_cases heof : s.parser.cur = .eof
    · rw [next_of_eof heof] at hn
      cases hn
      exact ih
    · have hlt := ((next_takes hn).passes heof).ahead_lt hrun.on heof
      split <;> omega

/-! ## What a turn runs -/

/-- The turn comes to call `symbol` in the engine `e`. -/
def Invokes (s : Session) (e : Engine) (symbol : Symbol) : Prop :=
  ∃ d p f l, Parser.wrapper s.ops s.parser = .ok d p ∧ Lowering.define d s.lowering = .ok f l ∧
    s.tracking.add l.unit (some s.tracker) = .ok () e ∧ e.lookup f.name = .ok symbol

/-- What the turn calls returns, if it calls something. -/
def Responsive (s : Session) : Prop :=
  ∀ e symbol, s.Invokes e symbol → ∃ budget ran, e.invoke budget symbol [] = some ran

theorem invokes_iff {d : Definition} {p : Parser} {f : Ir.Function} {l : Lowering} {e : Engine} {symbol : Symbol}
    (hread : Parser.wrapper s.ops s.parser = .ok d p) (hlower : Lowering.define d s.lowering = .ok f l) :
    s.Invokes e symbol ↔ s.tracking.add l.unit (some s.tracker) = .ok () e ∧ e.lookup f.name = .ok symbol := by
  constructor
  · rintro ⟨d', p', f', l', hread', hlower', hcall⟩
    cases hread.symm.trans hread'
    cases hlower.symm.trans hlower'
    exact hcall
  · exact fun hcall => ⟨d, p, f, l, hread, hlower, hcall⟩

theorem Invokes.unique {e e' : Engine} {symbol symbol' : Symbol} (h : s.Invokes e symbol) (h' : s.Invokes e' symbol') :
    e = e' ∧ symbol = symbol' := by
  obtain ⟨d, p, f, l, hread, hlower, hadd, hlookup⟩ := h
  obtain ⟨hadd', hlookup'⟩ := (invokes_iff hread hlower).mp h'
  cases hadd.symm.trans hadd'
  cases hlookup.symm.trans hlookup'
  exact ⟨rfl, rfl⟩

theorem evaluate_cases (s : Session) (f : Ir.Function) :
    ((∀ e symbol, s.tracking.add s.unit (some s.tracker) = .ok () e → e.lookup f.name ≠ .ok symbol) ∧
      ∃ r, ∀ budget, s.evaluate budget f = some r) ∨
    ∃ e symbol finish, s.tracking.add s.unit (some s.tracker) = .ok () e ∧ e.lookup f.name = .ok symbol ∧
      ∀ budget, s.evaluate budget f = (e.invoke budget symbol []).map finish := by
  simp only [evaluate, load_eq]
  cases hadd : s.tracking.add s.unit (some s.tracker) with
  | error err kept =>
    simp only [show s.engine.newTracker.2.add s.unit (some s.engine.newTracker.1) = _ from hadd]
    refine .inl ⟨fun e symbol he => ?_, _, fun _ => rfl⟩
    cases he
  | ok u e =>
    simp only [show s.engine.newTracker.2.add s.unit (some s.engine.newTracker.1) = _ from hadd, handedOver]
    cases hlookup : e.lookup f.name with
    | error err =>
      refine .inl ⟨fun e' symbol he hsymbol => ?_, _, fun _ => rfl⟩
      cases he
      cases hlookup.symm.trans hsymbol
    | ok symbol => exact .inr ⟨e, symbol, _, rfl, hlookup, fun _ => rfl⟩

/-- A turn takes the steps of the call that it makes, and no others. -/
theorem next_cases (s : Session) :
    ((∀ e symbol, ¬s.Invokes e symbol) ∧ ∃ r, ∀ budget, s.next budget = some r) ∨
    ∃ e symbol finish, s.Invokes e symbol ∧ ∀ budget, s.next budget = (e.invoke budget symbol []).map finish := by
  cases hread : Parser.wrapper s.ops s.parser with
  | error err p =>
    refine .inl ⟨?_, ?_⟩
    · rintro e symbol ⟨d, p, f, l, hread', -⟩
      cases hread.symm.trans hread'
    · unfold next handleExpression
      rw [read_eq, hread]
      split <;> exact ⟨_, fun _ => rfl⟩
  | ok d p =>
    simp only [next_eq_handleExpression hread, handleExpression, read_eq, hread, lower_eq, passed_lowering]
    cases hlower : Lowering.define d s.lowering with
    | error err l =>
      refine .inl ⟨?_, _, fun _ => rfl⟩
      rintro e symbol ⟨d', p', f, l, hread', hlower', -⟩
      cases hread.symm.trans hread'
      cases hlower.symm.trans hlower'
    | ok f l =>
      simp only [invokes_iff hread hlower]
      rcases evaluate_cases ((s.passed p).lowered l) f with ⟨hcall, hnext⟩ | ⟨e, symbol, finish, hadd, hlookup, hnext⟩
      · exact .inl ⟨fun e symbol h => hcall e symbol h.1 h.2, hnext⟩
      · exact .inr ⟨e, symbol, finish, ⟨hadd, hlookup⟩, hnext⟩

/-- Some number of steps is enough for a turn if what it calls returns, and only then. -/
theorem responsive_iff : s.Responsive ↔ ∃ budget r, s.next budget = some r := by
  rcases next_cases s with ⟨hcall, r, hnext⟩ | ⟨e, symbol, finish, hcall, hnext⟩
  · exact ⟨fun _ => ⟨0, r, hnext 0⟩, fun _ e symbol h => absurd h (hcall e symbol)⟩
  · constructor
    · intro h
      obtain ⟨budget, ran, hran⟩ := h e symbol hcall
      exact ⟨budget, finish ran, by rw [hnext, hran]; rfl⟩
    · rintro ⟨budget, r, hr⟩ e' symbol' hcall'
      obtain ⟨rfl, rfl⟩ := hcall.unique hcall'
      rw [hnext] at hr
      obtain ⟨ran, hran, -⟩ := Option.map_eq_some_iff.mp hr
      exact ⟨budget, ran, hran⟩

/-! ## Runs of a text -/

/-- What the turns of a run call returned. -/
theorem Run.responsive_before {n : Nat} (h : Run source past s) (hn : n < past.length) :
    ∃ past' s', past'.length = n ∧ Run source past' s' ∧ s'.Responsive := by
  induction h with
  | start => cases hn
  | @turn past s r budget hrun hnext ih =>
    rw [List.length_append, List.length_singleton] at hn
    rcases Nat.lt_succ_iff_lt_or_eq.mp hn with hlt | rfl
    · exact ih hlt
    · exact ⟨past, s, rfl, hrun, responsive_iff.mpr ⟨budget, r, hnext⟩⟩

/-- Once the text is over, it stays so. -/
theorem Run.eof_after {past' : List (Session × Handled)} {s' : Session} (h : Run source past s)
    (heof : s.parser.cur = .eof) (h' : Run source past' s') (hlength : past.length ≤ past'.length) :
    s'.parser.cur = .eof := by
  induction h' with
  | start =>
    obtain ⟨-, rfl⟩ := h.unique .start (Nat.le_zero.mp hlength)
    exact heof
  | @turn past' s' r budget hrun hn ih =>
    rw [List.length_append, List.length_singleton] at hlength
    rcases Nat.lt_or_eq_of_le hlength with hlt | heq
    · rw [next_of_eof (ih (Nat.le_of_lt_succ hlt))] at hn
      cases hn
      exact ih (Nat.le_of_lt_succ hlt)
    · obtain ⟨-, rfl⟩ := h.unique (hrun.turn budget hn) (by simpa using heq)
      exact heof

/-- If some run comes to the end of its text, every call of every run returns. -/
theorem Run.responsive_of_eof {past' : List (Session × Handled)} {s' : Session} (h : Run source past s)
    (heof : s.parser.cur = .eof) (h' : Run source past' s') : s'.Responsive := by
  by_cases hlength : past.length ≤ past'.length
  · exact responsive_iff.mpr ⟨0, _, next_of_eof (h.eof_after heof h' hlength)⟩
  · obtain ⟨past₁, s₁, hlength₁, h₁, hresponsive⟩ := h.responsive_before (Nat.lt_of_not_le hlength)
    obtain ⟨-, rfl⟩ := h₁.unique h' hlength₁
    exact hresponsive

/-- Whatever is called from here on returns. -/
def ResponsiveAfter (source : String) (past : List (Session × Handled)) : Prop :=
  ∀ later s, Run source (past ++ later) s → s.Responsive

theorem ResponsiveAfter.here (h : ResponsiveAfter source past) (hrun : Run source past s) : s.Responsive :=
  h [] s (by rwa [List.append_nil])

theorem ResponsiveAfter.turn (h : ResponsiveAfter source past) (s : Session) (r : Handled) :
    ResponsiveAfter source (past ++ [(s, r)]) :=
  fun later s' hrun => h ((s, r) :: later) s' (by simpa using hrun)

/-- Where every call returns, a run comes to the end of its text. -/
theorem Run.reaches_eof (hrun : Run source past s) (hcalls : ResponsiveAfter source past) :
    ∃ later s', Run source (past ++ later) s' ∧ s'.parser.cur = .eof ∧ later.length ≤ s.parser.ahead source := by
  induction h : s.parser.ahead source using Nat.strongRecOn generalizing past s with
  | _ n ih =>
    subst h
    -- each turn leaves less ahead, and its own call has returned
    by_cases hcur : s.parser.cur = .eof
    · exact ⟨[], s, by rwa [List.append_nil], hcur, Nat.zero_le _⟩
    · obtain ⟨budget, r, hn⟩ := responsive_iff.mp (hcalls.here hrun)
      have hlt := ((next_takes hn).passes hcur).ahead_lt hrun.on hcur
      obtain ⟨later, s', hlater, heof, hlength⟩ := ih _ hlt (hrun.turn budget hn) (hcalls.turn s r) rfl
      refine ⟨(s, r) :: later, s', by simpa using hlater, heof, ?_⟩
      rw [List.length_cons]
      omega

/-! ## Sessions run to their end -/

section

variable {σ : Type} [TokenSource σ] {s : Session σ} {r : Handled σ}

theorem runWithin_over {budget m : Nat} (hn : s.next budget = some r) (hr : r.turn = .over) :
    runWithin showIr budget (m + 1) s = some { session := r.session } := by
  obtain ⟨turn, calls, s'⟩ := r
  cases hr
  simp only [runWithin, hn]

theorem runWithin_fatal {budget m : Nat} {e : EngineError} (hn : s.next budget = some r) (hr : r.turn = .fatal e) :
    runWithin showIr budget (m + 1) s = some { events := [.calls r.calls], fatal := some e, session := r.session } := by
  obtain ⟨turn, calls, s'⟩ := r
  cases hr
  simp only [runWithin, hn]

theorem runWithin_done {budget m : Nat} {o : Outcome} (hn : s.next budget = some r) (hr : r.turn = .done o) :
    runWithin showIr budget (m + 1) s = (runWithin showIr budget m r.session).map fun t =>
      (t.cons (.report (o.report showIr))).cons (.calls r.calls) := by
  obtain ⟨turn, calls, s'⟩ := r
  cases hr
  simp only [runWithin, hn]

theorem next_of_runWithin {budget m : Nat} {t : Transcript σ} (h : runWithin showIr budget (m + 1) s = some t) :
    ∃ r, s.next budget = some r := by
  cases hn : s.next budget with
  | none =>
    rw [runWithin, hn] at h
    cases h
  | some r => exact ⟨r, rfl⟩

end

theorem runWithin_mono {m n k : Nat} {t : Transcript} (h : runWithin showIr n m s = some t) (hk : n ≤ k) :
    runWithin showIr k m s = some t := by
  induction m generalizing s t with
  | zero => exact h
  | succ m ih =>
    obtain ⟨r, hn⟩ := next_of_runWithin h
    have hn' := next_mono hn hk
    match hr : r.turn with
    | .over => rwa [runWithin_over hn' hr, ← runWithin_over hn hr]
    | .fatal e => rwa [runWithin_fatal hn' hr, ← runWithin_fatal hn hr]
    | .done o =>
      rw [runWithin_done hn hr] at h
      obtain ⟨t', ht, rfl⟩ := Option.map_eq_some_iff.mp h
      rw [runWithin_done hn' hr, ih ht]
      rfl

theorem size_lt_of_done {budget : Nat} {o : Outcome} (hn : s.next budget = some r) (hr : r.turn = .done o) :
    r.session.parser.size < s.parser.size := by
  have hcur : s.parser.cur ≠ .eof := by
    rw [Ne, ← next_over_iff hn, hr]
    exact Turn.noConfusion
  exact ((next_takes hn).passes hcur).size_lt hcur

/-- More turns than there are tokens change nothing. -/
theorem runWithin_congr {budget m m' : Nat} (hm : s.parser.size < m) (hm' : s.parser.size < m') :
    runWithin showIr budget m s = runWithin showIr budget m' s := by
  induction m generalizing s m' with
  | zero => cases hm
  | succ m ih =>
    obtain ⟨m', rfl⟩ := Nat.exists_eq_add_of_lt (Nat.zero_lt_of_lt hm')
    rw [Nat.zero_add] at hm' ⊢
    cases hn : s.next budget with
    | none => simp only [runWithin, hn]
    | some r =>
      match hr : r.turn with
      | .over => rw [runWithin_over hn hr, runWithin_over hn hr]
      | .fatal e => rw [runWithin_fatal hn hr, runWithin_fatal hn hr]
      | .done o =>
        have hsize := size_lt_of_done hn hr
        rw [runWithin_done hn hr, runWithin_done hn hr, ih (Nat.lt_of_lt_of_le hsize (Nat.le_of_lt_succ hm))
          (Nat.lt_of_lt_of_le hsize (Nat.le_of_lt_succ hm'))]

/-- With a turn for each token, a session ends with a fatal turn or at the end of its text. -/
theorem runWithin_ends {budget m : Nat} {t : Transcript} (hm : s.parser.size < m)
    (h : runWithin showIr budget m s = some t) : t.fatal.isSome ∨ t.session.parser.cur = .eof := by
  induction m generalizing s t with
  | zero => cases hm
  | succ m ih =>
    obtain ⟨r, hn⟩ := next_of_runWithin h
    match hr : r.turn with
    | .over =>
      rw [runWithin_over hn hr] at h
      cases h
      obtain ⟨heof, hsession⟩ := (next_takes hn).over hr
      rw [hsession]
      exact .inr heof
    | .fatal e =>
      rw [runWithin_fatal hn hr] at h
      cases h
      exact .inl rfl
    | .done o =>
      rw [runWithin_done hn hr] at h
      obtain ⟨t', ht, rfl⟩ := Option.map_eq_some_iff.mp h
      show t'.fatal.isSome ∨ t'.session.parser.cur = .eof
      exact ih (Nat.lt_of_lt_of_le (size_lt_of_done hn hr) (Nat.le_of_lt_succ hm)) ht

/-- Where every call returns, some number of steps is enough for all the turns. -/
theorem runWithin_returns (hrun : Run source past s) (hcalls : ResponsiveAfter source past) (m : Nat) :
    ∃ budget t, runWithin showIr budget m s = some t := by
  induction m generalizing past s with
  | zero => exact ⟨0, _, rfl⟩
  | succ m ih =>
    obtain ⟨n, r, hn⟩ := responsive_iff.mp (hcalls.here hrun)
    obtain ⟨k, t, ht⟩ := ih (hrun.turn n hn) (hcalls.turn s r)
    have hn := next_mono hn (Nat.le_max_left n k)
    have ht := runWithin_mono ht (Nat.le_max_right n k)
    refine ⟨max n k, ?_⟩
    match hr : r.turn with
    | .over => exact ⟨_, runWithin_over hn hr⟩
    | .fatal e => exact ⟨_, runWithin_fatal hn hr⟩
    | .done o =>
      rw [runWithin_done hn hr, ht]
      exact ⟨_, rfl⟩

/-! ## Main statement -/

/-- In a run of any text, every turn before the end of input makes smaller what is ahead,
    however it goes, and a turn says that the text is over there and only there. A turn
    returns exactly if what it calls returns. The other turns are no more than the bytes of
    the text and one. A run comes to the end of input, after no more turns than are ahead,
    exactly if all it calls returns; then the session can be run to its end, and where it
    stops it is at the end of input, unless a turn was fatal. -/
theorem Run.always_progresses (hrun : Run source past s) :
    (∀ budget r, s.parser.cur ≠ .eof → s.next budget = some r →
      r.session.parser.ahead source < s.parser.ahead source) ∧
    (∀ budget r, s.next budget = some r → (r.turn = .over ↔ s.parser.cur = .eof)) ∧
    (s.Responsive ↔ ∃ budget r, s.next budget = some r) ∧
    past.countP (!·.2.turn.isOver) + s.parser.ahead source ≤ source.utf8ByteSize + 1 ∧
    (ResponsiveAfter source past ↔
      ∃ later s', Run source (past ++ later) s' ∧ s'.parser.cur = .eof ∧ later.length ≤ s.parser.ahead source) ∧
    (ResponsiveAfter source past → ∀ showIr, ∃ budget t, s.run showIr budget = some t) ∧
    ∀ showIr budget t, s.run showIr budget = some t → t.fatal.isSome ∨ t.session.parser.cur = .eof := by
  refine ⟨fun budget r hcur hn => ?_, fun budget r hn => next_over_iff hn, responsive_iff, hrun.count_turns,
    ⟨hrun.reaches_eof, ?_⟩, fun hcalls showIr => ?_, fun showIr budget t ht => ?_⟩
  · exact ((next_takes hn).passes hcur).ahead_lt hrun.on hcur
  · rintro ⟨later, s', hlater, heof, -⟩ later' s'' hrun'
    exact hlater.responsive_of_eof heof hrun'
  · exact runWithin_returns hrun hcalls _
  · exact runWithin_ends (Nat.lt_succ_self _) ht

/-! A number and a text that cannot be lexed, a prototype and expressions that cannot be read, a
call that cannot be lowered: from the parenthesis on, no turn is fatal and the text comes to
its end. -/

def malformed : String := "1.2.3 ) def f(x 4; extern g(a) f(1); 2 + 3; 1 + \"ab"

theorem always_progresses_malformed : ∃ past s r t, Run malformed past s ∧ s.parser.cur = .punct ')' ∧
    s.next 20 = some r ∧ r.turn ≠ .over ∧ r.session.parser.ahead malformed < s.parser.ahead malformed ∧
    past.countP (!·.2.turn.isOver) + s.parser.ahead malformed ≤ 52 ∧ ResponsiveAfter malformed past ∧
    s.run false 20 = some t ∧ t.fatal = none ∧ t.session.parser.cur = .eof := by
  have hturns : ((takeTurns 20 2 ([], ofText malformed)).any fun x => x.2.parser.cur = .punct ')' &&
      (x.2.next 20).isSome && ((x.2.run false 20).any fun t => t.fatal.isNone) &&
      (takeTurns 20 9 x).any fun y => y.2.parser.cur = .eof) = true := by decide +kernel
  obtain ⟨⟨past, s⟩, hx, hturns⟩ := (Option.any_eq_true _ _).mp hturns
  have hrun : Run malformed past s := Run.start.takeTurns hx
  simp only [Bool.and_eq_true, decide_eq_true_eq] at hturns
  obtain ⟨⟨⟨hcur, hn⟩, ht⟩, hend⟩ := hturns
  obtain ⟨r, hn⟩ := Option.isSome_iff_exists.mp hn
  obtain ⟨t, ht, hfatal⟩ := (Option.any_eq_true _ _).mp ht
  obtain ⟨y, hy, heof⟩ := (Option.any_eq_true _ _).mp hend
  obtain ⟨hless, hover, -, hcount, -, -, hends⟩ := hrun.always_progresses
  have hcur' : s.parser.cur ≠ .eof := by
    rw [hcur]
    exact Source.Token.noConfusion
  have hfatal : t.fatal = none := Option.isNone_iff_eq_none.mp hfatal
  have hcalls : ResponsiveAfter malformed past := fun later s' hrun' =>
    (hrun.takeTurns hy).responsive_of_eof (decide_eq_true_eq.mp heof) hrun'
  refine ⟨past, s, r, t, hrun, hcur, hn, fun hr => hcur' ((hover 20 r hn).mp hr), hless 20 r hcur' hn, hcount,
    hcalls, ht, hfatal, ?_⟩
  rcases hends false 20 t ht with hsome | heof
  · rw [hfatal] at hsome
    cases hsome
  · exact heof

end Session

end Kaleidoscope
