/-
  Kaleidoscope.Proofs.Recovery — what is read after a statement that cannot be read.

  The results of the lexer are numbered. The current token of a parser is the last of those
  used up that is a token (`Parser.token?`): a literal that cannot be lexed is used up, too,
  and leaves the current token as it was. A reader passes tokens that can be lexed, and fails
  for a literal only where it came to one (`Parser.Stops`).

  After a failure one more result is used up, whatever it is (`next_of_failure?`). If it is a
  token, the next statement starts there, past all that the failed one had seen. If it is a
  literal that cannot be lexed, it is dropped: no turn reports it, and the next statement
  starts with the token that the failed one had stopped at. Nothing else is lost: the literals
  that could not be lexed are those that were reported and those that were dropped, in order
  (`Run.faults`).

  `Run.recovers` says it of every run.
-/

import Kaleidoscope.Proofs.Progress
import Kaleidoscope.Proofs.Readers
import Kaleidoscope.Proofs.Spacing

namespace Kaleidoscope

namespace Source

/-- The literal that could not be lexed. -/
def fault? : Reading → Option LexError
  | .ok _ => none
  | .error e => some e

theorem fault?_eq_some {r : Reading} {e : LexError} : fault? r = some e ↔ r = .error e := by
  cases r <;> simp [fault?]

namespace Lexer

variable {l : Lexer}

/-- The literals among the first `n` results that could not be lexed. -/
def faults (l : Lexer) : Nat → List LexError
  | 0 => []
  | n + 1 => l.faults n ++ (fault? (l.result n)).toList

/-- The last token among the first `n` results, by its number. -/
def token? (l : Lexer) : Nat → Option Nat
  | 0 => none
  | n + 1 =>
    match l.result n with
    | .ok _ => some n
    | .error _ => l.token? n

theorem token?_lt {n k : Nat} (h : l.token? n = some k) : k < n := by
  induction n with
  | zero => cases h
  | succ n ih =>
    rw [token?] at h
    split at h
    · cases h
      exact Nat.lt_succ_self _
    · exact Nat.lt_succ_of_lt (ih h)

end Lexer

end Source

/-- The literal that reading failed for. -/
def ReadError.fault? : ReadError → Option Source.LexError
  | lexical e => some e
  | grammar _ => none

namespace Parser

open Source

/-! ## Where a parser stands -/

variable {source : String} {p q : Parser}

/-- The current token, by its number; none for the terminator to start with. -/
def token? (source : String) (p : Parser) : Option Nat := (Lexer.ofText source).token? (p.used source)

/-- What is used up next. -/
def upcoming (source : String) (p : Parser) : Reading := (Lexer.ofText source).result (p.used source)

/-- The literals that were used up and could not be lexed. -/
def faults (source : String) (p : Parser) : List LexError := (Lexer.ofText source).faults (p.used source)

theorem used_ofText (source : String) : (ofText source).used source = 0 := by simp [used, ofText]

theorem On.upcoming_of_eof (h : p.On source) (hcur : p.cur = .eof) : p.upcoming source = .ok .eof := by
  have hused : p.used source = (Lexer.ofText source).items.length + 1 := by
    rw [used, h.eof hcur, if_pos hcur, List.length_nil, Nat.sub_zero]
  exact Lexer.result_of_length_le (hused ▸ Nat.le_succ _)

/-- To pass a token is to use up what is next. -/
theorem On.advance_cases (h : p.On source) :
    (∃ q, Parser.advance p = .ok () q ∧ p.upcoming source = .ok q.cur) ∨
    ∃ e q, Parser.advance p = .error (.lexical e) q ∧ p.upcoming source = .error e ∧ q.cur = p.cur := by
  by_cases hcur : p.cur = .eof
  · have hrest := h.eof hcur
    refine .inl ⟨p, ?_, hcur ▸ h.upcoming_of_eof hcur⟩
    obtain ⟨cur, rest, wrapped⟩ := p
    cases hcur
    cases hrest
    rfl
  · have hscan := h.scan_lexer hcur
    have hnext : (p.lexer source).next.1 = p.upcoming source := rfl
    rcases Lexer.scan_rest (p.used source != 0) (p.lexer source) with ⟨heof, hnil⟩ | ⟨-, hcons⟩
    · refine .inl ⟨{ p with cur := .eof }, ?_, heof⟩
      rw [Parser.advance_run, hscan.trans hnil]
    · cases hreading : p.upcoming source with
      | ok t =>
        refine .inl ⟨{ p with cur := t, rest := scan true (p.lexer source).next.2.rest }, ?_, rfl⟩
        rw [Parser.advance_run, hscan.trans hcons, hnext, hreading]
      | error e =>
        refine .inr ⟨e, { p with rest := scan true (p.lexer source).next.2.rest }, ?_, rfl, rfl⟩
        rw [Parser.advance_run, hscan.trans hcons, hnext, hreading]

theorem On.faults_advance (h : p.On source) :
    (left (Parser.advance p)).faults source = p.faults source ++ (fault? (p.upcoming source)).toList := by
  by_cases hcur : p.cur = .eof
  · rw [h.advance_of_eof hcur, h.upcoming_of_eof hcur]
    exact (List.append_nil _).symm
  · rw [faults, h.used_advance hcur]
    rfl

theorem On.token?_advance (h : p.On source) (hcur : p.cur ≠ .eof) :
    (left (Parser.advance p)).token? source =
      match p.upcoming source with
      | .ok _ => some (p.used source)
      | .error _ => p.token? source := by
  rw [token?, h.used_advance hcur]
  rfl

/-- To pass what cannot be lexed leaves the current token. -/
theorem On.advance_of_fault {e : LexError} (h : p.On source) (he : p.upcoming source = .error e) :
    ∃ q, Parser.advance p = .error (.lexical e) q ∧ q.cur = p.cur ∧ q.token? source = p.token? source := by
  have hcur : p.cur ≠ .eof := by
    intro heof
    cases he.symm.trans (h.upcoming_of_eof heof)
  have htoken := h.token?_advance hcur
  rcases h.advance_cases with ⟨q, -, hnext⟩ | ⟨e', q, hq, hnext, hsame⟩
  · cases he.symm.trans hnext
  · cases he.symm.trans hnext
    rw [he, hq] at htoken
    exact ⟨q, hq, hsame, htoken⟩

theorem Clears.on (h : Clears p q) (hp : p.On source) : q.On source := by
  induction h with
  | refl => exact hp
  | tail _ hstep ih =>
    have hon := ih.advance
    rw [hstep] at hon
    exact hon

theorem Clears.faults (h : Clears p q) (hp : p.On source) : q.faults source = p.faults source := by
  induction h with
  | refl => rfl
  | @tail r q hr hstep ih =>
    have hon := Clears.on hr hp
    have hfaults := hon.faults_advance
    rcases hon.advance_cases with ⟨q', hq', hnext⟩ | ⟨e, q', hq', -⟩
    · rw [hnext, hstep] at hfaults
      rw [← ih]
      exact hfaults.trans (List.append_nil _)
    · cases hstep.symm.trans hq'

theorem Stops.on {e : ReadError} (h : p.Stops e q) (hp : p.On source) : q.On source := by
  cases e with
  | grammar e => exact Clears.on h hp
  | lexical e =>
    obtain ⟨r, hr, hq⟩ := h
    have hon := (hr.on hp).advance
    rw [hq] at hon
    exact hon

/-- A reader that failed used up what it failed for. -/
theorem Stops.faults {e : ReadError} (h : p.Stops e q) (hp : p.On source) :
    q.faults source = p.faults source ++ e.fault?.toList := by
  cases e with
  | grammar e => exact (Clears.faults h hp).trans (List.append_nil _).symm
  | lexical e =>
    obtain ⟨r, hr, hq⟩ := h
    have hon := hr.on hp
    have hfaults := hon.faults_advance
    rcases hon.advance_cases with ⟨q', hq', -⟩ | ⟨e', q', hq', hnext, -⟩
    · cases hq.symm.trans hq'
    · cases hq.symm.trans hq'
      rw [hnext, hq, hr.faults hp] at hfaults
      exact hfaults

/-- The current token is the one with its number. -/
def Current (source : String) (p : Parser) : Prop :=
  match p.token? source with
  | none => p.cur = .terminator
  | some k => (Lexer.ofText source).result k = .ok p.cur

theorem On.current_advance (h : p.On source) (hp : p.Current source) : (left (Parser.advance p)).Current source := by
  by_cases hcur : p.cur = .eof
  · rw [h.advance_of_eof hcur]
    exact hp
  · have htoken := h.token?_advance hcur
    rcases h.advance_cases with ⟨q, hq, hnext⟩ | ⟨e, q, hq, hnext, hsame⟩
    · rw [hnext, hq] at htoken
      rw [hq, Current, htoken]
      exact hnext
    · rw [hnext, hq] at htoken
      rw [hq, Current, htoken, left, hsame]
      exact hp

theorem On.current_reaches (h : p.On source) (hq : Reaches p q) (hp : p.Current source) : q.Current source := by
  induction hq with
  | refl => exact hp
  | tail hr hstep ih =>
    subst hstep
    exact (h.reaches hr).current_advance ih

theorem Passes.current (h : p.Passes q) (hon : p.On source) (hp : p.Current source) : q.Current source := by
  obtain ⟨r, hr, hcur, hrest⟩ := h
  have hcurrent : r.Current source := hon.advance.current_reaches hr (hon.current_advance hp)
  have htoken : q.token? source = r.token? source := by rw [token?, token?, used, used, hcur, hrest]
  rw [Current, htoken, hcur]
  exact hcurrent

/-- The current token of `q` is what was used up next from `p` on, and none that was the
    current token so far. -/
structure StartsPast (source : String) (p q : Parser) : Prop where
  upcoming : p.upcoming source = .ok q.cur
  token : q.token? source = some (p.used source)
  fresh : ∀ n ≤ p.used source, (Lexer.ofText source).token? n ≠ q.token? source

/-- Before the end of input, to pass a token is to go on past all that was seen, unless it
    cannot be lexed. -/
theorem On.startsPast_iff (h : p.On source) (hcur : p.cur ≠ .eof) :
    p.StartsPast source (left (Parser.advance p)) ↔ fault? (p.upcoming source) = none := by
  have htoken := h.token?_advance hcur
  rcases h.advance_cases with ⟨q, hq, hnext⟩ | ⟨e, q, hq, hnext, -⟩
  · rw [hq, hnext] at htoken
    rw [hq, hnext]
    refine ⟨fun _ => rfl, fun _ => ⟨hnext, htoken, fun n hn heq => ?_⟩⟩
    exact Nat.not_lt_of_le hn (Lexer.token?_lt (heq.trans htoken))
  · rw [hnext]
    constructor
    · intro hpasses
      cases hnext.symm.trans hpasses.upcoming
    · exact nofun

end Parser

/-! ## Turns -/

/-- The literal that the turn reports. -/
def Handled.reported (h : Handled) : Option Source.LexError :=
  match h.turn with
  | .done (.failed (.read e)) => e.fault?
  | _ => none

namespace Session

open Source

variable {source : String} {past : List (Session × Handled)} {s : Session} {h : Handled} {budget : Nat}
  {e : ReadError} {p : Parser}

/-- How reading failed, and where it left the parser. -/
def failureOf {α : Type} : EStateM.Result ReadError Parser α → Option (ReadError × Parser)
  | .ok _ _ => none
  | .error e p => some (e, p)

/-- How the statement at the current token cannot be read, and where its reader stops. -/
def failure? (s : Session) : Option (ReadError × Parser) :=
  match s.parser.cur with
  | .eof => none
  | .terminator => none
  | .keyword .defWord => failureOf (Parser.definition s.ops s.parser)
  | .keyword .externWord => failureOf (Parser.declaration s.parser)
  | _ => failureOf (Parser.wrapper s.ops s.parser)

/-- The literal that the turn drops after its failure. -/
def dropped (source : String) (s : Session) : Option LexError :=
  s.failure?.bind fun x => fault? (x.2.upcoming source)

theorem failureOf_some {α : Type} {x : EStateM.Result ReadError Parser α} (hx : failureOf x = some (e, p)) :
    x = .error e p := by
  cases x with
  | ok a q => cases hx
  | error e' q =>
    cases hx
    rfl

theorem failureOf_none {α : Type} {x : EStateM.Result ReadError Parser α} (hx : failureOf x = none) :
    ∃ a q, x = .ok a q := by
  cases x with
  | ok a q => exact ⟨a, q, rfl⟩
  | error e q => cases hx

/-- After a failure, one more result is used up. -/
theorem next_of_failure? (hs : s.failure? = some (e, p)) :
    s.next budget = some ((s.passed (Parser.left (Parser.advance p))).fail (.read e)) := by
  unfold failure? at hs
  split at hs
  · cases hs
  · cases hs
  · rename_i hcur
    rw [next_eq, hcur, handleDefinition, read_eq, failureOf_some hs]
  · rename_i hcur
    rw [next_eq, hcur, handleDeclaration, read_eq, failureOf_some hs]
  · rw [next_eq]
    split
    · contradiction
    · contradiction
    · contradiction
    · contradiction
    · rw [handleExpression, read_eq, failureOf_some hs]

theorem stops_of_failure? (hs : s.failure? = some (e, p)) : s.parser.Stops e p := by
  unfold failure? at hs
  split at hs
  · cases hs
  · cases hs
  · have hproceeds := Parser.definition_proceeds s.ops s.parser
    rw [failureOf_some hs] at hproceeds
    exact hproceeds
  · have hproceeds := Parser.declaration_proceeds s.parser
    rw [failureOf_some hs] at hproceeds
    exact hproceeds
  · exact Parser.wrapper_stops (failureOf_some hs)

theorem handleDefinition_of_ok {d : Definition} (hd : Parser.definition s.ops s.parser = .ok d p) :
    s.handleDefinition.reported = none ∧ s.handleDefinition.session.parser = p := by
  simp only [handleDefinition, read_eq, hd, lower_eq, passed_lowering]
  cases Lowering.define d s.lowering with
  | error e l => exact ⟨rfl, rfl⟩
  | ok f l =>
    simp only [load_eq]
    cases ((s.passed p).lowered l).engine.add ((s.passed p).lowered l).unit none with
    | error err e => exact ⟨rfl, rfl⟩
    | ok u e => exact ⟨rfl, rfl⟩

theorem handleDeclaration_of_ok {proto : Prototype} (hd : Parser.declaration s.parser = .ok proto p) :
    s.handleDeclaration.reported = none ∧ s.handleDeclaration.session.parser = p := by
  simp only [handleDeclaration, read_eq, hd, lower_eq, passed_lowering]
  cases Lowering.declare proto s.lowering with
  | error e l => exact ⟨rfl, rfl⟩
  | ok f l => exact ⟨rfl, rfl⟩

theorem handleExpression_of_ok {d : Definition} (hd : Parser.wrapper s.ops s.parser = .ok d p)
    (hn : s.handleExpression budget = some h) : h.reported = none ∧ h.session.parser = p := by
  refine ⟨?_, parser_of_handleExpression hd hn⟩
  simp only [handleExpression, read_eq, hd, lower_eq, passed_lowering] at hn
  cases hl : Lowering.define d s.lowering with
  | error e l =>
    rw [hl] at hn
    cases hn
    rfl
  | ok f l =>
    simp only [hl] at hn
    rcases evaluate_some hn with ⟨err, e, -, rfl⟩ | ⟨e, -, heval⟩
    · rfl
    · cases heval <;> rfl

/-- A statement that is read uses up tokens only. -/
theorem next_of_failure?_none (hon : s.parser.On source) (heof : s.parser.cur ≠ .eof)
    (hend : s.parser.cur ≠ .terminator) (hs : s.failure? = none) (hn : s.next budget = some h) :
    h.reported = none ∧ h.session.parser.faults source = s.parser.faults source := by
  unfold failure? at hs
  split at hs
  · contradiction
  · contradiction
  · rename_i hcur
    obtain ⟨d, p, hread⟩ := failureOf_none hs
    have hclears := Parser.definition_proceeds s.ops s.parser
    rw [hread] at hclears
    rw [next_eq, hcur] at hn
    cases hn
    obtain ⟨hreported, hparser⟩ := handleDefinition_of_ok hread
    exact ⟨hreported, hparser ▸ Parser.Clears.faults hclears hon⟩
  · rename_i hcur
    obtain ⟨proto, p, hread⟩ := failureOf_none hs
    have hclears := Parser.declaration_proceeds s.parser
    rw [hread] at hclears
    rw [next_eq, hcur] at hn
    cases hn
    obtain ⟨hreported, hparser⟩ := handleDeclaration_of_ok hread
    exact ⟨hreported, hparser ▸ Parser.Clears.faults hclears hon⟩
  · obtain ⟨d, p, hread⟩ := failureOf_none hs
    obtain ⟨r, hbody, -, rfl⟩ := Parser.wrapper_ok hread
    have hclears := Parser.expression_proceeds s.ops s.parser
    rw [hbody] at hclears
    rw [next_eq_handleExpression hread] at hn
    obtain ⟨hreported, hparser⟩ := handleExpression_of_ok hread hn
    have hfaults : r.faults source = s.parser.faults source := Parser.Clears.faults hclears hon
    -- wrapping an expression passes nothing
    exact ⟨hreported, hparser ▸ hfaults⟩

theorem handleTerminator_faults (hon : s.parser.On source) :
    s.handleTerminator.session.parser.faults source = s.parser.faults source ++ s.handleTerminator.reported.toList := by
  have hfaults := hon.faults_advance
  rcases hon.advance_cases with ⟨p, hp, hnext⟩ | ⟨e, p, hp, hnext, -⟩
  · rw [hp, hnext] at hfaults
    rw [handleTerminator, hp]
    exact hfaults
  · rw [hp, hnext] at hfaults
    rw [handleTerminator, hp]
    exact hfaults

/-- Of the literals that a turn uses up and that cannot be lexed, it reports the one that it
    fails for and drops the one after it. -/
theorem next_faults (hon : s.parser.On source) (hn : s.next budget = some h) :
    h.session.parser.faults source =
      s.parser.faults source ++ (h.reported.toList ++ (s.dropped source).toList) := by
  by_cases heof : s.parser.cur = .eof
  · have hdropped : s.dropped source = none := by simp only [dropped, failure?, heof, Option.bind_none]
    rw [next_of_eof heof] at hn
    cases hn
    rw [hdropped]
    exact (List.append_nil _).symm
  by_cases hend : s.parser.cur = .terminator
  · have hdropped : s.dropped source = none := by simp only [dropped, failure?, hend, Option.bind_none]
    rw [next_eq, hend] at hn
    cases hn
    rw [hdropped, handleTerminator_faults hon, Option.toList_none, List.append_nil]
  cases hs : s.failure? with
  | none =>
    obtain ⟨hreported, hfaults⟩ := next_of_failure?_none hon heof hend hs hn
    rw [hfaults, hreported, dropped, hs]
    exact (List.append_nil _).symm
  | some x =>
    obtain ⟨e, p⟩ := x
    have hstops := stops_of_failure? hs
    rw [next_of_failure? hs] at hn
    cases hn
    rw [dropped, hs, ← List.append_assoc]
    have hreported := hstops.faults hon
    have hdropped := (hstops.on hon).faults_advance
    rw [hreported] at hdropped
    exact hdropped

/-! ## Main statement -/

theorem Run.current (hrun : Run source past s) : s.parser.Current source := by
  induction hrun with
  | start =>
    show (Parser.ofText source).Current source
    rw [Parser.Current, Parser.token?, Parser.used_ofText]
    rfl
  | @turn past s r budget hrun hn ih =>
    by_cases heof : s.parser.cur = .eof
    · rw [next_of_eof heof] at hn
      cases hn
      exact ih
    · exact ((next_takes hn).passes heof).current hrun.on ih

theorem Run.faults (hrun : Run source past s) :
    s.parser.faults source = past.flatMap fun t => t.2.reported.toList ++ (t.1.dropped source).toList := by
  induction hrun with
  | start =>
    show (Parser.ofText source).faults source = []
    rw [Parser.faults, Parser.used_ofText]
    rfl
  | @turn past s r budget hrun hn ih =>
    rw [next_faults hrun.on hn, ih, List.flatMap_append, List.flatMap_singleton]

/-- In a run of any text, the current token is the one with its number, and the literals
    that could not be lexed so far are those that the turns reported and those that they
    dropped. A statement that cannot be read always makes its turn fail. Unless the text is
    over, the next statement starts with what the lexer gives from where the reader stopped,
    past all that was seen, exactly if no literal is dropped. If one is, the next statement
    starts with the token that the reader stopped at. A literal that cannot be lexed and that
    follows a terminator is reported, and the terminator stays. -/
theorem Run.recovers (hrun : Run source past s) :
    s.parser.Current source ∧
    (s.parser.faults source = past.flatMap fun t => t.2.reported.toList ++ (t.1.dropped source).toList) ∧
    (∀ e p budget, s.failure? = some (e, p) → ∃ h, s.next budget = some h ∧ h.turn = .done (.failed (.read e)) ∧
      (p.cur = .eof → h.session.parser = p) ∧
      (p.cur ≠ .eof → (p.StartsPast source h.session.parser ↔ s.dropped source = none)) ∧
      (∀ x, s.dropped source = some x → h.session.parser.cur = p.cur ∧
        h.session.parser.token? source = p.token? source)) ∧
    (∀ x budget, s.parser.cur = .terminator → s.parser.upcoming source = .error x → ∃ h, s.next budget = some h ∧
      h.turn = .done (.failed (.read (.lexical x))) ∧ h.session.parser.cur = .terminator ∧
      h.session.parser.token? source = s.parser.token? source) := by
  refine ⟨hrun.current, hrun.faults, fun e p budget hs => ?_, fun x budget hend hnext => ?_⟩
  · have hon : p.On source := (stops_of_failure? hs).on hrun.on
    have hdropped : s.dropped source = fault? (p.upcoming source) := by rw [dropped, hs, Option.bind_some]
    refine ⟨_, next_of_failure? hs, rfl, fun heof => hon.advance_of_eof heof, fun hcur => ?_, fun x hx => ?_⟩
    · rw [hdropped]
      exact hon.startsPast_iff hcur
    · rw [hdropped, fault?_eq_some] at hx
      obtain ⟨q, hq, hcur, htoken⟩ := hon.advance_of_fault hx
      rw [hq]
      exact ⟨hcur, htoken⟩
  · obtain ⟨q, hq, hcur, htoken⟩ := hrun.on.advance_of_fault hnext
    refine ⟨(s.passed q).fail (.read (.lexical x)), ?_, rfl, hcur.trans hend, htoken⟩
    rw [next_eq, hend, handleTerminator, hq]
    rfl

/-! A definition without a name, and a number after it that cannot be lexed: the number is
dropped, and what should have been the name is the next statement. -/

def unnamed : String := "def 5 1.2.3; 2;"

/-- No turn up to the end of the text reports the number. -/
theorem recovers_unnamed :
    (∃ past s p h, Run unnamed past s ∧ s.failure? = some (.grammar .functionName, p) ∧ s.next 20 = some h ∧
      p.cur ≠ .eof ∧ s.dropped unnamed = some (.malformedNumber "1.2.3") ∧ ¬p.StartsPast unnamed h.session.parser ∧
      h.session.parser.cur = p.cur ∧ (h.session.next 20).any (evaluatesTo 5) = true) ∧
    ∃ past s, Run unnamed past s ∧ s.parser.cur = .eof ∧ (past.all fun t => t.2.reported.isNone) = true ∧
      (past.flatMap fun t => t.2.reported.toList ++ (t.1.dropped unnamed).toList) = [.malformedNumber "1.2.3"] := by
  refine ⟨?_, ?_⟩
  · have hturns : ((takeTurns 20 1 ([], ofText unnamed)).any fun x =>
        x.2.failure?.any (fun y => y.1 == .grammar .functionName && y.2.cur != .eof) &&
          x.2.dropped unnamed == some (.malformedNumber "1.2.3") &&
          (x.2.next 20).any fun h => (h.session.next 20).any (evaluatesTo 5)) = true := by decide +kernel
    obtain ⟨⟨past, s⟩, hx, hturns⟩ := (Option.any_eq_true _ _).mp hturns
    have hrun : Run unnamed past s := Run.start.takeTurns hx
    simp only [Bool.and_eq_true, beq_iff_eq, Option.any_eq_true, bne_iff_ne] at hturns
    obtain ⟨⟨⟨⟨e, p⟩, hs, he, hcur⟩, hdropped⟩, h, hn, hvalue⟩ := hturns
    cases he
    obtain ⟨-, -, hfailure, -⟩ := hrun.recovers
    obtain ⟨h', hn', -, -, hpasses, hstays⟩ := hfailure _ p 20 hs
    cases hn.symm.trans hn'
    refine ⟨past, s, p, h, hrun, hs, hn, hcur, hdropped, fun hpast => ?_, (hstays _ hdropped).1, ?_⟩
    · cases hdropped.symm.trans ((hpasses hcur).mp hpast)
    · exact (Option.any_eq_true _ _).mpr hvalue
  · have hturns : ((takeTurns 20 6 ([], ofText unnamed)).any fun x => x.2.parser.cur == .eof &&
        (x.1.all fun t => t.2.reported.isNone) &&
        x.2.parser.faults unnamed == [.malformedNumber "1.2.3"]) = true := by decide +kernel
    obtain ⟨⟨past, s⟩, hx, hturns⟩ := (Option.any_eq_true _ _).mp hturns
    have hrun : Run unnamed past s := Run.start.takeTurns hx
    simp only [Bool.and_eq_true, beq_iff_eq] at hturns
    obtain ⟨⟨hend, hreported⟩, hfaults⟩ := hturns
    exact ⟨past, s, hrun, hend, hreported, hrun.recovers.2.1.symm.trans hfaults⟩

end Session

end Kaleidoscope
