/-
  Kaleidoscope.Proofs.Concord — the registry and the engine, turn by turn.

  The registry marks a name as defined when its body was lowered; the engine binds it when
  the unit is loaded. A wrapper is in both while it runs, and is taken out of both when it
  has run; a fatal turn leaves it in both. `Session.Concords` says that the two agree on
  every name, and on its parameters. What is unloaded after an expression is the wrapper
  alone, because it was loaded under a tracker with a new number.

  Every turn keeps it (`Concords.takes`), so no unit is ever refused for a name that is
  compiled already (`Concords.add_ne_error`); linking and running never complain of such a
  name (`EngineError.Plain`). Wrappers are numbered, too: what was wrapped before has a
  smaller number (`Run.wraps_lt`), and no text can spell the name of a wrapper.

  `Run.registry_engine_agree` says it of every run.
-/

import Kaleidoscope.Proofs.Arity
import Kaleidoscope.Proofs.Loading
import Kaleidoscope.Proofs.Rollback

namespace Kaleidoscope

/-! ## The names of wrappers -/

namespace Parser

open Source

variable {ops : Operator.Precedences} {p q : Parser} {d : Definition}

theorem wrapperName_injective {m n : Nat} (h : wrapperName m = wrapperName n) : m = n := by
  have hrepr : m.repr = n.repr := (String.append_right_inj "__anon_expr_").mp h
  have hdigits : Nat.toDigits 10 m = Nat.toDigits 10 n := by rw [← Nat.toList_repr, hrepr, Nat.toList_repr]
  calc
    m = Nat.ofDigitChars 10 (Nat.toDigits 10 m) 0 := Nat.ofDigitChars_ten_toDigits.symm
    _ = Nat.ofDigitChars 10 (Nat.toDigits 10 n) 0 := by rw [hdigits]
    _ = n := Nat.ofDigitChars_ten_toDigits

/-- Passing tokens wraps nothing. -/
theorem Reaches.wrapped (h : Reaches p q) : q.wrapped = p.wrapped := by
  induction h with
  | refl => rfl
  | @tail r _ _ hstep ih =>
    subst hstep
    rw [← ih]
    obtain ⟨cur, rest, wrapped⟩ := r
    rcases rest with _ | ⟨⟨t | e, adjoins⟩, rest⟩ <;> rfl

theorem wrapped_of_same {α : Type} {x : Parse α} {y : EStateM.Result ReadError Parser α} (hx : Same p.size x x)
    (h : x p = y) : (left y).wrapped = p.wrapped := by
  subst h
  exact (hx.moves p (Nat.le_refl _)).wrapped

/-- A wrapper is named by the number of those before it. -/
theorem wrapper_named (h : wrapper ops p = .ok d q) :
    d.proto = .function (wrapperName p.wrapped) [] ∧ q.wrapped = p.wrapped + 1 := by
  obtain ⟨r, hbody, hproto, rfl⟩ := wrapper_ok h
  have hr : r.wrapped = p.wrapped := wrapped_of_same (expression_same ops p.size) hbody
  rw [hproto, hr]
  exact ⟨rfl, rfl⟩

theorem wrapper_error {e : ReadError} (h : wrapper ops p = .error e q) : q.wrapped = p.wrapped :=
  (wrapper_reaches h).wrapped

/-- No expression starts where a turn does not look for one. -/
theorem wrapper_refuses
    (h : p.cur = .eof ∨ p.cur = .terminator ∨ p.cur = .keyword .defWord ∨ p.cur = .keyword .externWord) :
    wrapper ops p = .error (.grammar .notAnExpression) p := by
  have hunary : unaryOperator? p.cur = none := by
    rcases h with h | h | h | h <;> rw [h] <;> rfl
  have hprimary : ∀ nested n, primary nested n p = .error (.grammar .notAnExpression) p := by
    intro nested n
    show primaryAt nested n p.cur p = _
    rcases h with h | h | h | h <;> rw [h] <;> rfl
  have hoperand : operand ops p = .error (.grammar .notAnExpression) p := by
    unfold operand
    cases p.size with
    | zero => rfl
    | succ n =>
      rw [operandWithin_run, hunary]
      exact hprimary _ _
  have hexpression : expression ops p = .error (.grammar .notAnExpression) p := by
    rw [expression_eq, bind_of_error hoperand]
  rw [wrapper, bind_of_error hexpression]

end Parser

/-! ## Duplicates -/

/-- No name was found to be compiled already. -/
def EngineError.Plain : EngineError → Prop
  | duplicate _ => False
  | _ => True

namespace Machine

variable {e : Engine} {callers : Array (Frame × Nat)} {calls : Array Invocation}

/-- The machine goes on, or stops with a result or a failure of its own. -/
def Progress.Plain : Progress → Prop
  | running _ => True
  | finished r => ∀ err, r.result = .error err → err.Plain

theorem plain_stop {err : EngineError} (h : err.Plain) : (Progress.stop err calls).Plain := by
  intro err' herr
  cases herr
  exact h

theorem call_plain (f : Frame) (dest : Nat) (callee : String) (args : List Float) :
    (call e callers calls f dest callee args).Plain := by
  unfold call
  split
  · exact plain_stop trivial
  · split
    · exact plain_stop trivial
    · split
      · exact plain_stop trivial
      · trivial
  · split
    · exact plain_stop trivial
    · split
      · exact plain_stop trivial
      · split
        · rename_i herr
          rcases Frame.enter_error herr with rfl | ⟨rfl, -⟩
          · exact plain_stop trivial
          · exact plain_stop trivial
        · trivial

theorem ret_plain (x : Float) : (ret callers calls x).Plain := by
  unfold ret
  split
  · intro err herr
    cases herr
  · simp only
    split
    · exact plain_stop trivial
    · trivial

theorem step_plain (m : Machine) : (m.step e).Plain := by
  obtain ⟨top, callers, calls⟩ := m
  have hasks := top.step_asks
  simp only [step]
  cases hs : top.step with
  | next f => trivial
  | call f dest callee args => exact call_plain f dest callee args
  | ret x => exact ret_plain x
  | fault err =>
    rw [hs] at hasks
    cases hasks with
    | noTerminator => exact plain_stop trivial
    | badIndex => exact plain_stop trivial

theorem run_plain {budget : Nat} {m : Machine} {ran : Ran} (h : run e budget m = some ran) :
    (Progress.finished ran).Plain := by
  induction budget generalizing m with
  | zero => cases h
  | succ budget ih =>
    have hstep := step_plain (e := e) m
    simp only [run] at h
    split at h
    · exact ih h
    · rename_i r hr
      rw [hr] at hstep
      cases h
      exact hstep

end Machine

namespace Engine

variable {e : Engine} {err : EngineError}

theorem lookup_plain {n : String} (h : e.lookup n = .error err) : err.Plain := by
  rcases lookup_error h with rfl | rfl | rfl | ⟨i, l, callee, -, -, hlink⟩
  · trivial
  · trivial
  · trivial
  · rcases linkCallee_error hlink with rfl | rfl | ⟨r, k, m, rfl, -⟩
    · trivial
    · trivial
    · trivial

theorem invoke_plain {budget : Nat} {s : Symbol} {args : List Float} {ran : Ran}
    (h : e.invoke budget s args = some ran) (herr : ran.result = .error err) : err.Plain := by
  unfold invoke at h
  split at h
  · cases h
    cases herr
    trivial
  · unfold execute at h
    split at h
    · rename_i henter
      cases h
      cases herr
      rcases Frame.enter_error henter with rfl | ⟨rfl, -⟩
      · trivial
      · trivial
    · exact Machine.run_plain h err herr

end Engine

namespace Session

variable {s : Session} {past : List (Session × Handled)} {r : Handled} {d : Definition} {p : Parser} {n : String}
  {f : Ir.Function} {l : Lowering} {e : Engine} {budget : Nat}

/-- The turn reads an expression and wraps it under this name. -/
def Wraps (s : Session) (n : String) : Prop := ∃ d p, Parser.wrapper s.ops s.parser = .ok d p ∧ d.proto.name = n

/-- The turn reads a definition or a declaration of this name. -/
def Names (s : Session) (n : String) : Prop :=
  (∃ d p, Parser.definition s.ops s.parser = .ok d p ∧ d.proto.name = n) ∨
    ∃ proto p, Parser.declaration s.parser = .ok proto p ∧ proto.name = n

theorem Wraps.eq (h : s.Wraps n) : n = Parser.wrapperName s.parser.wrapped := by
  obtain ⟨d, p, hp, rfl⟩ := h
  rw [(Parser.wrapper_named hp).1]
  rfl

theorem Names.not_reserved (hs : s.WellFormed) (h : s.Names n) : ¬Reserved n := by
  rcases h with ⟨d, p, hp, rfl⟩ | ⟨proto, p, hp, rfl⟩
  · exact Parser.definition_not_reserved hs.lexed hp
  · exact Parser.declaration_not_reserved hs.lexed hp

theorem next_eq_handleExpression (h : Parser.wrapper s.ops s.parser = .ok d p) :
    s.next budget = s.handleExpression budget := by
  unfold next
  split
  · rename_i hcur
    rw [Parser.wrapper_refuses (.inl hcur)] at h
    cases h
  · rename_i hcur
    rw [Parser.wrapper_refuses (.inr (.inl hcur))] at h
    cases h
  · rename_i hcur
    rw [Parser.wrapper_refuses (.inr (.inr (.inl hcur)))] at h
    cases h
  · rename_i hcur
    rw [Parser.wrapper_refuses (.inr (.inr (.inr hcur)))] at h
    cases h
  · rfl

/-- A turn that reads an expression leaves the parser where the reader left it. -/
theorem parser_of_handleExpression (h : Parser.wrapper s.ops s.parser = .ok d p)
    (hr : s.handleExpression budget = some r) : r.session.parser = p := by
  simp only [handleExpression, read_eq, h, lower_eq, passed_lowering] at hr
  cases hl : Lowering.define d s.lowering with
  | error e l =>
    rw [hl] at hr
    cases hr
    rfl
  | ok f l =>
    simp only [hl] at hr
    rcases evaluate_some hr with ⟨err, e, -, rfl⟩ | ⟨e, -, heval⟩
    · rfl
    · cases heval <;> rfl

/-- Numbers of wrappers are not given again. -/
theorem Takes.wrapped_le (ht : s.Takes r) : s.parser.wrapped ≤ r.session.parser.wrapped := by
  have hadvance : ∀ {q : Parser} {y}, Parser.advance q = y → q.wrapped = (Parser.left y).wrapped := by
    rintro q _ rfl
    exact (Parser.reaches_advance q).wrapped.symm
  have hdefinition : ∀ {y}, Parser.definition s.ops s.parser = y → s.parser.wrapped = (Parser.left y).wrapped :=
    fun h => (Parser.wrapped_of_same (Parser.definition_same s.parser.size) h).symm
  have hdeclaration : ∀ {y}, Parser.declaration s.parser = y → s.parser.wrapped = (Parser.left y).wrapped :=
    fun h => (Parser.wrapped_of_same (Parser.declaration_same s.parser.size) h).symm
  have hwrapper : ∀ {d p}, Parser.wrapper s.ops s.parser = .ok d p → s.parser.wrapped ≤ p.wrapped := by
    intro d p hp
    rw [(Parser.wrapper_named hp).2]
    exact Nat.le_succ _
  cases ht with
  | ended _ => exact Nat.le_refl _
  | skipped hp => exact Nat.le_of_eq (hadvance hp)
  | unpassed hp => exact Nat.le_of_eq (hadvance hp)
  | @unread e p hp =>
    have hp : s.parser.wrapped = p.wrapped := by
      cases hp with
      | definition hp => exact hdefinition hp
      | declaration hp => exact hdeclaration hp
      | wrapper hp => exact (Parser.wrapper_error hp).symm
    exact Nat.le_of_eq (hp.trans (hadvance rfl))
  | undeclared hp _ => exact Nat.le_of_eq (hdeclaration hp)
  | declared hp _ => exact Nat.le_of_eq (hdeclaration hp)
  | undefined hp _ =>
    rcases hp with hp | hp
    · exact Nat.le_of_eq (hdefinition hp)
    · exact hwrapper hp
  | rejected hp _ _ => exact Nat.le_of_eq (hdefinition hp)
  | defined hp _ _ => exact Nat.le_of_eq (hdefinition hp)
  | wrapperRejected hp _ _ => exact hwrapper hp
  | evaluated hp _ _ heval =>
    cases heval with
    | unlinked _ => exact hwrapper hp
    | stopped _ _ _ => exact hwrapper hp
    | returned _ _ _ => exact hwrapper hp

/-! ## Agreement -/

/-- Registry and engine have the same functions, with the same parameters. -/
structure Concords (s : Session) : Prop where
  defined : ∀ n entry, s.registry.find? n = some entry → entry.defined = true →
    ∃ symbol f t, s.engine.Binds n symbol f t ∧ entry.proto.params = f.params
  compiled : ∀ n symbol f t, s.engine.Binds n symbol f t → s.registry.isDefined n = true
  /-- Trackers are numbered, too. -/
  trackers : ∀ n symbol f t, s.engine.Binds n symbol f (some t) → t.id ≤ s.engine.trackers

theorem concords_ofText (source : String) : (ofText source).Concords := by
  have hnone : ∀ n symbol f t, ¬(ofText source).engine.Binds n symbol f t := by
    intro n symbol f t h
    obtain ⟨b, hb⟩ := Engine.find?_builtins h.symbol
    cases hb
  refine ⟨fun n entry hfind _ => ?_, fun n symbol f t h => ?_, fun n symbol f t h => ?_⟩
  · cases hfind
  · exact absurd h (hnone n symbol f t)
  · exact absurd h (hnone n symbol f (some t))

theorem Concords.isDefined (hs : s.WellFormed) (h : s.Concords) (n : String) :
    s.registry.isDefined n = s.engine.isDefined n := by
  rw [Bool.eq_iff_iff]
  constructor
  · intro hdef
    obtain ⟨entry, hfind, hentry⟩ := Registry.find?_of_isDefined hdef
    obtain ⟨symbol, f, t, hbinds, -⟩ := h.defined n entry hfind hentry
    exact hbinds.isDefined
  · intro hdef
    obtain ⟨symbol, f, t, hbinds, -⟩ := hs.engine.binds hdef
    exact h.compiled n symbol f t hbinds

theorem Concords.congr {s' : Session} (h : s.Concords) (hr : s'.registry = s.registry) (he : s'.engine = s.engine) :
    s'.Concords := by
  refine ⟨?_, ?_, ?_⟩
  · rw [hr, he]
    exact h.defined
  · rw [hr, he]
    exact h.compiled
  · rw [he]
    exact h.trackers

/-- A unit that was lowered is never refused: what it has a body for is not compiled. -/
theorem Concords.add_ne_error (hs : s.WellFormed) (h : s.Concords) (hl : Lowering.define d s.lowering = .ok f l)
    (t : Option Tracker) (err : EngineError) (kept : Engine) : s.engine.add l.unit t ≠ .error err kept := by
  have hd := Lowering.define_ok hl
  have hnew : ∀ g ∈ l.unit.functions, g.isDeclaration = false → s.engine.isDefined g.name = false := by
    intro g hg hbody
    rcases (hd.covered hs.named hs.unit hg).2 with rfl | hdecl
    · rw [hd.name, ← h.isDefined hs]
      exact not_isDefined_of_defines hd
    · rw [hdecl] at hbody
      cases hbody
  obtain ⟨e, he⟩ := Engine.add_ok hnew
  intro herr
  rw [he] at herr
  cases herr

/-- Both tables get the function that was defined. -/
theorem Concords.defines (hs : s.WellFormed) (h : s.Concords) (hd : Lowering.Defines d s.lowering f l)
    {t : Option Tracker} (ha : s.engine.add l.unit t = .ok () e) (ht : ∀ r, t = some r → r.id ≤ s.engine.trackers) :
    ((s.lowered l).handedOver e).Concords := by
  have hself : l.registry.isDefined d.proto.name = true := by simp [Registry.isDefined, hd.find?]
  have hcompiled : ∀ n symbol g t', e.Binds n symbol g t' →
      s.engine.Binds n symbol g t' ∨ n = d.proto.name ∧ t' = t := by
    intro n symbol g t' hbinds
    rcases hbinds.of_add hs.engine ha with hold | ⟨hmem, rfl, hbody, ht⟩
    · exact .inl hold
    · rcases (hd.covered hs.named hs.unit hmem).2 with rfl | hdecl
      · exact .inr ⟨hd.name, ht⟩
      · rw [hdecl] at hbody
        cases hbody
  refine ⟨fun n entry hfind hentry => ?_, fun n symbol g t' hbinds => ?_, fun n symbol g r hbinds => ?_⟩
  · have hfind : l.registry.find? n = some entry := hfind
    rw [hd.find?] at hfind
    split at hfind
    · rename_i hname
      cases hfind
      obtain ⟨symbol, hbinds⟩ := Engine.binds_new (hd.distinct hs.named hs.unit) ha hd.mem hd.isDeclaration
      rw [hd.name, hname] at hbinds
      exact ⟨symbol, f, t, hbinds, hd.params.symm⟩
    · obtain ⟨symbol, g, t', hbinds, hparams⟩ := h.defined n entry hfind hentry
      exact ⟨symbol, g, t', hbinds.add ha, hparams⟩
  · show l.registry.isDefined n = true
    rcases hcompiled n symbol g t' hbinds with hold | ⟨rfl, -⟩
    · by_cases hname : d.proto.name = n
      · exact hname ▸ hself
      · rw [Registry.isDefined_congr (show l.registry.find? n = s.registry.find? n by rw [hd.find?, if_neg hname]; rfl)]
        exact h.compiled n symbol g t' hold
    · exact hself
  · show r.id ≤ e.trackers
    rw [Engine.add_eq ha]
    rcases hcompiled n symbol g (some r) hbinds with hold | ⟨-, hr⟩
    · exact h.trackers n symbol g r hold
    · exact ht r hr.symm

/-- Both tables lose the one function that was loaded under the tracker. -/
theorem Concords.released (h : s.Concords) {symbol : Symbol} {r : Tracker} (hself : s.engine.Binds n symbol f (some r))
    (hown : ∀ m symbol' g, s.engine.Binds m symbol' g (some r) → m = n) : (s.released r n).Concords := by
  refine ⟨fun m entry hfind hentry => ?_, fun m symbol' g t hbinds => ?_, fun m symbol' g t hbinds => ?_⟩
  · have hfind : Bindings.find? (s.registry.erase n) m = some entry := hfind
    rw [Bindings.find?_erase] at hfind
    split at hfind
    · cases hfind
    · rename_i hne
      obtain ⟨symbol', g, t, hbinds, hparams⟩ := h.defined m entry hfind hentry
      refine ⟨symbol', g, t, hbinds.release fun ht => ?_, hparams⟩
      subst ht
      exact hne (hown m symbol' g hbinds).symm
  · obtain ⟨hbinds, ht⟩ := hbinds.of_release
    have hne : n ≠ m := by
      rintro rfl
      exact ht (hbinds.tracker hself)
    rw [Registry.isDefined_congr (show (s.released r n).registry.find? m = s.registry.find? m from
      (Bindings.find?_erase s.registry n m).trans (if_neg hne))]
    exact h.compiled m symbol' g t hbinds
  · exact h.trackers m symbol' g t hbinds.of_release.1

/-! ## Turns -/

/-- The session with a tracker for the next wrapper. -/
def tracked (s : Session) : Session := { s with engine := s.tracking }

theorem WellFormed.tracked (hs : s.WellFormed) : s.tracked.WellFormed :=
  ⟨hs.lexed, hs.named, hs.arities, hs.unit, hs.engine.newTracker⟩

theorem Concords.tracked (h : s.Concords) : s.tracked.Concords := by
  refine ⟨fun n entry hfind hentry => ?_, fun n symbol f t hbinds => ?_, fun n symbol f t hbinds => ?_⟩
  · obtain ⟨symbol, f, t, hbinds, hparams⟩ := h.defined n entry hfind hentry
    exact ⟨symbol, f, t, Engine.binds_newTracker.mpr hbinds, hparams⟩
  · exact h.compiled n symbol f t (Engine.binds_newTracker.mp hbinds)
  · exact Nat.le_succ_of_le (h.trackers n symbol f t (Engine.binds_newTracker.mp hbinds))

theorem Concords.takes (hs : s.WellFormed) (h : s.Concords) (ht : s.Takes r) : r.session.Concords := by
  have hpassed : ∀ p, (s.passed p).Concords := fun p => h.congr rfl rfl
  cases ht with
  | ended _ => exact h
  | skipped _ => exact hpassed _
  | unpassed _ => exact hpassed _
  | unread _ => exact hpassed _
  | undeclared _ hl =>
    cases Lowering.declare_error hl
    exact hpassed _
  | @declared proto p f l hp hl =>
    obtain ⟨-, -, rfl⟩ := Lowering.declare_ok hl
    refine ⟨fun n entry hfind hentry => ?_, fun n symbol f t hbinds => ?_, h.trackers⟩
    · have hentry' : s.lowering.registry.isDefined n = true := by
        rw [← Lowering.isDefined_declared proto]
        exact (Registry.isDefined_of_find? hfind).trans hentry
      exact h.defined n entry ((Lowering.find?_declared proto hentry').symm.trans hfind) hentry
    · exact (Lowering.isDefined_declared proto s.lowering n).trans (h.compiled n symbol f t hbinds)
  | undefined _ hl =>
    obtain ⟨hregistry, -⟩ := Lowering.define_error_tables hl
    exact h.congr hregistry rfl
  | rejected _ hl hadd => exact absurd hadd (h.add_ne_error hs hl _ _ _)
  | defined hp hl hadd =>
    have hwf := hs.passed (lexed_of_ok (lexed_definition hs) hp)
    exact (hpassed _).defines hwf (Lowering.define_ok hl) hadd (by intro r hr; cases hr)
  | wrapperRejected _ hl hadd => exact absurd hadd (h.tracked.add_ne_error hs.tracked hl _ _ _)
  | @evaluated d p f l e _ hp hl hadd heval =>
    have hwf : (s.passed p).tracked.WellFormed := (hs.passed (lexed_of_ok (lexed_wrapper hs) hp)).tracked
    have hd := Lowering.define_ok hl
    have htracker : ∀ r, some s.tracker = some r → r.id ≤ s.tracking.trackers := by
      rintro r ⟨rfl⟩
      exact Nat.le_refl _
    have hloaded : (((s.passed p).lowered l).handedOver e).Concords :=
      Concords.defines (s := (s.passed p).tracked) hwf (hpassed p).tracked hd hadd htracker
    cases heval with
    | unlinked _ => exact hloaded
    | stopped _ _ _ => exact hloaded
    | returned _ _ _ =>
      obtain ⟨symbol, hself⟩ := Engine.binds_new (hd.distinct hs.named hs.unit) hadd hd.mem hd.isDeclaration
      refine hloaded.released hself fun m symbol' g hbinds => ?_
      -- the tracker is new, so nothing but the wrapper was loaded under it
      rcases hbinds.of_add hs.engine.newTracker hadd with hold | ⟨hmem, rfl, hbody, -⟩
      · have hle := h.trackers m symbol' g s.tracker (Engine.binds_newTracker.mp hold)
        exact absurd hle (Nat.not_succ_le_self _)
      · rcases (hd.covered hs.named hs.unit hmem).2 with rfl | hdecl
        · rfl
        · rw [hdecl] at hbody
          cases hbody

theorem Run.concords {source : String} (h : Run source past s) : s.Concords := by
  induction h with
  | start => exact concords_ofText source
  | turn budget hrun hn ih => exact ih.takes hrun.wellFormed (next_takes hn)

/-- No turn finds the name that it loads compiled already. -/
theorem Concords.fatal_plain {err : EngineError} (hs : s.WellFormed) (h : s.Concords) (ht : s.Takes r)
    (hr : r.turn = .fatal err) : err.Plain := by
  cases ht with
  | rejected _ hl hadd => exact absurd hadd (h.add_ne_error hs hl _ _ _)
  | wrapperRejected _ hl hadd => exact absurd hadd (h.tracked.add_ne_error hs.tracked hl _ _ _)
  | evaluated _ _ _ heval =>
    cases heval with
    | unlinked hlookup =>
      cases hr
      exact Engine.lookup_plain hlookup
    | stopped _ hran hresult =>
      cases hr
      exact Engine.invoke_plain hran hresult
    | returned _ _ _ => cases hr
  | _ => cases hr

/-! ## Main statement -/

/-- What was wrapped before has a smaller number. -/
theorem Run.wraps_lt {source : String} (h : Run source past s) :
    ∀ t ∈ past, ∀ n, t.1.Wraps n → ∃ k < s.parser.wrapped, n = Parser.wrapperName k := by
  induction h with
  | start =>
    intro t ht
    cases ht
  | @turn past s r budget hrun hn ih =>
    intro t ht n hwraps
    rcases List.mem_append.mp ht with ht | ht
    · obtain ⟨k, hk, rfl⟩ := ih t ht n hwraps
      exact ⟨k, Nat.lt_of_lt_of_le hk (next_takes hn).wrapped_le, rfl⟩
    · cases List.mem_singleton.mp ht
      refine ⟨s.parser.wrapped, ?_, hwraps.eq⟩
      obtain ⟨d, p, hp, -⟩ := hwraps
      rw [next_eq_handleExpression hp] at hn
      rw [parser_of_handleExpression hp hn, (Parser.wrapper_named hp).2]
      exact Nat.lt_succ_self _

theorem Run.wellFormed_past {source : String} (h : Run source past s) : ∀ t ∈ past, t.1.WellFormed := by
  induction h with
  | start =>
    intro t ht
    cases ht
  | turn budget hrun hn ih =>
    intro t ht
    rcases List.mem_append.mp ht with ht | ht
    · exact ih t ht
    · cases List.mem_singleton.mp ht
      exact hrun.wellFormed

/-- In a run of any text, the functions that the registry marks as defined are those that
    the engine has compiled, and they have the same parameters in both. No unit is refused
    because it has a function that is compiled already. The name of a wrapper is not one of
    an earlier wrapper, nor one that a definition or a declaration has, before or after. -/
theorem Run.registry_engine_agree {source : String} (hrun : Run source past s) :
    (∀ n, s.registry.isDefined n = true ↔ ∃ f, s.engine.Compiled n f) ∧
    (∀ n f, s.engine.Compiled n f → ∃ p, s.registry.proto? n = some p ∧ p.params = f.params) ∧
    (∀ budget r n, s.next budget = some r → r.turn ≠ .fatal (.duplicate n)) ∧
    (∀ n, s.Wraps n → ∀ t ∈ past, ¬t.1.Wraps n ∧ ¬t.1.Names n) ∧
    (∀ n, s.Names n → ∀ t ∈ past, ¬t.1.Wraps n) := by
  have hs := hrun.wellFormed
  have hc := hrun.concords
  have hdefined : ∀ n, s.registry.isDefined n = true ↔ ∃ f, s.engine.Compiled n f := by
    intro n
    rw [hc.isDefined hs]
    constructor
    · exact hs.engine.compiled_of_isDefined
    · rintro ⟨f, symbol, hsymbol, -⟩
      simp only [Engine.isDefined, hsymbol]
  refine ⟨hdefined, fun n f hf => ?_, fun budget r n hn hr => ?_,
    fun n hwraps t ht => ⟨fun hwraps' => ?_, fun hnames => ?_⟩, fun n hnames t ht hwraps => ?_⟩
  · obtain ⟨entry, hfind, hentry⟩ := Registry.find?_of_isDefined ((hdefined n).mpr ⟨f, hf⟩)
    obtain ⟨symbol, g, t, hbinds, hparams⟩ := hc.defined n entry hfind hentry
    cases hbinds.unique hf
    exact ⟨entry.proto, by rw [Registry.proto?, hfind]; rfl, hparams⟩
  · exact hc.fatal_plain hs (next_takes hn) hr
  · obtain ⟨k, hk, rfl⟩ := hrun.wraps_lt t ht n hwraps'
    exact Nat.lt_irrefl _ (Parser.wrapperName_injective hwraps.eq ▸ hk)
  · refine hnames.not_reserved (hrun.wellFormed_past t ht) ?_
    rw [hwraps.eq]
    exact reserved_wrapperName _
  · refine hnames.not_reserved hs ?_
    rw [hwraps.eq]
    exact reserved_wrapperName _

/-! A call of a function that is only declared: the turn is fatal, and its wrapper stays in
both tables while the next expression is wrapped. -/

def unresolvedCall : String := "def f(a b) a + b; extern g(x); g(1); f(1, 2)"

/-- Whether the turn did not find the function `n`. -/
def isUnresolved (n : String) (r : Handled) : Bool :=
  match r.turn with
  | .fatal e => e == .unresolvedCallee n
  | _ => false

/-- Whether the next expression is wrapped as `n`. -/
def wrapsAs (n : String) (s : Session) : Bool :=
  match Parser.wrapper s.ops s.parser with
  | .ok d _ => d.proto.name == n
  | .error _ _ => false

theorem registry_engine_agree_unresolvedCall : ∃ past s, Run unresolvedCall past s ∧
    (past.any fun t => isUnresolved "g" t.2) = true ∧ (∃ f, s.engine.Compiled "__anon_expr_0" f) ∧
    (∀ g, s.engine.Compiled "f" g → ∃ p, s.registry.proto? "f" = some p ∧ p.params = g.params) ∧
    s.Wraps "__anon_expr_1" ∧ ∀ t ∈ past, ¬t.1.Wraps "__anon_expr_1" ∧ ¬t.1.Names "__anon_expr_1" := by
  have hturns : ((takeTurns 20 7 ([], ofText unresolvedCall)).any fun x =>
      (x.1.any fun t => isUnresolved "g" t.2) && x.2.registry.isDefined "__anon_expr_0" &&
        wrapsAs "__anon_expr_1" x.2) = true := by decide +kernel
  obtain ⟨x, hx, hturns⟩ := (Option.any_eq_true _ _).mp hturns
  have hrun : Run unresolvedCall x.1 x.2 := Run.start.takeTurns hx
  simp only [Bool.and_eq_true] at hturns
  obtain ⟨⟨hfatal, hdefined⟩, hwraps⟩ := hturns
  have hwraps : x.2.Wraps "__anon_expr_1" := by
    unfold wrapsAs at hwraps
    split at hwraps
    · rename_i d p hp
      exact ⟨d, p, hp, by simpa using hwraps⟩
    · cases hwraps
  obtain ⟨hiff, hparams, -, hfresh, -⟩ := hrun.registry_engine_agree
  exact ⟨x.1, x.2, hrun, hfatal, (hiff _).mp hdefined, hparams "f", hwraps, hfresh _ hwraps⟩

end Session

end Kaleidoscope
