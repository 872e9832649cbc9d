/-
  Kaleidoscope.Proofs.Arity — parameters and arguments across units.

  A definition is compared with the open unit, which is empty again after every unit that
  was handed over, and not with the registry. So it may take another number of parameters
  than an earlier declaration, on which calls in loaded units rely: it overrules them.

  `Agrees` says that nothing else can go wrong. What names resolve to has as many parameters
  as they are registered with. A call in loaded code has as many arguments, or its callee
  was overruled. A name that is registered and not defined was declared so, and every
  declaration agrees with what is registered, unless the name is defined. Turns keep it
  (`Agrees.takes`).

  `Run.arity_agreement`: a definition agrees with all declarations and calls before it
  exactly if it agrees with the registry, and a call with the wrong number of arguments is
  always due to a definition that did not.
-/

import Kaleidoscope.Proofs.WellFormed

namespace Kaleidoscope

/-- The number of arguments a name is called with: none for wrappers, otherwise as many as
    it is registered with. -/
def Registry.known (r : Registry) (n : String) : Option Nat := if Reserved n then some 0 else r.arity? n

theorem Registry.known_congr {r r' : Registry} {n : String} (h : ¬Reserved n → r'.find? n = r.find? n) :
    r'.known n = r.known n := by
  unfold known
  split
  · rfl
  · rename_i hn
    exact arity?_congr (h hn)

namespace Session

variable {s s' : Session} {past : List (Session × Handled)} {t : Session × Handled} {n : String} {k m : Nat}
  {f : Ir.Function} {l : Lowering} {e : Engine}

/-! ## Histories -/

/-- `n` was declared with `k` parameters. -/
def Declared (past : List (Session × Handled)) (n : String) (k : Nat) : Prop :=
  ∃ t ∈ past, ∃ g, t.2.turn = .done (.declared g) ∧ g.name = n ∧ g.arity = k

/-- `n` was defined with `m` parameters while it was registered with `k`. -/
def Overruled (past : List (Session × Handled)) (n : String) (k m : Nat) : Prop :=
  ∃ t ∈ past, ∃ f, t.2.turn = .done (.defined f) ∧ f.name = n ∧ f.arity = m ∧ t.1.registry.arity? n = some k

theorem declared_append : Declared (past ++ [t]) n k ↔
    Declared past n k ∨ ∃ g, t.2.turn = .done (.declared g) ∧ g.name = n ∧ g.arity = k := by
  simp only [Declared, List.mem_append, List.mem_singleton]
  constructor
  · rintro ⟨t', ht | rfl, h⟩
    · exact .inl ⟨t', ht, h⟩
    · exact .inr h
  · rintro (⟨t', ht, h⟩ | h)
    · exact ⟨t', .inl ht, h⟩
    · exact ⟨t, .inr rfl, h⟩

theorem Overruled.append (h : Overruled past n k m) (t : Session × Handled) : Overruled (past ++ [t]) n k m := by
  obtain ⟨t', ht, h⟩ := h
  exact ⟨t', List.mem_append_left _ ht, h⟩

/-! ## Agreement -/

structure Agrees (past : List (Session × Handled)) (s : Session) : Prop where
  compiled : ∀ n g, s.engine.Compiled n g →
    s.registry.known n = some g.arity ∧ (¬Reserved n → s.registry.isDefined n = true)
  calls : ∀ n k, s.engine.Calls n k → s.registry.known n = some k ∨
    ¬Reserved n ∧ s.registry.isDefined n = true ∧ ∃ m, s.registry.arity? n = some m ∧ Overruled past n k m
  declared : ∀ n k, Declared past n k → ¬Reserved n ∧ (s.registry.arity? n = some k ∨ s.registry.isDefined n = true)
  undefined : ∀ n k, ¬Reserved n → s.registry.arity? n = some k → s.registry.isDefined n = false → Declared past n k

theorem agrees_ofText (source : String) : Agrees [] (ofText source) := by
  refine ⟨fun n g hg => ?_, fun n k hc => ?_, fun n k hd => ?_, fun n k _ h => by cases h⟩
  · obtain ⟨symbol, hs, -⟩ := hg
    obtain ⟨b, hb⟩ := Engine.find?_builtins hs
    cases hb
  · obtain ⟨i, loaded, hl, -⟩ := hc
    simp [Engine.loaded?, ofText] at hl
  · obtain ⟨t, ht, -⟩ := hd
    cases ht

/-- A turn that is no declaration adds nothing that has to be accounted for. -/
theorem Agrees.append (h : Agrees past s) (ht : ∀ g, t.2.turn ≠ .done (.declared g)) : Agrees (past ++ [t]) s := by
  have hdeclared : ∀ n k, Declared (past ++ [t]) n k ↔ Declared past n k := fun n k => by
    rw [declared_append, or_iff_left]
    rintro ⟨g, hg, -⟩
    exact ht g hg
  refine ⟨h.compiled, fun n k hc => ?_, fun n k hd => ?_, fun n k hn hk hu => ?_⟩
  · rcases h.calls n k hc with hknown | ⟨hres, hdef, m, hm, hover⟩
    · exact .inl hknown
    · exact .inr ⟨hres, hdef, m, hm, hover.append t⟩
  · exact h.declared n k ((hdeclared n k).mp hd)
  · exact (hdeclared n k).mpr (h.undefined n k hn hk hu)

/-- Registrations of names that a text can spell are the same, and no code was added. -/
theorem Agrees.congr (h : Agrees past s) (hr : ∀ n, ¬Reserved n → s'.registry.find? n = s.registry.find? n)
    (hcalls : ∀ n k, s'.engine.Calls n k → s.engine.Calls n k)
    (hcompiled : ∀ n g, s'.engine.Compiled n g → s.engine.Compiled n g) : Agrees past s' := by
  refine ⟨fun n g hg => ?_, fun n k hc => ?_, fun n k hd => ?_, fun n k hn hk hu => ?_⟩
  · obtain ⟨hknown, hdef⟩ := h.compiled n g (hcompiled n g hg)
    rw [Registry.known_congr (hr n)]
    exact ⟨hknown, fun hn => by rw [Registry.isDefined_congr (hr n hn)]; exact hdef hn⟩
  · rw [Registry.known_congr (hr n)]
    rcases h.calls n k (hcalls n k hc) with hknown | ⟨hn, hdef, hm⟩
    · exact .inl hknown
    · rw [Registry.isDefined_congr (hr n hn), Registry.arity?_congr (hr n hn)]
      exact .inr ⟨hn, hdef, hm⟩
  · obtain ⟨hn, hor⟩ := h.declared n k hd
    rw [Registry.isDefined_congr (hr n hn), Registry.arity?_congr (hr n hn)]
    exact ⟨hn, hor⟩
  · rw [Registry.arity?_congr (hr n hn)] at hk
    rw [Registry.isDefined_congr (hr n hn)] at hu
    exact h.undefined n k hn hk hu

/-! ## Statements -/

/-- A declaration that is accepted agrees with what was registered before. -/
theorem Agrees.declare {p : Prototype} (hs : s.WellFormed) (h : Agrees past s) (hres : ¬Reserved p.name)
    (hl : Lowering.declare p s.lowering = .ok f l) (ht : t.2.turn = .done (.declared f)) :
    Agrees (past ++ [t]) (s.lowered l) := by
  obtain ⟨hknown, hf, rfl⟩ := Lowering.declare_ok hl
  have harity : f.arity = p.arity := by rw [hf]; exact Lowering.arity_declare hknown hs.unit
  have hname : f.name = p.name := by rw [hf]; exact (Ir.CompilationUnit.declare_fst ..).2.1
  have hdefined := Lowering.isDefined_declared p s.lowering
  have hnew := Lowering.arity?_declared hknown
  have hsame : ∀ n k, s.registry.arity? n = some k → (Lowering.declared p s.lowering).registry.arity? n = some k := by
    intro n k hk
    rw [hnew]
    split
    · rename_i hn
      subst hn
      have hk' : s.lowering.knownArity? p.name = some k := by
        show (s.registry.arity? p.name).or _ = _
        rw [hk]
        rfl
      rw [hknown k hk']
    · exact hk
  have hsameKnown : ∀ n k, s.registry.known n = some k →
      (Lowering.declared p s.lowering).registry.known n = some k := by
    intro n k hk
    unfold Registry.known at hk ⊢
    split
    · rwa [if_pos ‹_›] at hk
    · rw [if_neg ‹_›] at hk
      exact hsame n k hk
  refine ⟨fun n g hg => ?_, fun n k hc => ?_, fun n k hd => ?_, fun n k hn hk hu => ?_⟩
  · obtain ⟨hk, hdef⟩ := h.compiled n g hg
    exact ⟨hsameKnown n _ hk, fun hn => (hdefined n).trans (hdef hn)⟩
  · rcases h.calls n k hc with hk | ⟨hn, hdef, m, hm, hover⟩
    · exact .inl (hsameKnown n k hk)
    · exact .inr ⟨hn, (hdefined n).trans hdef, m, hsame n m hm, hover.append t⟩
  · rcases declared_append.mp hd with hd | ⟨g, hg, rfl, rfl⟩
    · obtain ⟨hn, hor⟩ := h.declared n k hd
      exact ⟨hn, hor.imp (hsame n k) (hdefined n).trans⟩
    · rw [ht] at hg
      cases hg
      rw [hname]
      exact ⟨hres, .inl ((hnew p.name).trans (by rw [if_pos rfl, harity]))⟩
  · rw [declared_append]
    by_cases hne : p.name = n
    · have hk := (hnew n).symm.trans hk
      rw [if_pos hne] at hk
      exact .inr ⟨f, ht, by rw [hname, hne], by rw [harity]; exact Option.some.inj hk⟩
    · have hk := (hnew n).symm.trans hk
      rw [if_neg hne] at hk
      exact .inl (h.undefined n k hn hk ((hdefined n).symm.trans hu))

theorem not_isDefined_of_defines {d : Definition} (h : Lowering.Defines d s.lowering f l) :
    s.registry.isDefined d.proto.name = false := by
  have hfresh := h.fresh
  simp only [Lowering.hasBody, Bool.or_eq_false_iff] at hfresh
  exact hfresh.2

/-- After a definition the engine may have the code of its unit. What was called with
    another number of arguments is overruled. -/
theorem Agrees.define {d : Definition} (hs : s.WellFormed) (h : Agrees past s) (hd : d.Admissible)
    (hl : Lowering.Defines d s.lowering f l)
    (hcalls : ∀ n k, e.Calls n k → s.engine.Calls n k ∨ l.unit.Calls n k)
    (hcompiled : ∀ n g, e.Compiled n g →
      s.engine.Compiled n g ∨ g ∈ l.unit.functions ∧ g.name = n ∧ g.isDeclaration = false)
    (hover : ¬Reserved f.name → ∀ k, s.registry.arity? f.name = some k → Overruled past f.name k f.arity) :
    Agrees past ((s.lowered l).handedOver e) := by
  have hundef := not_isDefined_of_defines hl
  have hother : ∀ n, f.name ≠ n → l.registry.find? n = s.registry.find? n := fun n hn => by
    rw [hl.find?, ← hl.name, if_neg hn]
    rfl
  have hself : l.registry.arity? f.name = some f.arity ∧ l.registry.isDefined f.name = true := by
    rw [hl.name, hl.arity_eq]
    simp [Registry.arity?, Registry.proto?, Registry.isDefined, hl.find?]
  have hknown : ∀ n k, l.registry.arity? n = some k → l.registry.known n = some k := by
    intro n k hk
    unfold Registry.known
    split
    · rename_i hn
      rw [(hs.defines hd hl hs.engine).wrappers n k hn hk]
    · exact hk
  rw [← hl.name] at hundef
  refine ⟨fun n g hg => ?_, fun n k hc => ?_, fun n k hdecl => ?_, fun n k hn hk hu => ?_⟩
  · show l.registry.known n = _ ∧ (_ → l.registry.isDefined n = true)
    rcases hcompiled n g hg with hold | ⟨hmem, rfl, hbody⟩
    · obtain ⟨hk, hdef⟩ := h.compiled n g hold
      by_cases hn : f.name = n
      · -- the name was not defined, so it can only be that of a wrapper
        subst hn
        by_cases hres : Reserved f.name
        · exact ⟨by rwa [Registry.known, if_pos hres] at hk ⊢, fun _ => hself.2⟩
        · rw [hdef hres] at hundef
          cases hundef
      · rw [Registry.known_congr fun _ => hother n hn, Registry.isDefined_congr (hother n hn)]
        exact ⟨hk, hdef⟩
    · obtain ⟨harity, rfl | hdecl⟩ := hl.covered hs.named hs.unit hmem
      · exact ⟨hknown _ _ harity, fun _ => hself.2⟩
      · rw [hdecl] at hbody
        cases hbody
  · show l.registry.known n = _ ∨ _ ∧ l.registry.isDefined n = true ∧ ∃ m, l.registry.arity? n = some m ∧ _
    rcases hcalls n k hc with hc | hc
    · by_cases hn : f.name = n
      · subst hn
        rcases h.calls f.name k hc with hk | ⟨-, hdef, -⟩
        · by_cases hres : Reserved f.name
          · exact .inl (by rwa [Registry.known, if_pos hres] at hk ⊢)
          · rw [Registry.known, if_neg hres] at hk
            exact .inr ⟨hres, hself.2, f.arity, hself.1, hover hres k hk⟩
        · rw [hdef] at hundef
          cases hundef
      · rw [Registry.known_congr fun _ => hother n hn, Registry.isDefined_congr (hother n hn),
          Registry.arity?_congr (hother n hn)]
        exact h.calls n k hc
    · exact .inl (hknown n k (hl.calls hs.named hs.unit hc))
  · show _ ∧ (l.registry.arity? n = _ ∨ l.registry.isDefined n = true)
    obtain ⟨hres, hor⟩ := h.declared n k hdecl
    refine ⟨hres, ?_⟩
    by_cases hn : f.name = n
    · subst hn
      exact .inr hself.2
    · rw [Registry.isDefined_congr (hother n hn), Registry.arity?_congr (hother n hn)]
      exact hor
  · have hk : l.registry.arity? n = some k := hk
    have hu : l.registry.isDefined n = false := hu
    by_cases hne : f.name = n
    · subst hne
      rw [hself.2] at hu
      cases hu
    · rw [Registry.arity?_congr (hother n hne)] at hk
      rw [Registry.isDefined_congr (hother n hne)] at hu
      exact h.undefined n k hn hk hu

/-- A definition that was lowered is never refused by the engine: its name is not compiled. -/
theorem Agrees.add_ok {d : Definition} (hs : s.WellFormed) (h : Agrees past s) (hres : ¬Reserved d.proto.name)
    (hl : Lowering.Defines d s.lowering f l) : ∃ e, s.engine.add l.unit none = .ok () e := by
  refine Engine.add_ok fun g hg hbody => ?_
  rcases (hl.covered hs.named hs.unit hg).2 with rfl | hdecl
  · rw [Bool.eq_false_iff]
    intro hdef
    obtain ⟨g', hg'⟩ := hs.engine.compiled_of_isDefined hdef
    rw [hl.name] at hg'
    have htrue := (h.compiled _ g' hg').2 hres
    rw [not_isDefined_of_defines hl] at htrue
    cases htrue
  · rw [hdecl] at hbody
    cases hbody

/-- A wrapper's unit was loaded, or refused. -/
theorem Agrees.wrapper {d : Definition} {p : Parser} (hs : s.WellFormed) (h : Agrees past s)
    (hp : Parser.wrapper s.ops s.parser = .ok d p) (hl : Lowering.define d s.lowering = .ok f l)
    (he : e = s.tracking ∨ s.tracking.add l.unit (some s.tracker) = .ok () e) :
    Agrees past (((s.passed p).lowered l).handedOver e) := by
  obtain ⟨hres, hd⟩ := reserved_of_wrapper hp
  have hl := Lowering.define_ok hl
  have hpassed : Agrees past (s.passed p) := h.congr (fun _ _ => rfl) (fun _ _ => id) (fun _ _ => id)
  refine hpassed.define (hs.passed (lexed_of_ok (lexed_wrapper hs) hp)) hd hl (fun n k hc => ?_) (fun n g hg => ?_) ?_
  · rcases he with rfl | he
    · exact .inl hc
    · have hc := Engine.calls_add he hc
      exact hc
  · rcases he with rfl | he
    · exact .inl hg
    · have hg := Engine.compiled_add hs.engine.newTracker he hg
      exact hg
  · intro hn
    exact absurd (hl.name ▸ hres) hn

theorem Agrees.takes {r : Handled} (hs : s.WellFormed) (h : Agrees past s) (ht : s.Takes r) :
    Agrees (past ++ [(s, r)]) r.session := by
  have hpassed : ∀ p, Agrees past (s.passed p) := fun p => h.congr (fun _ _ => rfl) (fun _ _ => id) (fun _ _ => id)
  cases ht with
  | ended _ => exact h.append (by intro g hg; cases hg)
  | skipped _ => exact (hpassed _).append (by intro g hg; cases hg)
  | unpassed _ => exact (hpassed _).append (by intro g hg; cases hg)
  | unread _ => exact (hpassed _).append (by intro g hg; cases hg)
  | undeclared _ hl =>
    cases Lowering.declare_error hl
    exact (hpassed _).append (by intro g hg; cases hg)
  | declared hp hl =>
    have hres := Parser.declaration_not_reserved hs.lexed hp
    exact (hpassed _).declare (hs.passed (lexed_of_ok (lexed_declaration hs) hp)) hres hl rfl
  | @undefined d p err l _ hl =>
    have hfind := (Lowering.covers_define_error hs.named hs.unit hl).1
    have hlowered : Agrees past ((s.passed p).lowered l) := h.congr (fun n _ => hfind n) (fun _ _ => id) (fun _ _ => id)
    exact hlowered.append (by intro g hg; cases hg)
  | rejected hp hl hadd =>
    obtain ⟨e, he⟩ := h.add_ok hs (Parser.definition_not_reserved hs.lexed hp) (Lowering.define_ok hl)
    rw [he] at hadd
    cases hadd
  | defined hp hl hadd =>
    have hdef := Lowering.define_ok hl
    refine Agrees.define (s := s.passed _) (hs.passed (lexed_of_ok (lexed_definition hs) hp))
      ((hpassed _).append (by intro g hg; cases hg)) (admissible_of_definition hs hp) hdef
      (fun n k => Engine.calls_add hadd) (fun n g => Engine.compiled_add hs.engine hadd) ?_
    intro _ k hk
    exact ⟨_, List.mem_append_right _ List.mem_cons_self, _, rfl, rfl, rfl, hk⟩
  | wrapperRejected hp hl hadd =>
    exact (h.wrapper hs hp hl (.inl (Engine.add_error_eq hadd))).append (by intro g hg; cases hg)
  | @evaluated d p f l e _ hp hl hadd heval =>
    have hloaded := h.wrapper hs hp hl (.inr hadd)
    cases heval with
    | unlinked _ => exact hloaded.append (by intro g hg; cases hg)
    | stopped _ _ _ => exact hloaded.append (by intro g hg; cases hg)
    | returned _ _ _ =>
      have hfind : ∀ n, ¬Reserved n → Bindings.find? (Bindings.erase l.registry f.name) n = l.registry.find? n := by
        intro n hn
        rw [Bindings.find?_erase, if_neg]
        rintro rfl
        rw [(Lowering.define_ok hl).name] at hn
        exact hn (reserved_of_wrapper hp).1
      have hreleased : Agrees past ((((s.passed p).lowered l).handedOver e).released s.tracker f.name) :=
        hloaded.congr hfind (fun _ _ => Engine.calls_release) (fun _ _ => Engine.compiled_release)
      exact hreleased.append (by intro g hg; cases hg)

theorem Run.agrees {source : String} (h : Run source past s) : Agrees past s := by
  induction h with
  | start => exact agrees_ofText source
  | turn budget hrun hn ih => exact ih.takes hrun.wellFormed (next_takes hn)

/-! ## Failures -/

/-- A call that disagrees with the function it names was overruled. -/
theorem Agrees.miscalls (h : Agrees past s) (hm : s.engine.Miscalls n k m) : k ≠ m ∧ Overruled past n k m := by
  obtain ⟨hcall, hne, g, hg, rfl⟩ := hm
  refine ⟨hne, ?_⟩
  have hknown := (h.compiled n g hg).1
  rcases h.calls n k hcall with hk | ⟨hres, -, m, hm, hover⟩
  · rw [hk] at hknown
    exact absurd (Option.some.inj hknown) hne
  · rw [Registry.known, if_neg hres, hm, Option.some.injEq] at hknown
    rwa [hknown] at hover

theorem invoke_explained (hs : s.WellFormed) (h : Agrees past s) (hres : Reserved f.name) {symbol : Symbol}
    (hlookup : s.engine.lookup f.name = .ok symbol) {budget : Nat} {ran : Ran}
    (hran : s.engine.invoke budget symbol [] = some ran) {err : EngineError} (hresult : ran.result = .error err) :
    s.engine.Explains err := by
  unfold Engine.invoke at hran
  split at hran
  · cases hran
    cases hresult
    trivial
  · rename_i g hg
    have hknown := (h.compiled f.name g ⟨symbol, Engine.lookup_ok hlookup, hg⟩).1
    rw [Registry.known, if_pos hres, Option.some.injEq] at hknown
    have hargs : ([] : List Float).length = g.arity := hknown
    exact Engine.execute_explained hs.engine hg hargs hran hresult

/-- What a fatal turn fails with is explained by the code that is loaded then, and the
    session it leaves is no worse than the one it was taken in. -/
theorem Agrees.fatal {r : Handled} {err : EngineError} (hs : s.WellFormed) (h : Agrees past s) (ht : s.Takes r)
    (hr : r.turn = .fatal err) : Agrees past r.session ∧ r.session.engine.Explains err := by
  cases ht with
  | rejected hp hl hadd =>
    obtain ⟨e, he⟩ := h.add_ok hs (Parser.definition_not_reserved hs.lexed hp) (Lowering.define_ok hl)
    rw [he] at hadd
    cases hadd
  | wrapperRejected hp hl hadd =>
    refine ⟨h.wrapper hs hp hl (.inl (Engine.add_error_eq hadd)), ?_⟩
    obtain ⟨name, rfl⟩ := Engine.add_error hadd
    cases hr
    trivial
  | evaluated hp hl hadd heval =>
    have hwf := hs.wrapper hp hl (hs.engine.newTracker.add (hs.checks hl) hadd)
    have hloaded := h.wrapper hs hp hl (.inr hadd)
    have hres := (Lowering.define_ok hl).name ▸ (reserved_of_wrapper hp).1
    cases heval with
    | unlinked hlookup =>
      cases hr
      exact ⟨hloaded, Engine.lookup_explained hwf.engine (fun _ hu => hu) hlookup⟩
    | stopped hlookup hran hresult =>
      cases hr
      exact ⟨hloaded, invoke_explained hwf hloaded hres hlookup hran hresult⟩
    | returned _ _ _ => cases hr
  | _ => cases hr

/-! ## Main statement -/

/-- While a name is not defined, the registry speaks for its declarations and its calls. -/
theorem Agrees.undefined_iff (h : Agrees past s) (hres : ¬Reserved n) (hundef : s.registry.isDefined n = false) :
    (∀ k, Declared past n k → k = m) ∧ (∀ k, s.engine.Calls n k → k = m) ↔
      ∀ k, s.registry.arity? n = some k → k = m := by
  constructor
  · rintro ⟨hdeclared, -⟩ k hk
    exact hdeclared k (h.undefined n k hres hk hundef)
  · intro hregistered
    constructor
    · intro k hk
      rcases (h.declared n k hk).2 with harity | hdef
      · exact hregistered k harity
      · rw [hundef] at hdef
        cases hdef
    · intro k hk
      rcases h.calls n k hk with hknown | ⟨-, hdef, -⟩
      · rw [Registry.known, if_neg hres] at hknown
        exact hregistered k hknown
      · rw [hundef] at hdef
        cases hdef

/-- A definition that succeeds is one of a name that was not defined. -/
theorem Takes.undefined_of_defined {r : Handled} (hs : s.WellFormed) (ht : s.Takes r)
    (hr : r.turn = .done (.defined f)) : ¬Reserved f.name ∧ s.registry.isDefined f.name = false := by
  cases ht with
  | defined hp hl hadd =>
    cases hr
    have hdef := Lowering.define_ok hl
    rw [hdef.name]
    exact ⟨Parser.definition_not_reserved hs.lexed hp, not_isDefined_of_defines hdef⟩
  | evaluated _ _ _ heval =>
    cases heval with
    | unlinked _ => cases hr
    | stopped _ _ _ => cases hr
    | returned _ _ _ => cases hr
  | _ => cases hr

/-- In a run of any text, a definition that succeeds has as many parameters as every
    declaration of its name before it, and as there are arguments in every call of it in a
    loaded unit, exactly if its name was not registered with another number of parameters.
    A turn fails because a compiled function is called with the wrong number of arguments,
    when the caller is linked or when the call is made, only if the callee was defined
    although it was registered with the number that the call has. -/
theorem Run.arity_agreement {source : String} (hrun : Run source past s) {budget : Nat} {r : Handled}
    (hnext : s.next budget = some r) :
    (∀ f, r.turn = .done (.defined f) →
      ((∀ k, Declared past f.name k → k = f.arity) ∧ (∀ k, s.engine.Calls f.name k → k = f.arity) ↔
        ∀ k, s.registry.arity? f.name = some k → k = f.arity)) ∧
    (∀ n k m, r.turn = .fatal (.callArity n k m) ∨
        r.turn = .fatal (.declaredArity n m k) ∧ r.session.engine.isDefined n = true →
      k ≠ m ∧ Overruled past n k m) := by
  have hs := hrun.wellFormed
  have hagrees := hrun.agrees
  have ht := next_takes hnext
  refine ⟨fun f hf => ?_, fun n k m hr => ?_⟩
  · obtain ⟨hres, hundef⟩ := ht.undefined_of_defined hs hf
    exact hagrees.undefined_iff hres hundef
  · rcases hr with hr | ⟨hr, hdef⟩
    · obtain ⟨h, hexplains⟩ := hagrees.fatal hs ht hr
      exact h.miscalls hexplains
    · obtain ⟨h, hexplains⟩ := hagrees.fatal hs ht hr
      exact h.miscalls (hexplains hdef)

/-! A declaration, a call of what it declares, and a definition that overrules both. -/

def overruling : String := "extern f(a); def g(x) f(x); def f(a b) a; g(1)"

/-- Whether the turn defines a function with `m` parameters that `s` has registered with `k`. -/
def definesOver (k m : Nat) (s : Session) (r : Handled) : Bool :=
  match r.turn with
  | .done (.defined f) => s.registry.arity? f.name == some k && f.arity == m
  | _ => false

theorem arity_agreement_overruling :
    (∃ past s r f, Run overruling past s ∧ s.next 20 = some r ∧ r.turn = .done (.defined f) ∧
      ¬((∀ k, Declared past f.name k → k = f.arity) ∧ ∀ k, s.engine.Calls f.name k → k = f.arity)) ∧
    ∃ past s r, Run overruling past s ∧ s.next 20 = some r ∧ r.turn = .fatal (.callArity "f" 1 2) ∧
      Overruled past "f" 1 2 := by
  constructor
  · have hturn : ((takeTurns 20 5 ([], ofText overruling)).any fun x =>
        (x.2.next 20).any (definesOver 1 2 x.2)) = true := by decide +kernel
    obtain ⟨x, hx, hturn⟩ := (Option.any_eq_true _ _).mp hturn
    obtain ⟨r, hr, hturn⟩ := (Option.any_eq_true _ _).mp hturn
    have hrun : Run overruling x.1 x.2 := Run.start.takeTurns hx
    unfold definesOver at hturn
    split at hturn
    · rename_i f hf
      simp only [Bool.and_eq_true, beq_iff_eq] at hturn
      refine ⟨x.1, x.2, r, f, hrun, hr, hf, fun hagree => ?_⟩
      have hk := ((hrun.arity_agreement hr).1 f hf).mp hagree 1 hturn.1
      rw [hturn.2] at hk
      cases hk
    · cases hturn
  · have hturn : ((takeTurns 20 7 ([], ofText overruling)).any fun x =>
        (x.2.next 20).any fun r => match r.turn with
          | .fatal e => e == .callArity "f" 1 2
          | _ => false) = true := by decide +kernel
    obtain ⟨x, hx, hturn⟩ := (Option.any_eq_true _ _).mp hturn
    obtain ⟨r, hr, hturn⟩ := (Option.any_eq_true _ _).mp hturn
    have hrun : Run overruling x.1 x.2 := Run.start.takeTurns hx
    split at hturn
    · rename_i e he
      rw [beq_iff_eq] at hturn
      subst hturn
      exact ⟨x.1, x.2, r, hrun, hr, he, ((hrun.arity_agreement hr).2 "f" 1 2 (.inl he)).2⟩
    · cases hturn

end Session

end Kaleidoscope
