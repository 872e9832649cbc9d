/-
  Kaleidoscope.Proofs.Calls — the calls in loaded code.

  A call has a callee and a number of arguments. Those of a body that passed the check
  agree with what its unit declares (`check_calls`). An engine has the calls of the units
  that are loaded: loading a unit adds its calls, releasing one takes them away
  (`calls_add`, `calls_release`), and likewise with the functions that names resolve to
  (`compiled_add`, `compiled_release`).

  Nothing here asks for linked units. A name may fail to link, and a machine that runs
  loaded code may stop, at a call with the wrong number of arguments; then the call is one
  of the engine's, and so is the function that it names (`lookup_explained`,
  `execute_explained`).
-/

import Kaleidoscope.Proofs.Safety

namespace Kaleidoscope

namespace Ir

theorem forM_error {ε α : Type} {f : α → Except ε Unit} {l : List α} {e : ε} (h : l.forM f = .error e) :
    ∃ x ∈ l, f x = .error e := by
  induction l with
  | nil => cases h
  | cons x l ih =>
    have h : (f x >>= fun _ => l.forM f) = .error e := h
    cases hx : f x with
    | error e' =>
      rw [hx] at h
      cases h
      exact ⟨x, List.mem_cons_self, hx⟩
    | ok u =>
      rw [hx] at h
      obtain ⟨y, hy, hfy⟩ := ih h
      exact ⟨y, List.mem_cons_of_mem _ hy, hfy⟩

/-- Somewhere in the body, `n` is called with `k` arguments. -/
def Body.Calls (body : Body) (n : String) (k : Nat) : Prop :=
  ∃ b ∈ body.blocks, ∃ dest args, Inst.call dest n args ∈ b.insts ∧ args.length = k

def CompilationUnit.Calls (u : CompilationUnit) (n : String) (k : Nat) : Prop :=
  ∃ f ∈ u.functions, ∃ body, f.body = some body ∧ body.Calls n k

/-- A function that passes the check calls what its unit declares, with as many arguments. -/
theorem CompilationUnit.check_calls {u : CompilationUnit} {f : Function} {body : Body} {n : String} {k : Nat}
    (h : u.check f = .ok ()) (hb : f.body = some body) (hc : body.Calls n k) :
    ∃ d, u.find? n = some d ∧ d.arity = k := by
  obtain ⟨b, hmem, dest, args, hcall, rfl⟩ := hc
  simp only [check, hb, Body.check] at h
  split at h
  · cases h
  · have hinst := (Block.check_ok (forM_ok h b (Array.mem_toList_iff.mpr hmem))).2 _ (Array.mem_toList_iff.mpr hcall)
    simp only [Inst.check] at hinst
    split at hinst
    · cases hinst
    · rename_i d hd
      split at hinst
      · rename_i harity
        exact ⟨d, hd, harity⟩
      · cases hinst

end Ir

namespace Engine

variable {e e' : Engine} {u : Ir.CompilationUnit} {t : Option Tracker} {n : String} {k : Nat} {g : Ir.Function}

/-- In a loaded unit, `n` is called with `k` arguments. -/
def Calls (e : Engine) (n : String) (k : Nat) : Prop := ∃ i l, e.loaded? i = some l ∧ l.unit.Calls n k

/-- The name resolves to the compiled function. -/
def Compiled (e : Engine) (n : String) (g : Ir.Function) : Prop :=
  ∃ s, e.symbols.find? n = some (.compiled s) ∧ e.function? s = some g

theorem calls_add (h : e.add u t = .ok () e') (hc : e'.Calls n k) : e.Calls n k ∨ u.Calls n k := by
  obtain ⟨i, l, hl, hc⟩ := hc
  rw [loaded?_add h] at hl
  split at hl
  · cases hl
    exact .inr hc
  · exact .inl ⟨i, l, hl, hc⟩

theorem calls_release {t : Tracker} (hc : (e.release t).Calls n k) : e.Calls n k := by
  obtain ⟨i, l, hl, hc⟩ := hc
  rw [loaded?_release] at hl
  split at hl
  · cases hl
  · exact ⟨i, l, hl, hc⟩

theorem compiled_add {P : Ir.CompilationUnit → Prop} (hr : e.Reached P) (h : e.add u t = .ok () e')
    (hg : e'.Compiled n g) : e.Compiled n g ∨ g ∈ u.functions ∧ g.name = n ∧ g.isDeclaration = false := by
  obtain ⟨s, hs, hf⟩ := hg
  rw [add_eq h] at hs
  rcases find?_enlist e.units.size 0 u.functions e.symbols n with hold | ⟨j, f, hj, hn, hd, hnew⟩
  · left
    have hs : e.symbols.find? n = some (.compiled s) := hold ▸ hs
    obtain ⟨l, f, hl, hmem, -⟩ := hr.resolves hs
    have hne : s.unit ≠ e.units.size := by
      intro he
      simp [loaded?, he] at hl
    refine ⟨s, hs, ?_⟩
    rw [← hf, function?, function?, loaded?_add h, if_neg hne]
  · right
    rw [hnew] at hs
    cases hs
    simp only [function?, loaded?_add h, if_true, Option.bind_some, Nat.zero_add, hj, Option.some.injEq] at hf
    subst hf
    exact ⟨List.mem_of_getElem? hj, hn, hd⟩

theorem compiled_release {t : Tracker} (hg : (e.release t).Compiled n g) : e.Compiled n g := by
  classical
  obtain ⟨s, hs, hf⟩ := hg
  have hs : (disownUnits t 0 e.units.toList e.symbols).find? n = some (.compiled s) := hs
  rw [find?_disownUnits] at hs
  split at hs
  · unfold builtin? at hs
    cases h : Builtin.ofName? n <;> simp [h] at hs
  · refine ⟨s, hs, ?_⟩
    rw [function?, loaded?_release] at hf
    split at hf
    · cases hf
    · exact hf

theorem Reached.compiled_of_isDefined {P : Ir.CompilationUnit → Prop} (hr : e.Reached P) (h : e.isDefined n = true) :
    ∃ g, e.Compiled n g := by
  unfold isDefined at h
  split at h
  · rename_i s hs
    obtain ⟨g, hg, -⟩ := (hr.resolves hs).function?
    exact ⟨g, s, hs, hg⟩
  · cases h

theorem add_error {err : EngineError} (h : e.add u t = .error err e') : ∃ name, err = .duplicate name := by
  rw [add_run] at h
  split at h
  · cases h
    exact ⟨_, rfl⟩
  · cases h

/-- Loading a unit fails only if it has a body for a name that is compiled already. -/
theorem add_ok (h : ∀ f ∈ u.functions, f.isDeclaration = false → e.isDefined f.name = false) :
    ∃ e', e.add u t = .ok () e' := by
  rw [add_run]
  split
  · rename_i f hf
    have hmem := List.mem_of_find?_eq_some hf
    have hdup := List.find?_some hf
    simp only [Bool.and_eq_true, Bool.not_eq_true'] at hdup
    rw [h f hmem hdup.1] at hdup
    cases hdup.2
  · exact ⟨_, rfl⟩

/-! ## Linking -/

/-- A loaded function calls `n` with `k` arguments, and `n` resolves to a compiled function
    with `m` parameters. -/
def Miscalls (e : Engine) (n : String) (k m : Nat) : Prop := e.Calls n k ∧ k ≠ m ∧ ∃ g, e.Compiled n g ∧ g.arity = m

/-- A failure for a number of arguments is due to a call in loaded code, unless the callee
    is a builtin. -/
def Explains (e : Engine) : EngineError → Prop
  | .callArity n k m => e.Miscalls n k m
  | .declaredArity n m k => e.isDefined n = true → e.Miscalls n k m
  | _ => True

theorem calls_of_mem_callees (h : n ∈ callees u) : ∃ k, u.Calls n k := by
  unfold callees at h
  rw [List.mem_eraseDups, List.mem_filterMap] at h
  obtain ⟨i, hi, hcall⟩ := h
  obtain ⟨f, hf, hi⟩ := List.mem_flatMap.mp hi
  split at hi
  · rename_i body hb
    obtain ⟨b, hmem, hinst⟩ := List.mem_flatMap.mp hi
    clear hi
    split at hcall
    · rename_i dest callee args
      cases hcall
      refine ⟨args.length, f, hf, body, hb, b, Array.mem_toList_iff.mp hmem, dest, args, ?_, rfl⟩
      exact Array.mem_toList_iff.mp hinst
    · cases hcall
  · cases hi

theorem lookup_ok {s : Symbol} (h : e.lookup n = .ok s) : e.symbols.find? n = some (.compiled s) := by
  unfold lookup lookupBy at h
  split at h
  · rename_i s' hs
    obtain ⟨⟨⟩, -, h⟩ := Ir.except_bind_ok h
    cases h
    exact hs
  · cases h
  · cases h

/-- A name that cannot be looked up has no compiled function, or its unit has a callee that
    cannot be linked. -/
theorem lookup_error {err : EngineError} (h : e.lookup n = .error err) :
    err = .notCompiled n ∨ err = .notFound n ∨ err = .stale ∨
    ∃ i l callee, e.loaded? i = some l ∧ callee ∈ callees l.unit ∧ e.linkCallee l.unit callee = .error err := by
  unfold lookup lookupBy at h
  split at h
  · rename_i s hs
    cases hlink : linkBy callees e s.unit with
    | ok _ =>
      rw [hlink] at h
      cases h
    | error err' =>
      rw [hlink] at h
      cases h
      unfold linkBy at hlink
      split at hlink
      · cases hlink
        exact .inr (.inr (.inl rfl))
      · rename_i l hl
        obtain ⟨callee, hmem, hcallee⟩ := Ir.forM_error hlink
        exact .inr (.inr (.inr ⟨s.unit, l, callee, hl, hmem, hcallee⟩))
  · cases h
    exact .inl rfl
  · cases h
    exact .inr (.inl rfl)

theorem linkCallee_error {callee : String} {err : EngineError} (h : e.linkCallee u callee = .error err) :
    err = .unresolvedCallee callee ∨ err = .stale ∨
    ∃ r k m, err = .declaredArity callee m k ∧ k ≠ m ∧ e.symbols.find? callee = some r ∧ e.arity? r = some m ∧
      (u.find? callee).map Ir.Function.arity = some k := by
  unfold linkCallee at h
  split at h
  · cases h
    exact .inl rfl
  · rename_i r hr
    split at h
    · cases h
      exact .inr (.inl rfl)
    · rename_i m hm
      split at h
      · rename_i k hk
        cases h
        obtain ⟨hk, hne⟩ := Option.filter_eq_some_iff.mp hk
        exact .inr (.inr ⟨r, k, m, rfl, by simpa using hne, hr, hm, hk⟩)
      · cases h

/-- If the units that are loaded passed the check, linking compares a callee with what it is
    called with. -/
theorem lookup_explained {P : Ir.CompilationUnit → Prop} (hr : e.Reached P)
    (hP : ∀ u, P u → ∀ f ∈ u.functions, u.check f = .ok ()) {err : EngineError} (h : e.lookup n = .error err) :
    e.Explains err := by
  rcases lookup_error h with rfl | rfl | rfl | ⟨i, l, callee, hl, hmem, hlink⟩
  · trivial
  · trivial
  · trivial
  · rcases linkCallee_error hlink with rfl | rfl | ⟨r, k, m, rfl, hne, hres, hm, hk⟩
    · trivial
    · trivial
    · intro hdef
      obtain ⟨k', f, hf, body, hb, hcall⟩ := calls_of_mem_callees hmem
      obtain ⟨d, hd, rfl⟩ := Ir.CompilationUnit.check_calls (hP _ (hr.loaded hl) f hf) hb hcall
      rw [hd, Option.map_some, Option.some.injEq] at hk
      subst hk
      refine ⟨⟨i, l, hl, f, hf, body, hb, hcall⟩, hne, ?_⟩
      cases r with
      | builtin b => simp [isDefined, hres] at hdef
      | compiled s =>
        obtain ⟨g, hg, rfl⟩ := Option.map_eq_some_iff.mp hm
        exact ⟨g, ⟨s, hres, hg⟩, rfl⟩

end Engine

/-! ## Frames -/

namespace Frame

open Ir (Value Inst)

/-- What a frame may ask for: a call that stands in its body, for one. -/
inductive Asks (f : Frame) : Action → Prop
  | next {g : Frame} : g.body = f.body → Asks f (.next g)
  | call {g : Frame} {dest : Nat} {n : String} {xs : List Float} :
      g.body = f.body → f.body.Calls n xs.length → Asks f (.call g dest n xs)
  | ret (x : Float) : Asks f (.ret x)
  | noTerminator : Asks f (.fault (.noTerminator f.function))
  | badIndex : Asks f (.fault (.badIndex f.function))

theorem write?_body {f g : Frame} {r : Nat} {x : Float} (h : f.write? r x = some g) : g.body = f.body := by
  unfold write? at h
  split at h
  · cases h
    rfl
  · cases h

theorem store?_body {f g : Frame} {s : Nat} {x : Float} (h : f.store? s x = some g) : g.body = f.body := by
  unfold store? at h
  split at h
  · cases h
    rfl
  · cases h

theorem length_of_operands {f : Frame} {vs : List Value} {xs : List Float} (h : vs.mapM f.operand? = some xs) :
    xs.length = vs.length := by
  induction vs generalizing xs with
  | nil =>
    cases h
    rfl
  | cons v vs ih =>
    rw [List.mapM_cons] at h
    obtain ⟨x, -, h⟩ := Option.bind_eq_some_iff.mp h
    obtain ⟨ys, hys, h⟩ := Option.bind_eq_some_iff.mp h
    cases h
    simp [ih hys]

theorem write?_asks {f : Frame} {r : Nat} {x : Float} {a : Action} (h : Action.next <$> f.write? r x = some a) :
    Asks f a := by
  obtain ⟨g, hg, rfl⟩ := Option.map_eq_some_iff.mp h
  exact .next (write?_body hg)

theorem exec?_asks {f : Frame} {i : Inst} {a : Action} (hi : ∃ b ∈ f.body.blocks, i ∈ b.insts)
    (h : f.exec? i = some a) : Asks f a := by
  cases i with
  | load r s =>
    obtain ⟨x, -, h⟩ := Option.bind_eq_some_iff.mp h
    exact write?_asks h
  | store v s =>
    obtain ⟨x, -, h⟩ := Option.bind_eq_some_iff.mp h
    obtain ⟨g, hg, rfl⟩ := Option.map_eq_some_iff.mp h
    exact .next (store?_body hg)
  | arith r op lhs rhs =>
    obtain ⟨x, -, h⟩ := Option.bind_eq_some_iff.mp h
    obtain ⟨y, -, h⟩ := Option.bind_eq_some_iff.mp h
    exact write?_asks h
  | compare r cmp lhs rhs =>
    obtain ⟨x, -, h⟩ := Option.bind_eq_some_iff.mp h
    obtain ⟨y, -, h⟩ := Option.bind_eq_some_iff.mp h
    exact write?_asks h
  | toDouble r v =>
    obtain ⟨x, -, h⟩ := Option.bind_eq_some_iff.mp h
    exact write?_asks h
  | call r callee vs =>
    obtain ⟨xs, hxs, h⟩ := Option.bind_eq_some_iff.mp h
    obtain ⟨b, hb, hmem⟩ := hi
    cases h
    exact .call rfl ⟨b, hb, r, vs, hmem, (length_of_operands hxs).symm⟩
  | branch target =>
    cases h
    exact .next rfl
  | condBranch test yes no =>
    obtain ⟨x, -, h⟩ := Option.bind_eq_some_iff.mp h
    cases h
    exact .next rfl
  | ret v =>
    obtain ⟨x, -, h⟩ := Option.bind_eq_some_iff.mp h
    cases h
    exact .ret x

theorem step_asks (f : Frame) : Asks f f.step := by
  unfold step
  split
  · exact .badIndex
  · rename_i b hb
    split
    · exact .noTerminator
    · rename_i i hi
      have hmem : ∃ b ∈ f.body.blocks, i ∈ b.insts := ⟨b, Array.mem_of_getElem? hb, Array.mem_of_getElem? hi⟩
      cases ha : ({ f with pc := f.pc + 1 } : Frame).exec? i with
      | none => exact .badIndex
      | some a =>
        -- the frame differs from `f` only in where it is
        cases exec?_asks (f := { f with pc := f.pc + 1 }) hmem ha with
        | next hg => exact .next hg
        | call hg hc => exact .call hg hc
        | ret x => exact .ret x
        | noTerminator => exact .noTerminator
        | badIndex => exact .badIndex

/-- The frame runs a body of a loaded unit. -/
def Loaded (e : Engine) (f : Frame) : Prop :=
  ∃ i l g, e.loaded? i = some l ∧ g ∈ l.unit.functions ∧ g.body = some f.body

theorem Loaded.of_body {e : Engine} {f g : Frame} (h : f.Loaded e) (hb : g.body = f.body) : g.Loaded e := by
  obtain ⟨i, l, fn, hl, hfn, hbody⟩ := h
  exact ⟨i, l, fn, hl, hfn, by rw [hb]; exact hbody⟩

theorem Loaded.calls {e : Engine} {f : Frame} (h : f.Loaded e) {n : String} {k : Nat} (hc : f.body.Calls n k) :
    e.Calls n k := by
  obtain ⟨i, l, fn, hl, hfn, hbody⟩ := h
  exact ⟨i, l, hl, fn, hfn, f.body, hbody, hc⟩

theorem enter_loaded {e : Engine} {s : Symbol} {g : Ir.Function} (hg : e.function? s = some g) {args : List Float}
    {f : Frame} (h : enter g args = .ok f) : f.Loaded e := by
  obtain ⟨l, hl, hmem⟩ := Option.bind_eq_some_iff.mp hg
  unfold enter at h
  split at h
  · cases h
  · rename_i body hb
    split at h
    · cases h
      exact ⟨s.unit, l, g, hl, List.mem_of_getElem? hmem, hb⟩
    · cases h

theorem enter_error {g : Ir.Function} {args : List Float} {err : EngineError} (h : enter g args = .error err) :
    err = .noBody g.name ∨ err = .callArity g.name args.length g.arity ∧ args.length ≠ g.arity := by
  unfold enter at h
  split at h
  · cases h
    exact .inl rfl
  · split at h
    · cases h
    · rename_i hne
      cases h
      exact .inr ⟨rfl, hne⟩

end Frame

/-! ## Machines -/

namespace Machine

variable {e : Engine}

/-- All frames run bodies of loaded units. -/
structure Loaded (e : Engine) (m : Machine) : Prop where
  top : m.top.Loaded e
  callers : ∀ c ∈ m.callers, c.1.Loaded e

/-- The machine goes on with loaded code, or stops with a failure that the code explains. -/
def Accounts (e : Engine) : Progress → Prop
  | .running m => m.Loaded e
  | .finished r => ∀ err, r.result = .error err → e.Explains err

theorem accounts_stop {err : EngineError} {calls : Array Invocation} (h : e.Explains err) :
    Accounts e (.stop err calls) := by
  intro err' herr
  cases herr
  exact h

theorem call_accounts {P : Ir.CompilationUnit → Prop} (hr : e.Reached P) {callers : Array (Frame × Nat)}
    {calls : Array Invocation} {f : Frame} {dest : Nat} {callee : String} {args : List Float} (hf : f.Loaded e)
    (hcallers : ∀ c ∈ callers, c.1.Loaded e) (hcall : e.Calls callee args.length) :
    Accounts e (call e callers calls f dest callee args) := by
  unfold call
  split
  · apply accounts_stop
    trivial
  · split
    · apply accounts_stop
      trivial
    · split
      · apply accounts_stop
        trivial
      · rename_i g hg
        exact ⟨hf.of_body (Frame.write?_body hg), hcallers⟩
  · rename_i s hs
    split
    · apply accounts_stop
      trivial
    · split
      · apply accounts_stop
        trivial
      · rename_i g hg
        split
        · rename_i err herr
          rcases Frame.enter_error herr with rfl | ⟨rfl, hne⟩
          · apply accounts_stop
            trivial
          · -- the symbol means a function of the name that is called
            obtain ⟨f', hf', hname, -⟩ := (hr.resolves hs).function?
            rw [hg] at hf'
            cases hf'
            subst hname
            apply accounts_stop
            exact ⟨hcall, hne, g, ⟨s, hs, hg⟩, rfl⟩
        · rename_i top htop
          refine ⟨Frame.enter_loaded hg htop, fun c hc => ?_⟩
          rcases Array.mem_push.mp hc with hc | rfl
          · exact hcallers c hc
          · exact hf

theorem ret_accounts {callers : Array (Frame × Nat)} {calls : Array Invocation} (hcallers : ∀ c ∈ callers, c.1.Loaded e)
    (x : Float) : Accounts e (ret callers calls x) := by
  unfold ret
  split
  · intro err h
    cases h
  · rename_i caller dest hback
    simp only
    split
    · apply accounts_stop
      trivial
    · rename_i top htop
      have hcaller := hcallers (caller, dest) (Array.mem_of_back? hback)
      refine ⟨hcaller.of_body (Frame.write?_body htop), fun c hc => hcallers c ?_⟩
      rw [← Array.mem_toList_iff, Array.toList_pop] at hc
      exact Array.mem_toList_iff.mp ((List.dropLast_sublist _).subset hc)

theorem step_accounts {P : Ir.CompilationUnit → Prop} (hr : e.Reached P) {m : Machine} (h : m.Loaded e) :
    Accounts e (m.step e) := by
  obtain ⟨top, callers, calls⟩ := m
  have hasks := top.step_asks
  simp only [step]
  cases hs : top.step with
  | next f =>
    rw [hs] at hasks
    cases hasks with
    | next hb => exact ⟨h.top.of_body hb, h.callers⟩
  | call f dest callee args =>
    rw [hs] at hasks
    cases hasks with
    | call hb hc => exact call_accounts hr (h.top.of_body hb) h.callers (h.top.calls hc)
  | ret x => exact ret_accounts h.callers x
  | fault err =>
    rw [hs] at hasks
    cases hasks with
    | noTerminator =>
      apply accounts_stop
      trivial
    | badIndex =>
      apply accounts_stop
      trivial

theorem run_accounts {P : Ir.CompilationUnit → Prop} (hr : e.Reached P) {budget : Nat} {m : Machine} (h : m.Loaded e)
    {ran : Ran} (hrun : run e budget m = some ran) : Accounts e (.finished ran) := by
  induction budget generalizing m with
  | zero => cases hrun
  | succ budget ih =>
    have hstep := step_accounts hr h
    simp only [run] at hrun
    split at hrun
    · rename_i m' hm
      rw [hm] at hstep
      exact ih hstep hrun
    · rename_i r hr
      rw [hr] at hstep
      cases hrun
      exact hstep

end Machine

/-- A run of a compiled function stops at a call with the wrong number of arguments only if
    the engine has that call and that function. -/
theorem Engine.execute_explained {e : Engine} {P : Ir.CompilationUnit → Prop} (hr : e.Reached P) {s : Symbol}
    {f : Ir.Function} (hf : e.function? s = some f) {args : List Float} (hargs : args.length = f.arity) {budget : Nat}
    {ran : Ran} (hran : e.execute budget f args = some ran) {err : EngineError} (hresult : ran.result = .error err) :
    e.Explains err := by
  unfold execute at hran
  split at hran
  · rename_i err' herr
    cases hran
    cases hresult
    rcases Frame.enter_error herr with rfl | ⟨-, hne⟩
    · trivial
    · exact absurd hargs hne
  · rename_i top htop
    refine Machine.run_accounts hr ⟨Frame.enter_loaded hf htop, fun c hc => ?_⟩ hran err hresult
    simp at hc

end Kaleidoscope
