/-
  Kaleidoscope.Proofs.Abandonment — what a definition that fails leaves in the unit.

  To lower a body is to look names up, those of the functions it calls and of its
  operators, one after the other (`Expr.callees`). A name that the unit lacks and the
  registry knows gets declared in the unit on the way (`CompilationUnit.lookUp`). A body
  that fails has looked up the first of its names, up to where it failed (`Visits`).

  Of all that, withdrawing the definition takes back one function: the first with the
  definition's name, whether the definition put it there or an earlier declaration did.
  - `lookUpAll_functions`: what looking names up adds stands last in the unit.
  - `define_error_unit`: the unit after a definition that failed, exactly; and the unit is
    as it was before exactly if it did not hold the definition's name and lacked nothing
    that was looked up.
-/

import Kaleidoscope.Proofs.Coverage

namespace Kaleidoscope

/-! ## The names that are looked up -/

/-- The function of a binary operator that has no code of its own. -/
def operatorCallee (op : String) : List String :=
  if op ∈ ["+", "-", "*", "<"] then [] else [Prototype.binaryName op]

namespace Expr

mutual

/-- The names that are looked up for an expression, in the order of its lowering. The
    function of a call is looked up before the arguments, that of an operator after its
    operands. -/
def callees : Expr → List String
  | .number _ => []
  | .ref _ => []
  | .var _ init => calleesOption init
  | .unary op e => callees e ++ [Prototype.unaryName op]
  | .binary op l r => if op = "=" then callees r else callees l ++ (callees r ++ operatorCallee op)
  | .call callee es => callee :: calleesOf es
  | .cond t y n => callees t ++ (callees y ++ calleesOption n)
  | .loop _ start stop step body => callees start ++ (callees stop ++ (callees body ++ calleesOption step))
  | .block es => calleesOf es

def calleesOption : Option Expr → List String
  | none => []
  | some e => callees e

def calleesOf : List Expr → List String
  | [] => []
  | e :: es => callees e ++ calleesOf es

end

end Expr

namespace Ir.CompilationUnit

/-- The declaration that the unit gets when a name is looked up. -/
def lacking? (r : Registry) (u : CompilationUnit) (n : String) : Option Function :=
  match u.find? n with
  | some _ => none
  | none => (r.proto? n).bind fun p =>
    match u.find? p.name with
    | some _ => none
    | none => some { name := p.name, params := p.params }

/-- The unit after a name was looked up. -/
def lookUp (r : Registry) (u : CompilationUnit) (n : String) : CompilationUnit :=
  { u with functions := u.functions ++ (u.lacking? r n).toList }

def lookUpAll (r : Registry) (u : CompilationUnit) (ns : List String) : CompilationUnit := ns.foldl (lookUp r) u

variable {r : Registry} {u : CompilationUnit} {n : String} {g : Function}

theorem lookUpAll_append (r : Registry) (u : CompilationUnit) (ns ms : List String) :
    u.lookUpAll r (ns ++ ms) = (u.lookUpAll r ns).lookUpAll r ms := List.foldl_append

theorem lookUp_of_none (h : u.lacking? r n = none) : u.lookUp r n = u := by
  simp [lookUp, h]

/-- What is added is a declaration, with a name that the unit does not have. -/
theorem lacking?_some (h : u.lacking? r n = some g) : u.find? g.name = none ∧ g.isDeclaration = true := by
  unfold lacking? at h
  split at h
  · cases h
  · obtain ⟨p, -, hp⟩ := Option.bind_eq_some_iff.mp h
    split at hp
    · cases hp
    · rename_i hfind
      cases hp
      exact ⟨hfind, rfl⟩

/-- Looking names up adds declarations after all that is there, and nothing else. None is
    added exactly if nothing is lacking. -/
theorem lookUpAll_functions (r : Registry) (u : CompilationUnit) (ns : List String) :
    ∃ added, u.lookUpAll r ns = { u with functions := u.functions ++ added } ∧
      (∀ g ∈ added, g.isDeclaration = true ∧ ∀ f ∈ u.functions, f.name ≠ g.name) ∧
      (added = [] ↔ ∀ n ∈ ns, u.lacking? r n = none) := by
  induction ns generalizing u with
  | nil => exact ⟨[], by simp [lookUpAll], by simp, by simp⟩
  | cons n ns ih =>
    obtain ⟨added, heq, hadded, hnil⟩ := ih (u.lookUp r n)
    cases hn : u.lacking? r n with
    | none =>
      rw [lookUp_of_none hn] at heq hadded hnil
      refine ⟨added, ?_, hadded, ?_⟩
      · rw [← heq, lookUpAll, List.foldl_cons, lookUp_of_none hn]
        rfl
      · simp [hnil, hn]
    | some g =>
      obtain ⟨hfind, hdecl⟩ := lacking?_some hn
      have hfunctions : (u.lookUp r n).functions = u.functions ++ [g] := by simp [lookUp, hn]
      rw [hfunctions] at heq hadded
      refine ⟨g :: added, ?_, ?_, ?_⟩
      · show (u.lookUp r n).lookUpAll r ns = _
        rw [heq, List.append_assoc]
        rfl
      · intro g' hg'
        rcases List.mem_cons.mp hg' with rfl | hg'
        · exact ⟨hdecl, find?_none hfind⟩
        · exact ⟨(hadded g' hg').1, fun f hf => (hadded g' hg').2 f (List.mem_append_left _ hf)⟩
      · simp [hn]

end Ir.CompilationUnit

/-! ## Lowering looks names up -/

namespace Lowering

open Ir (Builder Value CompilationUnit)

variable {α β : Type} {ns ms : List String}

/-- A computation that succeeds has looked up all the names, and one that fails the first
    of them; it does nothing else to unit and registry. -/
structure Visits (ns : List String) (x : Lower α) : Prop where
  registry : ∀ s, (left (x s)).registry = s.registry
  ok : ∀ s a s', x s = .ok a s' → s'.unit = s.unit.lookUpAll s.registry ns
  error : ∀ s e s', x s = .error e s' → ∃ reached, reached <+: ns ∧ s'.unit = s.unit.lookUpAll s.registry reached

/-- The unit after `resolve?`. -/
theorem resolve?_run (n : String) (s : Lowering) :
    ∃ o, resolve? n s = .ok o { s with unit := s.unit.lookUp s.registry n } := by
  have hsame : s.unit.lacking? s.registry n = none → s.unit.lookUp s.registry n = s.unit :=
    CompilationUnit.lookUp_of_none
  unfold resolve?
  split
  · rename_i f hf
    rw [hsame (by simp [CompilationUnit.lacking?, hf])]
    exact ⟨_, rfl⟩
  · rename_i hf
    split
    · rename_i p hp
      refine ⟨_, congrArg (EStateM.Result.ok _) ?_⟩
      simp only [CompilationUnit.declare, CompilationUnit.lookUp, CompilationUnit.lacking?, hf, hp, Option.bind_some]
      cases s.unit.find? p.name with
      | none => rfl
      | some f => simp
    · rename_i hp
      rw [hsame (by simp [CompilationUnit.lacking?, hf, hp])]
      exact ⟨_, rfl⟩

namespace Visits

variable {x : Lower α} {f : α → Lower β}

theorem pure (a : α) : Visits [] (Pure.pure a : Lower α) := by
  refine ⟨fun _ => rfl, fun s b s' h => ?_, fun s e s' h => ?_⟩
  · cases h
    rfl
  · cases h

theorem throw (e : LoweringError) (ns : List String) : Visits ns (MonadExcept.throw e : Lower α) := by
  refine ⟨fun _ => rfl, fun s b s' h => ?_, fun s e' s' h => ?_⟩
  · cases h
  · cases h
    exact ⟨[], List.nil_prefix, rfl⟩

theorem bind (hx : Visits ns x) (hf : ∀ a, Visits ms (f a)) : Visits (ns ++ ms) (x >>= f) := by
  refine ⟨fun s => ?_, fun s b s' h => ?_, fun s e s' h => ?_⟩
  · have hr := hx.registry s
    cases hs : x s with
    | ok a t =>
      rw [hs] at hr
      rw [bind_of_ok hs, (hf a).registry t]
      exact hr
    | error e t =>
      rw [hs] at hr
      rw [bind_of_error hs]
      exact hr
  · obtain ⟨a, t, hs, ht⟩ := bind_ok_iff.mp h
    have hr := hx.registry s
    rw [hs] at hr
    rw [(hf a).ok t b s' ht, hx.ok s a t hs, CompilationUnit.lookUpAll_append]
    exact congrArg (CompilationUnit.lookUpAll · _ ms) hr
  · cases hs : x s with
    | ok a t =>
      rw [bind_of_ok hs] at h
      obtain ⟨reached, hreached, hunit⟩ := (hf a).error t e s' h
      have hr := hx.registry s
      rw [hs] at hr
      refine ⟨ns ++ reached, (List.prefix_append_right_inj ns).mpr hreached, ?_⟩
      rw [hunit, hx.ok s a t hs, CompilationUnit.lookUpAll_append]
      exact congrArg (CompilationUnit.lookUpAll · _ reached) hr
    | error e' t =>
      rw [bind_of_error hs] at h
      cases h
      obtain ⟨reached, hreached, hunit⟩ := hx.error s e s' hs
      exact ⟨reached, hreached.trans (List.prefix_append ns ms), hunit⟩

/-- Nothing is looked up after the first computation. -/
theorem last (hx : Visits ns x) (hf : ∀ a, Visits [] (f a)) : Visits ns (x >>= f) := by
  simpa using hx.bind hf

/-- Nothing is looked up by the first computation. -/
theorem first (hx : Visits [] x) (hf : ∀ a, Visits ns (f a)) : Visits ns (x >>= f) := hx.bind hf

theorem get {f : Lowering → Lower β} (hf : ∀ s, Visits ns (f s)) : Visits ns (MonadState.get >>= f) :=
  ⟨fun s => (hf s).registry s, fun s => (hf s).ok s, fun s => (hf s).error s⟩

theorem modify {g : Lowering → Lowering} (hg : Local g) : Visits [] (modify g : Lower PUnit) := by
  refine ⟨hg.registry, fun s a s' h => ?_, fun s e s' h => ?_⟩
  · cases h
    exact hg.unit s
  · cases h

theorem build (f : Builder → α × Builder) : Visits [] (Lowering.build f) := by
  refine ⟨fun _ => rfl, fun s a s' h => ?_, fun s e s' h => ?_⟩
  · cases h
    rfl
  · cases h

theorem emit (f : Builder → Builder) : Visits [] (Lowering.emit f) := build fun b => ((), f b)

theorem ensuring (hx : Visits ns x) {after : Lowering → Lowering} (hafter : Local after) :
    Visits ns (Lowering.ensuring x after) := by
  refine ⟨fun s => ?_, fun s a s' h => ?_, fun s e s' h => ?_⟩
  · have hr := hx.registry s
    unfold Lowering.ensuring
    cases hs : x s with
    | ok a t =>
      rw [hs] at hr
      exact (hafter.registry t).trans hr
    | error e t =>
      rw [hs] at hr
      exact (hafter.registry t).trans hr
  · obtain ⟨t, ht, rfl⟩ := ensuring_ok_iff.mp h
    rw [hafter.unit]
    exact hx.ok s a t ht
  · unfold Lowering.ensuring at h
    split at h
    · cases h
    · rename_i e' t ht
      cases h
      rw [hafter.unit]
      exact hx.error s e t ht

theorem resolve? (n : String) : Visits [n] (Lowering.resolve? n) := by
  refine ⟨fun s => ?_, fun s a s' h => ?_, fun s e s' h => ?_⟩
  · obtain ⟨o, ho⟩ := resolve?_run n s
    rw [ho]
    rfl
  · obtain ⟨o, ho⟩ := resolve?_run n s
    rw [ho] at h
    cases h
    rfl
  · obtain ⟨o, ho⟩ := resolve?_run n s
    rw [ho] at h
    cases h

theorem slotOf (name : String) : Visits [] (Lowering.slotOf name) := by
  refine .get fun s => ?_
  split
  · exact .pure _
  · exact .throw _ _

end Visits

theorem combine_visits (op : String) (x y : Value) : Visits (operatorCallee op) (combine op x y) := by
  unfold combine
  split
  · exact .build _
  · exact .build _
  · exact .build _
  · exact (Visits.build _).bind fun _ => .build _
  · rename_i hadd hsub hmul hless
    have hcallee : operatorCallee op = [Prototype.binaryName op] := by
      refine if_neg ?_
      simp only [List.mem_cons, List.not_mem_nil, or_false, not_or]
      exact ⟨hadd, hsub, hmul, hless⟩
    rw [hcallee]
    refine (Visits.resolve? _).last fun o => ?_
    split
    · exact .build _
    · exact .throw _ _

theorem lowerOption_visits {o : Option Expr} (h : ∀ e ∈ o, Visits e.callees (lower e)) :
    Visits (Expr.calleesOption o) (lowerOption o) := by
  cases o with
  | none =>
    simp only [Expr.calleesOption, lowerOption]
    exact .pure _
  | some e =>
    simp only [Expr.calleesOption, lowerOption]
    exact h e rfl

theorem lowerArguments_visits {es : List Expr} (h : ∀ e ∈ es, Visits e.callees (lower e)) :
    Visits (Expr.calleesOf es) (lowerArguments es) := by
  induction es with
  | nil =>
    simp only [Expr.calleesOf, lowerArguments]
    exact .pure _
  | cons e es ih =>
    simp only [Expr.calleesOf, lowerArguments]
    have hes := ih fun e he => h e (List.mem_cons_of_mem _ he)
    exact (h e List.mem_cons_self).bind fun v => hes.last fun vs => .pure _

theorem lowerMembers_visits {es : List Expr} (h : ∀ e ∈ es, Visits e.callees (lower e)) (last : Value) :
    Visits (Expr.calleesOf es) (lowerMembers es last) := by
  induction es generalizing last with
  | nil =>
    simp only [Expr.calleesOf, lowerMembers]
    exact .pure _
  | cons e es ih =>
    simp only [Expr.calleesOf, lowerMembers]
    exact (h e List.mem_cons_self).bind fun v => ih (fun e he => h e (List.mem_cons_of_mem _ he)) v

theorem lower_visits (e : Expr) : Visits e.callees (lower e) := by
  induction e using Expr.induction with
  | number x =>
    simp only [Expr.callees, lower]
    exact .pure _
  | ref name =>
    simp only [Expr.callees, lower]
    exact (Visits.slotOf name).bind fun _ => .build _
  | var name init ih =>
    simp only [Expr.callees, lower]
    refine (lowerOption_visits ih).last fun v => (Visits.build _).first fun slot => (Visits.emit _).first fun _ => ?_
    exact (Visits.modify (local_introduce name slot)).first fun _ => .pure _
  | unary op operand ih =>
    simp only [Expr.callees, lower]
    refine ih.bind fun v => (Visits.resolve? _).last fun o => ?_
    split
    · exact .build _
    · exact .throw _ _
  | binary op lhs rhs ihl ihr =>
    by_cases hop : op = "="
    · cases lhs with
      | ref name =>
        simp only [Expr.callees, lower, if_pos hop]
        refine ihr.last fun v => (Visits.slotOf name).first fun slot => ?_
        exact (Visits.emit _).first fun _ => .pure _
      | _ =>
        simp only [lower, if_pos hop]
        exact .throw _ _
    · simp only [Expr.callees, lower, if_neg hop]
      exact ihl.bind fun x => ihr.bind fun y => combine_visits op x y
  | call callee args ih =>
    simp only [Expr.callees, lower]
    refine (Visits.resolve? callee).bind fun o => ?_
    split
    · exact .throw _ _
    · split
      · exact (lowerArguments_visits ih).last fun _ => .build _
      · exact .throw _ _
  | cond test yes no iht ihy ihn =>
    rw [lower_cond]
    simp only [Expr.callees]
    refine (Visits.build _).first fun place => iht.bind fun t => (Visits.build _).first fun k => ihy.bind fun y => ?_
    refine (Visits.emit _).first fun _ => (lowerOption_visits ihn).last fun n => ?_
    exact (Visits.emit _).first fun _ => .build _
  | loop name start stop step body ihstart ihstop ihstep ihbody =>
    rw [lower_loop]
    simp only [Expr.callees]
    refine (Visits.build _).first fun cell => ihstart.bind fun v => (Visits.build _).first fun k => .get fun s => ?_
    refine (Visits.modify (local_bind name cell)).first fun _ => ?_
    refine Visits.last (.ensuring ?_ (local_restore name _)) fun _ => .pure _
    refine ihstop.bind fun t => (Visits.emit _).first fun _ => ihbody.bind fun _ => ?_
    exact (lowerOption_visits ihstep).last fun next => .emit _
  | block members ih =>
    simp only [Expr.callees, lower]
    exact (Visits.modify local_openScope).first fun _ => .ensuring (lowerMembers_visits ih zero) local_closeScope

theorem enterParams_visits (i : Nat) (params : List String) : Visits [] (enterParams i params) := by
  induction params generalizing i with
  | nil => exact .pure _
  | cons param params ih =>
    simp only [enterParams]
    refine (Visits.build _).first fun slot => (Visits.emit _).first fun _ => ?_
    exact (Visits.modify (local_bind param slot)).first fun _ => ih (i + 1)

theorem lowerBody_visits (params : List String) (body : Expr) : Visits body.callees (lowerBody params body) := by
  unfold lowerBody
  refine Visits.first (.modify ⟨fun _ => rfl, fun _ => rfl, fun _ _ => rfl⟩) fun _ => ?_
  refine (Visits.build _).first fun entry => (Visits.emit _).first fun _ => ?_
  refine (enterParams_visits 0 params).first fun _ => (Visits.build _).first fun ret => ?_
  refine (lower_visits body).last fun v => (Visits.emit _).first fun _ => (Visits.build _).first fun v => ?_
  refine (Visits.emit _).first fun _ => .get fun _ => ?_
  exact Visits.first (.modify ⟨fun _ => rfl, fun _ => rfl, fun _ _ => rfl⟩) fun _ => .pure _

/-! ## What is left -/

variable {d : Definition} {s s' : Lowering} {e : LoweringError}

/-- A function that is not finished has looked up the first of its body's names; what it was
    put over is of no account once it is taken out. -/
theorem lowerFunction_error_visits (h : lowerFunction d s = .error e s') :
    ∃ reached, reached <+: d.body.callees ∧
      s'.unit.remove d.proto.name = ((opened d s).unit.lookUpAll s.registry reached).remove d.proto.name := by
  have hvisits := lowerBody_visits d.proto.params d.body
  rw [lowerFunction_run] at h
  split at h
  · split at h
    · rename_i e' t hbody
      cases h
      obtain ⟨reached, hreached, hunit⟩ := hvisits.error _ _ _ hbody
      exact ⟨reached, hreached, congrArg (CompilationUnit.remove · _) hunit⟩
    · rename_i body t hbody
      split at h
      · cases h
      · cases h
        have hunit := hvisits.ok _ _ _ hbody
        refine ⟨d.body.callees, List.prefix_refl _, ?_⟩
        exact (remove_put t.unit (compiled d body)).trans (congrArg (CompilationUnit.remove · _) hunit)
  · cases h
    exact ⟨[], List.nil_prefix, rfl⟩

/-- The unit that was opened for a definition, with declarations added to it and the
    definition's name taken out: of what was there before, that name is lost. -/
theorem remove_opened (d : Definition) (s : Lowering) (added : List Ir.Function) :
    ({ (opened d s).unit with functions := (opened d s).unit.functions ++ added } : CompilationUnit).remove d.proto.name =
      { s.unit with functions := s.unit.functions.eraseP (·.name == d.proto.name) ++ added } := by
  simp only [opened, CompilationUnit.declare, CompilationUnit.remove]
  cases hfind : s.unit.find? d.proto.name with
  | some f =>
    obtain ⟨hmem, hname⟩ := CompilationUnit.find?_some hfind
    have hany : s.unit.functions.any (·.name == d.proto.name) = true :=
      List.any_eq_true.mpr ⟨f, hmem, by simpa using hname⟩
    simp only [CompilationUnit.mk.injEq, true_and]
    rw [List.eraseP_append, if_pos hany]
  | none =>
    have hnone : ∀ f ∈ s.unit.functions, (f.name == d.proto.name) ≠ true := List.find?_eq_none.mp hfind
    have hkeep : s.unit.functions.eraseP (·.name == d.proto.name) = s.unit.functions := List.eraseP_of_forall_not hnone
    simp only [CompilationUnit.mk.injEq, true_and, List.append_assoc]
    rw [List.eraseP_append_right _ hnone, hkeep]
    simp

/-- A name that is not in the unit opened for a definition is not the definition's, nor was it
    there before. -/
theorem other_of_opened {n : String} (h : ∀ f ∈ (opened d s).unit.functions, f.name ≠ n) :
    n ≠ d.proto.name ∧ s.unit.find? n = none := by
  obtain ⟨hown, hname, -⟩ := CompilationUnit.declare_fst s.unit d.proto.name d.proto.params
  refine ⟨fun hn => h _ hown (hname.trans hn.symm), ?_⟩
  cases hfind : s.unit.find? n with
  | none => rfl
  | some f =>
    obtain ⟨hmem, hf⟩ := CompilationUnit.find?_some hfind
    refine absurd hf (h f ?_)
    show f ∈ (s.unit.declare d.proto.name d.proto.params).2.functions
    unfold CompilationUnit.declare
    split
    · exact hmem
    · exact List.mem_append_left _ hmem

/-- A unit that has lost the definition's name and got other declarations is not what it
    was, unless it did not have the name and nothing was added. -/
theorem erased_eq_iff {fs added : List Ir.Function} {name : String} (hadded : ∀ g ∈ added, g.name ≠ name) :
    fs.eraseP (·.name == name) ++ added = fs ↔ (fs.find? (·.name == name) = none ∧ added = []) := by
  constructor
  · intro h
    have hnone : fs.find? (·.name == name) = none := by
      rw [List.find?_eq_none]
      intro f hf hname
      obtain ⟨g, before, after, -, hg, hfs, herase⟩ := List.exists_of_eraseP (p := (·.name == name)) hf hname
      have hother : added.countP (·.name == name) = 0 := by
        rw [List.countP_eq_zero]
        intro g hg
        simpa using hadded g hg
      -- one function of the name is gone, and none came
      have hcount := congrArg (List.countP (·.name == name)) (herase ▸ h)
      have hone : (g :: after).countP (·.name == name) = after.countP (·.name == name) + 1 := List.countP_cons_of_pos hg
      rw [hfs] at hcount
      simp only [List.countP_append, hother] at hcount
      omega
    have hkeep : fs.eraseP (·.name == name) = fs := List.eraseP_of_forall_not (List.find?_eq_none.mp hnone)
    rw [hkeep] at h
    exact ⟨hnone, by simpa using h⟩
  · rintro ⟨hnone, rfl⟩
    rw [List.append_nil]
    exact List.eraseP_of_forall_not (List.find?_eq_none.mp hnone)

/-- A definition that is refused for having a body already changes nothing. Any other that
    fails has looked up the first names of its body, in a unit with its own function in it;
    what this declared stays, after the functions that were there before, and the first of
    those that has the definition's name is gone, if there was one. So the unit is left as
    it was exactly if it did not hold that name and lacked nothing that was looked up. -/
theorem define_error_unit (h : define d s = .error e s') :
    (s.hasBody d.proto.name = true ∧ s' = s) ∨
    (s.hasBody d.proto.name = false ∧ ∃ reached added, reached <+: d.body.callees ∧
      ((opened d s).unit.lookUpAll (s.registry.register d.proto) reached).functions =
        (opened d s).unit.functions ++ added ∧
      s'.unit = { s.unit with functions := s.unit.functions.eraseP (·.name == d.proto.name) ++ added } ∧
      (∀ g ∈ added, g.isDeclaration = true ∧ g.name ≠ d.proto.name ∧ s.unit.find? g.name = none) ∧
      (s'.unit = s.unit ↔ s.unit.find? d.proto.name = none ∧
        ∀ n ∈ reached, (opened d s).unit.lacking? (s.registry.register d.proto) n = none)) := by
  unfold define at h
  split at h
  · rename_i hbody
    cases h
    exact .inl ⟨hbody, rfl⟩
  · rename_i hbody
    refine .inr ⟨by simpa using hbody, ?_⟩
    split at h
    · cases h
    · rename_i e' t hlower
      cases h
      obtain ⟨reached, hreached, hremove⟩ := lowerFunction_error_visits hlower
      obtain ⟨added, hadds, hadded, hnil⟩ :=
        CompilationUnit.lookUpAll_functions (s.registry.register d.proto) (opened d s).unit reached
      have hunit : t.unit.remove d.proto.name =
          { s.unit with functions := s.unit.functions.eraseP (·.name == d.proto.name) ++ added } := by
        rw [hremove, ← remove_opened]
        exact congrArg (CompilationUnit.remove · _) hadds
      have hother : ∀ g ∈ added, g.name ≠ d.proto.name ∧ s.unit.find? g.name = none := fun g hg =>
        other_of_opened (hadded g hg).2
      refine ⟨reached, added, hreached, congrArg CompilationUnit.functions hadds, hunit, fun g hg => ?_, ?_⟩
      · exact ⟨(hadded g hg).1, hother g hg⟩
      · rw [← hnil]
        refine Iff.trans ?_ (erased_eq_iff fun g hg => (hother g hg).1)
        show t.unit.remove d.proto.name = s.unit ↔ _
        rw [hunit]
        exact ⟨congrArg CompilationUnit.functions, fun hfunctions => by rw [hfunctions]⟩

/-! A function that was declared before, defined with a body that calls a function of another
unit and then fails: its declaration is lost, and that of the function it calls stays. -/

def declaredBefore : Lowering where
  unit := { name := "unit", functions := [{ name := "f", params := ["p"] }] }
  registry := [("g", ⟨.function "g" ["a"], true⟩), ("f", ⟨.function "f" ["p"], false⟩)]

def abandoned : Definition := ⟨.function "f" ["x"], .call "g" [.ref "y"]⟩

theorem define_error_unit_abandoned :
    ∃ s', define abandoned declaredBefore = .error (.unknownVariable "y") s' ∧
      s'.unit.functions = [{ name := "g", params := ["a"] }] ∧ s'.unit ≠ declaredBefore.unit ∧
      ∃ reached, reached <+: ["g"] ∧ ¬(declaredBefore.unit.find? "f" = none ∧
        ∀ n ∈ reached, (opened abandoned declaredBefore).unit.lacking?
          (declaredBefore.registry.register abandoned.proto) n = none) := by
  obtain ⟨s', hdefine, hunit⟩ : ∃ s', define abandoned declaredBefore = .error (.unknownVariable "y") s' ∧
      s'.unit.functions = [{ name := "g", params := ["a"] }] := ⟨_, rfl, rfl⟩
  have hlost : s'.unit ≠ declaredBefore.unit := fun h => by
    have hfunctions := congrArg CompilationUnit.functions h
    rw [hunit] at hfunctions
    revert hfunctions
    decide
  rcases define_error_unit hdefine with ⟨hbody, -⟩ | ⟨-, reached, added, hreached, -, -, -, hiff⟩
  · cases hbody
  · exact ⟨s', hdefine, hunit, hlost, reached, hreached, fun h => hlost (hiff.mpr h)⟩

end Lowering

end Kaleidoscope
