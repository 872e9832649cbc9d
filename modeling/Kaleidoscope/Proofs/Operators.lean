/-
  Kaleidoscope.Proofs.Operators — the binary operators of an expression.

  An expression is read with a table of precedences and lowered with a registry. Reading
  makes a binary node only of an operator that has a precedence (`expression_uses`), and
  lowering asks the registry for the function of every operator but the builtin ones, so
  that an operator is unknown only if it is one of the expression's and the registry lacks
  its function (`define_operates`).
-/

import Kaleidoscope.Proofs.Declarations
import Kaleidoscope.Proofs.Reading

namespace Kaleidoscope

/-! ## Reading -/

namespace Parser

open Source

variable {α β : Type}

/-- Whatever the reader gives has the property. -/
def Yields (P : α → Prop) (x : Parse α) : Prop := ∀ p a q, x p = .ok a q → P a

namespace Yields

variable {P : α → Prop} {Q : β → Prop} {x y : Parse α} {f : α → Parse β}

theorem pure {a : α} (h : P a) : Yields P (Pure.pure a) := by
  intro p b q hb
  cases hb
  exact h

theorem fail (e : ParseError) : Yields P (Parser.fail e) := by
  intro p b q hb
  cases hb

theorem bind (hx : Yields P x) (hf : ∀ a, P a → Yields Q (f a)) : Yields Q (x >>= f) := by
  intro p b q hb
  obtain ⟨a, r, ha, hb⟩ := bind_ok_iff.mp hb
  exact hf a (hx p a r ha) r b q hb

/-- Nothing is asked of what is read first. -/
theorem after (hf : ∀ a, Yields Q (f a)) : Yields Q (x >>= f) := by
  intro p b q hb
  obtain ⟨a, r, -, hb⟩ := bind_ok_iff.mp hb
  exact hf a r b q hb

theorem ite {c : Prop} [Decidable c] (hx : Yields P x) (hy : Yields P y) : Yields P (if c then x else y) := by
  split
  · exact hx
  · exact hy

end Yields

variable {P : String → Prop} {nested reader : Parse Expr}

theorem arguments_yields (h : Yields (Expr.Uses P) nested) (n : Nat) :
    Yields (fun es => ∀ e ∈ es, Expr.Uses P e) (argumentsWithin nested n) := by
  induction n with
  | zero => exact .fail _
  | succ n ih =>
    refine h.bind fun e he => .after fun t => ?_
    split
    · exact .pure (by simpa using he)
    · exact .after fun _ => ih.bind fun es hes => .pure (List.forall_mem_cons.mpr ⟨he, hes⟩)
    · exact .fail _

theorem members_yields (h : Yields (Expr.Uses P) nested) (n : Nat) :
    Yields (fun es => ∀ e ∈ es, Expr.Uses P e) (membersWithin nested n) := by
  induction n with
  | zero => exact .fail _
  | succ n ih =>
    refine .after fun t => ?_
    split
    · exact .pure (by simp)
    · exact .fail _
    · refine h.bind fun e he => ?_
      have hrest : Yields (fun es => ∀ e ∈ es, Expr.Uses P e) (membersWithin nested n >>= fun es => pure (e :: es)) :=
        ih.bind fun es hes => .pure (List.forall_mem_cons.mpr ⟨he, hes⟩)
      exact .ite hrest (.after fun _ => hrest)

theorem reference_yields (h : Yields (Expr.Uses P) nested) (n : Nat) (name : String) :
    Yields (Expr.Uses P) (reference nested n name) := by
  have hcall : ∀ es, (∀ e ∈ es, Expr.Uses P e) → Yields (Expr.Uses P) (advance >>= fun _ => pure (.call name es)) :=
    fun es hes => .after fun _ => .pure (Expr.uses_call.mpr hes)
  refine .after fun _ => .after fun t => .ite (.after fun _ => .after fun t => .ite ?_ ?_) (.pure (Expr.uses_ref name))
  · exact Yields.bind (P := fun es => ∀ e ∈ es, Expr.Uses P e) (.pure (by simp)) hcall
  · exact (arguments_yields h n).bind hcall

theorem conditional_yields (h : Yields (Expr.Uses P) nested) : Yields (Expr.Uses P) (conditional nested) := by
  refine .after fun _ => h.bind fun test htest => .after fun _ => h.bind fun yes hyes => .after fun _ => ?_
  refine .after fun t => .ite (.after fun _ => h.bind fun no hno => .after fun _ => ?_) ?_
  · exact .pure (by simp [htest, hyes, hno])
  · exact .pure (by simp [htest, hyes])

theorem loop_yields (h : Yields (Expr.Uses P) nested) : Yields (Expr.Uses P) (loop nested) := by
  refine .after fun _ => .after fun t => ?_
  split
  · rename_i name
    refine .after fun _ => .after fun _ => h.bind fun start hstart => .after fun _ => ?_
    refine h.bind fun stop hstop => .after fun _ => .after fun t => ?_
    have hbody : ∀ step : Option Expr, (∀ e ∈ step, Expr.Uses P e) → Yields (Expr.Uses P) (do
        if (← current) = .punct '{' then
          let body ← nested
          passIf .terminator
          pure (.loop name start stop step body)
        else fail .loopBody : Parse Expr) := by
      intro step hstep
      refine .after fun t => .ite (h.bind fun body hbody => .after fun _ => ?_) (.fail _)
      exact .pure (Expr.uses_loop.mpr ⟨hstart, hstop, hstep, hbody⟩)
    refine .ite (Yields.bind (x := pure none) (.pure (by simp)) hbody) (Yields.bind (x := some <$> nested) ?_ hbody)
    exact h.bind fun e he => .pure (by simpa using he)
  · exact .fail _

theorem variableDecl_yields (h : Yields (Expr.Uses P) nested) : Yields (Expr.Uses P) (variableDecl nested) := by
  refine .after fun _ => .after fun t => ?_
  split
  · refine .after fun _ => .after fun t => .ite (.after fun _ => h.bind fun init hinit => ?_) ?_
    · exact .pure (by simpa using hinit)
    · exact .pure (by simp)
  · exact .fail _

theorem primary_yields (h : Yields (Expr.Uses P) nested) (n : Nat) : Yields (Expr.Uses P) (primary nested n) := by
  refine .after fun t => ?_
  split
  · exact reference_yields h n _
  · exact .after fun _ => .pure (by simp)
  · exact conditional_yields h
  · exact loop_yields h
  · exact variableDecl_yields h
  · exact .after fun _ => h.bind fun e he => .after fun _ => .pure he
  · exact .after fun _ => (members_yields h n).bind fun es hes => .after fun _ => .pure (by simpa using hes)
  · exact .fail _
  · exact .fail _

theorem operandWithin_yields (h : Yields (Expr.Uses P) reader) (n : Nat) :
    Yields (Expr.Uses P) (operandWithin reader n) := by
  induction n with
  | zero => exact .fail _
  | succ n ih =>
    refine .after fun t => ?_
    split
    · exact .after fun _ => ih.bind fun e he => .pure (by simpa using he)
    · exact h

/-- The operator has a precedence. -/
def Ranked (ops : Operator.Precedences) (op : String) : Prop := ∃ prec, ops.find? op = some prec

variable {ops : Operator.Precedences}

theorem climbWithin_yields (h : Yields (Expr.Uses (Ranked ops)) reader) (n least : Nat) {lhs : Expr}
    (hlhs : lhs.Uses (Ranked ops)) : Yields (Expr.Uses (Ranked ops)) (climbWithin ops reader n least lhs) := by
  induction n generalizing least lhs with
  | zero => exact .pure hlhs
  | succ n ih =>
    have htighter : ∀ prec rhs, rhs.Uses (Ranked ops) →
        Yields (Expr.Uses (Ranked ops)) (tighter ops (climbWithin ops reader n) prec rhs) := by
      intro prec rhs hrhs
      refine .after fun p => ?_
      split
      · exact .ite (ih _ hrhs) (.pure hrhs)
      · exact .pure hrhs
    intro p e q he
    rw [climbWithin_run] at he
    split at he
    · rename_i op prec hop hprec
      split at he
      · cases he
        exact hlhs
      · -- the operator that is passed is the one whose precedence was found
        obtain ⟨op', hop', hfind⟩ := precedence?_some hprec
        cases hop.symm.trans hop'
        have hoperation : Yields (Expr.Uses (Ranked ops))
            (operation ops reader (climbWithin ops reader n) prec op lhs least) := by
          refine .after fun _ => h.bind fun rhs hrhs => (htighter prec rhs hrhs).bind fun rhs hrhs => ?_
          exact ih least (Expr.uses_binary.mpr ⟨⟨prec, hfind⟩, hlhs, hrhs⟩)
        exact hoperation p e q he
    · cases he
      exact hlhs

theorem expressionWithin_yields (ops : Operator.Precedences) (n : Nat) :
    Yields (Expr.Uses (Ranked ops)) (expressionWithin ops n) := by
  induction n with
  | zero => exact .fail _
  | succ n ih =>
    have hoperand := operandWithin_yields (primary_yields ih (n + 1)) (n + 1)
    exact hoperand.bind fun lhs hlhs => climbWithin_yields hoperand (n + 1) 0 hlhs

/-- Every binary operator of an expression that was read has a precedence. -/
theorem expression_uses {p q : Parser} {e : Expr} (h : expression ops p = .ok e q) : e.Uses (Ranked ops) :=
  expressionWithin_yields ops p.size p e q h

end Parser

/-! ## Lowering -/

/-- The operator is builtin, or its function is registered. -/
def Registry.Operates (r : Registry) (op : String) : Prop :=
  op ∈ ["=", "+", "-", "*", "<"] ∨ (r.proto? (Prototype.binaryName op)).isSome = true

namespace Lowering

open Ir (Builder Value)

variable {α β : Type} {r : Registry}

/-- With this registry, no binary operator is found to be unknown. -/
structure Resolves (r : Registry) (x : Lower α) : Prop where
  extending : Extending x
  known : ∀ s, s.registry = r → ∀ op s', x s ≠ .error (.unknownBinary op) s'

namespace Resolves

variable {x : Lower α} {f : α → Lower β}

theorem pure (a : α) : Resolves r (Pure.pure a : Lower α) := ⟨.pure a, fun _ _ _ _ h => nomatch h⟩

theorem throw {e : LoweringError} (he : ∀ op, e ≠ .unknownBinary op) : Resolves r (MonadExcept.throw e : Lower α) := by
  refine ⟨.throw e, fun s _ op s' h => ?_⟩
  cases h
  exact he op rfl

theorem bind (hx : Resolves r x) (hf : ∀ a, Resolves r (f a)) : Resolves r (x >>= f) := by
  refine ⟨hx.extending.bind fun a => (hf a).extending, fun s hs op s' h => ?_⟩
  have hext := hx.extending s
  cases hxs : x s with
  | ok a t =>
    rw [hxs] at hext
    rw [bind_of_ok hxs] at h
    exact (hf a).known t (hext.registry.trans hs) op s' h
  | error e t =>
    rw [bind_of_error hxs] at h
    cases h
    exact hx.known s hs op s' hxs

theorem get {f : Lowering → Lower β} (hf : ∀ s, Resolves r (f s)) : Resolves r (MonadState.get >>= f) :=
  ⟨.get fun s => (hf s).extending, fun s hs => (hf s).known s hs⟩

theorem modify {g : Lowering → Lowering} (hg : Local g) : Resolves r (modify g : Lower PUnit) :=
  ⟨.modify hg, fun _ _ _ _ h => nomatch h⟩

theorem build (f : Builder → α × Builder) : Resolves r (Lowering.build f) := ⟨.build f, fun _ _ _ _ h => nomatch h⟩

theorem ensuring (hx : Resolves r x) {after : Lowering → Lowering} (hafter : Local after) :
    Resolves r (Lowering.ensuring x after) := by
  refine ⟨hx.extending.ensuring hafter, fun s hs op s' h => ?_⟩
  unfold Lowering.ensuring at h
  split at h
  · cases h
  · rename_i hxs
    cases h
    exact hx.known s hs op _ hxs

theorem resolve? (name : String) : Resolves r (Lowering.resolve? name) := by
  refine ⟨.resolve? name, fun s _ op s' h => ?_⟩
  unfold Lowering.resolve? at h
  split at h
  · cases h
  · split at h
    · cases h
    · cases h

end Resolves

theorem closed_resolves (r : Registry) : Closed fun _ => Resolves r where
  pure := .pure
  throw := .throw
  bind := .bind
  get hf _ := .get hf
  modify := .modify
  ensuring hx hafter := .ensuring hx hafter
  build := .build
  resolve? := .resolve?

/-- A name that is registered can be called. -/
theorem resolve?_registered {n : String} {s : Lowering} (h : (s.registry.proto? n).isSome = true) :
    ∃ k s', resolve? n s = .ok (some k) s' := by
  obtain ⟨p, hp⟩ := Option.isSome_iff_exists.mp h
  unfold resolve?
  split
  · exact ⟨_, _, rfl⟩
  · simp only [hp]
    exact ⟨_, _, rfl⟩

theorem combine_resolves {op : String} (hop : op ≠ "=") (h : r.Operates op) (x y : Value) :
    Resolves r (combine op x y) := by
  refine ⟨combine_extends op x y, fun s hs op' s' herr => ?_⟩
  unfold combine at herr
  split at herr
  · cases herr
  · cases herr
  · cases herr
  · cases herr
  · rename_i hadd hsub hmul hless
    have hsome : (s.registry.proto? (Prototype.binaryName op)).isSome = true := by
      rw [hs]
      refine h.resolve_left ?_
      simp only [List.mem_cons, List.not_mem_nil, or_false, not_or]
      exact ⟨hop, hadd, hsub, hmul, hless⟩
    obtain ⟨k, t, ht⟩ := resolve?_registered hsome
    rw [bind_of_ok ht] at herr
    cases herr

theorem lowerBody_resolves (params : List String) {body : Expr} (h : body.Uses r.Operates) :
    Resolves r (lowerBody params body) :=
  (closed_resolves r).lowerBody params body fun op hop hne => combine_resolves hne (h op hop)

/-- A definition does not fail for an unknown binary operator if the registry has the
    functions of all operators of its body. -/
theorem define_operates {d : Definition} {s s' : Lowering} (h : d.body.Uses s.registry.Operates) (op : String) :
    define d s ≠ .error (.unknownBinary op) s' := by
  intro herr
  have hannounced : d.body.Uses (s.announce d.proto).registry.Operates := by
    intro op hop
    refine (h op hop).imp_right fun hsome => ?_
    show (Registry.proto? (s.registry.register d.proto) _).isSome = true
    rw [Registry.proto?, Registry.register, Bindings.find?_insert]
    split
    · rfl
    · exact hsome
  unfold define at herr
  split at herr
  · cases herr
  · split at herr
    · cases herr
    · rename_i hlower
      cases herr
      rw [lowerFunction_run] at hlower
      split at hlower
      · split at hlower
        · rename_i hbody
          cases hlower
          exact (lowerBody_resolves d.proto.params hannounced).known (opened d (s.announce d.proto)) rfl op _ hbody
        · split at hlower
          · cases hlower
          · cases hlower
      · cases hlower

end Lowering

end Kaleidoscope
