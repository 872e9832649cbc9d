/-
  Kaleidoscope.Proofs.Acceptance — what is lowered passes the check.

  The code of a tree finds everything it names if its calls do (`Tree.code_sound`), and the
  calls of a tree are those of the expression (`resolve_calls`). When lowering succeeds,
  each of them is declared in the unit with as many parameters as there are arguments
  (`lower_brings`): a callee is declared at the latest when its call is lowered, and
  declarations stay. Calls of named functions are compared on the spot. Operators are not;
  for them it is the names that settle it, as long as a function named like an operator's
  takes as many parameters as the operator has operands (`Lowering.Regular`).

  `definitions_check`: in a regular state, a body that can be lowered gives a function that
  the check accepts, so that no definition is refused as invalid; and every state that a
  session gets to is regular.
-/

import Kaleidoscope.Proofs.Construction
import Kaleidoscope.Proofs.WellFormed

namespace Kaleidoscope

open Ir (Body Block CompilationUnit Inst Setting Value)

/-! ## The check -/

namespace Ir

/-- The unit has a function of this name that takes `k` arguments. -/
def CompilationUnit.Takes (u : CompilationUnit) (n : String) (k : Nat) : Prop := ∃ g, u.find? n = some g ∧ g.arity = k

theorem forM_ok_of {ε α : Type} {f : α → Except ε Unit} {l : List α} (h : ∀ x ∈ l, f x = .ok ()) : l.forM f = .ok () := by
  induction l with
  | nil => rfl
  | cons x l ih =>
    have hl := ih fun y hy => h y (List.mem_cons_of_mem _ hy)
    show (f x >>= fun _ => l.forM f) = .ok ()
    rw [h x List.mem_cons_self]
    exact hl

variable {u : CompilationUnit} {arity : Nat} {body : Body}

theorem Value.check_of_type {v : Value} {ty : Ty} (h : v.type arity body = .ok ty) : v.check arity body ty = .ok () := by
  simp only [Value.check, h]
  exact if_pos rfl

theorem Inst.Fits.check {i : Inst} (h : i.Fits ⟨arity, body.slots.size, u.Takes⟩ body) : i.check u arity body = .ok () := by
  have hvalue : ∀ v ∈ i.operands, v.check arity body i.operandType = .ok () :=
    fun v hv => Value.check_of_type (h.operands v hv)
  have hslot : ∀ c ∈ i.slot?, body.checkSlot c = .ok () := fun c hc => if_pos (h.slot c hc)
  have htarget : ∀ k ∈ i.targets, body.checkBlock k = .ok () := fun k hk => if_pos (h.targets k hk)
  cases i with
  | load r s => exact hslot s rfl
  | store v s =>
    show (v.check arity body .double >>= fun _ => body.checkSlot s) = .ok ()
    rw [show v.check arity body .double = .ok () from hvalue v (by simp [Inst.operands])]
    exact hslot s rfl
  | arith r op lhs rhs =>
    show (lhs.check arity body .double >>= fun _ => rhs.check arity body .double) = .ok ()
    rw [show lhs.check arity body .double = .ok () from hvalue lhs (by simp [Inst.operands])]
    exact hvalue rhs (by simp [Inst.operands])
  | compare r cmp lhs rhs =>
    show (lhs.check arity body .double >>= fun _ => rhs.check arity body .double) = .ok ()
    rw [show lhs.check arity body .double = .ok () from hvalue lhs (by simp [Inst.operands])]
    exact hvalue rhs (by simp [Inst.operands])
  | toDouble r v => exact hvalue v (by simp [Inst.operands])
  | call r callee args =>
    obtain ⟨g, hg, harity⟩ := h.call (callee, args.length) rfl
    simp only [Inst.check, hg, harity, if_true]
    exact forM_ok_of hvalue
  | branch k => exact htarget k (by simp [Inst.targets])
  | condBranch v t e =>
    show (v.check arity body .bool >>= fun _ => body.checkBlock t >>= fun _ => body.checkBlock e) = .ok ()
    rw [show v.check arity body .bool = .ok () from hvalue v (by simp [Inst.operands]), htarget t (by simp [Inst.targets])]
    exact htarget e (by simp [Inst.targets])
  | ret v => exact hvalue v (by simp [Inst.operands])

theorem Block.Closed.check {b : Block} (h : b.Closed) (hi : ∀ i ∈ b.insts.toList, i.check u arity body = .ok ()) :
    b.check u arity body = .ok () := by
  obtain ⟨init, last, hb, hinit, hlast⟩ := h
  have hearly : init.any Inst.isTerminator = false := by simpa using hinit
  simp only [Block.check, hb, List.getLast?_concat, Option.any_some, hlast, Bool.not_true, List.dropLast_concat, hearly,
    Bool.false_eq_true, if_false]
  rw [hb] at hi
  exact forM_ok_of hi

/-- Blocks end in their only terminators, and instructions find what they name: operands
    of the type that is asked for, slots, blocks, and functions of the unit that take as
    many arguments as there are. -/
structure Body.WellFormed (u : CompilationUnit) (arity : Nat) (body : Body) : Prop where
  entry : 0 < body.blocks.size
  closed : ∀ b ∈ body.blocks.toList, b.Closed
  fits : ∀ k n i, body.inst? k n = some i → i.Fits ⟨arity, body.slots.size, u.Takes⟩ body

theorem Body.WellFormed.check (h : body.WellFormed u arity) : body.check u arity = .ok () := by
  have hne : body.blocks.isEmpty = false := by simpa [Array.isEmpty] using Nat.ne_of_gt h.entry
  simp only [Body.check, hne, Bool.false_eq_true, if_false]
  refine forM_ok_of fun block hmem => (h.closed block hmem).check fun i hi => ?_
  obtain ⟨k, hk⟩ := List.mem_iff_getElem?.mp hmem
  obtain ⟨n, hn⟩ := List.mem_iff_getElem?.mp hi
  rw [Array.getElem?_toList] at hk hn
  exact (h.fits k n i (by simp [Body.inst?, hk, hn])).check

/-! ## Units that grow -/

namespace CompilationUnit

variable {u v : CompilationUnit} {n : String}

theorem find?_declare_self (u : CompilationUnit) (n : String) (params : List String) :
    (u.declare n params).2.find? n = some (u.declare n params).1 := by
  unfold declare
  split
  · rename_i f hf
    exact hf
  · rename_i hf
    have hf : u.functions.find? (·.name == n) = none := hf
    simp [find?, List.find?_append, hf]

theorem find?_declare {g : Function} (m : String) (params : List String) (h : u.find? n = some g) :
    (u.declare m params).2.find? n = some g := by
  unfold declare
  split
  · exact h
  · have h : u.functions.find? (·.name == n) = some g := h
    simp [find?, List.find?_append, h]

/-- What a unit finds after a declaration was there or is the declaration. -/
theorem find?_declare_cases {g : Function} {m : String} {params : List String}
    (h : (u.declare m params).2.find? n = some g) : u.find? n = some g ∨ n = m ∧ g.arity = params.length := by
  unfold declare at h
  split at h
  · exact .inl h
  · cases hf : u.functions.find? (·.name == n) with
    | some f =>
      simp only [find?, List.find?_append, hf] at h
      exact .inl (hf.trans h)
    | none =>
      simp only [find?, List.find?_append, hf, Option.none_or] at h
      obtain ⟨hg, hname⟩ := find?_some (u := ⟨u.name, [⟨m, params, none⟩]⟩) h
      rw [List.mem_singleton] at hg
      subst hg
      exact .inr ⟨hname.symm, rfl⟩

theorem find?_put (u : CompilationUnit) (f : Function) (n : String) :
    (u.put f).find? n = if f.name = n then some f else u.find? n := by
  have h : ∀ fs : List Function, (putIn f fs).find? (·.name == n) =
      if f.name = n then some f else fs.find? (·.name == n) := by
    intro fs
    induction fs with
    | nil => by_cases hn : f.name = n <;> simp [putIn, hn]
    | cons g fs ih =>
      unfold putIn
      split
      · rename_i hg
        by_cases hn : f.name = n
        · simp [hn]
        · simp [hn, hg]
      · rename_i hg
        by_cases hn : g.name = n
        · have hne : f.name ≠ n := fun he => hg (hn.trans he.symm)
          simp [hn, hne]
        · simpa [hn] using ih
  exact h u.functions

theorem Takes.put {k : Nat} (h : u.Takes n k) {f : Function} (hf : f.name = n → f.arity = k) : (u.put f).Takes n k := by
  obtain ⟨g, hg, hk⟩ := h
  by_cases hn : f.name = n
  · exact ⟨f, by rw [find?_put, if_pos hn], hf hn⟩
  · exact ⟨g, by rw [find?_put, if_neg hn]; exact hg, hk⟩

end CompilationUnit

end Ir

/-! ## The calls of an expression -/

/-- The call that an operator on two operands makes. -/
def operatorCalls : String → List (String × Nat)
  | "+" => []
  | "-" => []
  | "*" => []
  | "<" => []
  | "=" => []
  | op => [(Prototype.binaryName op, 2)]

namespace Expr

mutual

/-- Callee and number of arguments of each call. -/
def calls : Expr → List (String × Nat)
  | .number _ => []
  | .ref _ => []
  | .var _ init => callsOption init
  | .unary op e => calls e ++ [(Prototype.unaryName op, 1)]
  | .binary op l r => calls l ++ (calls r ++ operatorCalls op)
  | .call callee es => callsOf es ++ [(callee, es.length)]
  | .cond t y n => calls t ++ (calls y ++ callsOption n)
  | .loop _ start stop step body => calls start ++ (calls stop ++ (calls body ++ callsOption step))
  | .block es => callsOf es

def callsOption : Option Expr → List (String × Nat)
  | none => []
  | some e => calls e

def callsOf : List Expr → List (String × Nat)
  | [] => []
  | e :: es => calls e ++ callsOf es

end

open Resolve

theorem combine_calls {op : String} (hop : op ≠ "=") (l r : Tree) :
    (Tree.combine op l r).calls = l.calls ++ (r.calls ++ operatorCalls op) := by
  unfold Tree.combine
  split
  · simp [Tree.calls, operatorCalls]
  · simp [Tree.calls, operatorCalls]
  · simp [Tree.calls, operatorCalls]
  · simp [Tree.calls, operatorCalls]
  · unfold operatorCalls
    split <;> simp_all [Tree.calls, Tree.callsOf]

def KeepsCalls (e : Expr) : Prop := ∀ {s s' : Scope} {t : Tree}, e.resolve s = some (t, s') → t.calls = e.calls

theorem keepsCalls_option {o : Option Expr} (ih : ∀ e ∈ o, KeepsCalls e) {s s' : Scope} {t : Tree}
    (h : resolveOption o s = some (t, s')) : t.calls = callsOption o := by
  cases o with
  | none =>
    simp only [resolveOption, pure_some_iff] at h
    obtain ⟨rfl, rfl⟩ := h
    simp only [Tree.calls, callsOption]
  | some e =>
    simp only [resolveOption] at h
    simpa only [callsOption] using ih e rfl h

theorem keepsCalls_arguments {es : List Expr} (ih : ∀ e ∈ es, KeepsCalls e) {s s' : Scope} {ts : List Tree}
    (h : resolveArguments es s = some (ts, s')) : Tree.callsOf ts = callsOf es ∧ ts.length = es.length := by
  induction es generalizing s ts with
  | nil =>
    simp only [resolveArguments, pure_some_iff] at h
    obtain ⟨rfl, rfl⟩ := h
    simp only [Tree.callsOf, callsOf, List.length_nil, and_self]
  | cons e es ihs =>
    simp only [resolveArguments, bind_some_iff, pure_some_iff] at h
    obtain ⟨t, s₁, h₁, ts, s₂, h₂, rfl, rfl⟩ := h
    obtain ⟨hcalls, hlen⟩ := ihs (fun e he => ih e (List.mem_cons_of_mem _ he)) h₂
    simp only [Tree.callsOf, callsOf, ih e List.mem_cons_self h₁, hcalls, List.length_cons, hlen, and_self]

theorem resolve_calls (e : Expr) : KeepsCalls e := by
  induction e using Expr.induction with
  | number x =>
    intro s s' t h
    simp only [resolve, pure_some_iff] at h
    obtain ⟨rfl, rfl⟩ := h
    simp only [Tree.calls, calls]
  | ref name =>
    intro s s' t h
    simp only [resolve, bind_some_iff, pure_some_iff] at h
    obtain ⟨c, _, -, rfl, rfl⟩ := h
    simp only [Tree.calls, calls]
  | var name init ih =>
    intro s s' t h
    simp only [resolve, bind_some_iff, fresh_run, modify_run, pure_some_iff] at h
    obtain ⟨t, s₁, h₁, rfl, rfl⟩ := h
    simpa only [Tree.calls, calls] using keepsCalls_option ih h₁
  | unary op operand ih =>
    intro s s' t h
    simp only [resolve, bind_some_iff, pure_some_iff] at h
    obtain ⟨t, s₁, h₁, rfl, rfl⟩ := h
    simp only [Tree.calls, Tree.callsOf, calls, ih h₁, List.append_nil, List.length_singleton]
  | binary op lhs rhs ihl ihr =>
    intro s s' t h
    by_cases hop : op = "="
    · subst hop
      cases lhs with
      | ref name =>
        simp only [resolve, if_true, bind_some_iff, pure_some_iff] at h
        obtain ⟨t, s₁, h₁, c, _, -, rfl, rfl⟩ := h
        simp only [Tree.calls, calls, operatorCalls, ihr h₁, List.nil_append, List.append_nil]
      | _ => simp only [resolve, if_true, failure_some_iff] at h
    · simp only [resolve, if_neg hop, bind_some_iff, pure_some_iff] at h
      obtain ⟨l, s₁, h₁, r, s₂, h₂, rfl, rfl⟩ := h
      simp only [combine_calls hop, calls, ihl h₁, ihr h₂]
  | call callee args ih =>
    intro s s' t h
    simp only [resolve, bind_some_iff, pure_some_iff] at h
    obtain ⟨ts, s₁, h₁, rfl, rfl⟩ := h
    obtain ⟨hcalls, hlen⟩ := keepsCalls_arguments ih h₁
    simp only [Tree.calls, calls, hcalls, hlen]
  | cond test yes no iht ihy ihn =>
    intro s s' t h
    simp only [resolve, fresh_run, bind_some_iff, pure_some_iff] at h
    obtain ⟨t, s₁, h₁, y, s₂, h₂, n, s₃, h₃, rfl, rfl⟩ := h
    simp only [Tree.calls, calls, iht h₁, ihy h₂, keepsCalls_option ihn h₃]
  | loop name start stop step body iha ihb ihc ihd =>
    intro s s' t h
    simp only [resolve, fresh_run, get_run, modify_run, bind_some_iff, pure_some_iff] at h
    obtain ⟨ta, s₁, h₁, tb, s₂, h₂, td, s₃, h₃, tc, s₄, h₄, rfl, rfl⟩ := h
    simp only [Tree.calls, calls, iha h₁, ihb h₂, ihd h₃, keepsCalls_option ihc h₄]
  | block es ih =>
    intro s s' t h
    simp only [resolve, modify_run, bind_some_iff, pure_some_iff] at h
    obtain ⟨ts, s₁, h₁, rfl, rfl⟩ := h
    simpa only [Tree.calls, calls] using (keepsCalls_arguments ih h₁).1

end Expr

/-! ## Lowering declares what is called -/

namespace Lowering

open Ir (Builder)

/-- Prototypes are registered under their own names, and functions with the names of
    operators' functions take as many parameters as the operators have operands. -/
structure Regular (s : Lowering) : Prop where
  named : s.registry.Named
  registry : ∀ n p, s.registry.proto? n = some p → OperatorArity n p.arity
  unit : ∀ n g, s.unit.find? n = some g → OperatorArity n g.arity

variable {α β : Type} {s s' : Lowering}

/-- `s'` differs from `s` in nothing but the unit, which has at least the functions of `s`. -/
structure Grows (s s' : Lowering) : Prop where
  regular : s.Regular → s'.Regular
  takes : ∀ n k, s.unit.Takes n k → s'.unit.Takes n k

theorem Grows.trans {s'' : Lowering} (h : Grows s s') (h' : Grows s' s'') : Grows s s'' :=
  ⟨fun hs => h'.regular (h.regular hs), fun n k hk => h'.takes n k (h.takes n k hk)⟩

theorem grows_of_eq (hu : s'.unit = s.unit) (hr : s'.registry = s.registry) : Grows s s' := by
  refine ⟨fun hs => ⟨by rw [hr]; exact hs.named, by rw [hr]; exact hs.registry, by rw [hu]; exact hs.unit⟩, ?_⟩
  intro n k hk
  rw [hu]
  exact hk

/-- Not that a function is invalid. -/
def Benign (e : LoweringError) : Prop := ∀ name defect, e ≠ .invalidFunction name defect

/-- If the computation succeeds, the unit has the functions `cs`; if it fails, then for
    another reason than an invalid function. -/
structure Brings (cs : List (String × Nat)) (x : Lower α) : Prop where
  ok : ∀ s s' a, s.Regular → x s = .ok a s' → Grows s s' ∧ ∀ c ∈ cs, s'.unit.Takes c.1 c.2
  error : ∀ s s' e, x s = .error e s' → Benign e

namespace Brings

variable {cs ds : List (String × Nat)} {x : Lower α} {f : α → Lower β}

theorem bind (hx : Brings cs x) (hf : ∀ a, Brings ds (f a)) : Brings (cs ++ ds) (x >>= f) := by
  refine ⟨fun s s' b hs h => ?_, fun s s' e h => ?_⟩
  · obtain ⟨a, t, h₁, h₂⟩ := bind_ok_iff.mp h
    obtain ⟨g₁, hcs⟩ := hx.ok s t a hs h₁
    obtain ⟨g₂, hds⟩ := (hf a).ok t s' b (g₁.regular hs) h₂
    refine ⟨g₁.trans g₂, fun c hc => ?_⟩
    rcases List.mem_append.mp hc with hc | hc
    · exact g₂.takes _ _ (hcs c hc)
    · exact hds c hc
  · cases hs : x s with
    | ok a t =>
      rw [bind_of_ok hs] at h
      exact (hf a).error t s' e h
    | error e' t =>
      rw [bind_of_error hs] at h
      cases h
      exact hx.error s s' e hs

theorem first (hx : Brings cs x) (hf : ∀ a, Brings [] (f a)) : Brings cs (x >>= f) := by
  have h := hx.bind hf
  rwa [List.append_nil] at h

theorem next (hx : Brings [] x) (hf : ∀ a, Brings cs (f a)) : Brings cs (x >>= f) := hx.bind hf

/-- A computation that succeeds and touches neither unit nor registry. -/
theorem of_eq (h : ∀ s, ∃ a s', x s = .ok a s' ∧ s'.unit = s.unit ∧ s'.registry = s.registry) : Brings [] x := by
  refine ⟨fun s s' a _ hx => ?_, fun s s' e hx => ?_⟩
  · obtain ⟨a', t, ht, hu, hr⟩ := h s
    cases hx.symm.trans ht
    exact ⟨grows_of_eq hu hr, fun _ hc => nomatch hc⟩
  · obtain ⟨a', t, ht, -⟩ := h s
    cases hx.symm.trans ht

theorem pure (a : α) : Brings [] (Pure.pure a : Lower α) := of_eq fun s => ⟨a, s, rfl, rfl, rfl⟩

theorem throw {e : LoweringError} (he : Benign e) : Brings cs (MonadExcept.throw e : Lower α) := by
  refine ⟨fun _ _ _ _ h => (throw_ok_iff.mp h).elim, fun s s' e' h => ?_⟩
  cases h
  exact he

theorem build (f : Builder → α × Builder) : Brings [] (Lowering.build f) := of_eq fun _ => ⟨_, _, rfl, rfl, rfl⟩

theorem emit (f : Builder → Builder) : Brings [] (Lowering.emit f) := of_eq fun _ => ⟨_, _, rfl, rfl, rfl⟩

theorem get {f : Lowering → Lower β} (hf : ∀ s, Brings cs (f s)) : Brings cs (MonadState.get >>= f) :=
  ⟨fun s s' b hs h => (hf s).ok s s' b hs h, fun s s' e h => (hf s).error s s' e h⟩

theorem modify (g : Lowering → Lowering) (hg : ∀ s, (g s).unit = s.unit ∧ (g s).registry = s.registry) :
    Brings [] (modify g : Lower PUnit) := of_eq fun s => ⟨_, _, rfl, hg s⟩

theorem slotOf (name : String) : Brings [] (Lowering.slotOf name) := by
  refine .get fun s => ?_
  split
  · exact .pure _
  · exact .throw (by simp [Benign])

theorem ensuring (hx : Brings cs x) {after : Lowering → Lowering}
    (hafter : ∀ s, (after s).unit = s.unit ∧ (after s).registry = s.registry) :
    Brings cs (Lowering.ensuring x after) := by
  refine ⟨fun s s' a hs h => ?_, fun s s' e h => ?_⟩
  · obtain ⟨t, ht, rfl⟩ := ensuring_ok_iff.mp h
    obtain ⟨g, hcs⟩ := hx.ok s t a hs ht
    obtain ⟨hu, hr⟩ := hafter t
    refine ⟨g.trans (grows_of_eq hu hr), fun c hc => ?_⟩
    rw [hu]
    exact hcs c hc
  · unfold Lowering.ensuring at h
    split at h
    · cases h
    · rename_i t hs
      cases h
      exact hx.error s t e hs

end Brings

theorem resolve?_ne_error {n : String} {e : LoweringError} : resolve? n s ≠ .error e s' := by
  intro h
  unfold resolve? at h
  split at h
  · cases h
  · split at h <;> cases h

/-- A function that is found is in the unit afterwards. -/
theorem resolve?_takes {n : String} {o : Option Nat} (hs : s.Regular) (h : resolve? n s = .ok o s') :
    Grows s s' ∧ ∀ k ∈ o, s'.unit.Takes n k ∧ OperatorArity n k := by
  unfold resolve? at h
  split at h
  · rename_i f hf
    cases h
    refine ⟨grows_of_eq rfl rfl, fun k hk => ?_⟩
    cases hk
    exact ⟨⟨f, hf, rfl⟩, hs.unit n f hf⟩
  · rename_i hnone
    split at h
    · rename_i p hp
      cases h
      have hname := hs.named n p hp
      have harity : (s.unit.declare p.name p.params).1.arity = p.arity := by
        rw [hname]
        simp only [CompilationUnit.declare, hnone]
        rfl
      refine ⟨⟨fun _ => ⟨hs.named, hs.registry, fun m g hg => ?_⟩, fun m k hk => ?_⟩, fun k hk => ?_⟩
      · rcases CompilationUnit.find?_declare_cases hg with hg | ⟨hm, hg⟩
        · exact hs.unit m g hg
        · rw [hm, hg, hname]
          exact hs.registry n p hp
      · obtain ⟨g, hg, hk⟩ := hk
        exact ⟨g, CompilationUnit.find?_declare _ _ hg, hk⟩
      · cases hk
        rw [harity]
        refine ⟨⟨_, ?_, harity⟩, hs.registry n p hp⟩
        have hfind := CompilationUnit.find?_declare_self s.unit p.name p.params
        rwa [hname] at hfind ⊢
    · cases h
      exact ⟨grows_of_eq rfl rfl, fun k hk => nomatch hk⟩

/-- A call that goes on only if its callee takes `j` arguments. -/
theorem Brings.resolve {cs : List (String × Nat)} {n : String} {j : Nat} {f : Option Nat → Lower β}
    (hnone : Brings (cs ++ [(n, j)]) (f none)) (hsome : ∀ k, Brings cs (f (some k)))
    (hk : ∀ k, OperatorArity n k → ∀ s s' b, f (some k) s = .ok b s' → k = j) :
    Brings (cs ++ [(n, j)]) (resolve? n >>= f) := by
  refine ⟨fun s s' b hs h => ?_, fun s s' e h => ?_⟩
  · obtain ⟨o, t, h₁, h₂⟩ := bind_ok_iff.mp h
    obtain ⟨g₁, htakes⟩ := resolve?_takes hs h₁
    cases o with
    | none =>
      obtain ⟨g₂, hcs⟩ := hnone.ok t s' b (g₁.regular hs) h₂
      exact ⟨g₁.trans g₂, hcs⟩
    | some k =>
      obtain ⟨g₂, hcs⟩ := (hsome k).ok t s' b (g₁.regular hs) h₂
      obtain ⟨hn, hop⟩ := htakes k rfl
      obtain rfl := hk k hop t s' b h₂
      refine ⟨g₁.trans g₂, fun c hc => ?_⟩
      rcases List.mem_append.mp hc with hc | hc
      · exact hcs c hc
      · cases List.mem_singleton.mp hc
        exact g₂.takes _ _ hn
  · cases hs : resolve? n s with
    | ok o t =>
      rw [bind_of_ok hs] at h
      cases o with
      | none => exact hnone.error t s' e h
      | some k => exact (hsome k).error t s' e h
    | error e' t => exact absurd hs resolve?_ne_error

theorem lowerOption_brings {o : Option Expr} (h : ∀ e ∈ o, Brings e.calls (lower e)) :
    Brings (Expr.callsOption o) (lowerOption o) := by
  cases o with
  | none => simpa only [lowerOption, Expr.callsOption] using .pure _
  | some e => simpa only [lowerOption, Expr.callsOption] using h e rfl

theorem lowerArguments_brings {es : List Expr} (h : ∀ e ∈ es, Brings e.calls (lower e)) :
    Brings (Expr.callsOf es) (lowerArguments es) := by
  induction es with
  | nil => simpa only [lowerArguments, Expr.callsOf] using .pure _
  | cons e es ih =>
    simp only [lowerArguments, Expr.callsOf]
    have hes := ih fun e he => h e (List.mem_cons_of_mem _ he)
    exact (h e List.mem_cons_self).bind fun _ => hes.first fun _ => .pure _

theorem lowerMembers_brings {es : List Expr} (h : ∀ e ∈ es, Brings e.calls (lower e)) (last : Value) :
    Brings (Expr.callsOf es) (lowerMembers es last) := by
  induction es generalizing last with
  | nil => simpa only [lowerMembers, Expr.callsOf] using .pure _
  | cons e es ih =>
    simp only [lowerMembers, Expr.callsOf]
    exact (h e List.mem_cons_self).bind fun v => ih (fun e he => h e (List.mem_cons_of_mem _ he)) v

theorem combine_brings {op : String} (hop : op ≠ "=") (l r : Value) : Brings (operatorCalls op) (combine op l r) := by
  unfold combine
  split
  · exact .build _
  · exact .build _
  · exact .build _
  · exact (Brings.build _).next fun _ => .build _
  · have hcalls : operatorCalls op = [] ++ [(Prototype.binaryName op, 2)] := by
      unfold operatorCalls
      split <;> simp_all
    rw [hcalls]
    refine .resolve (.throw (by simp [Benign])) (fun _ => .build _) fun k hk _ _ _ _ => ?_
    exact hk.binary op rfl

theorem lower_brings (e : Expr) : Brings e.calls (lower e) := by
  induction e using Expr.induction with
  | number x => simpa only [lower, Expr.calls] using .pure _
  | ref name =>
    simp only [lower, Expr.calls]
    exact (Brings.slotOf name).next fun _ => .build _
  | var name init ih =>
    simp only [lower, Expr.calls]
    refine (lowerOption_brings ih).first fun v => (Brings.build _).next fun slot => (Brings.emit _).next fun _ => ?_
    exact (Brings.modify (introduce name slot) fun _ => ⟨rfl, rfl⟩).next fun _ => .pure _
  | unary op operand ih =>
    simp only [lower, Expr.calls]
    refine ih.bind fun v => ?_
    rw [← List.nil_append [(Prototype.unaryName op, 1)]]
    exact .resolve (.throw (by simp [Benign])) (fun _ => .build _) fun k hk _ _ _ _ => hk.unary op rfl
  | binary op lhs rhs ihl ihr =>
    by_cases hop : op = "="
    · subst hop
      cases lhs with
      | ref name =>
        simp only [lower, if_true, Expr.calls, operatorCalls, List.nil_append, List.append_nil]
        exact ihr.first fun v => (Brings.slotOf name).next fun _ => (Brings.emit _).next fun _ => .pure _
      | _ => simpa only [lower, if_true] using .throw (by simp [Benign])
    · simp only [lower, if_neg hop, Expr.calls]
      exact ihl.bind fun l => ihr.bind fun r => combine_brings hop l r
  | call callee args ih =>
    simp only [lower, Expr.calls]
    refine .resolve (.throw (by simp [Benign])) (fun k => ?_) fun k _ s s' b h => ?_
    · simp only
      split
      · exact (lowerArguments_brings ih).first fun _ => .build _
      · exact .throw (by simp [Benign])
    · simp only at h
      split at h
      · assumption
      · exact (throw_ok_iff.mp h).elim
  | cond test yes no iht ihy ihn =>
    rw [lower_cond, Expr.calls]
    refine (Brings.build _).next fun place => iht.bind fun t => (Brings.build _).next fun k => ?_
    refine ihy.bind fun y => (Brings.emit _).next fun _ => (lowerOption_brings ihn).first fun n => ?_
    exact (Brings.emit _).next fun _ => .build _
  | loop name start stop step body ihstart ihstop ihstep ihbody =>
    rw [lower_loop, Expr.calls]
    refine (Brings.build _).next fun cell => ihstart.bind fun v => (Brings.build _).next fun k => .get fun s => ?_
    refine (Brings.modify (bind name cell) fun _ => ⟨rfl, rfl⟩).next fun _ => Brings.first ?_ fun _ => .pure _
    refine .ensuring ?_ fun _ => ⟨rfl, rfl⟩
    refine ihstop.bind fun t => (Brings.emit _).next fun _ => ihbody.bind fun _ => ?_
    exact (lowerOption_brings ihstep).first fun next => .emit _
  | block members ih =>
    simp only [lower, Expr.calls]
    refine (Brings.modify openScope fun _ => ⟨rfl, rfl⟩).next fun _ => .ensuring (lowerMembers_brings ih zero) fun s => ?_
    unfold closeScope
    split
    · exact ⟨rfl, rfl⟩
    · exact ⟨rfl, rfl⟩

/-! ## Definitions -/

theorem enterParams_brings (i : Nat) (params : List String) : Brings [] (enterParams i params) := by
  induction params generalizing i with
  | nil => exact .pure _
  | cons param params ih =>
    simp only [enterParams]
    refine (Brings.build _).next fun slot => (Brings.emit _).next fun _ => ?_
    exact (Brings.modify (bind param slot) fun _ => ⟨rfl, rfl⟩).next fun _ => ih (i + 1)

theorem lowerBody_brings (params : List String) (body : Expr) : Brings body.calls (lowerBody params body) := by
  unfold lowerBody
  refine Brings.next ?_ fun _ => (Brings.build _).next fun entry => ?_
  · exact .modify _ fun _ => ⟨rfl, rfl⟩
  refine (Brings.emit _).next fun _ => (enterParams_brings 0 params).next fun _ => (Brings.build _).next fun ret => ?_
  refine (lower_brings body).first fun v => (Brings.emit _).next fun _ => (Brings.build _).next fun v => ?_
  refine (Brings.emit _).next fun _ => .get fun _ => Brings.next ?_ fun _ => .pure _
  exact .modify _ fun _ => ⟨rfl, rfl⟩

/-- The state in which the body of a definition is lowered. -/
theorem Regular.opened (hs : s.Regular) {d : Definition} (hd : OperatorArity d.proto.name d.proto.arity) :
    (opened d (s.announce d.proto)).Regular := by
  refine ⟨hs.named.register d.proto, fun n p hp => ?_, fun n g hg => ?_⟩
  · have hp : (s.registry.register d.proto).proto? n = some p := hp
    rw [Registry.proto?, Registry.find?_register] at hp
    split at hp
    · rename_i hn
      cases hp
      exact hn ▸ hd
    · exact hs.registry n p hp
  · rcases CompilationUnit.find?_declare_cases hg with hg | ⟨hn, hg⟩
    · exact hs.unit n g hg
    · rw [hn, hg]
      exact hd

theorem lowerBody_wellFormed {d : Definition} {body : Body} {t : Lowering} (hs : s.Regular)
    (hd : OperatorArity d.proto.name d.proto.arity)
    (harity : (s.unit.declare d.proto.name d.proto.params).1.arity = d.proto.arity)
    (h : lowerBody d.proto.params d.body (opened d (s.announce d.proto)) = .ok body t) :
    body.WellFormed (t.unit.put (compiled d body)) d.proto.arity := by
  obtain ⟨tree, scope, hr, rfl, hsep⟩ := lowerBody_emit h
  obtain ⟨hgrows, hcalls⟩ := (lowerBody_brings _ _).ok _ _ _ (hs.opened hd) h
  generalize hbody : tree.code d.proto.params = body at hsep ⊢
  -- the function that is defined was declared with as many parameters as it has now
  have hself : t.unit.Takes d.proto.name d.proto.arity :=
    hgrows.takes _ _ ⟨_, CompilationUnit.find?_declare_self s.unit d.proto.name d.proto.params, harity⟩
  have hput : ∀ n k, t.unit.Takes n k → (t.unit.put (compiled d body)).Takes n k := by
    intro n k hk
    refine hk.put fun hn => ?_
    have hn : d.proto.name = n := hn
    obtain ⟨g, hg, hgk⟩ := hk
    obtain ⟨g', hg', hgk'⟩ := hself
    rw [hn, hg] at hg'
    cases hg'
    exact hgk'.symm.trans hgk
  have hsuits : tree.Suits ⟨d.proto.arity, body.slots.size, (t.unit.put (compiled d body)).Takes⟩ := by
    refine ⟨fun c hc => (hsep.cells c hc).1, hsep.places, fun c hc => hput _ _ (hcalls c ?_)⟩
    rwa [Expr.resolve_calls _ hr] at hc
  obtain ⟨known, -, hsound, hentry, hclosed⟩ := Tree.code_sound rfl (by rw [hbody]) hsuits
  rw [hbody] at hsound hentry hclosed
  exact ⟨hentry, hclosed, hsound.fits⟩

theorem define_ne_invalid {d : Definition} (hs : s.Regular) (hd : OperatorArity d.proto.name d.proto.arity)
    (name : String) (defect : Ir.Defect) : define d s ≠ .error (.invalidFunction name defect) s' := by
  intro h
  unfold define at h
  split at h
  · cases h
  · split at h
    · cases h
    · rename_i e t hfun
      cases h
      rw [lowerFunction_run] at hfun
      split at hfun
      · rename_i harity
        split at hfun
        · rename_i e t' hbody
          cases hfun
          exact (lowerBody_brings _ _).error _ _ _ hbody name defect rfl
        · rename_i body t' hbody
          have hcheck : (t'.unit.put (compiled d body)).check (compiled d body) = .ok () :=
            (lowerBody_wellFormed hs hd harity hbody).check
          rw [hcheck] at hfun
          cases hfun
      · cases hfun

end Lowering

/-! ## Sessions -/

namespace Session

open Lowering

variable {s : Session}

theorem WellFormed.regular (hs : s.WellFormed) : s.lowering.Regular := by
  refine ⟨hs.named, fun n p hp => ?_, fun n g hg => ?_⟩
  · have hp : s.registry.proto? n = some p := hp
    exact (hs.arities n p.arity (by rw [Registry.arity?, hp]; rfl)).operator
  · obtain ⟨hmem, rfl⟩ := CompilationUnit.find?_some hg
    obtain ⟨-, harity⟩ := hs.unit.declared g hmem (by simp)
    exact (hs.arities g.name g.arity harity).operator

theorem WellFormed.operatorArity (hs : s.WellFormed) {d : Definition} {p : Parser}
    (h : Parser.definition s.ops s.parser = .ok d p ∨ Parser.wrapper s.ops s.parser = .ok d p) :
    OperatorArity d.proto.name d.proto.arity := by
  rcases h with h | h
  · exact (admissible_of_definition hs h).operator
  · exact (reserved_of_wrapper h).2.operator

/-- In a regular state, a definition whose body is lowered (which is done if the unit has no
    such function with another number of parameters) gives a function that the check
    accepts, and that is well formed; so no definition is refused as an invalid function.
    The states of sessions are regular, and so are the definitions they read. -/
theorem definitions_check :
    (∀ (s : Lowering) (d : Definition), s.Regular → OperatorArity d.proto.name d.proto.arity →
      (∀ body t, (s.unit.declare d.proto.name d.proto.params).1.arity = d.proto.arity →
        lowerBody d.proto.params d.body (opened d (s.announce d.proto)) = .ok body t →
        (t.unit.put (compiled d body)).check (compiled d body) = .ok () ∧
          body.WellFormed (t.unit.put (compiled d body)) d.proto.arity) ∧
      ∀ name defect s', define d s ≠ .error (.invalidFunction name defect) s') ∧
    ∀ source past (s : Session), Run source past s → s.lowering.Regular ∧
      ∀ d p, (Parser.definition s.ops s.parser = .ok d p ∨ Parser.wrapper s.ops s.parser = .ok d p) →
        OperatorArity d.proto.name d.proto.arity := by
  refine ⟨fun s d hs hd => ⟨fun body t harity h => ?_, fun name defect s' => define_ne_invalid hs hd name defect⟩,
    fun source past s hrun => ⟨hrun.wellFormed.regular, fun d p h => hrun.wellFormed.operatorArity h⟩⟩
  have hwell := lowerBody_wellFormed hs hd harity h
  exact ⟨hwell.check, hwell⟩

/-- A unit that has declared `!`, and a registry that knows `|`. -/
def withOperators : Lowering where
  unit := { name := "unit", functions := [{ name := Prototype.unaryName '!', params := ["x"] }] }
  registry := [(Prototype.binaryName "|", ⟨.binary "|" 5 "a" "b", true⟩)]

/-- `def f(x) !x | x` -/
def usesOperators : Definition where
  proto := .function "f" ["x"]
  body := .binary "|" (.unary '!' (.ref "x")) (.ref "x")

theorem withOperators_regular : withOperators.Regular := by
  have hproto : ∀ n p, withOperators.registry.proto? n = some p →
      n = Prototype.binaryName "|" ∧ p = .binary "|" 5 "a" "b" := by
    intro n p hp
    simp only [withOperators, Registry.proto?, Bindings.find?] at hp
    split at hp
    · rename_i hn
      cases hp
      exact ⟨hn.symm, rfl⟩
    · cases hp
  refine ⟨fun n p hp => ?_, fun n p hp => ?_, fun n g hg => ?_⟩
  · obtain ⟨rfl, rfl⟩ := hproto n p hp
    rfl
  · obtain ⟨rfl, rfl⟩ := hproto n p hp
    exact operatorArity_binaryName "|"
  · obtain ⟨hmem, rfl⟩ := CompilationUnit.find?_some hg
    cases List.mem_singleton.mp hmem
    exact operatorArity_unaryName '!'

theorem definitions_check_usesOperators : ∃ body t,
    lowerBody usesOperators.proto.params usesOperators.body (opened usesOperators (withOperators.announce usesOperators.proto))
      = .ok body t ∧
    (t.unit.put (compiled usesOperators body)).check (compiled usesOperators body) = .ok () := by
  have hok : ((lowerBody usesOperators.proto.params usesOperators.body).run'
      (opened usesOperators (withOperators.announce usesOperators.proto))).isSome := by decide +kernel
  have hname : '@' ∉ usesOperators.proto.name.toList := by decide
  cases h : lowerBody usesOperators.proto.params usesOperators.body
      (opened usesOperators (withOperators.announce usesOperators.proto)) with
  | error e t =>
    delta EStateM.run' EStateM.run at hok
    rw [h] at hok
    cases hok
  | ok body t =>
    obtain ⟨haccept, -⟩ := definitions_check.1 withOperators usesOperators withOperators_regular
      (operatorArity_of_not_mem hname _)
    exact ⟨body, t, rfl, (haccept body t (by decide +kernel) h).1⟩

end Session

end Kaleidoscope
