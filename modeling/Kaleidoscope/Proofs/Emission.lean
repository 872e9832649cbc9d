/-
  Kaleidoscope.Proofs.Emission — the code of a tree.

  Once names are resolved, code depends on nothing but the tree and the builder it is
  appended to: `Tree.emit`. Lowering an expression resolves it and emits its tree
  (`lower_emit`); lowering a function does so in a fresh builder, with its parameters in
  the first slots (`define_emit`). Slots have the numbers of the cells and places.

  What follows a value in control flow is cut at the points where the builder moves:
  `fork` tests a value and goes on in the first of two branches, `join` ends a branch by
  storing its value, `enterLoop` and `testLoop` start a loop and its body.
-/

import Kaleidoscope.Lowering.Function
import Kaleidoscope.Proofs.Separation
import Kaleidoscope.Proofs.Success

namespace Kaleidoscope

open Ir (Builder Value)

namespace Ir.Builder

def appendThree (x y z : String) (b : Builder) : (Nat × Nat × Nat) × Builder :=
  let p := b.appendBlock x
  let q := p.2.appendBlock y
  let r := q.2.appendBlock z
  ((p.1, q.1, r.1), r.2)

/-- A value compared with zero. -/
def test (v : Value) (b : Builder) : Value × Builder := b.compare .orderedUnequal v (.const 0)

/-- Tests `v` and goes on in the first of three new blocks, the second being for a failed
    test. -/
def fork (v : Value) (b : Builder) : (Nat × Nat × Nat) × Builder :=
  let c := b.test v
  let k := c.2.appendThree "if.then" "if.else" "if.end"
  (k.1, (k.2.condBranch c.1 k.1.1 k.1.2.1).position k.1.1)

/-- Ends a branch with `v`, to be found in slot `s` at block `target`, and goes on in
    block `next`. -/
def join (v : Value) (s target next : Nat) (b : Builder) : Builder :=
  ((b.store v s).branch target).position next

/-- Stores `v`, the start value of a loop, and goes on in the first of three new blocks. -/
def enterLoop (v : Value) (s : Nat) (b : Builder) : (Nat × Nat × Nat) × Builder :=
  let k := (b.store v s).appendThree "for.test" "for.body" "for.end"
  (k.1, (k.2.branch k.1.1).position k.1.1)

/-- Tests `v` and goes on in block `yes`. -/
def testLoop (v : Value) (yes no : Nat) (b : Builder) : Builder :=
  let c := b.test v
  (c.2.condBranch c.1 yes no).position yes

/-- A slot for each parameter, the first of them being parameter `i`. -/
def enterParams : Nat → List String → Builder → Builder
  | _, [], b => b
  | i, param :: params, b => enterParams (i + 1) params ((b.alloca param).2.store (.param i) b.body.slots.size)

end Ir.Builder

namespace Tree

mutual

def emit : Tree → Builder → Value × Builder
  | .const x, b => (.const x, b)
  | .read c, b => b.load c
  | .assign c t, b =>
    let r := emit t b
    (r.1, r.2.store r.1 c)
  | .declare c name t, b =>
    let r := emit t b
    (r.1, (r.2.alloca name).2.store r.1 c)
  | .arith op l r, b =>
    let x := emit l b
    let y := emit r x.2
    y.2.arith op x.1 y.1
  | .less l r, b =>
    let x := emit l b
    let y := emit r x.2
    let c := y.2.compare .unorderedLess x.1 y.1
    c.2.toDouble c.1
  | .call callee args, b =>
    let vs := emitArguments args b
    vs.2.call callee vs.1
  | .cond place t y n, b =>
    let v := emit t (b.alloca "if.result").2
    let k := v.2.fork v.1
    let x := emit y k.2
    let z := emit n (x.2.join x.1 place k.1.2.2 k.1.2.1)
    (z.2.join z.1 place k.1.2.2 k.1.2.2).load place
  | .loop c name start stop body step, b =>
    let s := emit start (b.alloca name).2
    let k := s.2.enterLoop s.1 c
    let t := emit stop k.2
    let x := emit body (t.2.testLoop t.1 k.1.2.1 k.1.2.2)
    let y := emit step x.2
    (.const 0, y.2.join y.1 c k.1.1 k.1.2.2)
  | .seq ts, b => emitMembers ts (.const 0) b

def emitArguments : List Tree → Builder → List Value × Builder
  | [], b => ([], b)
  | t :: ts, b =>
    let v := emit t b
    let vs := emitArguments ts v.2
    (v.1 :: vs.1, vs.2)

/-- The value of the last member; `last` if there is none. -/
def emitMembers : List Tree → Value → Builder → Value × Builder
  | [], last, b => (last, b)
  | t :: ts, _, b =>
    let v := emit t b
    emitMembers ts v.1 v.2

end

/-- The body of a function: parameters in the first slots, then the result's slot. -/
def code (params : List String) (t : Tree) : Ir.Body :=
  let ret := params.length
  let r := emit t (((({} : Builder).appendBlock "entry").2.enterParams 0 params).alloca "ret").2
  let v := (r.2.store r.1 ret).load ret
  (v.2.ret v.1).body

end Tree

/-! ## Lowering is resolution and emission -/

namespace Lowering

open Resolve

variable {s s' : Lowering}

theorem lower_cond (test yes : Expr) (no : Option Expr) : lower (.cond test yes no) = (do
    let place ← build (Builder.alloca "if.result")
    let t ← lower test
    let k ← build (Builder.fork t)
    let y ← lower yes
    emit (Builder.join y place k.2.2 k.2.1)
    let n ← lowerOption no
    emit (Builder.join n place k.2.2 k.2.2)
    build (Builder.load place)) := by
  simp only [lower]
  rfl

theorem lower_loop (name : String) (start stop body : Expr) (step : Option Expr) :
    lower (.loop name start stop step body) = (do
    let cell ← build (Builder.alloca name)
    let v ← lower start
    let k ← build (Builder.enterLoop v cell)
    let hidden := (← get).locals.find? name
    modify (bind name cell)
    ensuring
      (do
        let t ← lower stop
        emit (Builder.testLoop t k.2.1 k.2.2)
        let _ ← lower body
        let next ← lowerOption step
        emit (Builder.join next cell k.1 k.2.2))
      (restore name hidden)
    pure zero) := by
  simp only [lower]
  rfl

/-- The scope at the point a function is lowered to. -/
def scope (s : Lowering) : Scope := ⟨s.locals, s.scopes, s.builder.body.slots.size⟩

theorem scope_next (s : Lowering) : s.scope.next = s.builder.body.slots.size := rfl

theorem alloca_fst (name : String) (b : Builder) : (b.alloca name).1 = b.body.slots.size := rfl

theorem scope_alloca (s : Lowering) (name : String) :
    (s.withBuilder (s.builder.alloca name).2).scope = s.scope.pass := by
  simp only [scope, Scope.pass, withBuilder_builder, Builder.alloca, Array.size_push]
  rfl

theorem scope_fork (s : Lowering) (v : Value) : (s.withBuilder (s.builder.fork v).2).scope = s.scope := rfl

theorem scope_join (s : Lowering) (v : Value) (i j k : Nat) :
    (s.withBuilder (s.builder.join v i j k)).scope = s.scope := rfl

theorem scope_enterLoop (s : Lowering) (v : Value) (i : Nat) :
    (s.withBuilder (s.builder.enterLoop v i).2).scope = s.scope := rfl

theorem scope_testLoop (s : Lowering) (v : Value) (i j : Nat) :
    (s.withBuilder (s.builder.testLoop v i j)).scope = s.scope := rfl

theorem scope_bind (s : Lowering) (name : String) (c : Nat) : (s.bind name c).scope = s.scope.bind name c := rfl

theorem scope_openScope (s : Lowering) : s.openScope.scope = s.scope.openBlock := rfl

theorem scope_closeScope (s : Lowering) :
    s.closeScope.scope = s.scope.closeBlock ∧ s.closeScope.builder = s.builder := by
  obtain ⟨unit, registry, ops, builder, locals, _ | ⟨block, outer⟩⟩ := s
  · exact ⟨rfl, rfl⟩
  · exact ⟨rfl, rfl⟩

theorem resolve?_scope {name : String} {o : Option Nat} (h : resolve? name s = .ok o s') :
    s'.scope = s.scope ∧ s'.builder = s.builder := by
  obtain ⟨unit, rfl⟩ := resolve?_ok h
  exact ⟨rfl, rfl⟩

/-- The resolution of an expression and the code of its tree are what lowering it leaves. -/
def Emits (e : Expr) : Prop :=
  ∀ {s s' : Lowering} {v : Value}, lower e s = .ok v s' →
    ∃ t, e.resolve s.scope = some (t, s'.scope) ∧ t.emit s.builder = (v, s'.builder)

theorem emits_option {o : Option Expr} (ih : ∀ e ∈ o, Emits e) {v : Value} (h : lowerOption o s = .ok v s') :
    ∃ t, Expr.resolveOption o s.scope = some (t, s'.scope) ∧ t.emit s.builder = (v, s'.builder) := by
  cases o with
  | none =>
    simp only [lowerOption, pure_ok_iff] at h
    obtain ⟨rfl, rfl⟩ := h
    exact ⟨.const 0, by simp only [Expr.resolveOption]; rfl, by simp only [Tree.emit]; rfl⟩
  | some e =>
    simp only [lowerOption] at h
    obtain ⟨t, hr, he⟩ := ih e rfl h
    exact ⟨t, by simpa only [Expr.resolveOption] using hr, he⟩

theorem emits_arguments {es : List Expr} (ih : ∀ e ∈ es, Emits e) {vs : List Value} {s : Lowering}
    (h : lowerArguments es s = .ok vs s') :
    ∃ ts, Expr.resolveArguments es s.scope = some (ts, s'.scope) ∧
      Tree.emitArguments ts s.builder = (vs, s'.builder) := by
  induction es generalizing s vs with
  | nil =>
    simp only [lowerArguments, pure_ok_iff] at h
    obtain ⟨rfl, rfl⟩ := h
    exact ⟨[], by simp only [Expr.resolveArguments]; rfl, by simp only [Tree.emitArguments]⟩
  | cons e es ihs =>
    simp only [lowerArguments, bind_ok_iff, pure_ok_iff] at h
    obtain ⟨v, s₁, h₁, vs, s₂, h₂, rfl, rfl⟩ := h
    obtain ⟨t, hr₁, he₁⟩ := ih e List.mem_cons_self h₁
    obtain ⟨ts, hr₂, he₂⟩ := ihs (fun e he => ih e (List.mem_cons_of_mem _ he)) h₂
    refine ⟨t :: ts, ?_, ?_⟩
    · simp only [Expr.resolveArguments, bind_some hr₁, bind_some hr₂]
      rfl
    · simp only [Tree.emitArguments, he₁, he₂]

theorem emits_members {es : List Expr} (ih : ∀ e ∈ es, Emits e) {last v : Value} {s : Lowering}
    (h : lowerMembers es last s = .ok v s') :
    ∃ ts, Expr.resolveArguments es s.scope = some (ts, s'.scope) ∧
      Tree.emitMembers ts last s.builder = (v, s'.builder) := by
  induction es generalizing s last with
  | nil =>
    simp only [lowerMembers, pure_ok_iff] at h
    obtain ⟨rfl, rfl⟩ := h
    exact ⟨[], by simp only [Expr.resolveArguments]; rfl, by simp only [Tree.emitMembers]⟩
  | cons e es ihs =>
    simp only [lowerMembers, bind_ok_iff] at h
    obtain ⟨v, s₁, h₁, h₂⟩ := h
    obtain ⟨t, hr₁, he₁⟩ := ih e List.mem_cons_self h₁
    obtain ⟨ts, hr₂, he₂⟩ := ihs (fun e he => ih e (List.mem_cons_of_mem _ he)) h₂
    refine ⟨t :: ts, ?_, ?_⟩
    · simp only [Expr.resolveArguments, bind_some hr₁, bind_some hr₂]
      rfl
    · simp only [Tree.emitMembers, he₁, he₂]

theorem combine_emit {op : String} {l r v : Value} {b b' : Builder} {tl tr : Tree}
    (h : combine op l r s = .ok v s') (hl : tl.emit b = (l, b')) (hr : tr.emit b' = (r, s.builder)) :
    s'.scope = s.scope ∧ (Tree.combine op tl tr).emit b = (v, s'.builder) := by
  unfold combine at h
  split at h
  · obtain ⟨rfl, rfl⟩ := build_ok_iff.mp h
    exact ⟨rfl, by simp only [Tree.combine, Tree.emit, hl, hr]; rfl⟩
  · obtain ⟨rfl, rfl⟩ := build_ok_iff.mp h
    exact ⟨rfl, by simp only [Tree.combine, Tree.emit, hl, hr]; rfl⟩
  · obtain ⟨rfl, rfl⟩ := build_ok_iff.mp h
    exact ⟨rfl, by simp only [Tree.combine, Tree.emit, hl, hr]; rfl⟩
  · simp only [build_bind_run] at h
    obtain ⟨rfl, rfl⟩ := build_ok_iff.mp h
    exact ⟨rfl, by simp only [Tree.combine, Tree.emit, hl, hr]; rfl⟩
  · obtain ⟨o, s₁, ho, h⟩ := bind_ok_iff.mp h
    obtain ⟨hs, hb⟩ := resolve?_scope ho
    cases o with
    | none => exact (throw_ok_iff.mp h).elim
    | some n =>
      obtain ⟨rfl, rfl⟩ := build_ok_iff.mp h
      refine ⟨hs, ?_⟩
      -- Unfolded here and not above: the split of `combine` would take this match with it.
      unfold Tree.combine
      split
      · contradiction
      · contradiction
      · contradiction
      · contradiction
      · simp only [Tree.emit, Tree.emitArguments, hl, hr, hb, withBuilder_builder]

theorem lower_emit (e : Expr) : Emits e := by
  induction e using Expr.induction with
  | number x =>
    intro s s' v h
    simp only [lower, pure_ok_iff] at h
    obtain ⟨rfl, rfl⟩ := h
    exact ⟨.const x, by simp only [Expr.resolve]; rfl, by simp only [Tree.emit]⟩
  | ref name =>
    intro s s' v h
    simp only [lower, bind_ok_iff, slotOf_ok_iff, build_ok_iff] at h
    obtain ⟨c, _, ⟨hc, rfl⟩, rfl, rfl⟩ := h
    have hr : cellOf name s.scope = some (c, s.scope) := by simp [cellOf, scope, hc]
    refine ⟨.read c, ?_, by simp only [Tree.emit]; rfl⟩
    simp only [Expr.resolve, bind_some hr]
    rfl
  | var name init ih =>
    intro s s' v h
    simp only [lower, bind_ok_iff, modify_bind_run, build_bind_run, emit_bind_run, pure_ok_iff] at h
    obtain ⟨v, s₁, h₁, rfl, rfl⟩ := h
    obtain ⟨t, hr, he⟩ := emits_option ih h₁
    refine ⟨.declare s₁.builder.body.slots.size name t, ?_, ?_⟩
    · simp only [Expr.resolve, bind_some hr, fresh_run, modify_run, scope_next, ← scope_alloca s₁ name]
      rfl
    · simp only [Tree.emit, he]
      rfl
  | unary op operand ih =>
    intro s s' v h
    simp only [lower, bind_ok_iff] at h
    obtain ⟨x, s₁, h₁, o, s₂, ho, h⟩ := h
    obtain ⟨t, hr, he⟩ := ih h₁
    obtain ⟨hs, hb⟩ := resolve?_scope ho
    cases o with
    | none => exact (throw_ok_iff.mp h).elim
    | some n =>
      obtain ⟨rfl, rfl⟩ := build_ok_iff.mp h
      refine ⟨.call (Prototype.unaryName op) [t], ?_, ?_⟩
      · simp only [Expr.resolve, bind_some hr, ← hs]
        rfl
      · simp only [Tree.emit, Tree.emitArguments, he, ← hb]
        rfl
  | binary op lhs rhs ihl ihr =>
    intro s s' v h
    by_cases hop : op = "="
    · subst hop
      cases lhs with
      | ref name =>
        simp only [lower, if_true, bind_ok_iff, slotOf_ok_iff, emit_bind_run, pure_ok_iff] at h
        obtain ⟨x, s₁, h₁, c, _, ⟨hc, rfl⟩, rfl, rfl⟩ := h
        obtain ⟨t, hr, he⟩ := ihr h₁
        have hc' : cellOf name s₁.scope = some (c, s₁.scope) := by simp [cellOf, scope, hc]
        refine ⟨.assign c t, ?_, by simp only [Tree.emit, he]; rfl⟩
        simp only [Expr.resolve, if_true, bind_some hr, bind_some hc']
        rfl
      | _ => simp only [lower, if_true, throw_ok_iff] at h
    · simp only [lower, if_neg hop, bind_ok_iff] at h
      obtain ⟨l, s₁, h₁, r, s₂, h₂, h⟩ := h
      obtain ⟨tl, hr₁, he₁⟩ := ihl h₁
      obtain ⟨tr, hr₂, he₂⟩ := ihr h₂
      obtain ⟨hs, he⟩ := combine_emit h he₁ he₂
      refine ⟨.combine op tl tr, ?_, he⟩
      simp only [Expr.resolve, if_neg hop, bind_some hr₁, bind_some hr₂, hs]
      rfl
  | call callee args ih =>
    intro s s' v h
    simp only [lower, bind_ok_iff] at h
    obtain ⟨o, s₁, ho, h⟩ := h
    obtain ⟨hs, hb⟩ := resolve?_scope ho
    cases o with
    | none => exact (throw_ok_iff.mp h).elim
    | some n =>
      simp only at h
      split at h
      · obtain ⟨vs, s₂, h₂, h⟩ := bind_ok_iff.mp h
        obtain ⟨rfl, rfl⟩ := build_ok_iff.mp h
        obtain ⟨ts, hr, he⟩ := emits_arguments ih h₂
        rw [hs] at hr
        rw [hb] at he
        refine ⟨.call callee ts, ?_, by simp only [Tree.emit, he]; rfl⟩
        simp only [Expr.resolve, bind_some hr]
        rfl
      · exact (throw_ok_iff.mp h).elim
  | cond test yes no iht ihy ihn =>
    intro s s' v h
    simp only [lower_cond, bind_ok_iff, build_bind_run, emit_bind_run, build_ok_iff] at h
    obtain ⟨t, s₁, h₁, y, s₂, h₂, n, s₃, h₃, rfl, rfl⟩ := h
    obtain ⟨tt, hr₁, he₁⟩ := iht h₁
    obtain ⟨ty, hr₂, he₂⟩ := ihy h₂
    obtain ⟨tn, hr₃, he₃⟩ := emits_option ihn h₃
    rw [scope_alloca] at hr₁
    rw [scope_fork] at hr₂
    rw [scope_join] at hr₃
    refine ⟨.cond s.builder.body.slots.size tt ty tn, ?_, ?_⟩
    · simp only [Expr.resolve, fresh_run, bind_some hr₁, bind_some hr₂, bind_some hr₃]
      rfl
    · simp only [withBuilder_builder, alloca_fst] at he₁ he₂ he₃
      simp only [Tree.emit, he₁, he₂, he₃]
      rfl
  | loop name start stop step body iha ihb ihc ihd =>
    intro s s' v h
    simp only [lower_loop, bind_ok_iff, build_bind_run, emit_ok_iff, emit_bind_run, get_bind_run, modify_bind_run,
      ensuring_ok_iff, pure_ok_iff] at h
    obtain ⟨a, s₁, h₁, _, _, ⟨_, ⟨t, s₂, h₂, b, s₃, h₃, n, s₄, h₄, rfl⟩, rfl⟩, rfl, rfl⟩ := h
    obtain ⟨ta, hr₁, he₁⟩ := iha h₁
    obtain ⟨tb, hr₂, he₂⟩ := ihb h₂
    obtain ⟨td, hr₃, he₃⟩ := ihd h₃
    obtain ⟨tc, hr₄, he₄⟩ := emits_option ihc h₄
    rw [scope_alloca] at hr₁
    rw [scope_bind, scope_enterLoop, alloca_fst] at hr₂
    rw [scope_testLoop] at hr₃
    refine ⟨.loop s.builder.body.slots.size name ta tb td tc, ?_, ?_⟩
    · simp only [Expr.resolve, fresh_run, scope_next, bind_some hr₁, get_run, modify_run, bind_some hr₂, bind_some hr₃,
        bind_some hr₄]
      rfl
    · have he₂ : tb.emit (s₁.builder.enterLoop a s.builder.body.slots.size).2 = (t, s₂.builder) := he₂
      simp only [withBuilder_builder, alloca_fst] at he₁ he₃ he₄
      simp only [Tree.emit, he₁, he₂, he₃, he₄]
      rfl
  | block es ih =>
    intro s s' v h
    simp only [lower, modify_bind_run, ensuring_ok_iff] at h
    obtain ⟨s₁, h₁, rfl⟩ := h
    obtain ⟨ts, hr, he⟩ := emits_members ih h₁
    obtain ⟨hs, hb⟩ := scope_closeScope s₁
    rw [scope_openScope] at hr
    refine ⟨.seq ts, ?_, ?_⟩
    · simp only [Expr.resolve, modify_run, bind_some hr, hs]
      rfl
    · simp only [Tree.emit, hb]
      exact he

/-! ## Functions -/

theorem enterParams_ok {i : Nat} {params : List String} {u : Unit} (h : enterParams i params s = .ok u s') :
    s'.scope = s.scope.enter params ∧ s'.builder = s.builder.enterParams i params := by
  induction params generalizing s i with
  | nil =>
    simp only [enterParams, pure_ok_iff] at h
    obtain ⟨-, rfl⟩ := h
    exact ⟨rfl, rfl⟩
  | cons param params ih =>
    simp only [enterParams, build_bind_run, emit_bind_run, modify_bind_run] at h
    obtain ⟨hs, hb⟩ := ih h
    refine ⟨hs.trans ?_, hb⟩
    have ha : (s.withBuilder (s.builder.alloca param).2).scope.bind param s.scope.next
        = (s.scope.bind param s.scope.next).pass := by rw [scope_alloca]; rfl
    show _ = Scope.enter params (s.scope.bind param s.scope.next).pass
    rw [← ha]
    rfl

theorem slots_enterParams (i : Nat) (params : List String) (b : Builder) :
    (b.enterParams i params).body.slots.size = b.body.slots.size + params.length := by
  induction params generalizing i b with
  | nil => rfl
  | cons param params ih =>
    have hs : ((b.alloca param).2.store (.param i) b.body.slots.size).body.slots.size = b.body.slots.size + 1 :=
      Array.size_push _
    rw [Builder.enterParams, ih, hs, List.length_cons]
    omega

theorem lowerBody_emit {params : List String} {e : Expr} {body : Ir.Body} (h : lowerBody params e s = .ok body s') :
    ∃ t scope, e.resolve (Scope.enter params {}).pass = some (t, scope) ∧ body = t.code params ∧
      t.Separate body.slots.size := by
  simp only [lowerBody, modify_bind_run, build_bind_run, emit_bind_run, get_bind_run, bind_ok_iff, pure_ok_iff] at h
  obtain ⟨_, s₁, h₁, v, s₂, h₂, rfl, -⟩ := h
  obtain ⟨hs, hb⟩ := enterParams_ok h₁
  obtain ⟨t, hr, he⟩ := lower_emit e h₂
  have hb : s₁.builder = (({} : Builder).appendBlock "entry").2.enterParams 0 params := hb
  have hs : s₁.scope = Scope.enter params {} := hs
  have hn : s₁.builder.body.slots.size = params.length := by
    rw [hb, slots_enterParams]
    exact Nat.zero_add _
  rw [scope_alloca, hs] at hr
  rw [withBuilder_builder, hb] at he
  refine ⟨t, _, hr, ?_, resolve_separate hr⟩
  simp only [Tree.code, he, alloca_fst, hn]
  rfl

theorem lowerFunction_emit {d : Definition} {f : Ir.Function} (h : lowerFunction d s = .ok f s') :
    ∃ t, d.resolve? = some t ∧ t.Separate (t.code d.proto.params).slots.size ∧
      f = { name := d.proto.name, params := d.proto.params, body := some (t.code d.proto.params) } := by
  simp only [lowerFunction, get_bind_run, modify_bind_run] at h
  split at h
  · obtain ⟨body, s₁, h₁, h⟩ := bind_ok_iff.mp h
    obtain ⟨t, scope, hr, rfl, hs⟩ := lowerBody_emit h₁
    simp only [modify_bind_run, get_bind_run] at h
    generalize Ir.CompilationUnit.check _ _ = checked at h
    cases checked with
    | ok u =>
      obtain ⟨rfl, -⟩ := pure_ok_iff.mp h
      exact ⟨t, by simp only [Definition.resolve?, hr, Option.map_some], hs, rfl⟩
    | error defect => exact (throw_ok_iff.mp h).elim
  · exact (throw_ok_iff.mp h).elim

/-- A definition that is accepted is compiled to the code of its tree, in which variables
    and results have slots of their own. -/
theorem define_emit {d : Definition} {f : Ir.Function} (h : define d s = .ok f s') :
    ∃ t, d.resolve? = some t ∧ t.Separate (t.code d.proto.params).slots.size ∧
      f = { name := d.proto.name, params := d.proto.params, body := some (t.code d.proto.params) } := by
  unfold define at h
  split at h
  · cases h
  · split at h
    · rename_i g s₁ hg
      cases h
      exact lowerFunction_emit hg
    · cases h

end Lowering

end Kaleidoscope
