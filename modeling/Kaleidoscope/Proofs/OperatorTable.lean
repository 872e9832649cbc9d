/-
  Kaleidoscope.Proofs.OperatorTable — precedences against definitions.

  Three tables know of a binary operator: the precedences, by which it is read; the
  registry, by which it is lowered; and the engine, which has its function. The precedence
  is set before the body of its definition is lowered, over a builtin one if there is one,
  and set back if the definition fails; a declaration does not touch it. So between turns
  an operator has the precedence of its definition if there is one, and otherwise the one
  it had at the start (`Session.Tabulates`).

  It follows that the parser makes binary nodes only of builtin operators and of those
  whose functions are compiled, and that no session finds a binary operator unknown
  (`Run.operator_table`).
-/

import Kaleidoscope.Proofs.Concord
import Kaleidoscope.Proofs.Operators
import Kaleidoscope.Proofs.Position

namespace Kaleidoscope

open Prototype (binaryName)

/-! ## Prototypes of operators -/

theorem binaryName_injective {op op' : String} (h : binaryName op = binaryName op') : op = op' :=
  (String.append_right_inj "binary@").mp h

/-- An operator is read back from a name past the marker. -/
theorem Prototype.operator?_of_name {p : Prototype} {op : String} (hkind : p.kind ≠ .function)
    (hname : p.name = p.kind.marker ++ op) : p.operator? = some op := by
  rw [operator?, if_neg hkind, hname, String.toList_append, ← Source.width_toList, Source.dropBytes?_width,
    Option.map_some, String.ofList_toList]

theorem operatorOf?_binary (op : String) (precedence : Nat) (lhs rhs : String) :
    Lowering.operatorOf? (.binary op precedence lhs rhs) = some op := by
  have hkind : (Prototype.binary op precedence lhs rhs).kind = .binary := rfl
  rw [Lowering.operatorOf?, if_pos hkind]
  exact Prototype.operator?_of_name nofun rfl

/-- A prototype sets the precedence of the operator that it is named by, if it is named by
    one, and to a number from 1 to 100. -/
structure Prototype.Tabular (p : Prototype) : Prop where
  operator : ∀ op, Lowering.operatorOf? p = some op ↔ p.name = binaryName op
  range : ∀ op, p.name = binaryName op → 1 ≤ p.precedence ∧ p.precedence ≤ 100

namespace Prototype

theorem tabular_of_ne {p : Prototype} (hkind : p.kind ≠ .binary) (hname : ∀ op, p.name ≠ binaryName op) : p.Tabular := by
  refine ⟨fun op => ⟨fun h => ?_, fun h => absurd h (hname op)⟩, fun op h => absurd h (hname op)⟩
  rw [Lowering.operatorOf?, if_neg hkind] at h
  cases h

theorem tabular_function {name : String} (h : '@' ∉ name.toList) (params : List String) :
    (Prototype.function name params).Tabular := by
  refine tabular_of_ne (by simp [Prototype.function]) fun op hname => h ?_
  rw [show name = binaryName op from hname]
  simp [binaryName, Kind.marker, String.toList_append]

theorem tabular_unary (op : Char) (param : String) : (Prototype.unary op param).Tabular := by
  refine tabular_of_ne (by simp [Prototype.unary]) fun op' hname => ?_
  have hhead := head?_unaryName op
  rw [show unaryName op = binaryName op' from hname, head?_binaryName] at hhead
  cases hhead

theorem tabular_binary {op : String} {precedence : Nat} (h : 1 ≤ precedence ∧ precedence ≤ 100) (lhs rhs : String) :
    (Prototype.binary op precedence lhs rhs).Tabular := by
  refine ⟨fun op' => ?_, fun _ _ => h⟩
  rw [operatorOf?_binary, Option.some.injEq]
  exact ⟨fun hop => by rw [hop]; rfl, binaryName_injective⟩

end Prototype

namespace Parser

open Source

variable {p q : Parser}

theorem precedenceHere_range {precedence : Nat} (hp : p.Lexed) (h : precedenceHere p = .ok precedence q) :
    1 ≤ precedence ∧ precedence ≤ 100 := by
  have hspelled := hp.cur
  obtain ⟨t, r, ht, h⟩ := bind_ok_iff.mp h
  obtain ⟨rfl, rfl⟩ : p.cur = t ∧ p = r := pure_ok_iff.mp ht
  generalize p.cur = t at h hspelled
  split at h
  · rename_i x
    split at h
    · cases h
    · rename_i hrange
      obtain ⟨_, _, -, h⟩ := bind_ok_iff.mp h
      obtain ⟨rfl, -⟩ := pure_ok_iff.mp h
      simp only [Bool.or_eq_true, decide_eq_true_eq, not_or] at hrange
      exact Decimal.toUInt32_range hspelled hrange.1 hrange.2
  · obtain ⟨rfl, -⟩ := pure_ok_iff.mp h
    decide

/-- A prototype that was read sets the precedence of its operator. -/
theorem prototype_tabular {proto : Prototype} (hp : p.Lexed) (h : prototype p = .ok proto q) : proto.Tabular := by
  simp only [prototype, bind_ok_iff] at h
  obtain ⟨hd, _, hhead, _, _, _, params, _, _, _, _, _, h⟩ := h
  rcases prototypeOf_ok h with ⟨name, rfl, rfl⟩ | ⟨op, param, -, rfl⟩ | ⟨op, precedence, lhs, rhs, rfl, rfl⟩
  · have hspelled := hp.cur
    rw [head_function hhead] at hspelled
    exact Prototype.tabular_function hspelled.2 params
  · exact Prototype.tabular_unary op param
  · obtain ⟨r, hr, hprec⟩ := head_binary hhead
    exact Prototype.tabular_binary (precedenceHere_range (hr.lexed hp) hprec) lhs rhs

theorem definition_tabular {ops : Operator.Precedences} {d : Definition} (hp : p.Lexed) (h : definition ops p = .ok d q) :
    d.proto.Tabular := by
  obtain ⟨p₁, p₂, hp₁, h₁⟩ := definition_proto hp h
  exact prototype_tabular hp₁ h₁

theorem wrapper_tabular {ops : Operator.Precedences} {d : Definition} (h : wrapper ops p = .ok d q) :
    d.proto.Tabular := by
  have hname : d.proto.name = wrapperName p.wrapped := by rw [(wrapper_named h).1]; rfl
  refine Prototype.tabular_of_ne (by rw [(wrapper_named h).1]; simp [Prototype.function]) fun op hop => ?_
  refine not_reserved_binaryName op ?_
  rw [← hop, hname]
  exact reserved_wrapperName _

theorem definition_uses {ops : Operator.Precedences} {d : Definition} (h : definition ops p = .ok d q) :
    d.body.Uses (Ranked ops) := by
  simp only [definition, bind_ok_iff, pure_ok_iff] at h
  obtain ⟨_, _, -, proto, _, -, body, _, hbody, rfl, -⟩ := h
  exact expression_uses hbody

theorem wrapper_uses {ops : Operator.Precedences} {d : Definition} (h : wrapper ops p = .ok d q) :
    d.body.Uses (Ranked ops) := by
  obtain ⟨r, hbody, -⟩ := wrapper_ok h
  exact expression_uses hbody

end Parser

/-- Announcing a function sets the precedence of the operator it is named by. -/
theorem Lowering.find?_announce {p : Prototype} (hp : p.Tabular) (s : Lowering) (op : String) :
    (s.announce p).ops.find? op = if p.name = binaryName op then some p.precedence else s.ops.find? op := by
  unfold announce
  cases ho : operatorOf? p with
  | none =>
    have hne : p.name ≠ binaryName op := fun hname => by
      rw [(hp.operator op).mpr hname] at ho
      cases ho
    rw [if_neg hne]
  | some op' =>
    have hname : p.name = binaryName op' := (hp.operator op').mp ho
    simp only [Bindings.find?_insert]
    by_cases hop : op' = op
    · rw [if_pos hop, if_pos (by rw [hname, hop])]
    · rw [if_neg hop, if_neg fun h => hop (binaryName_injective (hname.symm.trans h))]

namespace Session

variable {s s' : Session} {past : List (Session × Handled)} {r : Handled} {d : Definition} {q : Parser} {f : Ir.Function}
  {l : Lowering} {e : Engine} {op : String}

/-! ## The table -/

/-- Defined operators have the precedences of their definitions, all others those that
    they had at the start. -/
structure Tabulates (s : Session) : Prop where
  defined : ∀ op entry, s.registry.find? (binaryName op) = some entry → entry.defined = true →
    s.ops.find? op = some entry.proto.precedence ∧ 1 ≤ entry.proto.precedence ∧ entry.proto.precedence ≤ 100
  other : ∀ op, s.registry.isDefined (binaryName op) = false → s.ops.find? op = Operator.builtin.find? op

theorem tabulates_ofText (source : String) : (ofText source).Tabulates := by
  refine ⟨fun op entry hfind => ?_, fun op _ => rfl⟩
  cases hfind

theorem Tabulates.congr (h : s.Tabulates) (hr : s'.registry = s.registry) (hops : s'.ops = s.ops) : s'.Tabulates := by
  constructor
  · rw [hr, hops]
    exact h.defined
  · rw [hr, hops]
    exact h.other

/-- The registry may change as long as the defined operators are the same. -/
theorem Tabulates.of_registry (h : s.Tabulates) (hops : s'.ops = s.ops)
    (hdefined : ∀ op, s'.registry.isDefined (binaryName op) = s.registry.isDefined (binaryName op))
    (hfind : ∀ op, s.registry.isDefined (binaryName op) = true →
      s'.registry.find? (binaryName op) = s.registry.find? (binaryName op)) : s'.Tabulates := by
  refine ⟨fun op entry hentry hdef => ?_, fun op hundef => ?_⟩
  · have hold := (hdefined op).symm.trans ((Registry.isDefined_of_find? hentry).trans hdef)
    rw [hops]
    exact h.defined op entry ((hfind op hold).symm.trans hentry) hdef
  · rw [hops]
    exact h.other op ((hdefined op).symm.trans hundef)

/-- A definition that was lowered has set the precedence of its operator, and no other. -/
theorem Tabulates.defines (h : s.Tabulates) (hproto : d.proto.Tabular) (hl : Lowering.define d s.lowering = .ok f l) :
    (((s.passed q).lowered l).handedOver e).Tabulates := by
  have hfind := (Lowering.define_ok hl).find?
  have hops : ∀ op, l.ops.find? op = if d.proto.name = binaryName op then some d.proto.precedence else s.ops.find? op := by
    intro op
    rw [Lowering.define_ok_ops hl]
    exact Lowering.find?_announce hproto s.lowering op
  refine ⟨fun op entry hentry hdef => ?_, fun op hundef => ?_⟩
  · show l.ops.find? op = _ ∧ _
    have hentry := (hfind (binaryName op)).symm.trans hentry
    rw [hops]
    by_cases hname : d.proto.name = binaryName op
    · rw [if_pos hname] at hentry ⊢
      cases hentry
      exact ⟨rfl, hproto.range op hname⟩
    · rw [if_neg hname] at hentry ⊢
      exact h.defined op entry hentry hdef
  · show l.ops.find? op = _
    have hundef : l.registry.isDefined (binaryName op) = false := hundef
    rw [hops]
    by_cases hname : d.proto.name = binaryName op
    · rw [Registry.isDefined_of_find? ((hfind (binaryName op)).trans (if_pos hname))] at hundef
      cases hundef
    · rw [if_neg hname]
      exact h.other op ((Registry.isDefined_congr ((hfind (binaryName op)).trans (if_neg hname))).symm.trans hundef)

theorem Tabulates.takes (hs : s.WellFormed) (h : s.Tabulates) (ht : s.Takes r) : r.session.Tabulates := by
  have hpassed : ∀ q, (s.passed q).Tabulates := fun q => h.congr rfl rfl
  cases ht with
  | ended _ => exact h
  | skipped _ => exact hpassed _
  | unpassed _ => exact hpassed _
  | unread _ => exact hpassed _
  | undeclared _ hl =>
    cases Lowering.declare_error hl
    exact hpassed _
  | @declared proto _ _ _ _ hl =>
    obtain ⟨-, -, rfl⟩ := Lowering.declare_ok hl
    refine h.of_registry rfl (fun op => ?_) (fun op hdef => ?_)
    · exact Lowering.isDefined_declared proto s.lowering (binaryName op)
    · exact Lowering.find?_declared proto hdef
  | undefined _ hl =>
    obtain ⟨hregistry, hops⟩ := Lowering.define_error_tables hl
    exact h.congr hregistry hops
  | rejected hp hl _ => exact h.defines (Parser.definition_tabular hs.lexed hp) hl
  | defined hp hl _ => exact h.defines (Parser.definition_tabular hs.lexed hp) hl
  | wrapperRejected hp hl _ => exact h.defines (Parser.wrapper_tabular hp) hl
  | @evaluated d p f l e _ hp hl hadd heval =>
    have hloaded : (((s.passed p).lowered l).handedOver e).Tabulates := h.defines (Parser.wrapper_tabular hp) hl
    cases heval with
    | unlinked _ => exact hloaded
    | stopped _ _ _ => exact hloaded
    | returned _ _ _ =>
      -- what is erased is the name of a wrapper, not that of an operator
      have hfind : ∀ op, Bindings.find? (l.registry.erase f.name) (binaryName op) = l.registry.find? (binaryName op) := by
        intro op
        rw [Bindings.find?_erase, if_neg fun hname => ?_]
        have hres := (reserved_of_wrapper hp).1
        rw [← (Lowering.define_ok hl).name, hname] at hres
        exact not_reserved_binaryName op hres
      exact hloaded.of_registry rfl (fun op => Registry.isDefined_congr (hfind op)) (fun op _ => hfind op)

theorem Run.tabulates {source : String} (h : Run source past s) : s.Tabulates := by
  induction h with
  | start => exact tabulates_ofText source
  | turn budget hrun hn ih => exact ih.takes hrun.wellFormed (next_takes hn)

/-! ## Main statement -/

theorem mem_of_builtin {prec : Nat} (h : Operator.builtin.find? op = some prec) : op ∈ ["=", "+", "-", "*", "<"] := by
  have hall : ∀ x ∈ Operator.builtin, x.1 ∈ ["=", "+", "-", "*", "<"] := by decide
  exact hall (op, prec) (Bindings.mem_of_find? h)

/-- An operator that has a precedence is builtin, or its function is compiled and takes two
    arguments. -/
theorem Tabulates.ranked (hs : s.WellFormed) (hc : s.Concords) (h : s.Tabulates) (hop : Parser.Ranked s.ops op) :
    op ∈ ["=", "+", "-", "*", "<"] ∨
      s.registry.isDefined (binaryName op) = true ∧ ∃ f, s.engine.Compiled (binaryName op) f ∧ f.arity = 2 := by
  obtain ⟨prec, hprec⟩ := hop
  cases hdef : s.registry.isDefined (binaryName op) with
  | false =>
    rw [h.other op hdef] at hprec
    exact .inl (mem_of_builtin hprec)
  | true =>
    obtain ⟨entry, hfind, hentry⟩ := Registry.find?_of_isDefined hdef
    obtain ⟨symbol, f, t, hbinds, hparams⟩ := hc.defined _ entry hfind hentry
    have harity : s.registry.arity? (binaryName op) = some f.arity := by
      rw [Registry.arity?, Registry.proto?, hfind, Option.map_some, Option.map_some, Prototype.arity, hparams]
      rfl
    exact .inr ⟨rfl, f, hbinds.compiled, (hs.arities _ _ harity).operator.binary op rfl⟩

theorem Tabulates.operates (hs : s.WellFormed) (hc : s.Concords) (h : s.Tabulates) (hop : Parser.Ranked s.ops op) :
    s.registry.Operates op := by
  refine (h.ranked hs hc hop).imp_right fun hdef => ?_
  obtain ⟨entry, hfind, -⟩ := Registry.find?_of_isDefined hdef.1
  rw [Registry.proto?, hfind]
  rfl

/-- No turn finds a binary operator unknown. -/
theorem Tabulates.known (hs : s.WellFormed) (hc : s.Concords) (h : s.Tabulates) (ht : s.Takes r) :
    r.turn ≠ .done (.failed (.lowering (.unknownBinary op))) := by
  intro hr
  cases ht with
  | undeclared _ hl =>
    cases hr
    unfold Lowering.declare at hl
    split at hl
    · cases hl
    · cases hl
  | undefined hp hl =>
    cases hr
    refine Lowering.define_operates (fun op hop => ?_) op hl
    rcases hp with hp | hp
    · exact h.operates hs hc (Parser.definition_uses hp op hop)
    · exact h.operates hs hc (Parser.wrapper_uses hp op hop)
  | evaluated _ _ _ heval =>
    cases heval with
    | unlinked _ => cases hr
    | stopped _ _ _ => cases hr
    | returned _ _ _ => cases hr
  | _ => cases hr

/-- In every session of every run, an operator whose function is registered as defined has
    the precedence of its prototype, a number from 1 to 100, and every other operator has
    its builtin precedence or none. All binary nodes that are read there are of the builtin
    operators or of operators whose functions are defined, loaded and take two parameters.
    No turn fails because a binary operator is unknown. -/
theorem Run.operator_table {source : String} (hrun : Run source past s) :
    (∀ op, s.registry.isDefined (binaryName op) = true → ∃ p, s.registry.proto? (binaryName op) = some p ∧
      s.ops.find? op = some p.precedence ∧ 1 ≤ p.precedence ∧ p.precedence ≤ 100) ∧
    (∀ op, s.registry.isDefined (binaryName op) = false → s.ops.find? op = Operator.builtin.find? op) ∧
    (∀ d q, Parser.definition s.ops s.parser = .ok d q ∨ Parser.wrapper s.ops s.parser = .ok d q →
      ∀ op ∈ d.body.operators, op ∈ ["=", "+", "-", "*", "<"] ∨
        s.registry.isDefined (binaryName op) = true ∧ ∃ f, s.engine.Compiled (binaryName op) f ∧ f.arity = 2) ∧
    (∀ budget r op, s.next budget = some r → r.turn ≠ .done (.failed (.lowering (.unknownBinary op)))) := by
  have hs := hrun.wellFormed
  have hc := hrun.concords
  have h := hrun.tabulates
  refine ⟨fun op hdef => ?_, h.other, fun d q hp op hop => ?_, fun budget r op hn => h.known hs hc (next_takes hn)⟩
  · obtain ⟨entry, hfind, hentry⟩ := Registry.find?_of_isDefined hdef
    exact ⟨entry.proto, by rw [Registry.proto?, hfind]; rfl, h.defined op entry hfind hentry⟩
  · rcases hp with hp | hp
    · exact h.ranked hs hc (Parser.definition_uses hp op hop)
    · exact h.ranked hs hc (Parser.wrapper_uses hp op hop)

/-! A new operator, one that replaces a builtin one, and one that is declared and whose
definition fails. -/

def threeOperators : String :=
  "def binary@| 5 (a b) a; def binary@+ 7.5 (a b) b; extern binary@& (a b); def binary@& 9 (a b) c; 1 | 2 + 3"

/-- The operators of the expression that is next. -/
def operatorsNext (s : Session) : List String :=
  match Parser.wrapper s.ops s.parser with
  | .ok d _ => d.body.operators
  | .error _ _ => []

theorem operator_table_threeOperators : ∃ past s, Run threeOperators past s ∧
    (∃ p, s.registry.proto? "binary@+" = some p ∧ s.ops.find? "+" = some p.precedence ∧ p.precedence ≤ 100) ∧
    s.ops.find? "&" = none ∧ operatorsNext s = ["|", "+"] ∧
    ∃ f, s.engine.Compiled "binary@|" f ∧ f.arity = 2 := by
  have hturns : ((takeTurns 20 9 ([], ofText threeOperators)).any fun x =>
      x.2.registry.isDefined "binary@+" && !x.2.registry.isDefined "binary@&" &&
        operatorsNext x.2 == ["|", "+"]) = true := by decide +kernel
  obtain ⟨x, hx, hturns⟩ := (Option.any_eq_true _ _).mp hturns
  have hrun : Run threeOperators x.1 x.2 := Run.start.takeTurns hx
  simp only [Bool.and_eq_true, Bool.not_eq_true', beq_iff_eq] at hturns
  obtain ⟨⟨hplus, hand⟩, hnext⟩ := hturns
  obtain ⟨hdefined, hother, hnodes, -⟩ := hrun.operator_table
  obtain ⟨p, hp, hfind, -, hle⟩ := hdefined "+" hplus
  refine ⟨x.1, x.2, hrun, ⟨p, hp, hfind, hle⟩, hother "&" hand, hnext, ?_⟩
  unfold operatorsNext at hnext
  split at hnext
  · rename_i d q hread
    rcases hnodes d q (.inr hread) "|" (by rw [hnext]; decide) with hbuiltin | ⟨-, hcompiled⟩
    · exact absurd hbuiltin (by decide)
    · exact hcompiled
  · cases hnext

end Session

end Kaleidoscope
