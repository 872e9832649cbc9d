/-
  Kaleidoscope.Proofs.Naming — the names that statements introduce.

  A name in a text begins with a letter and the name of an operator's function with its
  marker, so no statement can name a wrapper, whose name begins with an underscore
  (`Reserved`). Nor has a name in a text the `@` of a marker, so that an operator's function
  has as many parameters as the operator has operands (`OperatorArity`). These are facts
  about tokens: they hold of what the lexer produces (`lexed_ofText`), and readers do
  nothing but pass tokens (`Reaches.lexed`). Of number tokens it is a fact that they are
  numbers.

  `prototype_ok` is what a prototype that was read looks like; `definition_not_reserved`,
  `declaration_not_reserved`, `definition_operatorArity`, `declaration_operatorArity` and
  `wrapper_ok` are what follows for each statement.
-/

import Kaleidoscope.Parser.Statement
import Kaleidoscope.Proofs.Reading
import Kaleidoscope.Proofs.Truncation

namespace Kaleidoscope

open Source

/-- The names that no text can spell. -/
def Reserved (n : String) : Prop := n.toList.head? = some '_'

instance (n : String) : Decidable (Reserved n) := inferInstanceAs (Decidable (_ = _))

theorem reserved_wrapperName (n : Nat) : Reserved (Parser.wrapperName n) := by
  have h : Parser.wrapperName n = "__anon_expr_" ++ toString n := rfl
  rw [Reserved, h, String.toList_append]
  rfl

theorem not_reserved_unaryName (c : Char) : ¬Reserved (Prototype.unaryName c) := by
  simp [Reserved, Prototype.unaryName, Prototype.Kind.marker]

theorem not_reserved_binaryName (op : String) : ¬Reserved (Prototype.binaryName op) := by
  simp [Reserved, Prototype.binaryName, Prototype.Kind.marker, String.toList_append]

/-- A function of name `n` with `k` parameters is no operator's function, or has as many
    parameters as the operator has operands. -/
structure OperatorArity (n : String) (k : Nat) : Prop where
  unary : ∀ c, n = Prototype.unaryName c → k = 1
  binary : ∀ op, n = Prototype.binaryName op → k = 2

theorem head?_unaryName (c : Char) : (Prototype.unaryName c).toList.head? = some 'u' := by
  simp [Prototype.unaryName, Prototype.Kind.marker]

theorem head?_binaryName (op : String) : (Prototype.binaryName op).toList.head? = some 'b' := by
  simp [Prototype.binaryName, Prototype.Kind.marker, String.toList_append]

theorem operatorArity_unaryName (c : Char) : OperatorArity (Prototype.unaryName c) 1 := by
  refine ⟨fun _ _ => rfl, fun op h => ?_⟩
  have hhead := head?_binaryName op
  rw [← h, head?_unaryName] at hhead
  cases hhead

theorem operatorArity_binaryName (op : String) : OperatorArity (Prototype.binaryName op) 2 := by
  refine ⟨fun c h => ?_, fun _ _ => rfl⟩
  have hhead := head?_unaryName c
  rw [← h, head?_binaryName] at hhead
  cases hhead

theorem operatorArity_of_reserved {n : String} (h : Reserved n) (k : Nat) : OperatorArity n k :=
  ⟨fun c hn => absurd (hn ▸ h) (not_reserved_unaryName c), fun op hn => absurd (hn ▸ h) (not_reserved_binaryName op)⟩

theorem operatorArity_of_not_mem {n : String} (h : '@' ∉ n.toList) (k : Nat) : OperatorArity n k := by
  refine ⟨fun c hn => absurd ?_ h, fun op hn => absurd ?_ h⟩
  · simp [hn, Prototype.unaryName, Prototype.Kind.marker]
  · simp [hn, Prototype.binaryName, Prototype.Kind.marker, String.toList_append]

/-! ## Tokens -/

namespace Source

/-- A token as a text can have it. -/
def Token.Spelled : Token → Prop
  | name w => ¬Reserved w ∧ '@' ∉ w.toList
  | number x => x.isNaN = false
  | _ => True

theorem Lexeme.reading_name {l : Lexeme} {last : Bool} {w : String} (h : l.reading last = .ok (.name w)) :
    ∃ cs, l = .word cs ∧ w = String.ofList cs := by
  cases l with
  | word cs =>
    simp only [reading] at h
    split at h
    · cases h
    · cases h
      exact ⟨cs, rfl, rfl⟩
  | digits cs =>
    simp only [reading] at h
    split at h <;> cases h
  | quoted cs closed => cases closed <;> cases h
  | punct c =>
    simp only [reading] at h
    split at h
    · split at h <;> cases h
    · cases h
  | finish => cases h

theorem Lexeme.reading_number {l : Lexeme} {last : Bool} {x : Float} (h : l.reading last = .ok (.number x)) :
    ∃ cs, Decimal.literal? cs = some x := by
  cases l with
  | word cs =>
    simp only [reading] at h
    split at h <;> cases h
  | digits cs =>
    simp only [reading] at h
    split at h
    · rename_i hx
      cases h
      exact ⟨cs, hx⟩
    · cases h
  | quoted cs closed => cases closed <;> cases h
  | punct c =>
    simp only [reading] at h
    split at h
    · split at h <;> cases h
    · cases h
  | finish => cases h

theorem isLetter_of_word {cs ds : List Char} (h : (splitLexeme cs).1 = .word ds) :
    ∃ c es, ds = c :: es ∧ isLetter c = true ∧ ∀ d ∈ es, isWordChar d = true := by
  unfold splitLexeme at h
  split at h
  · cases h
  · rename_i c cs
    split at h
    · rename_i hc
      cases h
      exact ⟨c, _, rfl, hc, List.all_eq_true.mp List.all_takeWhile⟩
    · split at h
      · cases h
      · split at h
        · split at h <;> cases h
        · cases h

theorem Lexer.next_spelled {l : Lexer} {t : Token} (h : l.next.1 = .ok t) : t.Spelled := by
  cases t with
  | name w =>
    obtain ⟨cs, hl, rfl⟩ := Lexeme.reading_name h
    obtain ⟨c, es, rfl, hc, hes⟩ := isLetter_of_word hl
    simp only [Token.Spelled, Reserved, String.toList_ofList, List.head?_cons, Option.some.injEq, List.mem_cons, not_or]
    refine ⟨?_, ?_, fun hmem => absurd (hes _ hmem) (by decide)⟩
    · rintro rfl
      exact absurd hc (by decide)
    · rintro rfl
      exact absurd hc (by decide)
  | number x =>
    obtain ⟨cs, hx⟩ := Lexeme.reading_number h
    exact Decimal.isNaN_literal? hx
  | _ => trivial

theorem Lexer.readingsWithin_spelled {n : Nat} {l : Lexer} {r : Reading × Lexer} (hr : r ∈ l.readingsWithin n)
    {t : Token} (h : r.1 = .ok t) : t.Spelled := by
  induction n generalizing l with
  | zero => cases hr
  | succ n ih =>
    unfold readingsWithin at hr
    split at hr
    · rw [List.mem_singleton] at hr
      subst hr
      cases h
      trivial
    · rename_i r' l' _ hnext
      rcases List.mem_cons.mp hr with rfl | hr
      · exact next_spelled (l := l) (by rw [hnext]; exact h)
      · exact ih hr

theorem reading_of_mem_itemsFrom {stop : Option Nat} {rs : List (Reading × Lexer)} {i : Item}
    (h : i ∈ itemsFrom stop rs) : ∃ r ∈ rs, i.reading = r.1 := by
  fun_induction itemsFrom stop rs with
  | case1 => cases h
  | case2 => cases h
  | case3 stop r l rest _ ih =>
    rcases List.mem_cons.mp h with rfl | h
    · exact ⟨(r, l), List.mem_cons_self, rfl⟩
    · obtain ⟨r', hr, hi⟩ := ih h
      exact ⟨r', List.mem_cons_of_mem _ hr, hi⟩

end Source

namespace Parser

/-- Every token the parser has and every one it may come to is as a text can have it. -/
structure Lexed (p : Parser) : Prop where
  cur : p.cur.Spelled
  rest : ∀ i ∈ p.rest, ∀ t, i.reading = .ok t → t.Spelled

theorem lexed_ofText (source : String) : (ofText source).Lexed := by
  refine ⟨trivial, fun i hi t ht => ?_⟩
  obtain ⟨r, hr, hi⟩ := reading_of_mem_itemsFrom hi
  exact Lexer.readingsWithin_spelled hr (by rw [← hi, ht])

theorem Lexed.advance {p : Parser} (h : p.Lexed) : (left (Parser.advance p)).Lexed := by
  obtain ⟨cur, rest, wrapped⟩ := p
  cases rest with
  | nil => exact ⟨trivial, h.rest⟩
  | cons i rest =>
    have hrest : ∀ j ∈ rest, ∀ t, j.reading = .ok t → t.Spelled := fun j hj => h.rest j (List.mem_cons_of_mem _ hj)
    obtain ⟨reading, adjoins⟩ := i
    cases reading with
    | ok t => exact ⟨h.rest _ List.mem_cons_self t rfl, hrest⟩
    | error e => exact ⟨h.cur, hrest⟩

theorem Reaches.lexed {p q : Parser} (h : Reaches p q) (hp : p.Lexed) : q.Lexed := by
  induction h with
  | refl => exact hp
  | tail _ hq ih =>
    subst hq
    exact ih.advance

/-! ## Prototypes -/

theorem takeOperator_same (s : Nat) : Same s takeOperator takeOperator := by
  refine .operator? fun o => ?_
  split
  · exact .pure _
  · exact (Same.advanceBy _).bind fun _ => .pure _

theorem precedenceHere_same (s : Nat) : Same s precedenceHere precedenceHere := by
  refine .current fun t => ?_
  split
  · exact .ite (.fail _) (Same.advance_self.bind fun _ => .pure _)
  · exact .pure _

theorem head_same (s : Nat) : Same s head head := by
  refine .current fun t => ?_
  split
  · exact Same.advance_self.bind fun _ => .pure _
  · refine Same.advance_self.bind fun _ => (Same.expect _ _).bind fun _ => .current fun t => ?_
    split
    · exact .ite (Same.advance_self.bind fun _ => .pure _) (.fail _)
    · exact .fail _
  · refine Same.advance_self.bind fun _ => (Same.expect _ _).bind fun _ => (takeOperator_same s).bind fun o => ?_
    split
    · exact (precedenceHere_same s).bind fun _ => .pure _
    · exact .fail _
  · exact .fail _

theorem parametersWithin_same {s n n' : Nat} (hn : s ≤ n) (hn' : s ≤ n') (after : Bool) :
    Same s (parametersWithin n after) (parametersWithin n' after) := by
  have hzero : ∀ {m : Nat} {after : Bool} {p : Parser}, p.size = 0 → parametersWithin m after p = .ok [] p := by
    intro m after p hp
    cases m with
    | zero => rfl
    | succ m =>
      have hcur : current p = .ok .eof p := congrArg (EStateM.Result.ok · p) (size_eq_zero hp).1
      exact bind_of_ok hcur
  induction s generalizing n n' after with
  | zero =>
    refine ⟨fun p hp => ?_, fun p hp => ?_⟩
    · rw [hzero (by omega), hzero (by omega)]
    · rw [hzero (by omega)]
      exact .refl
  | succ s ih =>
    obtain ⟨m, rfl⟩ : ∃ k, n = k + 1 := ⟨n - 1, by omega⟩
    obtain ⟨m', rfl⟩ : ∃ k, n' = k + 1 := ⟨n' - 1, by omega⟩
    have hrest := ih (by omega : s ≤ m) (by omega : s ≤ m') true
    simp only [parametersWithin]
    refine .current fun t => ?_
    split
    · exact .advance (hrest.bind fun _ => .pure _)
    · refine .ite (.advance (.current fun t => ?_)) (.pure _)
      split
      · exact hrest
      · exact .fail _
    · exact .pure _

/-- Any count will do that is not less than what is left. -/
theorem parametersWithin_eq {n : Nat} {p : Parser} (h : p.size ≤ n) : parametersWithin n false p = parameters p :=
  (parametersWithin_same h (Nat.le_refl _) false).eq p (Nat.le_refl _)

theorem parameters_same (s : Nat) : Same s parameters parameters :=
  ⟨fun _ _ => rfl, fun p _ => (parametersWithin_same (Nat.le_refl _) (Nat.le_refl _) false).moves p (Nat.le_refl _)⟩

theorem prototypeOf_same (s : Nat) (h : Head) (params : List String) :
    Same s (prototypeOf h params) (prototypeOf h params) := by
  unfold prototypeOf
  split
  · exact .pure _
  · exact .pure _
  · exact .pure _
  · exact .fail _

theorem prototype_same (s : Nat) : Same s prototype prototype :=
  (head_same s).bind fun h => (Same.expect _ _).bind fun _ =>
    (parameters_same s).bind fun params => (Same.expect _ _).bind fun _ => prototypeOf_same s h params

theorem reaches_of_ok {α : Type} {x : Parse α} {p q : Parser} {a : α} (hx : Same p.size x x) (h : x p = .ok a q) :
    Reaches p q := by
  have hmoves := hx.moves p (Nat.le_refl _)
  rw [h] at hmoves
  exact hmoves

theorem reaches_of_error {α : Type} {x : Parse α} {p q : Parser} {e : ReadError} (hx : Same p.size x x) (h : x p = .error e q) :
    Reaches p q := by
  have hmoves := hx.moves p (Nat.le_refl _)
  rw [h] at hmoves
  exact hmoves

theorem expect_ok {t : Token} {e : ParseError} {p q : Parser} (h : expect t e p = .ok () q) :
    p.cur = t ∧ advance p = .ok () q := by
  obtain ⟨u, r, hu, h⟩ := bind_ok_iff.mp h
  obtain ⟨rfl, rfl⟩ : p.cur = u ∧ p = r := pure_ok_iff.mp hu
  split at h
  · rename_i hcur
    exact ⟨hcur, h⟩
  · cases h

theorem operator?_of_take {p q : Parser} {op : String} (h : takeOperator p = .ok (some op) q) : p.operator? = some op := by
  rw [takeOperator, operator?_bind_run] at h
  cases hop : p.operator? with
  | none =>
    rw [hop] at h
    cases h
  | some op' =>
    rw [hop] at h
    obtain ⟨_, _, _, h⟩ := bind_ok_iff.mp h
    exact (pure_ok_iff.mp h).1

/-- A plain function is named by the token the head was read from. An operator stands past
    the word for its kind and the `@`; the precedence of a binary operator is read last. -/
theorem head_ok {p q : Parser} {hd : Head} (h : head p = .ok hd q) :
    (∃ name, p.cur = .name name ∧ hd = .function name) ∨
    (∃ op r r', hd = .unary op ∧ advance p = .ok () r ∧ advance r = .ok () r' ∧ r'.cur = .punct op ∧ op.toNat < 128) ∨
    ∃ op precedence r r' r'', hd = .binary op precedence ∧ advance p = .ok () r ∧ advance r = .ok () r' ∧
      r'.operator? = some op ∧ Reaches r' r'' ∧ precedenceHere r'' = .ok precedence q := by
  obtain ⟨t, r, ht, h⟩ := bind_ok_iff.mp h
  obtain ⟨rfl, rfl⟩ : p.cur = t ∧ p = r := pure_ok_iff.mp ht
  generalize p.cur = t at h ⊢
  split at h
  · obtain ⟨_, _, _, h⟩ := bind_ok_iff.mp h
    exact .inl ⟨_, rfl, (pure_ok_iff.mp h).1.symm⟩
  · obtain ⟨⟨⟩, r, hr, h⟩ := bind_ok_iff.mp h
    obtain ⟨⟨⟩, r', hr', h⟩ := bind_ok_iff.mp h
    obtain ⟨t, _, ht, h⟩ := bind_ok_iff.mp h
    obtain ⟨hcur, rfl⟩ := pure_ok_iff.mp ht
    split at h
    · split at h
      · rename_i op hascii
        obtain ⟨_, _, _, h⟩ := bind_ok_iff.mp h
        simp only [Bool.and_eq_true, decide_eq_true_eq] at hascii
        exact .inr (.inl ⟨op, r, r', (pure_ok_iff.mp h).1.symm, hr, (expect_ok hr').2, hcur, hascii.1⟩)
      · cases h
    · cases h
  · obtain ⟨⟨⟩, r, hr, h⟩ := bind_ok_iff.mp h
    obtain ⟨⟨⟩, r', hr', h⟩ := bind_ok_iff.mp h
    obtain ⟨_, r'', hop, h⟩ := bind_ok_iff.mp h
    split at h
    · rename_i op
      obtain ⟨precedence, _, hprec, h⟩ := bind_ok_iff.mp h
      obtain ⟨rfl, rfl⟩ := pure_ok_iff.mp h
      exact .inr (.inr ⟨op, precedence, r, r', r'', rfl, hr, (expect_ok hr').2, operator?_of_take hop,
        reaches_of_ok (takeOperator_same _) hop, hprec⟩)
    · cases h
  · cases h

theorem head_function {p q : Parser} {name : String} (h : head p = .ok (.function name) q) : p.cur = .name name := by
  rcases head_ok h with ⟨_, hcur, hname⟩ | ⟨_, _, _, hunary, -⟩ | ⟨_, _, _, _, _, hbinary, -⟩
  · cases hname
    exact hcur
  · cases hunary
  · cases hbinary

theorem head_binary {p q : Parser} {op : String} {precedence : Nat} (h : head p = .ok (.binary op precedence) q) :
    ∃ r, Reaches p r ∧ precedenceHere r = .ok precedence q := by
  rcases head_ok h with ⟨_, -, hname⟩ | ⟨_, _, _, hunary, -⟩ | ⟨_, _, r, r', r'', hbinary, hr, hr', -, hr'', hprec⟩
  · cases hname
  · cases hunary
  · cases hbinary
    exact ⟨r'', ((reaches_of_ok .advance_self hr).trans (reaches_of_ok .advance_self hr')).trans hr'', hprec⟩

theorem prototypeOf_ok {head : Head} {params : List String} {p q : Parser} {proto : Prototype}
    (h : prototypeOf head params p = .ok proto q) :
    (∃ name, head = .function name ∧ proto = .function name params) ∨
    (∃ op param, head = .unary op ∧ proto = .unary op param) ∨
    ∃ op precedence lhs rhs, head = .binary op precedence ∧ proto = .binary op precedence lhs rhs := by
  unfold prototypeOf at h
  split at h
  · exact .inl ⟨_, rfl, (pure_ok_iff.mp h).1.symm⟩
  · exact .inr (.inl ⟨_, _, rfl, (pure_ok_iff.mp h).1.symm⟩)
  · exact .inr (.inr ⟨_, _, _, _, rfl, (pure_ok_iff.mp h).1.symm⟩)
  · cases h

/-- A prototype is that of a plain function, named by the current token, or of an operator. -/
theorem prototype_ok {p q : Parser} {proto : Prototype} (h : prototype p = .ok proto q) :
    (∃ name params, p.cur = .name name ∧ proto = .function name params) ∨
    (∃ op param, proto = .unary op param) ∨ ∃ op precedence lhs rhs, proto = .binary op precedence lhs rhs := by
  simp only [prototype, bind_ok_iff] at h
  obtain ⟨hd, _, hhead, _, _, _, params, _, _, _, _, _, h⟩ := h
  rcases prototypeOf_ok h with ⟨name, rfl, rfl⟩ | ⟨op, param, -, rfl⟩ | ⟨op, precedence, lhs, rhs, -, rfl⟩
  · exact .inl ⟨name, params, head_function hhead, rfl⟩
  · exact .inr (.inl ⟨op, param, rfl⟩)
  · exact .inr (.inr ⟨op, precedence, lhs, rhs, rfl⟩)

theorem prototype_not_reserved {p q : Parser} {proto : Prototype} (hp : p.Lexed) (h : prototype p = .ok proto q) :
    ¬Reserved proto.name := by
  rcases prototype_ok h with ⟨name, params, hcur, rfl⟩ | ⟨op, param, rfl⟩ | ⟨op, precedence, lhs, rhs, rfl⟩
  · have hspelled := hp.cur
    rw [hcur] at hspelled
    exact hspelled.1
  · exact not_reserved_unaryName op
  · exact not_reserved_binaryName op

theorem prototype_operatorArity {p q : Parser} {proto : Prototype} (hp : p.Lexed) (h : prototype p = .ok proto q) :
    OperatorArity proto.name proto.arity := by
  rcases prototype_ok h with ⟨name, params, hcur, rfl⟩ | ⟨op, param, rfl⟩ | ⟨op, precedence, lhs, rhs, rfl⟩
  · have hspelled := hp.cur
    rw [hcur] at hspelled
    exact operatorArity_of_not_mem hspelled.2 _
  · exact operatorArity_unaryName op
  · exact operatorArity_binaryName op

/-! ## Statements -/

variable {ops : Operator.Precedences}

theorem definition_same (s : Nat) : Same s (definition ops) (definition ops) :=
  Same.advance_self.bind fun _ => (prototype_same s).bind fun _ => (expression_same ops s).bind fun _ => .pure _

theorem declaration_same (s : Nat) : Same s declaration declaration :=
  Same.advance_self.bind fun _ => prototype_same s

theorem Lexed.left {α : Type} {x : Parse α} {p : Parser} (hp : p.Lexed) (hx : Same p.size x x) :
    (Parser.left (x p)).Lexed :=
  (hx.moves p (Nat.le_refl _)).lexed hp

theorem definition_proto {p q : Parser} {d : Definition} (hp : p.Lexed) (h : definition ops p = .ok d q) :
    ∃ p₁ p₂ : Parser, p₁.Lexed ∧ prototype p₁ = .ok d.proto p₂ := by
  simp only [definition, bind_ok_iff, pure_ok_iff] at h
  obtain ⟨⟨⟩, p₁, h₁, proto, p₂, h₂, body, p₃, h₃, rfl, rfl⟩ := h
  have hp₁ := hp.advance
  rw [h₁] at hp₁
  exact ⟨p₁, p₂, hp₁, h₂⟩

theorem declaration_proto {p q : Parser} {proto : Prototype} (hp : p.Lexed) (h : declaration p = .ok proto q) :
    ∃ p₁ : Parser, p₁.Lexed ∧ prototype p₁ = .ok proto q := by
  simp only [declaration, bind_ok_iff] at h
  obtain ⟨⟨⟩, p₁, h₁, h₂⟩ := h
  have hp₁ := hp.advance
  rw [h₁] at hp₁
  exact ⟨p₁, hp₁, h₂⟩

theorem definition_not_reserved {p q : Parser} {d : Definition} (hp : p.Lexed) (h : definition ops p = .ok d q) :
    ¬Reserved d.proto.name := by
  obtain ⟨p₁, p₂, hp₁, h₁⟩ := definition_proto hp h
  exact prototype_not_reserved hp₁ h₁

theorem declaration_not_reserved {p q : Parser} {proto : Prototype} (hp : p.Lexed) (h : declaration p = .ok proto q) :
    ¬Reserved proto.name := by
  obtain ⟨p₁, hp₁, h₁⟩ := declaration_proto hp h
  exact prototype_not_reserved hp₁ h₁

theorem definition_operatorArity {p q : Parser} {d : Definition} (hp : p.Lexed) (h : definition ops p = .ok d q) :
    OperatorArity d.proto.name d.proto.arity := by
  obtain ⟨p₁, p₂, hp₁, h₁⟩ := definition_proto hp h
  exact prototype_operatorArity hp₁ h₁

theorem declaration_operatorArity {p q : Parser} {proto : Prototype} (hp : p.Lexed) (h : declaration p = .ok proto q) :
    OperatorArity proto.name proto.arity := by
  obtain ⟨p₁, hp₁, h₁⟩ := declaration_proto hp h
  exact prototype_operatorArity hp₁ h₁

/-- A wrapper is a function without parameters that is named by the number of wrappers
    before it. -/
theorem wrapper_ok {p q : Parser} {d : Definition} (h : wrapper ops p = .ok d q) :
    ∃ r, expression ops p = .ok d.body r ∧ d.proto = .function (wrapperName r.wrapped) [] ∧
      q = { r with wrapped := r.wrapped + 1 } := by
  obtain ⟨body, r, hbody, h⟩ := bind_ok_iff.mp h
  rw [countWrapper_bind_run] at h
  obtain ⟨rfl, rfl⟩ := pure_ok_iff.mp h
  exact ⟨r, hbody, rfl, rfl⟩

theorem wrapper_lexed {p : Parser} (hp : p.Lexed) : (left (wrapper ops p)).Lexed := by
  have hleft := hp.left (expression_same ops p.size)
  cases hx : expression ops p with
  | ok body r =>
    rw [hx] at hleft
    rw [wrapper, bind_of_ok hx]
    exact ⟨hleft.cur, hleft.rest⟩
  | error e r =>
    rw [hx] at hleft
    rw [wrapper, bind_of_error hx]
    exact hleft

theorem wrapper_reaches {p q : Parser} {e : ReadError} (h : wrapper ops p = .error e q) : Reaches p q := by
  cases hx : expression ops p with
  | ok body r =>
    rw [wrapper, bind_of_ok hx] at h
    cases h
  | error e' r =>
    rw [wrapper, bind_of_error hx] at h
    cases h
    exact reaches_of_error (expression_same ops p.size) hx

end Parser

end Kaleidoscope
