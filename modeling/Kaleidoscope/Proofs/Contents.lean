/-
  Kaleidoscope.Proofs.Contents — an expression holds what was read for it.

  Names, numbers and the braces that begin blocks have a weight; operators, parentheses,
  separators, terminators and keywords have none. What the reader of an expression passes
  weighs as much as the expression that it gives (`expression_weighs`): no name, number or
  block of the text is dropped and none is read twice. No operator is spelled with a brace,
  so passing operators changes nothing.

  Every expression weighs something (`Expr.weight_pos`). So if of two readings one goes
  further than the other and takes an operator there, they give different expressions.
-/

import Kaleidoscope.Proofs.Reading

namespace Kaleidoscope

open Source

/-! ## Weights -/

namespace Source

def Token.weight : Token → Nat
  | .name _ => 1
  | .number _ => 1
  | .punct c => if c = '{' then 1 else 0
  | _ => 0

def Item.weight (i : Item) : Nat :=
  match i.reading with
  | .ok t => t.weight
  | .error _ => 0

def weight : List Item → Nat
  | [] => 0
  | i :: items => i.weight + weight items

theorem weight_append (items ys : List Item) : weight (items ++ ys) = weight items + weight ys := by
  induction items with
  | nil => exact (Nat.zero_add _).symm
  | cons i items ih =>
    rw [List.cons_append, weight, weight, ih]
    omega

theorem weight_cons_ok (t : Token) (adjoins : Bool) (items : List Item) :
    weight (⟨.ok t, adjoins⟩ :: items) = t.weight + weight items := rfl

end Source

namespace Expr

mutual

/-- The names, numbers and blocks of an expression. -/
def weight : Expr → Nat
  | .number _ => 1
  | .ref _ => 1
  | .var _ init => 1 + weightOption init
  | .unary _ e => weight e
  | .binary _ l r => weight l + weight r
  | .call _ args => 1 + weightOf args
  | .cond t y n => weight t + weight y + weightOption n
  | .loop _ start stop step body => 1 + weight start + weight stop + weightOption step + weight body
  | .block es => 1 + weightOf es

def weightOption : Option Expr → Nat
  | none => 0
  | some e => weight e

def weightOf : List Expr → Nat
  | [] => 0
  | e :: es => weight e + weightOf es

end

theorem weight_pos : ∀ e : Expr, 0 < e.weight
  | .number _ => Nat.one_pos
  | .ref _ => Nat.one_pos
  | .var _ init => Nat.lt_of_lt_of_le Nat.one_pos (Nat.le_add_right 1 (weightOption init))
  | .unary _ e => weight_pos e
  | .binary _ l r => Nat.lt_of_lt_of_le (weight_pos l) (Nat.le_add_right l.weight r.weight)
  | .call _ args => Nat.lt_of_lt_of_le Nat.one_pos (Nat.le_add_right 1 (weightOf args))
  | .cond t _ _ => by
    have := weight_pos t
    simp only [weight]
    omega
  | .loop .. => by
    simp only [weight]
    omega
  | .block es => Nat.lt_of_lt_of_le Nat.one_pos (Nat.le_add_right 1 (weightOf es))

end Expr

namespace Parser

variable {α β : Type} {ops : Operator.Precedences} {p q : Parser} {n : Nat}

/-- The weight of what is left to read. -/
def weight (p : Parser) : Nat := p.cur.weight + Source.weight p.rest

theorem weight_advance (h : advance p = .ok () q) : p.weight = q.weight + p.cur.weight := by
  obtain ⟨cur, _ | ⟨⟨reading, adjoins⟩, rest⟩, wrapped⟩ := p
  · cases h
    simp [weight, Source.weight, Token.weight]
  · cases reading with
    | error e => cases h
    | ok t =>
      cases h
      simp only [weight, weight_cons_ok]
      omega

theorem weight_left_advance (p : Parser) : (left (advance p)).weight ≤ p.weight := by
  obtain ⟨cur, _ | ⟨⟨reading, adjoins⟩, rest⟩, wrapped⟩ := p
  · exact Nat.zero_le _
  · cases reading with
    | error e => simp [advance_run, left, weight, Source.weight, Item.weight]
    | ok t => simp [advance_run, left, weight, Source.weight, Item.weight]

theorem Reaches.weight_le (h : Reaches p q) : q.weight ≤ p.weight := by
  induction h with
  | refl => exact Nat.le_refl _
  | tail _ hstep ih => exact Nat.le_trans (hstep ▸ weight_left_advance _) ih

/-! ## Readers that lose nothing -/

/-- If the reader succeeds at `p`, then what it passes, and `n` more that was passed before,
    weighs as much as its result. -/
def Spends (n : Nat) (x : Parse α) (p : Parser) (w : α → Nat) : Prop :=
  ∀ a q, x p = .ok a q → p.weight + n = q.weight + w a

/-- A reader of expressions that loses nothing. -/
def Weighs (x : Parse Expr) : Prop := ∀ p, Spends 0 x p Expr.weight

namespace Spends

variable {x y : Parse α} {f : α → Parse β} {w : α → Nat} {v : β → Nat} {t : Token}

theorem pure {a : α} (h : w a = n) : Spends n (Pure.pure a) p w := by
  intro b q hb
  cases hb
  rw [h]

theorem fail (e : ParseError) : Spends n (Parser.fail e : Parse α) p w := nofun

theorem bind (hx : Spends n x p w) (hf : ∀ a q, x p = .ok a q → Spends (w a) (f a) q v) : Spends n (x >>= f) p v := by
  intro b r h
  obtain ⟨a, q, ha, hb⟩ := bind_ok_iff.mp h
  rw [hx a q ha]
  exact hf a q ha b r hb

theorem shift {m : Nat} (h : Spends m x p w) : Spends (n + m) x p fun a => n + w a := by
  intro a q ha
  have hspent := h a q ha
  show p.weight + (n + m) = q.weight + (n + w a)
  omega

theorem add (h : Spends 0 x p w) : Spends n x p fun a => n + w a := shift h

theorem nested {x : Parse Expr} {f : Expr → Parse β} (hx : Weighs x)
    (hf : ∀ e q, Spends (n + e.weight) (f e) q v) : Spends n (x >>= f) p v :=
  bind (hx p).add fun e q _ => hf e q

theorem current {f : Token → Parse β} (hf : Spends n (f p.cur) p v) : Spends n (Parser.current >>= f) p v := hf

theorem test (hyes : p.cur = t → Spends n x p w) (hno : Spends n y p w) :
    Spends n (Parser.current >>= fun u => if u = t then x else y) p w := by
  refine current ?_
  split
  · rename_i h
    exact hyes h
  · exact hno

theorem passing (hcur : p.cur = t) (ht : t.weight = 0) : Spends n Parser.advance p fun _ => n := by
  intro a q ha
  rw [weight_advance ha, hcur, ht, Nat.add_zero]

/-- A token without weight. -/
theorem pass {f : Unit → Parse β} (hcur : p.cur = t) (ht : t.weight = 0) (hf : ∀ q, Spends n (f ()) q v) :
    Spends n (Parser.advance >>= f) p v :=
  bind (passing hcur ht) fun _ q _ => hf q

/-- A token that is part of the result. -/
theorem take {f : Unit → Parse β} (hcur : p.cur = t) (ht : t.weight = 1) (hf : ∀ q, Spends (n + 1) (f ()) q v) :
    Spends n (Parser.advance >>= f) p v := by
  have hspent : Spends n Parser.advance p fun _ => n + 1 := by
    intro a q ha
    rw [weight_advance ha, hcur, ht, Nat.add_right_comm, Nat.add_assoc]
  exact bind hspent fun _ q _ => hf q

theorem expect (ht : t.weight = 0) (e : ParseError) : Spends n (Parser.expect t e) p fun _ => n :=
  test (fun hcur => passing hcur ht) (fail e)

theorem passIf (ht : t.weight = 0) : Spends n (Parser.passIf t) p fun _ => n :=
  test (fun hcur => passing hcur ht) (pure rfl)

end Spends

/-! ## Arguments and members -/

section

variable {nested : Parse Expr}

theorem current_ok {t : Token} (h : current p = .ok t q) : p.cur = t ∧ p = q := by
  cases h
  exact ⟨rfl, rfl⟩

theorem arguments_close {n : Nat} {es : List Expr} (h : argumentsWithin nested n p = .ok es q) : q.cur = .punct ')' := by
  induction n generalizing p es with
  | zero => cases h
  | succ n ih =>
    simp only [argumentsWithin] at h
    obtain ⟨e, r, -, h⟩ := bind_ok_iff.mp h
    obtain ⟨t, r', ht, h⟩ := bind_ok_iff.mp h
    obtain ⟨hcur, rfl⟩ : r.cur = t ∧ r = r' := current_ok ht
    split at h
    · cases h
      exact hcur
    · obtain ⟨-, r', -, h⟩ := bind_ok_iff.mp h
      obtain ⟨es, r'', hes, h⟩ := bind_ok_iff.mp h
      cases h
      exact ih hes
    · cases h

theorem members_close {n : Nat} {es : List Expr} (h : membersWithin nested n p = .ok es q) : q.cur = .punct '}' := by
  induction n generalizing p es with
  | zero => cases h
  | succ n ih =>
    simp only [membersWithin] at h
    obtain ⟨t, r, ht, h⟩ := bind_ok_iff.mp h
    obtain ⟨hcur, rfl⟩ : p.cur = t ∧ p = r := current_ok ht
    split at h
    · cases h
      exact hcur
    · cases h
    · obtain ⟨e, r, -, h⟩ := bind_ok_iff.mp h
      split at h
      · obtain ⟨-, r', -, h⟩ := bind_ok_iff.mp h
        obtain ⟨es, r'', hes, h⟩ := bind_ok_iff.mp h
        cases h
        exact ih hes
      · obtain ⟨-, r', -, h⟩ := bind_ok_iff.mp h
        obtain ⟨es, r'', hes, h⟩ := bind_ok_iff.mp h
        cases h
        exact ih hes

theorem arguments_spends (hnested : Weighs nested) (k : Nat) (p : Parser) :
    Spends 0 (argumentsWithin nested k) p Expr.weightOf := by
  induction k generalizing p with
  | zero => exact .fail _
  | succ k ih =>
    simp only [argumentsWithin]
    refine .nested hnested fun e q => .current ?_
    split
    · exact .pure (Nat.add_comm _ _)
    · rename_i hcomma
      refine .pass hcomma rfl fun r => .bind (ih r).add fun es _ _ => .pure ?_
      simp only [Expr.weightOf]
      omega
    · exact .fail _

theorem memberEnd_spends (p : Parser) : Spends n memberEnd p fun _ => n := by
  refine .current ?_
  split
  · rename_i hterminator
    exact .passing hterminator rfl
  · exact .pure rfl
  · exact .fail _

theorem members_spends (hnested : Weighs nested) (k : Nat) (p : Parser) :
    Spends 0 (membersWithin nested k) p Expr.weightOf := by
  induction k generalizing p with
  | zero => exact .fail _
  | succ k ih =>
    simp only [membersWithin]
    refine .current ?_
    split
    · exact .pure rfl
    · exact .fail _
    · refine .nested hnested fun e q => ?_
      have hrest : ∀ r, Spends (0 + e.weight) (membersWithin nested k >>= fun es => pure (e :: es)) r Expr.weightOf := by
        refine fun r => .bind (ih r).add fun es _ _ => .pure ?_
        simp only [Expr.weightOf]
        omega
      cases e.takesTerminator with
      | true => exact hrest q
      | false => exact .bind (memberEnd_spends q) fun _ r _ => hrest r

/-! ## Operands -/

theorem reference_spends (hnested : Weighs nested) (k : Nat) {name : String} (hcur : p.cur = .name name) :
    Spends 0 (reference nested k name) p Expr.weight := by
  have hclose : ∀ es r, r.cur = .punct ')' →
      Spends (1 + Expr.weightOf es) (advance >>= fun _ => pure (Expr.call name es)) r Expr.weight :=
    fun es r hr => .pass hr rfl fun _ => .pure rfl
  refine .take hcur rfl fun q => .test (fun hopen => ?_) (.pure rfl)
  refine .pass hopen rfl fun r => .test (fun hparen => ?_) ?_
  · exact hclose [] r hparen
  · exact .bind (arguments_spends hnested k r).add fun es r' hes => hclose es r' (arguments_close hes)

theorem parenthesis_spends (hnested : Weighs nested) (hcur : p.cur = .punct '(') :
    Spends 0 (parenthesis nested) p Expr.weight := by
  refine .pass hcur rfl fun q => .nested hnested fun e r => ?_
  exact .bind (.expect rfl _) fun _ _ _ => .pure (Nat.zero_add _).symm

theorem variableDecl_spends (hnested : Weighs nested) (hcur : p.cur = .keyword .varWord) :
    Spends 0 (variableDecl nested) p Expr.weight := by
  refine .pass hcur rfl fun q => .current ?_
  split
  · rename_i hname
    refine .take hname rfl fun r => .test (fun hassign => ?_) (.pure rfl)
    exact .pass hassign rfl fun r' => .nested hnested fun init _ => .pure rfl
  · exact .fail _

theorem conditional_spends (hnested : Weighs nested) (hcur : p.cur = .keyword .ifWord) :
    Spends 0 (conditional nested) p Expr.weight := by
  refine .pass hcur rfl fun q => .nested hnested fun test q₁ => .bind (.passIf rfl) fun _ q₂ _ => ?_
  refine .nested hnested fun yes q₃ => .bind (.passIf rfl) fun _ q₄ _ => .test (fun helse => ?_) ?_
  · refine .pass helse rfl fun q₅ => .nested hnested fun no q₆ => .bind (.passIf rfl) fun _ _ _ => .pure ?_
    simp only [Expr.weight, Expr.weightOption]
    omega
  · refine .pure ?_
    simp only [Expr.weight, Expr.weightOption]
    omega

/-- The body of a loop, from which `f` makes the whole. -/
def loopBody (nested : Parse Expr) (f : Expr → Expr) : Parse Expr := do
  if (← current) = .punct '{' then
    let body ← nested
    passIf .terminator
    pure (f body)
  else fail .loopBody

theorem loopBody_spends (hnested : Weighs nested) {f : Expr → Expr} (hf : ∀ e, (f e).weight = n + e.weight) (p : Parser) :
    Spends n (loopBody nested f) p Expr.weight := by
  refine .test (fun _ => ?_) (.fail _)
  exact .nested hnested fun body _ => .bind (.passIf rfl) fun _ _ _ => .pure (hf body)

theorem loop_spends (hnested : Weighs nested) (hcur : p.cur = .keyword .forWord) :
    Spends 0 (loop nested) p Expr.weight := by
  refine .pass hcur rfl fun q => .current ?_
  split
  · rename_i name hname
    refine .take hname rfl fun q₁ => .bind (.expect rfl _) fun _ q₂ _ => .nested hnested fun start q₃ => ?_
    refine .bind (.expect rfl _) fun _ q₄ _ => .nested hnested fun stop q₅ => .bind (.expect rfl _) fun _ q₆ _ => ?_
    have hbody : ∀ step q, Spends (0 + 1 + start.weight + stop.weight + Expr.weightOption step)
        (loopBody nested (.loop name start stop step)) q Expr.weight := by
      refine fun step => loopBody_spends hnested fun body => ?_
      simp only [Expr.weight, Nat.zero_add]
    refine .test (fun _ => ?_) ?_
    · exact .bind (.pure rfl) fun step q₇ _ => hbody step q₇
    · refine .bind ?_ fun step q₇ _ => hbody step q₇
      exact .nested hnested fun e _ => .pure rfl
  · exact .fail _

theorem block_spends (hnested : Weighs nested) (k : Nat) (hcur : p.cur = .punct '{') :
    Spends 0 (block nested k) p Expr.weight := by
  refine .take hcur rfl fun q => .bind (members_spends hnested k q).add fun es r hes => ?_
  exact .pass (members_close hes) rfl fun _ => .pure rfl

theorem primary_weighs (hnested : Weighs nested) (k : Nat) : Weighs (primary nested k) := by
  refine fun p => .current ?_
  split
  · exact reference_spends hnested k ‹_›
  · exact .take ‹_› rfl fun _ => .pure rfl
  · exact conditional_spends hnested ‹_›
  · exact loop_spends hnested ‹_›
  · exact variableDecl_spends hnested ‹_›
  · exact parenthesis_spends hnested ‹_›
  · exact block_spends hnested k ‹_›
  · exact .fail _
  · exact .fail _

theorem weight_of_unaryOperator {t : Token} {op : Char} (h : unaryOperator? t = some op) : t.weight = 0 := by
  cases t with
  | punct c =>
    have hc : c ≠ '{' := by
      rintro rfl
      cases h
    exact if_neg hc
  | _ => cases h

theorem operandWithin_weighs {reader : Parse Expr} (h : Weighs reader) (k : Nat) : Weighs (operandWithin reader k) := by
  induction k with
  | zero => exact fun _ => .fail _
  | succ k ih =>
    simp only [operandWithin]
    refine fun p => .current ?_
    split
    · rename_i hop
      refine .pass rfl (weight_of_unaryOperator hop) fun q => .nested ih fun e _ => .pure ?_
      simp [Expr.weight]
    · exact h p

end

/-! ## Operators -/

theorem not_brace_of_isSpelling {op : String} (h : Operator.isSpelling op = true) : '{' ∉ op.toList := by
  have hall : ∀ op ∈ Operator.spellings, '{' ∉ op.toList := by decide
  exact hall op (by simpa [Operator.isSpelling] using h)

theorem advanceBy_weight {k n : Nat} {c : Char} {rest : List Item} {wrapped : Nat}
    (hk : k ≤ (c :: glued n rest).length) (hbrace : '{' ∉ (c :: glued n rest).take k)
    (h : advanceBy k ⟨.punct c, rest, wrapped⟩ = .ok () q) : weight ⟨.punct c, rest, wrapped⟩ = q.weight := by
  induction k generalizing n c rest with
  | zero =>
    cases h
    rfl
  | succ k ih =>
    obtain ⟨⟨⟩, r, hr, h⟩ := bind_ok_iff.mp h
    have hc : (Token.punct c).weight = 0 := if_neg fun (hc : c = '{') => hbrace (hc ▸ .head _)
    rw [weight_advance hr, hc, Nat.add_zero]
    -- Of the operator nothing is left, or what is next adjoins and is part of it.
    cases k with
    | zero =>
      cases h
      rfl
    | succ k =>
      have hlength : k + 1 ≤ (glued n rest).length := Nat.le_of_succ_le_succ hk
      unfold glued at hlength hbrace
      split at hlength
      · cases hr
        exact ih hlength (fun hmem => hbrace (.tail _ hmem)) h
      · cases hlength

theorem operator_weight {op : String} (hop : p.operator? = some op) (h : advanceBy op.length p = .ok () q) :
    p.weight = q.weight := by
  obtain ⟨cur, rest, wrapped⟩ := p
  unfold operator? at hop
  split at hop
  · rename_i c hcur
    cases hcur
    have hbrace := not_brace_of_isSpelling (List.find?_some hop)
    obtain ⟨n, -, rfl⟩ := List.mem_map.mp (List.mem_of_find?_eq_some hop)
    rw [String.toList_ofList] at hbrace
    rw [String.length_ofList] at h
    refine advanceBy_weight (List.length_take_le' n _) ?_ h
    rwa [← List.prefix_iff_eq_take.mp (List.take_prefix n _)]
  · cases hop

/-- What follows a right operand, the next operator having the precedence `next`, if there
    is one. -/
def tighterAt (climb : Nat → Expr → Parse Expr) (prec : Nat) (rhs : Expr) : Option Nat → Parse Expr
  | some next => if prec < next then climb (prec + 1) rhs else pure rhs
  | none => pure rhs

theorem tighter_at (climb : Nat → Expr → Parse Expr) (prec : Nat) (rhs : Expr) (p : Parser) :
    tighter ops climb prec rhs p = tighterAt climb prec rhs (p.precedence? ops) p := by
  unfold tighterAt
  rfl

theorem tighter_spends {climb : Nat → Expr → Parse Expr}
    (hclimb : ∀ least lhs p, Spends lhs.weight (climb least lhs) p Expr.weight) (prec : Nat) (rhs : Expr) (p : Parser) :
    Spends rhs.weight (tighter ops climb prec rhs) p Expr.weight := by
  have hat : ∀ next, Spends rhs.weight (tighterAt climb prec rhs next) p Expr.weight := by
    intro next
    cases next with
    | none => exact .pure rfl
    | some next =>
      simp only [tighterAt]
      split
      · exact hclimb _ _ p
      · exact .pure rfl
  intro e q h
  exact hat _ e q (tighter_at climb prec rhs p ▸ h)

theorem operation_spends {reader : Parse Expr} {climb : Nat → Expr → Parse Expr} (h : Weighs reader)
    (hclimb : ∀ least lhs p, Spends lhs.weight (climb least lhs) p Expr.weight) {op : String} (hop : p.operator? = some op)
    (prec : Nat) (lhs : Expr) (least : Nat) :
    Spends lhs.weight (operation ops reader climb prec op lhs least) p Expr.weight := by
  have hoperator : Spends lhs.weight (advanceBy op.length) p fun _ => lhs.weight :=
    fun _ r hr => congrArg (· + lhs.weight) (operator_weight hop hr)
  refine .bind hoperator fun _ r _ => .nested h fun rhs r' => ?_
  exact .bind (tighter_spends hclimb prec rhs r').shift fun rhs' r'' _ => hclimb least (.binary op lhs rhs') r''

/-- What follows an operand is added to it. -/
theorem climbWithin_spends {reader : Parse Expr} (h : Weighs reader) (k least : Nat) (lhs : Expr) (p : Parser) :
    Spends lhs.weight (climbWithin ops reader k least lhs) p Expr.weight := by
  induction k generalizing least lhs p with
  | zero => exact .pure rfl
  | succ k ih =>
    intro e q he
    rw [climbWithin_run] at he
    split at he
    · rename_i op prec hop hprec
      split at he
      · cases he
        rfl
      · exact operation_spends h ih hop prec lhs least e q he
    · cases he
      rfl

/-! ## Expressions -/

theorem expressionWithin_weighs (ops : Operator.Precedences) (k : Nat) : Weighs (expressionWithin ops k) := by
  induction k with
  | zero => exact fun _ => .fail _
  | succ k ih =>
    have hoperand := operandWithin_weighs (primary_weighs ih (k + 1)) (k + 1)
    refine fun p => .nested hoperand fun lhs q => ?_
    rw [Nat.zero_add]
    exact climbWithin_spends hoperand (k + 1) 0 lhs q

/-- No name, number or block of a text is lost in reading, and none is there twice. -/
theorem expression_weighs (ops : Operator.Precedences) : Weighs (expression ops) :=
  fun p => expressionWithin_weighs ops p.size p

theorem operand_weighs (ops : Operator.Precedences) : Weighs (operand ops) := fun p =>
  operandWithin_weighs (primary_weighs (expression_weighs ops) p.size) p.size p

end Parser

end Kaleidoscope
