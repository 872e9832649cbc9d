/-
  Kaleidoscope.Proofs.Reading — readers without a count.

  The readers of expressions are given a count, which bounds their depth and their loops.
  Any count is right that is not less than the size of what is left to read: two readers
  with such counts are `Same`. It comes down to two things. A reader does nothing to the
  parser but pass tokens (`Reaches`), so that sizes only fall; and between a reader and the
  reader nested in it, or between two turns of a loop, at least one token was passed
  (`Consumes`).

  So there is one reader of operands, `operand`, and one reader of what follows an operand,
  `climb`; `expression_eq`, `climb_run` and `operand_run` are the grammar in terms of them.
-/

import Mathlib.Logic.Relation
import Kaleidoscope.Parser.Expression
import Kaleidoscope.Proofs.Success

namespace Kaleidoscope.Parser

open Source

variable {α β : Type}

/-- By passing tokens, and nothing else, the one parser comes to be the other. -/
def Reaches : Parser → Parser → Prop := Relation.ReflTransGen fun p q => q = left (advance p)

/-- On what is no larger than `s`, both readers do the same and do not go back. -/
structure Same (s : Nat) (x y : Parse α) : Prop where
  eq : ∀ p : Parser, p.size ≤ s → x p = y p
  moves : ∀ p : Parser, p.size ≤ s → Reaches p (left (x p))

/-- On what is no larger than `s`, the reader passes a token if it succeeds. -/
def Consumes (s : Nat) (x : Parse α) : Prop :=
  ∀ ⦃p q : Parser⦄ ⦃a : α⦄, p.size ≤ s → x p = .ok a q → q.size < p.size

/-- At the end of input, the reader finds no expression. -/
def StopsAtEnd (x : Parse Expr) : Prop :=
  ∀ p : Parser, p.size = 0 → x p = .error (.grammar .notAnExpression) p

theorem size_eq_zero {p : Parser} (h : p.size = 0) : p.cur = .eof ∧ p.rest = [] := by
  rcases p with ⟨cur, _ | ⟨i, rest⟩, wrapped⟩
  · cases cur <;> simp_all [size]
  · cases cur <;> simp [size] at h

theorem size_pos_of_cur {p : Parser} (h : p.cur ≠ .eof) : p.size ≠ 0 := fun hs => h (size_eq_zero hs).1

theorem advance_at_end {p : Parser} (h : p.size = 0) : advance p = .ok () p := by
  obtain ⟨hcur, hrest⟩ := size_eq_zero h
  obtain ⟨cur, rest, wrapped⟩ := p
  cases hcur
  cases hrest
  rfl

theorem advance_shrinks (p : Parser) : (left (advance p)).size ≤ p.size := by
  by_cases h : p.size = 0
  · rw [advance_at_end h]
    exact Nat.le_refl _
  · exact Nat.le_of_lt (size_advance p h)

theorem reaches_advance (p : Parser) : Reaches p (left (advance p)) := .single rfl

theorem Reaches.shrinks {p q : Parser} (h : Reaches p q) : q.size ≤ p.size := by
  induction h with
  | refl => exact Nat.le_refl _
  | tail _ hq ih =>
    subst hq
    exact Nat.le_trans (advance_shrinks _) ih

/-! ## Looking and counting -/

theorem operator?_bind_run (f : Option String → Parse β) (p : Parser) :
    (TokenSource.operator? >>= f) p = f p.operator? p := rfl

theorem nextPrecedence?_bind_run (ops : Operator.Precedences) (f : Option Nat → Parse β) (p : Parser) :
    (nextPrecedence? ops >>= f) p = f (p.precedence? ops) p := rfl

theorem countWrapper_bind_run (f : Nat → Parse β) (p : Parser) :
    (TokenSource.countWrapper >>= f) p = f p.wrapped { p with wrapped := p.wrapped + 1 } := rfl

/-! ## Putting readers together -/

namespace Same

variable {s t : Nat} {x y : Parse α} {f g : α → Parse β}

theorem shrinks (h : Same s x y) (p : Parser) (hp : p.size ≤ s) : (left (x p)).size ≤ p.size := (h.moves p hp).shrinks

theorem pure (a : α) : Same s (Pure.pure a : Parse α) (Pure.pure a) := ⟨fun _ _ => rfl, fun _ _ => .refl⟩

theorem fail (e : ParseError) : Same s (Parser.fail e : Parse α) (Parser.fail e) := ⟨fun _ _ => rfl, fun _ _ => .refl⟩

theorem mono (h : Same s x y) (hts : t ≤ s) : Same t x y :=
  ⟨fun p hp => h.eq p (Nat.le_trans hp hts), fun p hp => h.moves p (Nat.le_trans hp hts)⟩

theorem refl (h : Same s x y) : Same s x x := ⟨fun _ _ => rfl, h.moves⟩

/-- After a first reader, `t` bounds what is left. -/
theorem bind_of_size (h : Same s x y) (ht : ∀ {p q a}, p.size ≤ s → x p = .ok a q → q.size ≤ t)
    (hf : ∀ a, Same t (f a) (g a)) : Same s (x >>= f) (y >>= g) := by
  refine ⟨fun p hp => ?_, fun p hp => ?_⟩
  · have hxy := h.eq p hp
    cases hx : x p with
    | ok a q =>
      rw [hx] at hxy
      rw [bind_of_ok hx, bind_of_ok hxy.symm]
      exact (hf a).eq q (ht hp hx)
    | error e q =>
      rw [hx] at hxy
      rw [bind_of_error hx, bind_of_error hxy.symm]
  · have hs := h.moves p hp
    cases hx : x p with
    | ok a q =>
      rw [hx] at hs
      rw [bind_of_ok hx]
      exact hs.trans ((hf a).moves q (ht hp hx))
    | error e q =>
      rw [hx] at hs
      rw [bind_of_error hx]
      exact hs

theorem bind (h : Same s x y) (hf : ∀ a, Same s (f a) (g a)) : Same s (x >>= f) (y >>= g) := by
  refine h.bind_of_size (fun {p q a} hp hx => ?_) hf
  have := h.shrinks p hp
  rw [hx] at this
  exact Nat.le_trans this hp

theorem bind_consumes (h : Same (s + 1) x y) (hc : Consumes (s + 1) x) (hf : ∀ a, Same s (f a) (g a)) :
    Same (s + 1) (x >>= f) (y >>= g) := by
  refine h.bind_of_size (fun {p q a} hp hx => ?_) hf
  have := hc hp hx
  omega

theorem advance_self : Same s advance advance := ⟨fun _ _ => rfl, fun p _ => reaches_advance p⟩

theorem advance {f g : Unit → Parse β} (hf : Same s (f ()) (g ())) :
    Same (s + 1) (Parser.advance >>= f) (Parser.advance >>= g) := by
  refine advance_self.bind_of_size (fun {p q a} hp hx => ?_) (fun _ => hf)
  by_cases hz : p.size = 0
  · rw [advance_at_end hz] at hx
    cases hx
    omega
  · have := size_advance p hz
    rw [hx] at this
    exact Nat.le_of_lt_succ (Nat.lt_of_lt_of_le this hp)

theorem current {f g : Token → Parse β} (hf : ∀ t, Same s (f t) (g t)) :
    Same s (Parser.current >>= f) (Parser.current >>= g) :=
  ⟨fun p hp => (hf p.cur).eq p hp, fun p hp => (hf p.cur).moves p hp⟩

theorem get {f g : Parser → Parse β} (hf : ∀ p, Same s (f p) (g p)) :
    Same s (MonadState.get >>= f) (MonadState.get >>= g) :=
  ⟨fun p hp => (hf p).eq p hp, fun p hp => (hf p).moves p hp⟩

theorem operator? {f g : Option String → Parse β} (hf : ∀ o, Same s (f o) (g o)) :
    Same s (TokenSource.operator? >>= f) (TokenSource.operator? >>= g) :=
  ⟨fun p hp => (hf p.operator?).eq p hp, fun p hp => (hf p.operator?).moves p hp⟩

theorem nextPrecedence? {ops : Operator.Precedences} {f g : Option Nat → Parse β} (hf : ∀ o, Same s (f o) (g o)) :
    Same s (Parser.nextPrecedence? ops >>= f) (Parser.nextPrecedence? ops >>= g) :=
  ⟨fun p hp => (hf (p.precedence? ops)).eq p hp, fun p hp => (hf (p.precedence? ops)).moves p hp⟩

theorem ite {c : Prop} [Decidable c] {x' y' : Parse α} (h : Same s x y) (h' : Same s x' y') :
    Same s (if c then x else x') (if c then y else y') := by
  split
  · exact h
  · exact h'

theorem expect (t : Token) (e : ParseError) : Same s (Parser.expect t e) (Parser.expect t e) :=
  current fun _ => ite advance_self (fail e)

theorem passIf (t : Token) : Same s (Parser.passIf t) (Parser.passIf t) :=
  current fun _ => ite advance_self (pure _)

theorem advanceBy (n : Nat) : Same s (Parser.advanceBy n) (Parser.advanceBy n) := by
  induction n with
  | zero => exact pure _
  | succ n ih => exact advance_self.bind fun _ => ih

end Same

theorem Consumes.bind {s : Nat} {x : Parse α} {f : α → Parse β} (hx : Consumes s x) (hf : ∀ a, Same s (f a) (f a)) :
    Consumes s (x >>= f) := by
  intro p q b hp h
  obtain ⟨a, r, hr, hq⟩ := bind_ok_iff.mp h
  have h₁ := hx hp hr
  have h₂ := (hf a).shrinks r (by omega)
  rw [hq] at h₂
  exact Nat.lt_of_le_of_lt h₂ h₁

/-- A reader that starts by passing the current token. -/
theorem advance_consumes {s : Nat} {f : Unit → Parse β} (hf : Same s (f ()) (f ())) {p q : Parser} {b : β}
    (hp : p.size ≤ s + 1) (hz : p.size ≠ 0) (h : (advance >>= f) p = .ok b q) : q.size < p.size := by
  obtain ⟨⟨⟩, r, hr, hq⟩ := bind_ok_iff.mp h
  have h₁ := size_advance p hz
  rw [hr] at h₁
  have h₂ := hf.shrinks r (Nat.le_of_lt_succ (Nat.lt_of_lt_of_le h₁ hp))
  rw [hq] at h₂
  exact Nat.lt_of_le_of_lt h₂ h₁

/-! ## Operands -/

section

variable {s n n' : Nat} {nested nested' : Parse Expr}

theorem arguments_same (h : Same s nested nested') (hend : StopsAtEnd nested) (hend' : StopsAtEnd nested') (hn : s ≤ n)
    (hn' : s ≤ n') : Same s (argumentsWithin nested n) (argumentsWithin nested' n') := by
  have hzero : ∀ {m : Nat} {x : Parse Expr} {p : Parser}, StopsAtEnd x → p.size = 0 →
      argumentsWithin x m p = .error (.grammar .notAnExpression) p := by
    intro m x p hx hp
    cases m with
    | zero => rfl
    | succ m => exact bind_of_error (hx p hp)
  induction s generalizing n n' with
  | zero =>
    refine ⟨fun p hp => ?_, fun p hp => ?_⟩
    · rw [hzero hend (by omega), hzero hend' (by omega)]
    · rw [hzero hend (by omega)]
      exact .refl
  | succ s ih =>
    obtain ⟨m, rfl⟩ := Nat.exists_eq_add_of_lt (Nat.lt_of_lt_of_le (Nat.succ_pos s) hn)
    obtain ⟨m', rfl⟩ := Nat.exists_eq_add_of_lt (Nat.lt_of_lt_of_le (Nat.succ_pos s) hn')
    simp only [Nat.zero_add] at hn hn' ⊢
    simp only [argumentsWithin]
    refine h.bind fun e => .current fun t => ?_
    split
    · exact .pure _
    · exact .advance ((ih (h.mono (by omega)) (by omega) (by omega)).bind fun _ => .pure _)
    · exact .fail _

theorem members_same (h : Same s nested nested') (hc : Consumes s nested) (hn : s ≤ n) (hn' : s ≤ n') :
    Same s (membersWithin nested n) (membersWithin nested' n') := by
  have hzero : ∀ {m : Nat} {x : Parse Expr} {p : Parser}, p.size = 0 →
      membersWithin x m p = .error (.grammar .closingBrace) p := by
    intro m x p hp
    cases m with
    | zero => rfl
    | succ m =>
      have hcur : current p = .ok .eof p := congrArg (EStateM.Result.ok · p) (size_eq_zero hp).1
      exact bind_of_ok hcur
  induction s generalizing n n' with
  | zero =>
    refine ⟨fun p hp => ?_, fun p hp => ?_⟩
    · rw [hzero (by omega), hzero (by omega)]
    · rw [hzero (by omega)]
      exact .refl
  | succ s ih =>
    obtain ⟨m, rfl⟩ := Nat.exists_eq_add_of_lt (Nat.lt_of_lt_of_le (Nat.succ_pos s) hn)
    obtain ⟨m', rfl⟩ := Nat.exists_eq_add_of_lt (Nat.lt_of_lt_of_le (Nat.succ_pos s) hn')
    simp only [Nat.zero_add] at hn hn' ⊢
    simp only [membersWithin]
    refine .current fun t => ?_
    split
    · exact .pure _
    · exact .fail _
    · refine h.bind_consumes hc fun e => ?_
      have hrest := ih (h.mono (by omega)) (fun p q a hp => hc (by omega)) (by omega : s ≤ m) (by omega : s ≤ m')
      split
      · exact (Same.pure _).bind fun _ => hrest.bind fun _ => .pure _
      · refine Same.bind (.current fun t => ?_) fun _ => hrest.bind fun _ => .pure _
        split
        · exact .advance_self
        · exact .pure _
        · exact .fail _

/-- Two readers that both fail, or both pass the current token and then do the same. -/
inductive Starts (s : Nat) : Parse α → Parse α → Prop
  | fail (e : ParseError) : Starts s (Parser.fail e) (Parser.fail e)
  | advance {f g : Unit → Parse α} : Same s (f ()) (g ()) → Starts s (Parser.advance >>= f) (Parser.advance >>= g)

theorem Starts.same {x y : Parse α} (h : Starts s x y) : Same (s + 1) x y := by
  cases h with
  | fail e => exact .fail e
  | advance h => exact .advance h

theorem Starts.consumes {x y : Parse α} (h : Starts s x y) {p q : Parser} {a : α} (hp : p.size ≤ s + 1) (hz : p.size ≠ 0)
    (hx : x p = .ok a q) : q.size < p.size := by
  cases h with
  | fail e => cases hx
  | advance h => exact advance_consumes h.refl hp hz hx

/-- What a primary does at token `t`. -/
def primaryAt (nested : Parse Expr) (n : Nat) : Token → Parse Expr
  | .name name => reference nested n name
  | .number x => do
    advance
    pure (.number x)
  | .keyword .ifWord => conditional nested
  | .keyword .forWord => loop nested
  | .keyword .varWord => variableDecl nested
  | .punct '(' => parenthesis nested
  | .punct '{' => block nested n
  | .text _ => fail .textLiteral
  | _ => fail .notAnExpression

theorem primaryAt_starts (h : Same s nested nested') (hc : Consumes s nested) (hend : StopsAtEnd nested)
    (hend' : StopsAtEnd nested') (hn : s ≤ n) (hn' : s ≤ n') (t : Token) :
    Starts s (primaryAt nested n t) (primaryAt nested' n' t) := by
  unfold primaryAt
  split
  · refine .advance (.current fun t => .ite ?_ (.pure _))
    refine Same.advance_self.bind fun _ => .current fun t => .ite ?_ ?_
    · exact (Same.pure _).bind fun _ => Same.advance_self.bind fun _ => .pure _
    · exact (arguments_same h hend hend' hn hn').bind fun _ => Same.advance_self.bind fun _ => .pure _
  · exact .advance (.pure _)
  · refine .advance (h.bind fun test => (Same.passIf _).bind fun _ => h.bind fun yes => (Same.passIf _).bind fun _ => ?_)
    refine .current fun t => .ite ?_ (.pure _)
    exact Same.advance_self.bind fun _ => h.bind fun no => (Same.passIf _).bind fun _ => .pure _
  · refine .advance (.current fun t => ?_)
    split
    · refine Same.advance_self.bind fun _ => (Same.expect _ _).bind fun _ => h.bind fun start => ?_
      refine (Same.expect _ _).bind fun _ => h.bind fun stop => (Same.expect _ _).bind fun _ => ?_
      have hbody : ∀ f : Expr → Expr, Same s (do
          if (← current) = .punct '{' then
            let body ← nested
            passIf .terminator
            pure (f body)
          else fail .loopBody : Parse Expr) (do
          if (← current) = .punct '{' then
            let body ← nested'
            passIf .terminator
            pure (f body)
          else fail .loopBody : Parse Expr) := fun f =>
        .current fun t => .ite (h.bind fun body => (Same.passIf _).bind fun _ => .pure _) (.fail _)
      refine .current fun t => .ite ?_ ?_
      · exact (Same.pure _).bind fun step => hbody _
      · refine Same.bind (x := some <$> nested) (y := some <$> nested') ?_ fun step => hbody _
        exact h.bind fun e => .pure _
    · exact .fail _
  · refine .advance (.current fun t => ?_)
    split
    · refine Same.advance_self.bind fun _ => .current fun t => .ite ?_ (.pure _)
      exact Same.advance_self.bind fun _ => h.bind fun init => .pure _
    · exact .fail _
  · exact .advance (h.bind fun e => (Same.expect _ _).bind fun _ => .pure _)
  · exact .advance ((members_same h hc hn hn').bind fun es => Same.advance_self.bind fun _ => .pure _)
  · exact .fail _
  · exact .fail _

theorem primary_same (h : Same s nested nested') (hc : Consumes s nested) (hend : StopsAtEnd nested)
    (hend' : StopsAtEnd nested') (hn : s ≤ n) (hn' : s ≤ n') :
    Same (s + 1) (primary nested n) (primary nested' n') :=
  .current fun t => (primaryAt_starts h hc hend hend' hn hn' t).same

theorem primary_stopsAtEnd (nested : Parse Expr) (n : Nat) : StopsAtEnd (primary nested n) := by
  intro p hp
  show primaryAt nested n p.cur p = _
  rw [(size_eq_zero hp).1]
  rfl

theorem primary_consumes (h : Same s nested nested') (hc : Consumes s nested) (hend : StopsAtEnd nested) (hn : s ≤ n) :
    Consumes (s + 1) (primary nested n) := by
  intro p q a hp hx
  refine (primaryAt_starts h.refl hc hend hend hn hn p.cur).consumes hp (fun hz => ?_) hx
  rw [primary_stopsAtEnd nested n p hz] at hx
  cases hx

/-! ## Operators in front of operands -/

variable {reader reader' : Parse Expr}

theorem operandWithin_run (reader : Parse Expr) (n : Nat) (p : Parser) :
    operandWithin reader (n + 1) p = (match unaryOperator? p.cur with
      | some op => do
        advance
        let operand ← operandWithin reader n
        pure (.unary op operand)
      | none => reader : Parse Expr) p := by
  simp only [operandWithin]
  rfl

theorem operandWithin_stopsAtEnd (h : StopsAtEnd reader) : StopsAtEnd (operandWithin reader n) := by
  intro p hp
  cases n with
  | zero => rfl
  | succ n =>
    rw [operandWithin_run, (size_eq_zero hp).1]
    exact h p hp

theorem StopsAtEnd.same_zero {x y : Parse Expr} (hx : StopsAtEnd x) (hy : StopsAtEnd y) : Same 0 x y := by
  refine ⟨fun p hp => ?_, fun p hp => ?_⟩
  · rw [hx p (by omega), hy p (by omega)]
  · rw [hx p (by omega)]
    exact .refl

theorem operand_same (h : Same s reader reader') (hend : StopsAtEnd reader) (hend' : StopsAtEnd reader') (hn : s ≤ n)
    (hn' : s ≤ n') : Same s (operandWithin reader n) (operandWithin reader' n') := by
  induction s generalizing n n' with
  | zero => exact (operandWithin_stopsAtEnd hend).same_zero (operandWithin_stopsAtEnd hend')
  | succ s ih =>
    obtain ⟨m, rfl⟩ := Nat.exists_eq_add_of_lt (Nat.lt_of_lt_of_le (Nat.succ_pos s) hn)
    obtain ⟨m', rfl⟩ := Nat.exists_eq_add_of_lt (Nat.lt_of_lt_of_le (Nat.succ_pos s) hn')
    simp only [Nat.zero_add] at hn hn' ⊢
    simp only [operandWithin]
    refine .current fun t => ?_
    split
    · exact .advance ((ih (h.mono (by omega)) (by omega) (by omega)).bind fun _ => .pure _)
    · exact h

theorem operand_consumes (h : Same s reader reader') (hc : Consumes s reader) (hend : StopsAtEnd reader) (hn : s ≤ n) :
    Consumes s (operandWithin reader n) := by
  intro p q a hp hx
  have hz : p.size ≠ 0 := fun hz => by
    rw [operandWithin_stopsAtEnd hend p hz] at hx
    cases hx
  obtain ⟨s, rfl⟩ : ∃ k, s = k + 1 := ⟨s - 1, by omega⟩
  obtain ⟨m, rfl⟩ : ∃ k, n = k + 1 := ⟨n - 1, by omega⟩
  rw [operandWithin_run] at hx
  cases hu : unaryOperator? p.cur with
  | some op =>
    simp only [hu] at hx
    refine advance_consumes (s := s) ?_ hp hz hx
    exact (operand_same (h.refl.mono (by omega)) hend hend (by omega) (by omega)).bind fun _ => .pure _
  | none =>
    simp only [hu] at hx
    exact hc hp hx

/-! ## Operators between operands -/

theorem length_pos_of_isSpelling {op : String} (h : Operator.isSpelling op = true) : 0 < op.length := by
  have hall : ∀ op ∈ Operator.spellings, 0 < op.length := by decide
  exact hall op (by simpa [Operator.isSpelling] using h)

theorem operator?_spec {p : Parser} {op : String} (h : p.operator? = some op) : p.cur ≠ .eof ∧ 0 < op.length := by
  unfold operator? at h
  split at h
  · rename_i c hc
    refine ⟨by simp [hc], length_pos_of_isSpelling ?_⟩
    exact List.find?_some h
  · cases h

theorem advanceBy_consumes {p q : Parser} {k : Nat} {u : Unit} (hk : 0 < k) (hz : p.size ≠ 0)
    (h : advanceBy k p = .ok u q) : q.size < p.size := by
  obtain ⟨m, rfl⟩ : ∃ m, k = m + 1 := ⟨k - 1, by omega⟩
  exact advance_consumes (s := p.size) (Same.advanceBy m) (by omega) hz h

/-- The right operand of an operator: `rhs`, extended by the operators that bind more
    tightly, if the next one does. -/
def tighter (ops : Operator.Precedences) (climb : Nat → Expr → Parse Expr) (prec : Nat) (rhs : Expr) : Parse Expr := do
  match ← nextPrecedence? ops with
  | some next => if prec < next then climb (prec + 1) rhs else pure rhs
  | none => pure rhs

/-- Passing an operator that has a precedence, and what follows it. -/
def operation (ops : Operator.Precedences) (reader : Parse Expr) (climb : Nat → Expr → Parse Expr) (prec : Nat)
    (op : String) (lhs : Expr) (least : Nat) : Parse Expr := do
  advanceBy op.length
  let rhs ← reader
  let rhs ← tighter ops climb prec rhs
  climb least (.binary op lhs rhs)

theorem precedence?_some {ops : Operator.Precedences} {p : Parser} {prec : Nat} (h : p.precedence? ops = some prec) :
    ∃ op, p.operator? = some op ∧ ops.find? op = some prec := Option.bind_eq_some_iff.mp h

theorem climbWithin_run (ops : Operator.Precedences) (reader : Parse Expr) (n least : Nat) (lhs : Expr) (p : Parser) :
    climbWithin ops reader (n + 1) least lhs p =
      match p.operator?, p.precedence? ops with
      | some op, some prec =>
        if prec < least then .ok lhs p else operation ops reader (climbWithin ops reader n) prec op lhs least p
      | _, _ => .ok lhs p := by
  simp only [climbWithin]
  rw [nextPrecedence?_bind_run]
  cases hp : p.precedence? ops with
  | none => cases p.operator? <;> rfl
  | some prec =>
    obtain ⟨op, hop, -⟩ := precedence?_some hp
    simp only [hop]
    split
    · rfl
    · rename_i hlt
      have htake : takeOperator p = ((advanceBy op.length >>= fun _ => pure (some op)) : Parse (Option String)) p := by
        simp only [takeOperator, operator?_bind_run, hop]
      unfold operation
      cases ha : advanceBy op.length p with
      | error e q =>
        have ht : takeOperator p = .error e q := by rw [htake, bind_of_error ha]
        rw [bind_of_error ht, bind_of_error ha]
      | ok u q =>
        have ht : takeOperator p = .ok (some op) q := by rw [htake, bind_of_ok ha]; rfl
        rw [bind_of_ok ht, bind_of_ok ha]
        simp only
        cases hr : reader q with
        | error e r => rw [bind_of_error hr, bind_of_error hr]
        | ok rhs r =>
          rw [bind_of_ok hr, bind_of_ok hr, nextPrecedence?_bind_run]
          unfold tighter
          simp only [bind_assoc]
          rw [nextPrecedence?_bind_run]
          cases r.precedence? ops with
          | none => rfl
          | some next =>
            simp only
            split <;> rfl

theorem tighter_same {ops : Operator.Precedences} {climb climb' : Nat → Expr → Parse Expr}
    (hclimb : ∀ least lhs, Same s (climb least lhs) (climb' least lhs)) (prec : Nat) (rhs : Expr) :
    Same s (tighter ops climb prec rhs) (tighter ops climb' prec rhs) := by
  refine .nextPrecedence? fun o => ?_
  split
  · exact .ite (hclimb _ _) (.pure _)
  · exact .pure _

theorem operation_same {ops : Operator.Precedences} {climb climb' : Nat → Expr → Parse Expr} (h : Same s reader reader')
    (hclimb : ∀ least lhs, Same s (climb least lhs) (climb' least lhs)) {p : Parser} {op : String} {prec least : Nat}
    {lhs : Expr} (hop : p.operator? = some op) (hp : p.size ≤ s + 1) :
    operation ops reader climb prec op lhs least p = operation ops reader' climb' prec op lhs least p ∧
      Reaches p (left (operation ops reader climb prec op lhs least p)) := by
  obtain ⟨hcur, hlen⟩ := operator?_spec hop
  have hrest : Same s (reader >>= fun rhs => tighter ops climb prec rhs >>= fun rhs => climb least (.binary op lhs rhs))
      (reader' >>= fun rhs => tighter ops climb' prec rhs >>= fun rhs => climb' least (.binary op lhs rhs)) :=
    h.bind fun rhs => (tighter_same hclimb prec rhs).bind fun rhs => hclimb least _
  have hmoves := (Same.advanceBy (s := p.size) op.length).moves p (Nat.le_refl _)
  unfold operation
  cases ha : advanceBy op.length p with
  | ok u q =>
    have hq := advanceBy_consumes hlen (size_pos_of_cur hcur) ha
    rw [ha] at hmoves
    rw [bind_of_ok ha, bind_of_ok ha]
    exact ⟨hrest.eq q (by omega), hmoves.trans (hrest.moves q (by omega))⟩
  | error e q =>
    rw [ha] at hmoves
    rw [bind_of_error ha, bind_of_error ha]
    exact ⟨rfl, hmoves⟩

theorem operator?_at_end {p : Parser} (h : p.size = 0) : p.operator? = none := by
  simp [operator?, (size_eq_zero h).1]

theorem climbWithin_at_end {ops : Operator.Precedences} {p : Parser} (h : p.size = 0) (least : Nat) (lhs : Expr) :
    climbWithin ops reader n least lhs p = .ok lhs p := by
  cases n with
  | zero => rfl
  | succ n => rw [climbWithin_run, operator?_at_end h]

theorem climb_same {ops : Operator.Precedences} (h : Same s reader reader') (hn : s ≤ n) (hn' : s ≤ n') (least : Nat)
    (lhs : Expr) : Same s (climbWithin ops reader n least lhs) (climbWithin ops reader' n' least lhs) := by
  induction s generalizing n n' least lhs with
  | zero =>
    refine ⟨fun p hp => ?_, fun p hp => ?_⟩
    · rw [climbWithin_at_end (by omega), climbWithin_at_end (by omega)]
    · rw [climbWithin_at_end (by omega)]
      exact .refl
  | succ s ih =>
    obtain ⟨m, rfl⟩ : ∃ k, n = k + 1 := ⟨n - 1, by omega⟩
    obtain ⟨m', rfl⟩ : ∃ k, n' = k + 1 := ⟨n' - 1, by omega⟩
    have hboth : ∀ p : Parser, p.size ≤ s + 1 →
        climbWithin ops reader (m + 1) least lhs p = climbWithin ops reader' (m' + 1) least lhs p ∧
          Reaches p (left (climbWithin ops reader (m + 1) least lhs p)) := by
      intro p hp
      rw [climbWithin_run, climbWithin_run]
      cases hop : p.operator? with
      | none => exact ⟨rfl, .refl⟩
      | some op =>
        cases hprec : p.precedence? ops with
        | none => exact ⟨rfl, .refl⟩
        | some prec =>
          simp only
          split
          · exact ⟨rfl, .refl⟩
          · exact operation_same (h.mono (by omega)) (fun least lhs => ih (h.mono (by omega)) (by omega) (by omega) least lhs)
              hop hp
    exact ⟨fun p hp => (hboth p hp).1, fun p hp => (hboth p hp).2⟩

end

/-! ## Expressions -/

section

variable (ops : Operator.Precedences)

theorem expressionWithin_stopsAtEnd (n : Nat) : StopsAtEnd (expressionWithin ops n) := by
  intro p hp
  cases n with
  | zero => rfl
  | succ n =>
    simp only [expressionWithin]
    exact bind_of_error (operandWithin_stopsAtEnd (primary_stopsAtEnd _ _) p hp)

/-- Counts that are large enough do not matter, and expressions are not empty. -/
theorem expressionWithin_same {s n n' : Nat} (hn : s ≤ n) (hn' : s ≤ n') :
    Same s (expressionWithin ops n) (expressionWithin ops n') ∧ Consumes s (expressionWithin ops n) := by
  have hend := expressionWithin_stopsAtEnd ops
  induction s generalizing n n' with
  | zero =>
    refine ⟨(hend n).same_zero (hend n'), fun p q a hp hx => ?_⟩
    rw [hend n p (by omega)] at hx
    cases hx
  | succ s ih =>
    obtain ⟨m, rfl⟩ : ∃ k, n = k + 1 := ⟨n - 1, by omega⟩
    obtain ⟨m', rfl⟩ : ∃ k, n' = k + 1 := ⟨n' - 1, by omega⟩
    obtain ⟨h, hc⟩ := ih (by omega : s ≤ m) (by omega : s ≤ m')
    have hp := primary_same h hc (hend m) (hend m') (by omega : s ≤ m + 1) (by omega : s ≤ m' + 1)
    have hpc := primary_consumes h hc (hend m) (by omega : s ≤ m + 1)
    have ho := operand_same hp (primary_stopsAtEnd _ _) (primary_stopsAtEnd _ _) hn hn'
    have hoc := operand_consumes hp hpc (primary_stopsAtEnd _ _) hn
    simp only [expressionWithin]
    exact ⟨ho.bind fun lhs => climb_same ho hn hn' 0 lhs, hoc.bind fun lhs => climb_same ho.refl hn hn 0 lhs⟩

theorem expressionWithin_eq {n : Nat} {p : Parser} (h : p.size ≤ n) : expressionWithin ops n p = expression ops p :=
  (expressionWithin_same ops h (Nat.le_refl _)).1.eq p (Nat.le_refl _)

theorem expression_same (s : Nat) : Same s (expression ops) (expression ops) :=
  ⟨fun _ _ => rfl, fun p _ => (expressionWithin_same ops (Nat.le_refl _) (Nat.le_refl _)).1.moves p (Nat.le_refl _)⟩

theorem expression_consumes (s : Nat) : Consumes s (expression ops) := fun p _ _ _ hx =>
  (expressionWithin_same ops (Nat.le_refl _) (Nat.le_refl _)).2 (Nat.le_refl p.size) hx

theorem expression_stopsAtEnd : StopsAtEnd (expression ops) := fun p hp => expressionWithin_stopsAtEnd ops p.size p hp

/-- The reader of operands. -/
def operand : Parse Expr := fun p => operandWithin (primary (expression ops) p.size) p.size p

/-- The reader of what follows an operand, or an expression that was put together from
    operands: it extends it by operators that bind at least as tightly as `least`. -/
def climb (least : Nat) (lhs : Expr) : Parse Expr := fun p => climbWithin ops (operand ops) p.size least lhs p

theorem primary_expression_same {s m n : Nat} (hm : s ≤ m) (hn : s ≤ n) :
    Same (s + 1) (primary (expression ops) m) (primary (expression ops) n) :=
  primary_same (expression_same ops s) (expression_consumes ops s) (expression_stopsAtEnd ops)
    (expression_stopsAtEnd ops) hm hn

theorem operand_stopsAtEnd : StopsAtEnd (operand ops) := fun p hp =>
  operandWithin_stopsAtEnd (primary_stopsAtEnd (expression ops) p.size) p hp

theorem operandWithin_eq {s n : Nat} {p : Parser} (hp : p.size ≤ s + 1) (hn : s ≤ n) :
    operandWithin (primary (expressionWithin ops n) (n + 1)) (n + 1) p = operand ops p := by
  have hend := primary_stopsAtEnd (expression ops)
  by_cases hz : p.size = 0
  · rw [operand_stopsAtEnd ops p hz]
    exact operandWithin_stopsAtEnd (primary_stopsAtEnd _ _) p hz
  · obtain ⟨k, hk⟩ : ∃ k, p.size = k + 1 := ⟨p.size - 1, by omega⟩
    obtain ⟨hmoves, hc⟩ := expressionWithin_same ops (by omega : k ≤ n) (by omega : k ≤ n)
    have he : Same k (expressionWithin ops n) (expression ops) :=
      ⟨fun q hq => expressionWithin_eq ops (by omega : q.size ≤ n), hmoves.moves⟩
    have h := primary_same he hc (expressionWithin_stopsAtEnd ops n) (expression_stopsAtEnd ops) (by omega : k ≤ n + 1)
      (by omega : k ≤ p.size)
    exact (operand_same h (primary_stopsAtEnd _ _) (hend _) (by omega) (by omega)).eq p (by omega)

theorem operandWithin_primary_eq {m n : Nat} {p : Parser} (hm : p.size ≤ m + 1) (hn : p.size ≤ n) :
    operandWithin (primary (expression ops) m) n p = operand ops p := by
  have hend := primary_stopsAtEnd (expression ops)
  by_cases hz : p.size = 0
  · rw [operand_stopsAtEnd ops p hz]
    exact operandWithin_stopsAtEnd (hend m) p hz
  · obtain ⟨s, hs⟩ : ∃ s, p.size = s + 1 := ⟨p.size - 1, by omega⟩
    have h := primary_expression_same ops (by omega : s ≤ m) (by omega : s ≤ p.size)
    exact (operand_same h (hend m) (hend p.size) (by omega) (by omega)).eq p (by omega)

theorem operand_run {p : Parser} {n : Nat} (hcur : p.cur ≠ .eof) (hn : p.size ≤ n + 1) :
    operand ops p = (match unaryOperator? p.cur with
      | some op => do
        advance
        let e ← operand ops
        pure (.unary op e)
      | none => primaryAt (expression ops) n p.cur : Parse Expr) p := by
  have hz := size_pos_of_cur hcur
  rw [← operandWithin_primary_eq ops hn hn, operandWithin_run]
  cases unaryOperator? p.cur with
  | none => rfl
  | some op =>
    have hadvance := size_advance p hz
    simp only
    cases ha : advance p with
    | error e q => rw [bind_of_error ha, bind_of_error ha]
    | ok u q =>
      rw [ha] at hadvance
      have hq : q.size ≤ n := by
        change q.size < p.size at hadvance
        omega
      have hrest := operandWithin_primary_eq ops (by omega : q.size ≤ n + 1) hq
      rw [bind_of_ok ha, bind_of_ok ha]
      cases ho : operand ops q with
      | error e r => rw [bind_of_error ho, bind_of_error (hrest.trans ho)]
      | ok e r => rw [bind_of_ok ho, bind_of_ok (hrest.trans ho)]

theorem operand_same_self (s : Nat) : Same s (operand ops) (operand ops) := by
  refine ⟨fun _ _ => rfl, fun p _ => ?_⟩
  have hend := primary_stopsAtEnd (expression ops)
  by_cases hz : p.size = 0
  · rw [operand_stopsAtEnd ops p hz]
    exact .refl
  · obtain ⟨k, hk⟩ : ∃ k, p.size = k + 1 := ⟨p.size - 1, by omega⟩
    have h := primary_expression_same ops (by omega : k ≤ p.size) (by omega : k ≤ p.size)
    have ho := operand_same h (hend _) (hend _) (by omega : k + 1 ≤ p.size) (by omega : k + 1 ≤ p.size)
    exact ho.moves p (by omega)

theorem climbWithin_eq {s n : Nat} {p : Parser} {reader : Parse Expr} (h : Same s reader (operand ops)) (hp : p.size ≤ s)
    (hn : s ≤ n) (least : Nat) (lhs : Expr) : climbWithin ops reader n least lhs p = climb ops least lhs p :=
  (climb_same (h.mono hp) (by omega) (Nat.le_refl _) least lhs).eq p (Nat.le_refl _)

/-- An expression is an operand and what follows it. -/
theorem expression_eq : expression ops = (do
    let lhs ← operand ops
    climb ops 0 lhs) := by
  funext p
  show expressionWithin ops p.size p = _
  by_cases hz : p.size = 0
  · rw [expressionWithin_stopsAtEnd ops _ p hz]
    exact (bind_of_error (operand_stopsAtEnd ops p hz)).symm
  · obtain ⟨k, hk⟩ : ∃ k, p.size = k + 1 := ⟨p.size - 1, by omega⟩
    have hsame : Same (k + 1) (operandWithin (primary (expressionWithin ops k) (k + 1)) (k + 1)) (operand ops) :=
      ⟨fun q hq => operandWithin_eq ops hq (Nat.le_refl k), fun q hq => by
        rw [operandWithin_eq ops hq (Nat.le_refl k)]
        exact (operand_same_self ops (k + 1)).moves q hq⟩
    have hall : Same (k + 1) (expressionWithin ops (k + 1)) (do
        let lhs ← operand ops
        climb ops 0 lhs) := by
      simp only [expressionWithin]
      refine hsame.bind fun lhs => ⟨fun q hq => ?_, (climb_same hsame (Nat.le_refl _) (Nat.le_refl _) 0 lhs).moves⟩
      exact climbWithin_eq ops hsame hq (Nat.le_refl _) 0 lhs
    rw [hk]
    exact hall.eq p (by omega)

/-- What follows an operand: nothing that binds tightly enough, or an operation. -/
theorem climb_run (least : Nat) (lhs : Expr) (p : Parser) :
    climb ops least lhs p =
      match p.operator?, p.precedence? ops with
      | some op, some prec =>
        if prec < least then .ok lhs p else operation ops (operand ops) (climb ops) prec op lhs least p
      | _, _ => .ok lhs p := by
  cases hop : p.operator? with
  | none =>
    unfold climb
    cases p.size with
    | zero => rfl
    | succ n => rw [climbWithin_run, hop]
  | some op =>
    have hz := size_pos_of_cur (operator?_spec hop).1
    obtain ⟨k, hk⟩ : ∃ k, p.size = k + 1 := ⟨p.size - 1, by omega⟩
    rw [climb, hk, climbWithin_run, hop]
    cases p.precedence? ops with
    | none => rfl
    | some prec =>
      simp only
      split
      · rfl
      · refine (operation_same (operand_same_self ops k) (fun least lhs => ⟨fun q hq => ?_, ?_⟩) hop (by omega)).1
        · exact climbWithin_eq ops (operand_same_self ops k) hq (Nat.le_refl k) least lhs
        · exact (climb_same (operand_same_self ops k) (Nat.le_refl k) (Nat.le_refl k) least lhs).moves

end

end Kaleidoscope.Parser
