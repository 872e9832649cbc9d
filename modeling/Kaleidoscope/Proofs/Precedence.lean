/-
  Kaleidoscope.Proofs.Precedence — operators bind as their precedences say.

  A chain of operands and operators can be bracketed in many ways: `Bracketing`. One of
  them is right: at each operator, what stands to the left does not bind less tightly, and
  what stands to the right binds more tightly (`Ordered`).
  - `ordered_unique`: there is at most one such bracketing of a chain. Its outermost
    operator is the last one of those that bind least.
  - `expression_chain`: the reader of expressions finds it, and reads the whole chain, for
    every table of precedences.

  `climb_spec` is the invariant of the reader: what it was given is ordered and the next
  operator does not bind more tightly; what it returns is ordered, and is what it was given
  or binds at least as tightly as it was told to; and the next operator binds less.
-/

import Kaleidoscope.Proofs.Reading

namespace Kaleidoscope

/-- A chain of operands and operators, with brackets. -/
inductive Bracketing where
  | operand (e : Expr)
  | node (op : String) (lhs rhs : Bracketing)

namespace Bracketing

def toExpr : Bracketing → Expr
  | operand e => e
  | node op lhs rhs => .binary op lhs.toExpr rhs.toExpr

/-- The first operand of the chain. -/
def first : Bracketing → Expr
  | operand e => e
  | node _ lhs _ => lhs.first

/-- The operators of the chain, each with the operand after it. -/
def rest : Bracketing → List (String × Expr)
  | operand _ => []
  | node op lhs rhs => lhs.rest ++ (op, rhs.first) :: rhs.rest

/-- The outermost operator. -/
def root? : Bracketing → Option String
  | operand _ => none
  | node op _ _ => some op

section

variable (ops : Operator.Precedences)

/-- The precedence of an operator that has one. -/
def precedence (op : String) : Nat := (ops.find? op).getD 0

/-- Tighter operators are inside looser ones, and of equals the earlier one is inside. -/
def Ordered : Bracketing → Prop
  | operand _ => True
  | node op lhs rhs => lhs.Ordered ∧ rhs.Ordered ∧
      (∀ o ∈ lhs.root?, precedence ops op ≤ precedence ops o) ∧
      (∀ o ∈ rhs.root?, precedence ops op < precedence ops o)

end

variable {ops : Operator.Precedences}

/-- The outermost operator binds least. -/
theorem Ordered.root_le {t : Bracketing} (h : t.Ordered ops) {o : String} (ho : o ∈ t.root?) :
    ∀ x ∈ t.rest, precedence ops o ≤ precedence ops x.1 := by
  induction t generalizing o with
  | operand e => cases ho
  | node op lhs rhs ihl ihr =>
    cases ho
    obtain ⟨hl, hr, hroot, hroot'⟩ := h
    intro x hx
    rcases List.mem_append.mp hx with hx | hx
    · cases lhs with
      | operand e => cases hx
      | node o l r => exact Nat.le_trans (hroot o rfl) (ihl hl rfl x hx)
    · rcases List.mem_cons.mp hx with rfl | hx
      · exact Nat.le_refl _
      · cases rhs with
        | operand e => cases hx
        | node o l r => exact Nat.le_trans (Nat.le_of_lt (hroot' o rfl)) (ihr hr rfl x hx)

theorem Ordered.left_le {op : String} {lhs rhs : Bracketing} (h : (node op lhs rhs).Ordered ops) :
    ∀ x ∈ lhs.rest, precedence ops op ≤ precedence ops x.1 := by
  intro x hx
  exact h.root_le rfl x (List.mem_append_left _ hx)

theorem Ordered.right_lt {op : String} {lhs rhs : Bracketing} (h : (node op lhs rhs).Ordered ops) :
    ∀ x ∈ rhs.rest, precedence ops op < precedence ops x.1 := by
  intro x hx
  obtain ⟨-, hr, -, hroot⟩ := h
  cases rhs with
  | operand e => cases hx
  | node o l r => exact Nat.lt_of_lt_of_le (hroot o rfl) (hr.root_le rfl x hx)

/-- Two ways of cutting a list at an element: the same, or each element is beside the
    other. -/
theorem append_cons_cases {α : Type} {l l' r r' : List α} {x x' : α} (h : l ++ x :: r = l' ++ x' :: r') :
    (l = l' ∧ x = x' ∧ r = r') ∨ (x' ∈ r ∧ x ∈ l') ∨ (x ∈ r' ∧ x' ∈ l) := by
  rcases List.append_eq_append_iff.mp h with ⟨m, rfl, hm⟩ | ⟨m, rfl, hm⟩
  · cases m with
    | nil =>
      obtain ⟨rfl, rfl⟩ := List.cons.inj hm
      exact .inl ⟨(List.append_nil _).symm, rfl, rfl⟩
    | cons y m =>
      obtain ⟨rfl, rfl⟩ := List.cons.inj hm
      exact .inr (.inl ⟨by simp, by simp⟩)
  · cases m with
    | nil =>
      obtain ⟨rfl, rfl⟩ := List.cons.inj hm
      exact .inl ⟨List.append_nil _, rfl, rfl⟩
    | cons y m =>
      obtain ⟨rfl, rfl⟩ := List.cons.inj hm
      exact .inr (.inr ⟨by simp, by simp⟩)

/-- A chain is put in order in one way only. -/
theorem ordered_unique {t u : Bracketing} (ht : t.Ordered ops) (hu : u.Ordered ops) (hfirst : t.first = u.first)
    (hrest : t.rest = u.rest) : t = u := by
  induction t generalizing u with
  | operand e =>
    cases u with
    | operand e' => exact congrArg operand hfirst
    | node o l r => simp [rest] at hrest
  | node op lhs rhs ihl ihr =>
    cases u with
    | operand e' => simp [rest] at hrest
    | node o l r =>
      -- if the outermost operators differ, each is beside the other
      rcases append_cons_cases hrest with ⟨hl, hx, hr⟩ | ⟨hx, hx'⟩ | ⟨hx, hx'⟩
      · obtain ⟨rfl, hr'⟩ := Prod.mk.inj hx
        rw [ihl ht.1 hu.1 hfirst hl, ihr ht.2.1 hu.2.1 hr' hr]
      · have h₁ := ht.right_lt _ hx
        have h₂ := hu.left_le _ hx'
        exact absurd h₁ (Nat.not_lt.mpr h₂)
      · have h₁ := hu.right_lt _ hx
        have h₂ := ht.left_le _ hx'
        exact absurd h₁ (Nat.not_lt.mpr h₂)

end Bracketing

namespace Parser

open Bracketing (precedence)

variable {ops : Operator.Precedences}

/-- From `p` to `q`, there are operators with precedences and an operand after each; no
    operator with a precedence follows. -/
inductive Operations (ops : Operator.Precedences) : Parser → List (String × Expr) → Parser → Prop
  | done {p : Parser} : p.precedence? ops = none → Operations ops p [] p
  | more {p p₁ p₂ q : Parser} {op : String} {e : Expr} {rest : List (String × Expr)} :
      p.operator? = some op → (ops.find? op).isSome → advanceBy op.length p = .ok () p₁ → operand ops p₁ = .ok e p₂ →
      Operations ops p₂ rest q → Operations ops p ((op, e) :: rest) q

/-- The same, starting with an operand. -/
def Chain (ops : Operator.Precedences) (p : Parser) (e : Expr) (rest : List (String × Expr)) (q : Parser) : Prop :=
  ∃ p₁, operand ops p = .ok e p₁ ∧ Operations ops p₁ rest q

theorem Operations.precedence? {p q : Parser} {rest : List (String × Expr)} (h : Operations ops p rest q) :
    p.precedence? ops = rest.head?.map fun x => precedence ops x.1 := by
  cases h with
  | done hp => exact hp
  | more hop hprec ha he hrest =>
    obtain ⟨prec, hprec⟩ := Option.isSome_iff_exists.mp hprec
    simp [Parser.precedence?, hop, precedence, hprec]

/-- What `climb` was asked to do with `lhs` and did: it extended it to `t` by the
    operations `taken`, and `left` are left. -/
structure Climbed (ops : Operator.Precedences) (least : Nat) (lhs t : Bracketing) (taken left : List (String × Expr)) :
    Prop where
  ordered : t.Ordered ops
  first : t.first = lhs.first
  rest : t.rest = lhs.rest ++ taken
  root : t = lhs ∨ ∃ o ∈ t.root?, least ≤ precedence ops o
  next : ∀ x ∈ left.head?, precedence ops x.1 < least

theorem climb_spec (n : Nat) : ∀ {p q : Parser} {rest : List (String × Expr)} (least : Nat) (lhs : Bracketing),
    rest.length ≤ n → Operations ops p rest q → lhs.Ordered ops →
    (∀ o ∈ lhs.root?, ∀ x ∈ rest.head?, precedence ops x.1 ≤ precedence ops o) →
    ∃ t taken left p', rest = taken ++ left ∧ climb ops least lhs.toExpr p = .ok t.toExpr p' ∧ Operations ops p' left q ∧
      Climbed ops least lhs t taken left := by
  induction n with
  | zero =>
    intro p q rest least lhs hlen hrest hord hnext
    obtain rfl : rest = [] := List.length_eq_zero_iff.mp (by omega)
    refine ⟨lhs, [], [], p, rfl, ?_, hrest, hord, rfl, by simp, .inl rfl, by simp⟩
    rw [climb_run, hrest.precedence?]
    cases p.operator? <;> rfl
  | succ n ih =>
    intro p q rest least lhs hlen hrest hord hnext
    have hprec := hrest.precedence?
    cases hrest with
    | done hp =>
      refine ⟨lhs, [], [], p, rfl, ?_, .done hp, hord, rfl, by simp, .inl rfl, by simp⟩
      rw [climb_run, hprec]
      cases p.operator? <;> rfl
    | @more _ p₁ p₂ _ op e rest hop hsome ha he hrest =>
      simp only [List.head?_cons, Option.map_some] at hprec
      by_cases hlt : precedence ops op < least
      · refine ⟨lhs, [], (op, e) :: rest, p, rfl, ?_, .more hop hsome ha he hrest, hord, rfl, by simp, .inl rfl, ?_⟩
        · rw [climb_run, hop, hprec]
          exact if_pos hlt
        · simpa using hlt
      · -- the operand on the right takes the operators that bind more tightly
        obtain ⟨r, taken, left, p₃, rfl, hr, hleft, hc⟩ : ∃ r taken left p₃, rest = taken ++ left ∧
            tighter ops (climb ops) (precedence ops op) e p₂ = .ok r.toExpr p₃ ∧ Operations ops p₃ left q ∧
            Climbed ops (precedence ops op + 1) (.operand e) r taken left := by
          have hp₂ := hrest.precedence?
          by_cases htight : ∀ x ∈ rest.head?, precedence ops x.1 ≤ precedence ops op
          · refine ⟨.operand e, [], rest, p₂, rfl, ?_, hrest, trivial, rfl, rfl, .inl rfl, fun x hx =>
              Nat.lt_succ_of_le (htight x hx)⟩
            unfold tighter
            rw [nextPrecedence?_bind_run, hp₂]
            cases hh : rest.head? with
            | none => rfl
            | some x =>
              simp only [Option.map_some]
              rw [if_neg (Nat.not_lt.mpr (htight x hh))]
              rfl
          · obtain ⟨r, taken, left, p₃, heq, hr, hleft, hc⟩ :=
              ih (precedence ops op + 1) (.operand e) (by simpa using hlen) hrest trivial (fun o ho => nomatch ho)
            refine ⟨r, taken, left, p₃, heq, ?_, hleft, hc⟩
            unfold tighter
            rw [nextPrecedence?_bind_run, hp₂]
            cases hh : rest.head? with
            | none => simp [hh] at htight
            | some x =>
              have hx : precedence ops op < precedence ops x.1 := by simpa [hh] using htight
              simp only [Option.map_some]
              rw [if_pos hx]
              exact hr
        -- and the operator goes around both
        have hnode : (Bracketing.node op lhs r).Ordered ops := by
          refine ⟨hord, hc.ordered, fun o ho => hnext o ho (op, e) rfl, fun o ho => ?_⟩
          rcases hc.root with rfl | ⟨o', ho', hle⟩
          · cases ho
          · obtain rfl : o = o' := Option.some.inj (ho.symm.trans ho')
            exact hle
        simp only [List.length_cons, List.length_append] at hlen
        obtain ⟨t, taken', left', p', rfl, ht, hleft', hc'⟩ := ih least _ (by omega) hleft hnode
          (fun o ho x hx => by cases ho; exact Nat.le_of_lt_succ (hc.next x hx))
        refine ⟨t, (op, e) :: (taken ++ taken'), left', p', by simp, ?_, hleft', hc'.ordered, hc'.first, ?_, ?_, hc'.next⟩
        · rw [climb_run, hop, hprec]
          simp only
          rw [if_neg hlt, operation, bind_of_ok ha, bind_of_ok he, bind_of_ok hr]
          exact ht
        · rw [hc'.rest]
          simp [Bracketing.rest, hc.rest, hc.first, Bracketing.first]
        · rcases hc'.root with rfl | h
          · exact .inr ⟨op, rfl, Nat.not_lt.mp hlt⟩
          · exact .inr h

/-- A chain is read to its end, and as the one bracketing that the precedences ask for. -/
theorem expression_chain {p q : Parser} {e : Expr} {rest : List (String × Expr)} (h : Chain ops p e rest q) :
    ∃ t : Bracketing, expression ops p = .ok t.toExpr q ∧ t.first = e ∧ t.rest = rest ∧ t.Ordered ops ∧
      ∀ u : Bracketing, u.first = e → u.rest = rest → u.Ordered ops → u = t := by
  obtain ⟨p₁, he, hrest⟩ := h
  obtain ⟨t, taken, left, p', rfl, ht, hleft, hc⟩ := climb_spec _ 0 (.operand e) (Nat.le_refl _) hrest trivial
    (fun o ho => nomatch ho)
  -- nothing binds less than 0, so nothing is left
  obtain rfl : left = [] := by
    cases left with
    | nil => rfl
    | cons x left => exact absurd (hc.next x rfl) (Nat.not_lt_zero _)
  have hq : p' = q := by
    cases hleft with
    | done => rfl
  have hrest' : t.rest = taken := hc.rest
  refine ⟨t, ?_, hc.first, by simpa using hrest', hc.ordered, fun u hu hu' ho => ?_⟩
  · rw [expression_eq, bind_of_ok he, ← hq]
    exact ht
  · exact Bracketing.ordered_unique ho hc.ordered (hu.trans hc.first.symm) (by simpa [hrest'] using hu')

/-- `a - b << c - d;` with the first token current. -/
def shiftedTerm : Parser where
  cur := .name "a"
  rest := [⟨.ok (.punct '-'), false⟩, ⟨.ok (.name "b"), false⟩, ⟨.ok (.punct '<'), false⟩, ⟨.ok (.punct '<'), true⟩,
    ⟨.ok (.name "c"), false⟩, ⟨.ok (.punct '-'), false⟩, ⟨.ok (.name "d"), false⟩, ⟨.ok .terminator, true⟩]

/-- The builtin table with a shift that binds more tightly than the sum. -/
def withShift : Operator.Precedences := Operator.builtin.insert "<<" 30

/-- `(a - (b << c)) - d`, and the terminator is current. -/
theorem expression_chain_shiftedTerm :
    Chain withShift shiftedTerm (.ref "a") [("-", .ref "b"), ("<<", .ref "c"), ("-", .ref "d")]
      { cur := .terminator, rest := [] } ∧
    expression withShift shiftedTerm =
      .ok (.binary "-" (.binary "-" (.ref "a") (.binary "<<" (.ref "b") (.ref "c"))) (.ref "d"))
        { cur := .terminator, rest := [] } := by
  have hchain : Chain withShift shiftedTerm (.ref "a") [("-", .ref "b"), ("<<", .ref "c"), ("-", .ref "d")]
      { cur := .terminator, rest := [] } :=
    ⟨_, rfl, .more rfl rfl rfl rfl (.more rfl rfl rfl rfl (.more rfl rfl rfl rfl (.done rfl)))⟩
  obtain ⟨t, ht, -, -, -, hunique⟩ := expression_chain hchain
  let u : Bracketing :=
    .node "-" (.node "-" (.operand (.ref "a")) (.node "<<" (.operand (.ref "b")) (.operand (.ref "c"))))
      (.operand (.ref "d"))
  have hu : u.Ordered withShift := by
    simp only [u, Bracketing.Ordered, Bracketing.root?]
    decide
  refine ⟨hchain, ?_⟩
  rw [ht, ← hunique u rfl rfl hu]
  rfl

end Parser

end Kaleidoscope
