/-
  Kaleidoscope.Proofs.ReadBack — the parser reads back every expression.

  `Parsed` is what reading the text of a tree comes to: alone, and as a part of another one.
  One lemma for each kind of expression (`parsed_number` .. `parsed_block`) carries it from
  the parts to the whole, whatever follows. Prefix operators may be any punctuation and an
  operator takes all the characters that adjoin it: parentheses around every part and spaces
  around every operator keep both from reaching into what follows.

  `expression_text`: the canonical text is read to its end, and gives the tree.
-/

import Kaleidoscope.Proofs.Canonical

namespace Kaleidoscope

open Source

namespace Parser

/-! ## Alone and as a part -/

/-- The text of an expression is read back, alone and as a part of another one. -/
structure Parsed (ops : Operator.Precedences) (digits : Float → String) (e : Expr) : Prop where
  begins : ∀ rest, Cuts rest → ∃ t next, Begins ((e.text digits).toList ++ rest) t next ∧ t ≠ .eof ∧
    (e.isAtomic = true ∨ e.takesTerminator = true → Opens t)
  whole : ∀ rest rest', Follows e.takesTerminator rest rest' →
    Reads (expression ops) ((e.text digits).toList ++ rest) e rest'
  part : ∀ rest t next, Cuts rest → Begins rest t next → t ≠ .punct '(' →
    Reads (operand ops) ((e.part digits).toList ++ rest) e rest

section

variable {ops : Operator.Precedences} {digits : Float → String}

theorem part_of_isAtomic {e : Expr} (h : e.isAtomic = true) (rest : List Char) :
    (e.part digits).toList ++ rest = (e.text digits).toList ++ rest := by
  simp [Expr.part, Expr.enclose, h]

theorem part_of_not_isAtomic {e : Expr} (h : e.isAtomic = false) (rest : List Char) :
    (e.part digits).toList ++ rest = '(' :: ((e.text digits).toList ++ ')' :: rest) := by
  simp [Expr.part, Expr.enclose, h]

/-- A part begins with a name, a number or a parenthesis. -/
theorem Parsed.opens {e : Expr} (h : Parsed ops digits e) {rest : List Char} (hrest : Cuts rest) :
    ∃ t next, Begins ((e.part digits).toList ++ rest) t next ∧ Opens t := by
  cases ha : e.isAtomic with
  | true =>
    obtain ⟨t, next, hb, -, ht⟩ := h.begins rest hrest
    rw [part_of_isAtomic ha]
    exact ⟨t, next, hb, ht (.inl ha)⟩
  | false =>
    rw [part_of_not_isAtomic ha]
    exact ⟨_, _, begins_punct (by decide) _, .paren⟩

theorem Parsed.reads_operand {e : Expr} (h : Parsed ops digits e) {rest : List Char} {t : Token} (hrest : Ends rest t) :
    Reads (operand ops) ((e.part digits).toList ++ rest) e rest := by
  obtain ⟨next, hb⟩ := hrest.begins
  exact h.part rest t next hrest.cuts hb hrest.closes.ne_paren

/-- A part is an expression by itself. -/
theorem Parsed.reads (hcomma : ops.find? "," = none) {e : Expr} (h : Parsed ops digits e) {rest : List Char} {t : Token}
    (hrest : Ends rest t) : Reads (expression ops) ((e.part digits).toList ++ rest) e rest := by
  obtain ⟨next, hb⟩ := hrest.begins
  exact reads_expression (h.reads_operand hrest) (precedence?_standing hcomma hb (.inl hrest.closes))

/-- What is written without parentheses is read as an operand. -/
theorem parsed_of_operand (hcomma : ops.find? "," = none) {e : Expr} (ha : e.isAtomic = true)
    (hbegins : ∀ rest, Cuts rest → ∃ t next, Begins ((e.text digits).toList ++ rest) t next ∧ Opens t)
    (h : ∀ rest t next, Cuts rest → Begins rest t next → t ≠ .punct '(' →
      Reads (operand ops) ((e.text digits).toList ++ rest) e rest) : Parsed ops digits e where
  begins rest hrest := by
    obtain ⟨t, next, hb, ht⟩ := hbegins rest hrest
    exact ⟨t, next, hb, ht.ne_eof, fun _ => ht⟩
  whole rest rest' hrest := by
    have hprec := hrest.precedence? hcomma
    obtain ⟨t, hends⟩ := hrest.exists_ends
    obtain ⟨next, hb⟩ := hends.begins
    rw [Expr.takesTerminator_of_isAtomic ha] at hrest
    rw [hrest.eq_of_false] at hprec ⊢
    exact reads_expression (h rest t next hends.cuts hb hends.closes.ne_paren) hprec
  part rest t next hcuts hb ht := by
    rw [part_of_isAtomic ha]
    exact h rest t next hcuts hb ht

/-- What is written in parentheses is read as an expression. -/
theorem parsed_of_expression {e : Expr} (ha : e.isAtomic = false)
    (hbegins : ∀ rest, Cuts rest → ∃ t next, Begins ((e.text digits).toList ++ rest) t next ∧ t ≠ .eof ∧
      (e.takesTerminator = true → Opens t))
    (h : ∀ rest rest', Follows e.takesTerminator rest rest' →
      Reads (expression ops) ((e.text digits).toList ++ rest) e rest') : Parsed ops digits e where
  begins rest hrest := by
    obtain ⟨t, next, hb, hne, ht⟩ := hbegins rest hrest
    refine ⟨t, next, hb, hne, ?_⟩
    rintro (h | h)
    · rw [ha] at h
      cases h
    · exact ht h
  whole := h
  part rest t next _ hb _ := by
    have hclose := ends_paren rest
    obtain ⟨u, next', hopen, -⟩ := hbegins (')' :: rest) hclose.cuts
    have hparen := begins_punct (c := '(') (by decide) ((e.text digits).toList ++ ')' :: rest)
    rw [part_of_not_isAtomic ha]
    refine reads_primary hparen (by simp) rfl 0 fun m _ => ?_
    have hwhole := h (')' :: rest) (')' :: rest) (.ends hclose (by simp))
    refine (Reads.advance hparen (by simp) hopen).bind (hwhole.bind ?_)
    exact (Reads.expect (begins_punct (by decide) rest) (by simp) hb _).bind (.pure e rest)

/-! ## Numbers, names and variables -/

theorem parsed_number (hcomma : ops.find? "," = none) {x : Float} (hx : Decimal.literal? (digits x).toList = some x) :
    Parsed ops digits (.number x) := by
  have htext : (Expr.number x).text digits = digits x := by rw [Expr.text]
  refine parsed_of_operand hcomma rfl (fun rest hrest => ?_) fun rest t next hcuts hb _ => ?_
  · rw [htext]
    exact ⟨_, _, begins_number hx hrest, .number x⟩
  · have hnumber := begins_number hx hcuts
    rw [htext]
    exact reads_primary hnumber (by simp) rfl 0 fun m _ => (Reads.advance hnumber (by simp) hb).bind (.pure _ rest)

theorem parsed_ref (hcomma : ops.find? "," = none) {name : String} (hname : isIdentifier name = true) :
    Parsed ops digits (.ref name) := by
  have htext : (Expr.ref name).text digits = name := by rw [Expr.text]
  refine parsed_of_operand hcomma rfl (fun rest hrest => ?_) fun rest t next hcuts hb ht => ?_
  · rw [htext]
    exact ⟨_, _, begins_name hname hrest, .name name⟩
  · have hword := begins_name hname hcuts
    rw [htext]
    refine reads_primary hword (by simp) rfl 0 fun m _ => ?_
    refine (Reads.advance hword (by simp) hb).bind ((Reads.current hb).bind ?_)
    rw [if_neg ht]
    exact .pure _ rest

/-- An expression that its first token tells the kind of. Calls and blocks have loops that
    count down, from no less than `n`. -/
theorem parsed_of_primary (hcomma : ops.find? "," = none) {e : Expr} (ha : e.isAtomic = false) {t : Token} (ht : t ≠ .eof)
    (hu : unaryOperator? t = none) (hopens : e.takesTerminator = true → Opens t)
    (hbegins : ∀ rest, ∃ next, Begins ((e.text digits).toList ++ rest) t next) (n : Nat)
    (h : ∀ m rest rest', n ≤ m → Follows e.takesTerminator rest rest' →
      Reads (primaryAt (expression ops) m t) ((e.text digits).toList ++ rest) e rest') : Parsed ops digits e := by
  refine parsed_of_expression ha (fun rest _ => ?_) fun rest rest' hrest => ?_
  · obtain ⟨next, hb⟩ := hbegins rest
    exact ⟨t, next, hb, ht, hopens⟩
  · obtain ⟨next, hb⟩ := hbegins rest
    exact reads_expression (reads_primary hb ht hu n fun m hm => h m rest rest' hm hrest) (hrest.precedence? hcomma)

theorem parsed_var (hcomma : ops.find? "," = none) {name : String} {init : Option Expr} (hname : isIdentifier name = true)
    (hinit : ∀ e ∈ init, Parsed ops digits e) : Parsed ops digits (.var name init) := by
  have hbegins : ∀ rest, Begins (((Expr.var name init).text digits).toList ++ rest) (.keyword .varWord)
      (' ' :: (name.toList ++ ((Expr.optionText digits " = " "" init).toList ++ rest))) := fun rest => by
    rw [text_var]
    exact begins_keyword .varWord (cuts_space _)
  refine parsed_of_primary hcomma rfl (by simp) rfl nofun (fun rest => ⟨_, hbegins rest⟩) 0 fun m rest rest' _ hrest => ?_
  obtain ⟨t, hends⟩ := hrest.exists_ends
  obtain ⟨next, hb⟩ := hends.begins
  have hvar := hbegins rest
  rw [hrest.eq_of_false]
  cases init with
  | none =>
    have hword := begins_space.mpr (begins_name hname hends.cuts)
    simp only [Expr.optionText, String.toList_empty, List.nil_append] at hvar
    refine (Reads.advance hvar (by simp) hword).bind ((Reads.current hword).bind ?_)
    refine (Reads.advance hword (by simp) hb).bind ((Reads.current hb).bind ?_)
    have hne : t ≠ .punct '=' := by
      rintro rfl
      cases hends.closes
    rw [if_neg hne]
    exact .pure _ rest
  | some e =>
    have he := hinit e rfl
    obtain ⟨u, next', hopen, -⟩ := he.opens hends.cuts
    rw [optionText_assigned] at hvar
    have hword := begins_space.mpr (begins_name hname (cuts_space ('=' :: ' ' :: ((e.part digits).toList ++ rest))))
    have hassign := begins_space.mpr (begins_punct (c := '=') (by decide) (' ' :: ((e.part digits).toList ++ rest)))
    refine (Reads.advance hvar (by simp) hword).bind ((Reads.current hword).bind ?_)
    refine (Reads.advance hword (by simp) hassign).bind ((Reads.current hassign).bind ?_)
    rw [if_pos rfl]
    refine (Reads.advance hassign (by simp) (begins_space.mpr hopen)).bind ?_
    exact (he.reads hcomma hends).space.bind (.pure _ rest)

/-! ## Operators -/

theorem parsed_unary (hcomma : ops.find? "," = none) {op : Char} {e : Expr} (hop : standsAlone op = true)
    (hascii : op.toNat < 128) (hother : op ∉ ['(', ',', '{']) (he : Parsed ops digits e) : Parsed ops digits (.unary op e) := by
  have hu : unaryOperator? (.punct op) = some op := by
    simp only [List.mem_cons, List.not_mem_nil, or_false, not_or] at hother
    simp [unaryOperator?, hascii, hother]
  refine parsed_of_expression rfl (fun rest _ => ?_) fun rest rest' hrest => ?_
  · rw [text_unary]
    exact ⟨_, _, begins_punct hop _, by simp, nofun⟩
  · have hprec := hrest.precedence? hcomma
    obtain ⟨t, hends⟩ := hrest.exists_ends
    obtain ⟨u, next, hopen, -⟩ := he.opens hends.cuts
    rw [hrest.eq_of_false] at hprec ⊢
    rw [text_unary]
    exact reads_expression (reads_unary (begins_punct hop _) hu hopen (he.reads_operand hends)) hprec

/-- An operator and its right operand, no operator following. -/
theorem reads_operation (lhs : Expr) {op : String} {prec : Nat} {rhs : Expr} {cs next rest : List Char} {t : Token}
    (hop : op ∈ Operator.spellings) (hprec : ops.find? op = some prec) (hcs : Begins cs t next)
    (h : Reads (operand ops) cs rhs rest) (hrest : ∀ k, (standing k rest).precedence? ops = none) :
    Reads (climb ops 0 lhs) (op.toList ++ ' ' :: cs) (.binary op lhs rhs) rest := by
  have htake : Reads (advanceBy op.length) (op.toList ++ ' ' :: cs) () (' ' :: cs) := by
    rw [← String.length_toList]
    exact reads_advanceBy (standsAlone_spelling hop) (begins_space.mpr hcs)
  have htighter : Reads (tighter ops (climb ops) prec rhs) rest rhs rest := fun k => by
    rw [tighter, nextPrecedence?_bind_run, hrest k]
    rfl
  intro k
  have hop' := operator?_standing hop cs k
  rw [climb_run, precedence?, hop']
  simp only [Option.bind_some, hprec, Nat.not_lt_zero, if_false]
  refine htake.bind (h.space.bind (htighter.bind ?_)) k
  exact reads_climb_of_precedence? hrest 0

theorem parsed_binary (hcomma : ops.find? "," = none) {op : String} {lhs rhs : Expr} (hop : op ∈ Operator.spellings)
    (hprec : (ops.find? op).isSome = true) (hlhs : Parsed ops digits lhs) (hrhs : Parsed ops digits rhs) :
    Parsed ops digits (.binary op lhs rhs) := by
  obtain ⟨prec, hprec⟩ := Option.isSome_iff_exists.mp hprec
  refine parsed_of_expression rfl (fun rest _ => ?_) fun rest rest' hrest => ?_
  · rw [text_binary]
    obtain ⟨t, next, hb, ht⟩ := hlhs.opens (cuts_space (op.toList ++ ' ' :: ((rhs.part digits).toList ++ rest)))
    exact ⟨t, next, hb, ht.ne_eof, nofun⟩
  · have hstop := hrest.precedence? hcomma
    obtain ⟨t, hends⟩ := hrest.exists_ends
    obtain ⟨u, next, hopen, -⟩ := hrhs.opens hends.cuts
    rw [hrest.eq_of_false] at hstop ⊢
    have hright := reads_operation lhs hop hprec hopen (hrhs.reads_operand hends) hstop
    obtain ⟨c, mid, hc, hparen⟩ := begins_operator hop (' ' :: ((rhs.part digits).toList ++ rest))
    rw [text_binary, expression_eq]
    exact (hlhs.part _ _ _ (cuts_space _) (begins_space.mpr hc) hparen).bind hright.space

/-! ## Calls -/

theorem cuts_arguments (es : List Expr) (rest : List Char) :
    Cuts ((Expr.argumentsText digits ", " es).toList ++ ')' :: rest) := by
  cases es with
  | nil =>
    simp only [Expr.argumentsText, String.toList_empty, List.nil_append]
    exact (ends_paren rest).cuts
  | cons e es =>
    rw [argumentsText_cons]
    exact cuts_cons (by decide) (by decide) _

theorem opens_arguments {e : Expr} (he : Parsed ops digits e) (es : List Expr) (rest : List Char) :
    ∃ t next, Begins ((Expr.argumentsText digits "" (e :: es)).toList ++ ')' :: rest) t next ∧ Opens t := by
  rw [argumentsText_cons, String.toList_empty, List.nil_append]
  exact he.opens (cuts_arguments es rest)

theorem reads_arguments (hcomma : ops.find? "," = none) {e : Expr} {es : List Expr} (he : Parsed ops digits e)
    (hes : ∀ e ∈ es, Parsed ops digits e) {n : Nat} (hn : es.length < n) (rest : List Char) :
    Reads (argumentsWithin (expression ops) n) ((Expr.argumentsText digits "" (e :: es)).toList ++ ')' :: rest) (e :: es)
      (')' :: rest) := by
  induction es generalizing e n with
  | nil =>
    obtain ⟨m, rfl⟩ : ∃ m, n = m + 1 := ⟨n - 1, by omega⟩
    have hclose := ends_paren rest
    have htext : (Expr.argumentsText digits "" [e]).toList ++ ')' :: rest = (e.part digits).toList ++ ')' :: rest := by
      simp [Expr.argumentsText, Expr.part]
    rw [htext]
    refine (he.reads hcomma hclose).bind ((Reads.current (begins_punct (by decide) rest)).bind ?_)
    exact .pure [e] _
  | cons e' es ih =>
    obtain ⟨m, rfl⟩ : ∃ m, n = m + 1 := ⟨n - 1, by omega⟩
    have htext : (Expr.argumentsText digits "" (e :: e' :: es)).toList ++ ')' :: rest = (e.part digits).toList ++
        ',' :: ' ' :: ((Expr.argumentsText digits "" (e' :: es)).toList ++ ')' :: rest) := by
      simp [Expr.argumentsText, Expr.part]
    have he' := hes e' (.head _)
    obtain ⟨t, next, hopen, -⟩ := opens_arguments he' es rest
    have hseparator := begins_punct (c := ',') (by decide)
      (' ' :: ((Expr.argumentsText digits "" (e' :: es)).toList ++ ')' :: rest))
    have hothers := ih he' (fun e he => hes e (.tail _ he)) (n := m) (by simpa using hn)
    rw [htext]
    refine (he.reads hcomma (ends_comma _)).bind ((Reads.current hseparator).bind ?_)
    refine (Reads.advance hseparator (by simp) (begins_space.mpr hopen)).bind (hothers.space.bind ?_)
    exact .pure (e :: e' :: es) _

theorem parsed_call (hcomma : ops.find? "," = none) {callee : String} {args : List Expr}
    (hcallee : isIdentifier callee = true) (hargs : ∀ e ∈ args, Parsed ops digits e) :
    Parsed ops digits (.call callee args) := by
  have hbegins : ∀ rest, Begins (((Expr.call callee args).text digits).toList ++ rest) (.name callee)
      ('(' :: ((Expr.argumentsText digits "" args).toList ++ ')' :: rest)) := fun rest => by
    rw [text_call]
    exact begins_name hcallee (cuts_cons (by decide) (by decide) _)
  refine parsed_of_primary hcomma rfl (by simp) rfl nofun (fun rest => ⟨_, hbegins rest⟩) args.length
    fun m rest rest' hm hrest => ?_
  obtain ⟨t, hends⟩ := hrest.exists_ends
  obtain ⟨next, hb⟩ := hends.begins
  have hclose := begins_punct (c := ')') (by decide) rest
  have hopen := begins_punct (c := '(') (by decide) ((Expr.argumentsText digits "" args).toList ++ ')' :: rest)
  rw [hrest.eq_of_false]
  refine (Reads.advance (hbegins rest) (by simp) hopen).bind ((Reads.current hopen).bind ?_)
  rw [if_pos rfl]
  cases args with
  | nil =>
    simp only [Expr.argumentsText, String.toList_empty, List.nil_append] at hopen ⊢
    refine (Reads.advance hopen (by simp) hclose).bind ((Reads.current hclose).bind ?_)
    rw [if_pos rfl]
    refine (Reads.pure [] _).bind ((Reads.advance hclose (by simp) hb).bind ?_)
    exact .pure (Expr.call callee []) rest
  | cons e es =>
    obtain ⟨u, next', hfirst, hu⟩ := opens_arguments (hargs e (.head _)) es rest
    have hne : u ≠ .punct ')' := by
      rintro rfl
      cases hu
    refine (Reads.advance hopen (by simp) hfirst).bind ((Reads.current hfirst).bind ?_)
    rw [if_neg hne]
    refine (reads_arguments hcomma (hargs e (.head _)) (fun e he => hargs e (.tail _ he)) hm rest).bind ?_
    refine (Reads.advance hclose (by simp) hb).bind ?_
    exact .pure (Expr.call callee (e :: es)) rest

/-! ## Conditionals and loops -/

/-- The second branch, or what follows the whole if there is none, ends the first branch. -/
theorem ends_branch (digits : Float → String) (no : Option Expr) {rest : List Char} {t : Token} (hrest : Ends rest t) :
    ∃ u, Ends ((Expr.optionText digits " else " "" no).toList ++ rest) u := by
  cases no with
  | none =>
    rw [Expr.optionText, String.toList_empty, List.nil_append]
    exact ⟨t, hrest⟩
  | some e =>
    rw [optionText_else]
    exact ⟨_, ends_keyword .elseWord _⟩

theorem reads_branch (hcomma : ops.find? "," = none) {no : Option Expr} (hno : ∀ e ∈ no, Parsed ops digits e)
    {rest rest' : List Char} (hrest : Follows true rest rest') (test yes : Expr) :
    Reads (do
      passIf .terminator
      if (← current) = .keyword .elseWord then
        advance
        let no ← expression ops
        passIf .terminator
        pure (Expr.cond test yes (some no))
      else pure (Expr.cond test yes none)) ((Expr.optionText digits " else " "" no).toList ++ rest) (Expr.cond test yes no)
      rest' := by
  obtain ⟨hpass, t, next, hb, hne⟩ := hrest.passIf
  cases no with
  | none =>
    rw [Expr.optionText, String.toList_empty, List.nil_append]
    refine hpass.bind ((Reads.current hb).bind ?_)
    rw [if_neg hne]
    exact .pure _ rest'
  | some e =>
    have he := hno e rfl
    obtain ⟨u, hends⟩ := hrest.exists_ends
    obtain ⟨v, next', hopen, -⟩ := he.opens hends.cuts
    have helse := begins_space.mpr (begins_keyword .elseWord (cuts_space ((e.part digits).toList ++ rest)))
    rw [optionText_else]
    refine (Reads.passIf_of_ne helse (by simp)).bind ((Reads.current helse).bind ?_)
    rw [if_pos rfl]
    refine (Reads.advance helse (by simp) (begins_space.mpr hopen)).bind ?_
    exact (he.reads hcomma hends).space.bind (hpass.bind (.pure _ rest'))

theorem parsed_cond (hcomma : ops.find? "," = none) {test yes : Expr} {no : Option Expr} (htest : Parsed ops digits test)
    (hyes : Parsed ops digits yes) (hno : ∀ e ∈ no, Parsed ops digits e) : Parsed ops digits (.cond test yes no) := by
  have hbegins : ∀ rest, Begins (((Expr.cond test yes no).text digits).toList ++ rest) (.keyword .ifWord)
      (' ' :: ((test.part digits).toList ++ ' ' :: (Keyword.thenWord.spelling.toList ++ ' ' ::
        ((yes.part digits).toList ++ ((Expr.optionText digits " else " "" no).toList ++ rest))))) := fun rest => by
    rw [text_cond]
    exact begins_keyword .ifWord (cuts_space _)
  refine parsed_of_primary hcomma rfl (by simp) rfl (fun _ => .ifWord) (fun rest => ⟨_, hbegins rest⟩) 0
    fun m rest rest' _ hrest => ?_
  obtain ⟨t, hends⟩ := hrest.exists_ends
  obtain ⟨u, hbranch⟩ := ends_branch digits no hends
  obtain ⟨v, next, hopen, -⟩ := hyes.opens hbranch.cuts
  have hthen := ends_keyword .thenWord ((yes.part digits).toList ++ ((Expr.optionText digits " else " "" no).toList ++ rest))
  obtain ⟨w, next', hopen', -⟩ := htest.opens hthen.cuts
  refine (Reads.advance (hbegins rest) (by simp) (begins_space.mpr hopen')).bind ?_
  refine (htest.reads hcomma hthen).space.bind ?_
  refine (Reads.passIf (begins_space.mpr (begins_keyword .thenWord (cuts_space _))) (by simp) (begins_space.mpr hopen)).bind ?_
  refine (hyes.reads hcomma hbranch).space.bind ?_
  exact reads_branch hcomma hno hrest test yes

theorem begins_block (members : List Expr) (rest : List Char) :
    Begins (((Expr.block members).text digits).toList ++ rest) (.punct '{')
      ((Expr.membersText digits members).toList ++ ' ' :: '}' :: rest) := by
  rw [text_block]
  exact begins_punct (by decide) _

/-- A step, if there is one, before the body of a loop. -/
theorem begins_step (step : Option Expr) (hstep : ∀ e ∈ step, Parsed ops digits e) {body next : List Char}
    (hbody : Begins body (.punct '{') next) :
    ∃ t next, t ≠ .eof ∧ Begins ((Expr.optionText digits "" " " step).toList ++ body) t next := by
  cases step with
  | none =>
    rw [Expr.optionText, String.toList_empty, List.nil_append]
    exact ⟨_, _, by simp, hbody⟩
  | some e =>
    obtain ⟨t, next, hb, ht⟩ := (hstep e rfl).opens (cuts_space body)
    rw [optionText_step]
    exact ⟨t, next, ht.ne_eof, hb⟩

theorem reads_step (hcomma : ops.find? "," = none) (step : Option Expr) (hstep : ∀ e ∈ step, Parsed ops digits e)
    {body next : List Char} (hbody : Begins body (.punct '{') next) {k : Option Expr → Parse Expr} {e : Expr}
    {rest : List Char} (hk : Reads (k step) body e rest) :
    Reads (do
      let step ← if (← current) = .punct '{' then pure none else some <$> expression ops
      k step) ((Expr.optionText digits "" " " step).toList ++ body) e rest := by
  cases step with
  | none =>
    rw [Expr.optionText, String.toList_empty, List.nil_append]
    refine (Reads.current hbody).bind ?_
    rw [if_pos rfl]
    exact (Reads.pure none _).bind hk
  | some e =>
    have he := hstep e rfl
    obtain ⟨t, next', hopen, ht⟩ := he.opens (cuts_space body)
    have hne : t ≠ .punct '{' := by
      rintro rfl
      cases ht
    have hends : Ends (' ' :: body) (.punct '{') := ⟨cuts_space _, ⟨_, begins_space.mpr hbody⟩, .brace⟩
    rw [optionText_step]
    refine (Reads.current hopen).bind ?_
    rw [if_neg hne]
    exact ((he.reads hcomma hends).map some).bind hk.space

theorem parsed_loop (hcomma : ops.find? "," = none) {name : String} {start stop : Expr} {step : Option Expr}
    {members : List Expr} (hname : isIdentifier name = true) (hstart : Parsed ops digits start)
    (hstop : Parsed ops digits stop) (hstep : ∀ e ∈ step, Parsed ops digits e) (hbody : Parsed ops digits (.block members)) :
    Parsed ops digits (.loop name start stop step (.block members)) := by
  have hbegins : ∀ rest, Begins (((Expr.loop name start stop step (.block members)).text digits).toList ++ rest)
      (.keyword .forWord) _ := fun rest => by
    rw [text_loop]
    exact begins_keyword .forWord (cuts_space _)
  refine parsed_of_primary hcomma rfl (by simp) rfl (fun _ => .forWord) (fun rest => ⟨_, hbegins rest⟩) 0
    fun m rest rest' _ hrest => ?_
  obtain ⟨t, hends⟩ := hrest.exists_ends
  have hbrace : Begins (((Expr.block members).text digits).toList ++ rest) (.punct '{') _ := begins_block members rest
  -- what each part begins with, from the last to the first
  obtain ⟨u, next, hu, hopen⟩ := begins_step step hstep hbrace
  have hsecond := ends_terminator (begins_space.mpr hopen) hu
  obtain ⟨v, next', hopen', hv⟩ := hstop.opens hsecond.cuts
  have hfirst := ends_terminator (begins_space.mpr hopen') hv.ne_eof
  obtain ⟨w, next'', hopen'', -⟩ := hstart.opens hfirst.cuts
  have hword := fun cs => begins_space.mpr (begins_name hname (cuts_space cs))
  have hassign := fun cs => begins_space.mpr (begins_punct (c := '=') (by decide) cs)
  have hsemi := fun cs => begins_terminator (List.cons_ne_nil ' ' cs)
  refine (Reads.advance (hbegins rest) (by simp) (hword _)).bind ((Reads.current (hword _)).bind ?_)
  refine (Reads.advance (hword _) (by simp) (hassign _)).bind ?_
  refine (Reads.expect (hassign _) (by simp) (begins_space.mpr hopen'') _).bind ?_
  refine (hstart.reads hcomma hfirst).space.bind ?_
  refine (Reads.expect (hsemi _) (by simp) (begins_space.mpr hopen') _).bind ?_
  refine (hstop.reads hcomma hsecond).space.bind ?_
  refine (Reads.expect (hsemi _) (by simp) (begins_space.mpr hopen) _).bind ?_
  refine (reads_step hcomma step hstep hbrace ?_).space
  refine (Reads.current hbrace).bind ?_
  rw [if_pos rfl]
  refine (hbody.whole rest rest (.ends hends nofun)).bind (hrest.passIf.1.bind ?_)
  exact .pure (Expr.loop name start stop step (.block members)) rest'

/-! ## Blocks -/

theorem membersText_cons (e : Expr) (es : List Expr) (rest : List Char) :
    (Expr.membersText digits (e :: es)).toList ++ rest =
      ' ' :: ((if e.takesTerminator then e.text digits else e.part digits).toList ++
        ';' :: ((Expr.membersText digits es).toList ++ rest)) := by
  simp [Expr.membersText, Expr.part]

theorem opens_member {e : Expr} (he : Parsed ops digits e) {rest : List Char} (hrest : Cuts rest) :
    ∃ t next, Begins ((if e.takesTerminator then e.text digits else e.part digits).toList ++ rest) t next ∧ Opens t := by
  cases htakes : e.takesTerminator with
  | true =>
    obtain ⟨t, next, hb, -, ht⟩ := he.begins rest hrest
    exact ⟨t, next, hb, ht (.inr htakes)⟩
  | false => exact he.opens hrest

theorem begins_members {members : List Expr} (h : ∀ e ∈ members, Parsed ops digits e) (rest : List Char) :
    ∃ t next, Begins ((Expr.membersText digits members).toList ++ ' ' :: '}' :: rest) t next ∧ Resumes t := by
  cases members with
  | nil =>
    rw [Expr.membersText, String.toList_empty, List.nil_append]
    exact ⟨_, _, begins_space.mpr (begins_punct (by decide) rest), .inr rfl⟩
  | cons e es =>
    rw [membersText_cons]
    obtain ⟨t, next, hb, ht⟩ := opens_member (h e (.head _))
      (cuts_cons (c := ';') (by decide) (by decide) ((Expr.membersText digits es).toList ++ ' ' :: '}' :: rest))
    exact ⟨t, next, begins_space.mpr hb, .inl ht⟩

/-- A member that takes its terminator leaves none for the block; any other needs one. -/
theorem reads_member (hcomma : ops.find? "," = none) {e : Expr} (he : Parsed ops digits e) {rest rest' next : List Char}
    {t : Token} (hb : Begins rest t next) (ht : Resumes t) {k : Expr → Parse (List Expr)} {es : List Expr}
    (hk : Reads (k e) rest es rest') :
    Reads (do
      let e ← expression ops
      if e.takesTerminator then pure () else memberEnd
      k e) ((if e.takesTerminator then e.text digits else e.part digits).toList ++ ';' :: rest) es rest' := by
  cases htakes : e.takesTerminator with
  | true =>
    have hwhole := he.whole _ _ (htakes ▸ Follows.passes hb ht)
    refine hwhole.bind ?_
    rw [htakes, if_pos rfl]
    exact hk
  | false =>
    have hsemi := begins_terminator (hb.ne_nil ht.ne_eof)
    have hend : Reads memberEnd _ () _ := (Reads.current hsemi).bind (Reads.advance hsemi (by simp) hb)
    refine (he.reads hcomma (ends_terminator hb ht.ne_eof)).bind ?_
    rw [htakes, if_neg (by simp)]
    exact hend.bind hk

theorem reads_members (hcomma : ops.find? "," = none) {members : List Expr} (h : ∀ e ∈ members, Parsed ops digits e)
    {n : Nat} (hn : members.length < n) (rest : List Char) :
    Reads (membersWithin (expression ops) n) ((Expr.membersText digits members).toList ++ ' ' :: '}' :: rest) members
      ('}' :: rest) := by
  induction members generalizing n with
  | nil =>
    obtain ⟨m, rfl⟩ : ∃ m, n = m + 1 := ⟨n - 1, by omega⟩
    rw [Expr.membersText, String.toList_empty, List.nil_append]
    refine ((Reads.current (begins_punct (by decide) rest)).bind ?_).space
    exact .pure [] _
  | cons e es ih =>
    obtain ⟨m, rfl⟩ : ∃ m, n = m + 1 := ⟨n - 1, by omega⟩
    have he := h e (.head _)
    have hes : ∀ e ∈ es, Parsed ops digits e := fun e he => h e (.tail _ he)
    have hothers := ih hes (n := m) (by simpa using hn)
    obtain ⟨t, next, hb, ht⟩ := begins_members hes rest
    obtain ⟨u, next', hopen, hu⟩ := opens_member he (ends_terminator hb ht.ne_eof).cuts
    have hmember := reads_member hcomma he hb ht (k := fun e => do
      let es ← membersWithin (expression ops) m
      pure (e :: es)) (hothers.bind (.pure (e :: es) _))
    rw [membersText_cons]
    refine ((Reads.current hopen).bind ?_).space
    cases hu <;> exact hmember

theorem parsed_block (hcomma : ops.find? "," = none) {members : List Expr} (h : ∀ e ∈ members, Parsed ops digits e) :
    Parsed ops digits (.block members) := by
  refine parsed_of_primary hcomma rfl (by simp) rfl nofun (fun rest => ⟨_, begins_block members rest⟩) (members.length + 1)
    fun m rest rest' hm hrest => ?_
  obtain ⟨t, hends⟩ := hrest.exists_ends
  obtain ⟨next, hb⟩ := hends.begins
  obtain ⟨u, next', hfirst, -⟩ := begins_members h rest
  have hclose := begins_punct (c := '}') (by decide) rest
  rw [hrest.eq_of_false]
  refine (Reads.advance (begins_block members rest) (by simp) hfirst).bind ?_
  refine (reads_members hcomma h hm rest).bind ((Reads.advance hclose (by simp) hb).bind ?_)
  exact .pure (Expr.block members) rest

/-! ## Every expression -/

theorem parsed (hcomma : ops.find? "," = none) {e : Expr} (h : e.Writable digits ops) : Parsed ops digits e := by
  induction h with
  | number hx => exact parsed_number hcomma hx
  | ref hname => exact parsed_ref hcomma hname
  | var hname _ ih => exact parsed_var hcomma hname ih
  | unary hop hascii hother _ ih =>
    obtain ⟨l, hl⟩ := hop
    exact parsed_unary hcomma (standsAlone_of_next hl) hascii hother ih
  | binary hop hprec _ _ ihl ihr => exact parsed_binary hcomma (by simpa [Operator.isSpelling] using hop) hprec ihl ihr
  | call hcallee _ ih => exact parsed_call hcomma hcallee ih
  | cond _ _ _ iht ihy ihn => exact parsed_cond hcomma iht ihy ihn
  | loop hname _ _ _ _ ihs iht ihp ihb => exact parsed_loop hcomma hname ihs iht ihp ihb
  | block _ ih => exact parsed_block hcomma ih

end

/-- The canonical text of a tree is read back as that tree, to its end. -/
theorem expression_text {ops : Operator.Precedences} {digits : Float → String} {e : Expr} (hcomma : ops.find? "," = none)
    (h : e.Writable digits ops) :
    (do
      advance
      expression ops : Parse Expr) (ofText (e.text digits)) = .ok e { cur := .eof, rest := [] } := by
  have hparsed := parsed hcomma h
  obtain ⟨t, next, hb, -⟩ := hparsed.begins [] cuts_nil
  have hread := hparsed.whole [] [] (.ends ends_nil (by simp))
  rw [List.append_nil] at hb hread
  have hstart : advance (ofText (e.text digits)) = .ok () (standing 0 (e.text digits).toList) := by
    rw [ofText, items_eq_scan]
    exact advance_scan hb .terminator false 0
  rw [bind_of_ok hstart, hread 0, standing_of_begins_eof begins_nil]

/-- A table with an operator of three characters. -/
def withShiftAssign : Operator.Precedences := Operator.builtin.insert "<<=" 3

/-- Every kind of expression, with prefix operators that look like closing brackets. -/
def everyKind : Expr :=
  .block
    [.var "n" (some (.number (Float.ofScientific 15 true 1))),
     .loop "i" (.ref "n") (.binary "<" (.ref "i") (.ref "n")) (some (.unary '}' (.ref "i")))
       (.block [.binary "<<=" (.ref "n") (.call "f" [.ref "i", .unary ')' (.ref "n")])]),
     .cond (.ref "n") (.var "m" none) none,
     .cond (.call "f" []) (.block []) (some (.ref "n"))]

example : everyKind.text (fun _ => "1.5") = "\x7b (var n = 1.5); for i = n; (i < n); (\x7di) \x7b (n <<= (f(i, ()n)))); \x7d; " ++
    "if n then (var m); if (f()) then (\x7b \x7d) else n; \x7d" := by
  rfl

theorem writable_everyKind : everyKind.Writable (fun _ => "1.5") withShiftAssign := by
  have hname : ∀ s ∈ ["i", "n", "m", "f"], isIdentifier s = true := by decide
  have hi : (Expr.ref "i").Writable (fun _ => "1.5") withShiftAssign := .ref (hname _ (by decide))
  have hn : (Expr.ref "n").Writable (fun _ => "1.5") withShiftAssign := .ref (hname _ (by decide))
  have hbrace : (Expr.unary '}' (.ref "i")).Writable (fun _ => "1.5") withShiftAssign :=
    .unary ⟨⟨['}'], 0, 0⟩, rfl⟩ (by decide) (by decide) hi
  have hparen : (Expr.unary ')' (.ref "n")).Writable (fun _ => "1.5") withShiftAssign :=
    .unary ⟨⟨[')'], 0, 0⟩, rfl⟩ (by decide) (by decide) hn
  refine .block ?_
  simp only [List.forall_mem_cons]
  refine ⟨.var (hname _ (by decide)) ?_, .loop (hname _ (by decide)) hn (.binary (by decide) (by decide) hi hn) ?_ (.block ?_),
    .cond hn (.var (hname _ (by decide)) nofun) nofun, .cond (.call (hname _ (by decide)) nofun) (.block nofun) ?_, nofun⟩
  · rintro _ ⟨⟩
    exact .number rfl
  · rintro _ ⟨⟩
    exact hbrace
  · simp only [List.forall_mem_cons]
    exact ⟨.binary (by decide) (by decide) hn (.call (hname _ (by decide)) (by simp [hi, hparen])), nofun⟩
  · rintro _ ⟨⟩
    exact hn

theorem expression_text_everyKind :
    withShiftAssign.find? "," = none ∧ everyKind.Writable (fun _ => "1.5") withShiftAssign ∧
      (do
        advance
        expression withShiftAssign : Parse Expr) (ofText (everyKind.text fun _ => "1.5")) =
          .ok everyKind { cur := .eof, rest := [] } :=
  ⟨by decide, writable_everyKind, expression_text (by decide) writable_everyKind⟩

end Parser

end Kaleidoscope
