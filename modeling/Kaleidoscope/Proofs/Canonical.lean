/-
  Kaleidoscope.Proofs.Canonical — the canonical text of an expression.

  `Expr.text` writes a tree down: its parts in parentheses unless they are numbers or names,
  the members of a block with a terminator each, the body of a loop as it is. `Expr.Writable`
  is which trees can be written so. A text is then read from left to right, and what follows
  an expression decides where its reading stops:
  - `Closes`: the token ends an expression, and no operator of the table begins with it;
  - `Opens`: the token begins a part or a member;
  - `Follows`: conditionals and loops also read past the terminator that follows them.
  `text_var` .. `text_block` are the texts with what follows them, token by token.
-/

import Kaleidoscope.Proofs.Reading
import Kaleidoscope.Proofs.Scanning

namespace Kaleidoscope

open Source

/-! ## The canonical text -/

namespace Expr

/-- Numbers and names are written without parentheses. -/
def isAtomic : Expr → Bool
  | number _ => true
  | ref _ => true
  | _ => false

theorem takesTerminator_of_isAtomic {e : Expr} (h : e.isAtomic = true) : e.takesTerminator = false := by
  cases e with
  | number _ => rfl
  | ref _ => rfl
  | _ => cases h

/-- An expression with text `s`, as a part of another one. -/
def enclose (e : Expr) (s : String) : String := if e.isAtomic then s else "(" ++ s ++ ")"

variable (digits : Float → String)

mutual

/-- The canonical text, `digits` giving a literal for each number. -/
def text : Expr → String
  | number x => digits x
  | ref name => name
  | var name init => "var " ++ name ++ optionText " = " "" init
  | unary op operand => op.toString ++ operand.enclose (text operand)
  | binary op lhs rhs => lhs.enclose (text lhs) ++ " " ++ op ++ " " ++ rhs.enclose (text rhs)
  | call callee args => callee ++ "(" ++ argumentsText "" args ++ ")"
  | cond test yes no =>
    "if " ++ test.enclose (text test) ++ " then " ++ yes.enclose (text yes) ++ optionText " else " "" no
  | loop name start stop step body =>
    "for " ++ name ++ " = " ++ start.enclose (text start) ++ "; " ++ stop.enclose (text stop) ++ "; " ++
      optionText "" " " step ++ text body
  | block members => "\x7b" ++ membersText members ++ " \x7d"

/-- A part that may be missing, between what stands before and after it if it is there. -/
def optionText (before after : String) : Option Expr → String
  | none => ""
  | some e => before ++ e.enclose (text e) ++ after

/-- Arguments, the first one after `before` and the others after commas. -/
def argumentsText (before : String) : List Expr → String
  | [] => ""
  | e :: es => before ++ e.enclose (text e) ++ argumentsText ", " es

/-- Members of a block; conditionals and loops stand there without parentheses. -/
def membersText : List Expr → String
  | [] => ""
  | e :: es => " " ++ (if e.takesTerminator then text e else e.enclose (text e)) ++ ";" ++ membersText es

end

/-- The text of an expression as a part of another one. -/
def part (e : Expr) : String := e.enclose (e.text digits)

/-- The trees that can be written: names are identifiers, a number is what its literal
    denotes, a prefix operator is what the lexer can give, a binary operator is one of the
    table, and the body of a loop is a block. -/
inductive Writable (ops : Operator.Precedences) : Expr → Prop
  | number {x : Float} : Decimal.literal? (digits x).toList = some x → Writable ops (.number x)
  | ref {name : String} : isIdentifier name = true → Writable ops (.ref name)
  | var {name : String} {init : Option Expr} :
      isIdentifier name = true → (∀ e ∈ init, Writable ops e) → Writable ops (.var name init)
  | unary {op : Char} {operand : Expr} :
      (∃ l : Lexer, l.next.1 = .ok (.punct op)) → op.toNat < 128 → op ∉ ['(', ',', '{'] → Writable ops operand →
        Writable ops (.unary op operand)
  | binary {op : String} {lhs rhs : Expr} :
      Operator.isSpelling op = true → (ops.find? op).isSome = true → Writable ops lhs → Writable ops rhs →
        Writable ops (.binary op lhs rhs)
  | call {callee : String} {args : List Expr} :
      isIdentifier callee = true → (∀ e ∈ args, Writable ops e) → Writable ops (.call callee args)
  | cond {test yes : Expr} {no : Option Expr} :
      Writable ops test → Writable ops yes → (∀ e ∈ no, Writable ops e) → Writable ops (.cond test yes no)
  | loop {name : String} {start stop : Expr} {step : Option Expr} {members : List Expr} :
      isIdentifier name = true → Writable ops start → Writable ops stop → (∀ e ∈ step, Writable ops e) →
        Writable ops (.block members) → Writable ops (.loop name start stop step (.block members))
  | block {members : List Expr} : (∀ e ∈ members, Writable ops e) → Writable ops (.block members)

end Expr

namespace Parser

/-! ## What may follow an expression -/

/-- The tokens that may follow an expression. -/
inductive Closes : Token → Prop
  | eof : Closes .eof
  | terminator : Closes .terminator
  | thenWord : Closes (.keyword .thenWord)
  | elseWord : Closes (.keyword .elseWord)
  | paren : Closes (.punct ')')
  | comma : Closes (.punct ',')
  | brace : Closes (.punct '{')

theorem Closes.ne_paren {t : Token} (h : Closes t) : t ≠ .punct '(' := by
  rintro rfl
  cases h

/-- The tokens that a part of an expression or a member of a block begins with. -/
inductive Opens : Token → Prop
  | name (s : String) : Opens (.name s)
  | number (x : Float) : Opens (.number x)
  | paren : Opens (.punct '(')
  | ifWord : Opens (.keyword .ifWord)
  | forWord : Opens (.keyword .forWord)

theorem Opens.ne_eof {t : Token} (h : Opens t) : t ≠ .eof := by
  rintro rfl
  cases h

/-- The tokens that may follow a member of a block. -/
def Resumes (t : Token) : Prop := Opens t ∨ t = .punct '}'

theorem Resumes.ne_eof {t : Token} (h : Resumes t) : t ≠ .eof := by
  rcases h with h | rfl
  · exact h.ne_eof
  · simp

theorem Resumes.ne_else {t : Token} (h : Resumes t) : t ≠ .keyword .elseWord := by
  rintro rfl
  rcases h with h | h <;> cases h

/-- Of the tokens that may follow an expression or a member, the comma alone is a spelling of
    an operator. -/
theorem precedence?_standing {ops : Operator.Precedences} (hcomma : ops.find? "," = none) {cs next : List Char} {t : Token}
    (h : Begins cs t next) (ht : Closes t ∨ Resumes t) (k : Nat) :
    (standing k cs).precedence? ops = none := by
  have hhead : ∀ op ∈ Operator.spellings, op.toList.head? ∈ [')', ',', '{', '(', '}'].map some → op = "," := by decide
  have hpunct : ∀ c, t = .punct c → c ∈ [')', ',', '{', '(', '}'] := by
    rintro c rfl
    rcases ht with ht | ht | ht <;> cases ht <;> decide
  cases hop : (standing k cs).operator? with
  | none => simp [precedence?, hop]
  | some op =>
    have hcur := cur_standing h k
    simp only [operator?] at hop
    split at hop
    · rename_i c hc
      obtain ⟨hmem, hfirst⟩ := longest?_cons hop
      have hmem' : op.toList.head? ∈ [')', ',', '{', '(', '}'].map some := by
        rw [hfirst]
        exact List.mem_map_of_mem (hpunct c (hcur.symm.trans hc))
      obtain rfl := hhead op hmem hmem'
      simp [precedence?, operator?, hc, hop, hcomma]
    · cases hop

/-- A text that goes on with token `t`, after which an expression may end. -/
structure Ends (rest : List Char) (t : Token) : Prop where
  cuts : Cuts rest
  begins : ∃ next, Begins rest t next
  closes : Closes t

/-- What may follow the text of an expression, and where reading it stops. One that takes a
    terminator reads past the one that follows it. -/
inductive Follows : Bool → List Char → List Char → Prop
  | ends {takes : Bool} {rest : List Char} {t : Token} :
      Ends rest t → (takes = true → t ≠ .terminator ∧ t ≠ .keyword .elseWord) → Follows takes rest rest
  | passes {rest next : List Char} {t : Token} :
      Begins rest t next → Resumes t → Follows true (';' :: rest) rest

theorem ends_nil : Ends [] .eof := ⟨cuts_nil, ⟨[], begins_nil⟩, .eof⟩

theorem cuts_space (cs : List Char) : Cuts (' ' :: cs) := cuts_cons (by decide) (by decide) cs

theorem ends_terminator {cs next : List Char} {t : Token} (h : Begins cs t next) (ht : t ≠ .eof) :
    Ends (';' :: cs) .terminator :=
  ⟨cuts_cons (by decide) (by decide) cs, ⟨cs, begins_terminator (h.ne_nil ht)⟩, .terminator⟩

theorem ends_paren (cs : List Char) : Ends (')' :: cs) (.punct ')') :=
  ⟨cuts_cons (by decide) (by decide) cs, ⟨cs, begins_punct (by decide) cs⟩, .paren⟩

theorem ends_comma (cs : List Char) : Ends (',' :: cs) (.punct ',') :=
  ⟨cuts_cons (by decide) (by decide) cs, ⟨cs, begins_punct (by decide) cs⟩, .comma⟩

theorem ends_keyword {k : Keyword} (hk : Closes (.keyword k)) (cs : List Char) :
    Ends (' ' :: (k.spelling.toList ++ ' ' :: cs)) (.keyword k) :=
  ⟨cuts_space _, ⟨_, begins_space.mpr (begins_keyword k (cuts_space cs))⟩, hk⟩

theorem Follows.exists_ends {takes : Bool} {rest rest' : List Char} (h : Follows takes rest rest') :
    ∃ t, Ends rest t := by
  cases h with
  | ends h _ => exact ⟨_, h⟩
  | passes h ht => exact ⟨_, ends_terminator h ht.ne_eof⟩

theorem Follows.eq_of_false {rest rest' : List Char} (h : Follows false rest rest') : rest' = rest := by
  cases h
  rfl

/-- Where reading stops there is no operator. -/
theorem Follows.precedence? {ops : Operator.Precedences} (hcomma : ops.find? "," = none) {takes : Bool}
    {rest rest' : List Char} (h : Follows takes rest rest') (k : Nat) : (standing k rest').precedence? ops = none := by
  cases h with
  | ends h _ =>
    obtain ⟨next, hb⟩ := h.begins
    exact precedence?_standing hcomma hb (.inl h.closes) k
  | passes h ht => exact precedence?_standing hcomma h (.inr ht) k

/-- The end of an expression that takes a terminator. -/
theorem Follows.passIf {rest rest' : List Char} (h : Follows true rest rest') :
    Reads (passIf .terminator) rest () rest' ∧ ∃ t next, Begins rest' t next ∧ t ≠ .keyword .elseWord := by
  cases h with
  | ends h ht =>
    obtain ⟨next, hb⟩ := h.begins
    exact ⟨.passIf_of_ne hb (ht rfl).1, _, next, hb, (ht rfl).2⟩
  | passes h ht => exact ⟨.passIf (begins_terminator (h.ne_nil ht.ne_eof)) (by simp) h, _, _, h, ht.ne_else⟩

section

variable {ops : Operator.Precedences}

theorem reads_climb_of_precedence? {e : Expr} {rest : List Char} (h : ∀ k, (standing k rest).precedence? ops = none)
    (least : Nat) : Reads (climb ops least e) rest e rest := by
  intro k
  rw [climb_run, h k]
  cases (standing k rest).operator? <;> rfl

/-- An operand that no operator follows is an expression. -/
theorem reads_expression {e : Expr} {cs rest : List Char} (h : Reads (operand ops) cs e rest)
    (hrest : ∀ k, (standing k rest).precedence? ops = none) : Reads (expression ops) cs e rest := by
  rw [expression_eq]
  exact h.bind (reads_climb_of_precedence? hrest 0)

theorem reads_primary {e : Expr} {cs mid rest : List Char} {t : Token} (hb : Begins cs t mid) (ht : t ≠ .eof)
    (hu : unaryOperator? t = none) (n : Nat) (h : ∀ m, n ≤ m → Reads (primaryAt (expression ops) m t) cs e rest) :
    Reads (operand ops) cs e rest := by
  intro k
  have hcur := cur_standing hb k
  rw [operand_run ops (hcur ▸ ht) (Nat.le_succ_of_le (Nat.le_max_right n _)), hcur, hu]
  exact h _ (Nat.le_max_left n _) k

theorem reads_unary {op : Char} {e : Expr} {cs mid rest next : List Char} {t : Token} (hb : Begins cs (.punct op) mid)
    (hu : unaryOperator? (.punct op) = some op) (hmid : Begins mid t next) (h : Reads (operand ops) mid e rest) :
    Reads (operand ops) cs (.unary op e) rest := by
  intro k
  have hcur := cur_standing hb k
  rw [operand_run ops (by simp [hcur]) (Nat.le_succ _), hcur, hu]
  exact (Reads.advance hb (by simp) hmid).bind (h.bind (.pure (Expr.unary op e) _)) k

end

section

variable (digits : Float → String) (rest : List Char)

theorem text_var (name : String) (init : Option Expr) :
    ((Expr.var name init).text digits).toList ++ rest =
      Keyword.varWord.spelling.toList ++ ' ' :: (name.toList ++ ((Expr.optionText digits " = " "" init).toList ++ rest)) := by
  simp [Expr.text, Keyword.spelling]

theorem text_unary (op : Char) (operand : Expr) :
    ((Expr.unary op operand).text digits).toList ++ rest = op :: ((operand.part digits).toList ++ rest) := by
  simp [Expr.text, Expr.part]

theorem text_binary (op : String) (lhs rhs : Expr) :
    ((Expr.binary op lhs rhs).text digits).toList ++ rest =
      (lhs.part digits).toList ++ ' ' :: (op.toList ++ ' ' :: ((rhs.part digits).toList ++ rest)) := by
  simp [Expr.text, Expr.part]

theorem text_call (callee : String) (args : List Expr) :
    ((Expr.call callee args).text digits).toList ++ rest =
      callee.toList ++ '(' :: ((Expr.argumentsText digits "" args).toList ++ ')' :: rest) := by
  simp [Expr.text]

theorem text_cond (test yes : Expr) (no : Option Expr) :
    ((Expr.cond test yes no).text digits).toList ++ rest =
      Keyword.ifWord.spelling.toList ++ ' ' :: ((test.part digits).toList ++ ' ' :: (Keyword.thenWord.spelling.toList ++
        ' ' :: ((yes.part digits).toList ++ ((Expr.optionText digits " else " "" no).toList ++ rest)))) := by
  simp [Expr.text, Expr.part, Keyword.spelling]

theorem text_loop (name : String) (start stop : Expr) (step : Option Expr) (body : Expr) :
    ((Expr.loop name start stop step body).text digits).toList ++ rest =
      Keyword.forWord.spelling.toList ++ ' ' :: (name.toList ++ ' ' :: '=' :: ' ' :: ((start.part digits).toList ++ ';' :: ' ' ::
        ((stop.part digits).toList ++ ';' :: ' ' :: ((Expr.optionText digits "" " " step).toList ++
          ((body.text digits).toList ++ rest))))) := by
  simp [Expr.text, Expr.part, Keyword.spelling]

theorem text_block (members : List Expr) :
    ((Expr.block members).text digits).toList ++ rest =
      '{' :: ((Expr.membersText digits members).toList ++ ' ' :: '}' :: rest) := by
  simp [Expr.text]

theorem optionText_assigned (e : Expr) :
    (Expr.optionText digits " = " "" (some e)).toList ++ rest = ' ' :: '=' :: ' ' :: ((e.part digits).toList ++ rest) := by
  simp [Expr.optionText, Expr.part]

theorem optionText_else (e : Expr) :
    (Expr.optionText digits " else " "" (some e)).toList ++ rest =
      ' ' :: (Keyword.elseWord.spelling.toList ++ ' ' :: ((e.part digits).toList ++ rest)) := by
  simp [Expr.optionText, Expr.part, Keyword.spelling]

theorem optionText_step (e : Expr) :
    (Expr.optionText digits "" " " (some e)).toList ++ rest = (e.part digits).toList ++ ' ' :: rest := by
  simp [Expr.optionText, Expr.part]

theorem argumentsText_cons (before : String) (e : Expr) (es : List Expr) :
    (Expr.argumentsText digits before (e :: es)).toList ++ rest =
      before.toList ++ ((e.part digits).toList ++ ((Expr.argumentsText digits ", " es).toList ++ rest)) := by
  simp [Expr.argumentsText, Expr.part]

end

end Parser

end Kaleidoscope
