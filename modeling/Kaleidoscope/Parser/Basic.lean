/-
  Kaleidoscope.Parser.Basic — where tokens come from, and the smallest moves.

  The grammar reads from any `TokenSource`: a state that has a current token, passes it, and
  can look for the operator there, which passes nothing. It starts on a terminator, so that
  the first token of a text is reached by passing it. What cannot be lexed is passed too, but
  the current token stays and the move fails. Past the last token the current token is the
  end of input for ever.

  A `Parser` is a source that was lexed ahead: it holds the items after the current token.
  `size` counts what is left: no move makes it larger, and `advance` makes it smaller
  unless it is zero (`size_advance`). It bounds every loop of the grammar.
-/

import Kaleidoscope.Source.Stream
import Kaleidoscope.Operator
import Kaleidoscope.Parser.Error

namespace Kaleidoscope

open Source

/-! ## Sources -/

/-- A reader keeps the state it reached also when it fails. -/
abbrev ReadM (σ α : Type) := EStateM ReadError σ α

class TokenSource (σ : Type) where
  ofText : String → σ
  cur : σ → Token
  /-- No fewer than the tokens that are left. -/
  size : σ → Nat
  /-- Passes the current token. -/
  advance : ReadM σ Unit
  /-- The operator at the current token; nothing is passed. -/
  operator? : ReadM σ (Option String)
  /-- How many top-level expressions were wrapped; there is one more now. -/
  countWrapper : ReadM σ Nat

/-! ## Moves -/

namespace Parser

export TokenSource (advance)

variable {σ : Type} [TokenSource σ]

def fail {α : Type} (e : ParseError) : ReadM σ α := throw (.grammar e)

def current : ReadM σ Token := return TokenSource.cur (← get)

/-- Passes the current token if it is `t`. -/
def expect (t : Token) (e : ParseError) : ReadM σ Unit := do
  if (← current) = t then advance else fail e

def passIf (t : Token) : ReadM σ Unit := do
  if (← current) = t then advance

def advanceBy : Nat → ReadM σ Unit
  | 0 => pure ()
  | n + 1 => do advance; advanceBy n

/-- The precedence of the operator at the current token. -/
def nextPrecedence? (ops : Operator.Precedences) : ReadM σ (Option Nat) :=
  return (← TokenSource.operator?).bind ops.find?

/-- Passes the operator at the current token, if there is one. -/
def takeOperator : ReadM σ (Option String) := do
  match ← TokenSource.operator? with
  | none => pure none
  | some op => do
    advanceBy op.length
    pure (some op)

end Parser

/-! ## Items as a source -/

structure Parser where
  cur : Token := .terminator
  rest : List Item
  /-- How many top-level expressions were wrapped. -/
  wrapped : Nat := 0

abbrev Parse (α : Type) := ReadM Parser α

namespace Parser

def ofText (source : String) : Parser := { rest := (Lexer.ofText source).items }

def size (p : Parser) : Nat :=
  match p.rest, p.cur with
  | [], .eof => 0
  | rest, _ => rest.length + 1

def passItem : Parse Unit := fun p =>
  match p.rest with
  | [] => .ok () { p with cur := .eof }
  | ⟨.ok t, _⟩ :: rest => .ok () { p with cur := t, rest }
  | ⟨.error e, _⟩ :: rest => .error (.lexical e) { p with rest }

/-- The punctuation that goes on without a gap, `n` characters at most. -/
def glued : Nat → List Item → List Char
  | n + 1, ⟨.ok (.punct c), true⟩ :: rest => c :: glued n rest
  | _, _ => []

/-- The operator at the current token: the longest spelling that the characters from
    here on begin with. -/
def operator? (p : Parser) : Option String :=
  match p.cur with
  | .punct c => Operator.longest? (c :: glued (Operator.longestLength - 1) p.rest)
  | _ => none

def precedence? (ops : Operator.Precedences) (p : Parser) : Option Nat := p.operator?.bind ops.find?

@[default_instance]
instance : TokenSource Parser where
  ofText := ofText
  cur := cur
  size := size
  advance := passItem
  operator? := return (← get).operator?
  countWrapper := modifyGet fun p => (p.wrapped, { p with wrapped := p.wrapped + 1 })

theorem advance_run (p : Parser) : advance p =
    match p.rest with
    | [] => .ok () { p with cur := .eof }
    | ⟨.ok t, _⟩ :: rest => .ok () { p with cur := t, rest }
    | ⟨.error e, _⟩ :: rest => .error (.lexical e) { p with rest } := rfl

/-! ## The size -/

/-- What a move leaves, whether it succeeds or fails. -/
def left {σ α : Type} : EStateM.Result ReadError σ α → σ
  | .ok _ p => p
  | .error _ p => p

theorem size_le (p : Parser) : p.size ≤ p.rest.length + 1 := by
  unfold size
  split <;> simp

theorem size_advance (p : Parser) (h : p.size ≠ 0) : (left (advance p)).size < p.size := by
  rcases p with ⟨cur, _ | ⟨⟨reading, adjoins⟩, rest⟩, wrapped⟩
  · cases cur <;> simp_all [size, advance_run, left]
  · have h' : size ⟨cur, ⟨reading, adjoins⟩ :: rest, wrapped⟩ = rest.length + 2 := by
      cases cur <;> rfl
    rw [h']
    cases reading <;> exact Nat.lt_succ_of_le (size_le _)

end Parser

end Kaleidoscope
