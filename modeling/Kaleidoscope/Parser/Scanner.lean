/-
  Kaleidoscope.Parser.Scanner — a source that lexes as it goes.

  A `Cursor` is a lexer that is two positions in a text. A `Scanner` draws tokens from it, one
  at a time. To look for an operator it saves the positions, reads on over whatever comes, be
  it a comment, a text, a literal that cannot be read or the end of input, and puts them back.
-/

import Kaleidoscope.Parser.Basic
import Kaleidoscope.Prototype

namespace Kaleidoscope

namespace Source

/-! ## Positions in a text -/

/-- A lexer that keeps the whole text, and where in it the last token began and ended. -/
structure Cursor where
  source : String
  start : Nat
  stop : Nat
  deriving DecidableEq, Repr

namespace Cursor

/-- Afresh from a byte of the text. -/
def startingAt (source : String) (byte : Nat) : Cursor := ⟨source, byte, byte⟩

/-- What is left of the text, with the same positions. -/
def lexer (k : Cursor) : Lexer :=
  { rest := (Prototype.dropBytes? k.stop k.source.toList).getD [], start := k.start, stop := k.stop }

def next (k : Cursor) : Reading × Cursor :=
  (k.lexer.next.1, { k with start := k.lexer.next.2.start, stop := k.lexer.next.2.stop })

structure Checkpoint where
  start : Nat
  stop : Nat

def checkpoint (k : Cursor) : Checkpoint := ⟨k.start, k.stop⟩

def restore (k : Cursor) (saved : Checkpoint) : Cursor := { k with start := saved.start, stop := saved.stop }

end Cursor

end Source

open Source

/-! ## Scanners -/

structure Scanner where
  cur : Token := .terminator
  cursor : Cursor
  /-- How many top-level expressions were wrapped. -/
  wrapped : Nat := 0
  deriving DecidableEq

namespace Scanner

abbrev Scan (α : Type) := ReadM Scanner α

def ofText (source : String) : Scanner := { cursor := .startingAt source 0 }

/-- The bytes that are left, and one. -/
def size (r : Scanner) : Nat := r.cursor.source.utf8ByteSize - r.cursor.stop + 1

def pass : Scan Unit := fun r =>
  match r.cursor.next with
  | (.ok t, k) => .ok () { r with cur := t, cursor := k }
  | (.error e, k) => .error (.lexical e) { r with cursor := k }

/-- One result of the lexer, whatever it is; the current token stays. -/
def draw : Scan Reading := fun r => .ok r.cursor.next.1 { r with cursor := r.cursor.next.2 }

/-- The punctuation that goes on without a gap, `n` characters at most. What it ends with is
    drawn, too. -/
def probe : Nat → Scan (List Char)
  | 0 => pure []
  | n + 1 => do
    let stop := (← get).cursor.stop
    match ← draw with
    | .ok (.punct c) => do
      if (← get).cursor.start = stop then return c :: (← probe n) else return []
    | _ => return []

/-- The operator at the current token. The cursor is put back to where it was. -/
def operator? : Scan (Option String) := do
  let r ← get
  let saved := r.cursor.checkpoint
  match r.cur with
  | .punct c => do
    let cs ← probe (Operator.longestLength - 1)
    modify fun r => { r with cursor := r.cursor.restore saved }
    return Operator.longest? (c :: cs)
  | _ => return none

instance : TokenSource Scanner where
  ofText := ofText
  cur := cur
  size := size
  advance := pass
  operator? := operator?
  countWrapper := modifyGet fun r => (r.wrapped, { r with wrapped := r.wrapped + 1 })

theorem advance_run (r : Scanner) : Parser.advance r =
    match r.cursor.next with
    | (.ok t, k) => .ok () { r with cur := t, cursor := k }
    | (.error e, k) => .error (.lexical e) { r with cursor := k } := rfl

end Scanner

end Kaleidoscope
