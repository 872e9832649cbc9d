/-
  Kaleidoscope.Source.Lexer — a text as tokens, with byte positions.

  A lexer is a value: what is left of the text, and where the last token began and
  ended, in bytes. Saving it is keeping it. `next` skips blanks and comments, takes
  one lexeme and reads it:
  - a word is a letter, then letters, digits and underscores;
  - a number is a run of digits and points;
  - a text runs from a quote to the next quote, or to the end of input;
  - any other character stands alone.
  A lexeme that cannot be read is consumed like any other.

  Statements: `splitTrivia_append` and `splitLexeme_append`, nothing of the text is lost.
-/

import Kaleidoscope.Source.Blank
import Kaleidoscope.Source.Token
import Kaleidoscope.Decimal.Literal

namespace Kaleidoscope.Source

/-! ## Trivia -/

/-- Blanks and comments at the front, and what follows them. Inside a comment
    everything up to the line's end is skipped. -/
def splitTriviaFrom (comment : Bool) : List Char → List Char × List Char
  | [] => ([], [])
  | c :: cs =>
    if comment || isBlank c || c == '#' then
      let (skipped, rest) := splitTriviaFrom (if comment then !isLineEnd c else c == '#') cs
      (c :: skipped, rest)
    else ([], c :: cs)

def splitTrivia (cs : List Char) : List Char × List Char := splitTriviaFrom false cs

/-! ## Lexemes -/

inductive Lexeme where
  | word (cs : List Char)
  | digits (cs : List Char)
  | quoted (cs : List Char) (closed : Bool)
  | punct (c : Char)
  | finish
  deriving DecidableEq, Repr

def isLetter (c : Char) : Bool := c.isAlpha

def isWordChar (c : Char) : Bool := c.isAlphanum || c == '_'

def isNumeric (c : Char) : Bool := c.isDigit || c == '.'

def splitLexeme : List Char → Lexeme × List Char
  | [] => (.finish, [])
  | c :: cs =>
    if isLetter c then (.word (c :: cs.takeWhile isWordChar), cs.dropWhile isWordChar)
    else if isNumeric c then (.digits (c :: cs.takeWhile isNumeric), cs.dropWhile isNumeric)
    else if c == '"' then
      match cs.dropWhile (· != '"') with
      | [] => (.quoted (cs.takeWhile (· != '"')) false, [])
      | _ :: rest => (.quoted (cs.takeWhile (· != '"')) true, rest)
    else (.punct c, cs)

namespace Lexeme

/-- The characters a lexeme stands for in the text. -/
def spelling : Lexeme → List Char
  | word cs => cs
  | digits cs => cs
  | quoted cs closed => '"' :: cs ++ (if closed then ['"'] else [])
  | punct c => [c]
  | finish => []

/-- What a lexeme is read as; `last` says that nothing follows it in the text. -/
def reading (last : Bool) : Lexeme → Reading
  | word cs =>
    match Keyword.ofWord? (String.ofList cs) with
    | some k => .ok (.keyword k)
    | none => .ok (.name (String.ofList cs))
  | digits cs =>
    match Decimal.literal? cs with
    | some x => .ok (.number x)
    | none => .error (.malformedNumber (String.ofList cs))
  | quoted cs true => .ok (.text (String.ofList cs))
  | quoted cs false => .error (.unterminatedText (String.ofList cs))
  | punct c => .ok (if c = ';' then (if last then .eof else .terminator) else .punct c)
  | finish => .ok .eof

end Lexeme

/-! ## The lexer -/

/-- The length of a text in bytes. -/
def width (cs : List Char) : Nat := cs.foldl (fun n c => n + c.utf8Size) 0

structure Lexer where
  rest : List Char
  /-- Where the last token began. -/
  start : Nat := 0
  /-- Just past the last token. -/
  stop : Nat := 0
  deriving DecidableEq, Repr

namespace Lexer

def ofText (source : String) : Lexer := { rest := source.toList }

def next (l : Lexer) : Reading × Lexer :=
  let (skipped, body) := splitTrivia l.rest
  let (lexeme, rest) := splitLexeme body
  let start := l.stop + width skipped
  (lexeme.reading rest.isEmpty, { rest, start, stop := start + width lexeme.spelling })

/-- The next `n` results at most, the first end of input being the last of them. Each
    comes with the lexer that has just produced it. -/
def readingsWithin : Nat → Lexer → List (Reading × Lexer)
  | 0, _ => []
  | n + 1, l =>
    match l.next with
    | (.ok .eof, l') => [(.ok .eof, l')]
    | (r, l') => (r, l') :: readingsWithin n l'

/-- Every result up to and with the first end of input. Each result before it takes a
    character, so the number of characters left bounds them. -/
def readings (l : Lexer) : List (Reading × Lexer) := l.readingsWithin (l.rest.length + 1)

end Lexer

/-! ## Nothing is lost -/

theorem splitTriviaFrom_append (comment : Bool) (cs : List Char) :
    (splitTriviaFrom comment cs).1 ++ (splitTriviaFrom comment cs).2 = cs := by
  induction cs generalizing comment with
  | nil => rfl
  | cons c cs ih =>
    unfold splitTriviaFrom
    split
    · simpa using ih _
    · rfl

theorem splitTrivia_append (cs : List Char) : (splitTrivia cs).1 ++ (splitTrivia cs).2 = cs :=
  splitTriviaFrom_append false cs

theorem splitLexeme_append (cs : List Char) : (splitLexeme cs).1.spelling ++ (splitLexeme cs).2 = cs := by
  unfold splitLexeme
  split
  · rfl
  · rename_i c cs
    split
    · simp [Lexeme.spelling]
    · split
      · simp [Lexeme.spelling]
      · split
        · rename_i h
          have hc : c = '"' := by simpa using h
          have hsplit := List.takeWhile_append_dropWhile (p := (· != '"')) (l := cs)
          split
          · rename_i he
            rw [he] at hsplit
            simpa [Lexeme.spelling, hc] using hsplit
          · rename_i d rest he
            have hd : d = '"' := by
              have := List.head?_dropWhile_not (p := (· != '"')) (l := cs)
              rw [he] at this
              simpa using this
            rw [he, hd] at hsplit
            simpa [Lexeme.spelling, hc] using hsplit
        · rfl

end Kaleidoscope.Source
