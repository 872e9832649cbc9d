/-
  Kaleidoscope.Source.Token — what the lexer reads.

  Punctuation arrives one character at a time; operators of several characters are
  put together by the parser. A `;` is a terminator, except that one which is the
  last character of the text is the end of input.
-/

namespace Kaleidoscope.Source

inductive Keyword where
  | defWord
  | externWord
  | ifWord
  | thenWord
  | elseWord
  | forWord
  | varWord
  | unaryWord
  | binaryWord
  deriving DecidableEq, Repr

namespace Keyword

def all : List Keyword :=
  [defWord, externWord, ifWord, thenWord, elseWord, forWord, varWord, unaryWord, binaryWord]

def spelling : Keyword → String
  | defWord => "def"
  | externWord => "extern"
  | ifWord => "if"
  | thenWord => "then"
  | elseWord => "else"
  | forWord => "for"
  | varWord => "var"
  | unaryWord => "unary"
  | binaryWord => "binary"

def ofWord? (w : String) : Option Keyword := all.find? (·.spelling == w)

theorem ofWord?_spelling (k : Keyword) : ofWord? k.spelling = some k := by
  cases k <;> decide

end Keyword

inductive Token where
  | keyword (k : Keyword)
  | name (s : String)
  | number (x : Float)
  | text (s : String)
  | punct (c : Char)
  | terminator
  | eof
  deriving DecidableEq, Repr

/-- A literal that cannot be read. Its text is skipped all the same. -/
inductive LexError where
  | malformedNumber (digits : String)
  | unterminatedText (text : String)
  deriving DecidableEq, Repr

def LexError.message : LexError → String
  | malformedNumber digits => s!"malformed number literal '{digits}'"
  | unterminatedText text => s!"unterminated string literal \"{text}"

/-- One result of the lexer. -/
abbrev Reading := Except LexError Token

end Kaleidoscope.Source
