/-
  Kaleidoscope.Parser.Error — why a statement cannot be read.

  Reading fails on a literal the lexer cannot read or on a token the grammar has no
  place for. `ParseError.message` holds every wording.
-/

import Kaleidoscope.Source.Token

namespace Kaleidoscope

inductive ParseError where
  | closingParen
  | argumentSeparator
  | variableName
  | loopVariable
  | loopAssignment
  | loopStartEnd
  | loopStopEnd
  | loopBody
  | closingBrace
  | memberEnd
  | textLiteral
  | notAnExpression
  | unaryMarker
  | unaryOperator
  | binaryMarker
  | binaryOperator
  | precedenceRange
  | functionName
  | parameterList
  | parameterName
  | parameterListEnd
  | operandCount
  deriving DecidableEq, Repr

def ParseError.message : ParseError → String
  | closingParen => "expected ')'"
  | argumentSeparator => "expected ')' or ',' in argument list"
  | variableName => "expected identifier after var"
  | loopVariable => "expected identifier after for"
  | loopAssignment => "expected '=' after for"
  | loopStartEnd => "expected ';' after for start value"
  | loopStopEnd => "expected ';' after for end value"
  | loopBody => "expected '\x7b' after for step"
  | closingBrace => "expected '\x7d' at end of block"
  | memberEnd => "expected ';' after expression in block"
  | textLiteral => "string literals are not expressions"
  | notAnExpression => "unknown token when expecting an expression"
  | unaryMarker => "expected '@' after unary"
  | unaryOperator => "expected unary operator"
  | binaryMarker => "expected '@' after binary"
  | binaryOperator => "expected binary operator"
  | precedenceRange => "invalid precedence: must be 1..100"
  | functionName => "expected function name in prototype"
  | parameterList => "expected '(' in prototype"
  | parameterName => "expected parameter name after ','"
  | parameterListEnd => "expected ')' in prototype"
  | operandCount => "invalid number of operands for operator"

inductive ReadError where
  | lexical (e : Source.LexError)
  | grammar (e : ParseError)
  deriving DecidableEq, Repr

end Kaleidoscope
