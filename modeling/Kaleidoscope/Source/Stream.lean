/-
  Kaleidoscope.Source.Stream — a text lexed ahead.

  There is an item for each result of the lexer before the end of input. Where the result
  stands is dropped, except whether it begins exactly where the one before it ended
  (`adjoins`): operators are put together from punctuation that does.
-/

import Kaleidoscope.Source.Lexer

namespace Kaleidoscope.Source

structure Item where
  reading : Reading
  /-- It begins where the result before it ended. -/
  adjoins : Bool

/-- The items of a list of results, `stop` being where the result before them ended, if
    there was one. -/
def itemsFrom : Option Nat → List (Reading × Lexer) → List Item
  | _, [] => []
  | _, [(.ok .eof, _)] => []
  | stop, (r, l) :: rest => ⟨r, stop == some l.start⟩ :: itemsFrom (some l.stop) rest

/-- The results of a text before its end. -/
def Lexer.items (l : Lexer) : List Item := itemsFrom none l.readings

end Kaleidoscope.Source
