/-
  Kaleidoscope.Source.Blank — the characters that separate tokens.

  A blank is a character with the Unicode property White_Space. `blanks` lists the
  property's ranges in ascending order; a comment is not blank, it is skipped beside
  blanks by the lexer.
-/

namespace Kaleidoscope.Source

/-- The ranges of White_Space, both ends included. -/
def blanks : List (Nat × Nat) :=
  [(0x09, 0x0D), (0x20, 0x20), (0x85, 0x85), (0xA0, 0xA0), (0x1680, 0x1680), (0x2000, 0x200A),
   (0x2028, 0x2029), (0x202F, 0x202F), (0x205F, 0x205F), (0x3000, 0x3000)]

def isBlank (c : Char) : Bool := blanks.any fun r => r.1 ≤ c.toNat && c.toNat ≤ r.2

/-- The two characters that end a comment. -/
def isLineEnd (c : Char) : Bool := c == '\n' || c == '\r'

example : (blanks.map fun r => r.2 + 1 - r.1).sum = 25 := by decide

theorem isBlank_of_isLineEnd {c : Char} (h : isLineEnd c = true) : isBlank c = true := by
  simp only [isLineEnd, Bool.or_eq_true, beq_iff_eq] at h
  rcases h with rfl | rfl <;> decide

end Kaleidoscope.Source
