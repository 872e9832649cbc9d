/-
  Kaleidoscope.Proofs.Spelling — to lex a text is to undo its writing.

  A token is written as its characters (`Written`), and tokens are kept apart by gaps, runs
  of blanks and comments with at least one of them (`Gap`). Nothing else is asked of a gap:
  a name before a comment, a number before a line's end, a `;` before anything at all.
  - `begins_written`: before a gap, the lexer's first token is the one that was written, and
    the gap is what is left. A word or a number ends there, because nothing that begins a
    gap can go on with it (`Gap.cuts`), and a `;` has something after it.
  - `first_gap`: a gap changes nothing of what is read after it.
  - `results_of_written`: the results of a written text are its tokens, and past them the
    end of input for ever.

  A literal can be read exactly if it has a digit and no second point
  (`literal?_isSome_iff`).
-/

import Mathlib.Logic.Basic
import Kaleidoscope.Proofs.Spacing

namespace Kaleidoscope

/-! ## Literals -/

namespace Decimal

/-- Digits and points, one digit at least and one point at most. -/
def isLiteral (cs : List Char) : Bool :=
  cs.all (fun c => c.isDigit || c == '.') && cs.any Char.isDigit && cs.count '.' ≤ 1

theorem isLiteral_iff {cs : List Char} : isLiteral cs = true ↔
    (∀ c ∈ cs, c.isDigit = true ∨ c = '.') ∧ (∃ c ∈ cs, c.isDigit = true) ∧ cs.count '.' ≤ 1 := by
  simp [isLiteral, and_assoc]

theorem count_point_eq_zero {cs : List Char} (h : ∀ c ∈ cs, c.isDigit = true) : cs.count '.' = 0 := by
  rw [List.count_eq_zero]
  intro hpoint
  exact absurd (h '.' hpoint) (by decide)

/-- Digits without a point. -/
theorem isLiteral_digits {whole : List Char} (hwhole : ∀ c ∈ whole, c.isDigit = true) :
    isLiteral whole = true ↔ whole ≠ [] := by
  rw [isLiteral_iff, count_point_eq_zero hwhole]
  constructor
  · rintro ⟨-, ⟨c, hc, -⟩, -⟩
    exact List.ne_nil_of_mem hc
  · intro hne
    obtain ⟨c, cs, rfl⟩ := List.exists_cons_of_ne_nil hne
    exact ⟨fun d hd => .inl (hwhole d hd), ⟨c, .head _, hwhole c (.head _)⟩, Nat.zero_le _⟩

/-- Digits up to a character that is none: it is the point, and the last one. -/
theorem isLiteral_point {whole part : List Char} {c : Char} (hwhole : ∀ d ∈ whole, d.isDigit = true)
    (hc : c.isDigit = false) :
    isLiteral (whole ++ c :: part) = true ↔
      c = '.' ∧ (∀ d ∈ part, d.isDigit = true) ∧ ¬(whole = [] ∧ part = []) := by
  rw [isLiteral_iff, List.count_append, count_point_eq_zero hwhole]
  constructor
  · rintro ⟨hall, ⟨d, hd, hdigit⟩, hcount⟩
    have hpoint : c = '.' := (hall c (by simp)).resolve_left (by simp [hc])
    subst hpoint
    rw [List.count_cons_self] at hcount
    have hnone : '.' ∉ part := List.count_eq_zero.mp (by omega)
    refine ⟨rfl, fun d hd => (hall d (by simp [hd])).resolve_right ?_, ?_⟩
    · rintro rfl
      exact hnone hd
    · rintro ⟨rfl, rfl⟩
      have hd' : d = '.' := by simpa using hd
      subst hd'
      exact absurd hdigit (by decide)
  · rintro ⟨rfl, hpart, hne⟩
    refine ⟨fun d hd => ?_, ?_, ?_⟩
    · rcases List.mem_append.mp hd with hd | hd
      · exact .inl (hwhole d hd)
      · rcases List.mem_cons.mp hd with rfl | hd
        · exact .inr rfl
        · exact .inl (hpart d hd)
    · cases whole with
      | cons d ds => exact ⟨d, by simp, hwhole d (.head _)⟩
      | nil =>
        cases part with
        | cons d ds => exact ⟨d, by simp, hpart d (.head _)⟩
        | nil => exact absurd ⟨rfl, rfl⟩ hne
    · have hcount := count_point_eq_zero hpart
      rw [List.count_cons_self]
      omega

theorem literal?_isSome_iff {cs : List Char} : (literal? cs).isSome = true ↔ isLiteral cs = true := by
  have hsplit := List.takeWhile_append_dropWhile (p := Char.isDigit) (l := cs)
  have hwhole : ∀ c ∈ cs.takeWhile Char.isDigit, c.isDigit = true := List.all_eq_true.mp List.all_takeWhile
  have hhead := List.head?_dropWhile_not (p := Char.isDigit) (l := cs)
  simp only [literal?]
  split
  · rename_i hdrop
    rw [hdrop, List.append_nil] at hsplit
    rw [hsplit] at hwhole ⊢
    rw [isLiteral_digits hwhole]
    split
    · rename_i hempty
      simpa using hempty
    · rename_i hempty
      simpa using hempty
  · rename_i c part hdrop
    rw [hdrop] at hsplit hhead
    have hc : c.isDigit = false := by simpa using hhead
    have hiff : isLiteral (cs.takeWhile Char.isDigit ++ c :: part) = true ↔ _ := isLiteral_point hwhole hc
    rw [hsplit] at hiff
    rw [hiff]
    split
    · rename_i hpart
      simpa [and_assoc, imp_iff_not_or] using hpart
    · rename_i hpart
      simpa [and_assoc] using hpart

end Decimal

namespace Source

open Decimal (isLiteral)

/-! ## Tokens as they are written -/

/-- A token that can be written, with what it is written as. -/
inductive Written where
  | keyword (k : Keyword)
  | name (s : String) (ok : isIdentifier s = true)
  | number (cs : List Char) (ok : isLiteral cs = true)
  | text (s : String) (ok : '"' ∉ s.toList)
  | terminator
  | punct (c : Char) (ok : isBlank c = false ∧ c.isAlphanum = false ∧ c ∉ ['#', '"', ';', '.'])

namespace Written

def spelling : Written → List Char
  | keyword k => k.spelling.toList
  | name s _ => s.toList
  | number cs _ => cs
  | text s _ => '"' :: (s.toList ++ ['"'])
  | terminator => [';']
  | punct c _ => [c]

def token : Written → Token
  | keyword k => .keyword k
  | name s _ => .name s
  | number cs ok => .number ((Decimal.literal? cs).get (Decimal.literal?_isSome_iff.mpr ok))
  | text s _ => .text s
  | terminator => .terminator
  | punct c _ => .punct c

end Written

/-- What may stand between tokens. A comment goes up to the end of its line. -/
inductive Spacer where
  | blank (c : Char) (ok : isBlank c = true)
  | comment (cs : List Char) (lineEnd : Char) (inside : ∀ c ∈ cs, isLineEnd c = false) (ends : isLineEnd lineEnd = true)

def Spacer.spelling : Spacer → List Char
  | blank c _ => [c]
  | comment cs lineEnd _ _ => '#' :: (cs ++ [lineEnd])

structure Gap where
  head : Spacer
  more : List Spacer := []

def Gap.spelling (g : Gap) : List Char := g.head.spelling ++ g.more.flatMap Spacer.spelling

/-- Tokens, each with the gap after it. -/
def spell (ws : List (Written × Gap)) : List Char := ws.flatMap fun w => w.1.spelling ++ w.2.spelling

/-- A text with nothing but spacers before its first token. -/
def write (lead : List Spacer) (ws : List (Written × Gap)) : String :=
  String.ofList (lead.flatMap Spacer.spelling ++ spell ws)

/-! ## Gaps are skipped -/

theorem first_congr {cs ds : List Char} (h : (splitTrivia cs).2 = (splitTrivia ds).2) : first cs = first ds := by
  rw [first, first, h]

theorem splitTriviaFrom_comment {cs : List Char} (hcs : ∀ c ∈ cs, isLineEnd c = false) {e : Char}
    (he : isLineEnd e = true) (rest : List Char) :
    (splitTriviaFrom true (cs ++ e :: rest)).2 = (splitTrivia rest).2 := by
  induction cs with
  | nil => simp [splitTriviaFrom, he, splitTrivia]
  | cons c cs ih =>
    simp only [List.cons_append, splitTriviaFrom, Bool.true_or, if_true, hcs c (.head _), Bool.not_false]
    exact ih fun d hd => hcs d (.tail _ hd)

theorem ne_numberSign_of_isBlank {c : Char} (h : isBlank c = true) : c ≠ '#' := by
  rintro rfl
  exact absurd h (by decide)

theorem first_spacer (p : Spacer) (rest : List Char) : first (p.spelling ++ rest) = first rest := by
  refine first_congr ?_
  cases p with
  | blank c ok =>
    have hc : (c == '#') = false := by simpa using ne_numberSign_of_isBlank ok
    simp [Spacer.spelling, splitTrivia, splitTriviaFrom, ok, hc]
  | comment cs e inside ends =>
    simp only [Spacer.spelling, List.cons_append, List.append_assoc, List.nil_append]
    rw [splitTrivia, splitTriviaFrom]
    simpa using splitTriviaFrom_comment inside ends rest

theorem first_spacers (ps : List Spacer) (rest : List Char) :
    first (ps.flatMap Spacer.spelling ++ rest) = first rest := by
  induction ps with
  | nil => rfl
  | cons p ps ih => rw [List.flatMap_cons, List.append_assoc, first_spacer, ih]

theorem first_gap (g : Gap) (rest : List Char) : first (g.spelling ++ rest) = first rest := by
  rw [Gap.spelling, List.append_assoc, first_spacer, first_spacers]

/-! ## Gaps end what comes before them -/

theorem isSolid_of_isWordChar {c : Char} (h : isWordChar c = true) : isSolid c = true := by
  simp only [isWordChar, Char.isAlphanum, Bool.or_eq_true, beq_iff_eq] at h
  rcases h with (hletter | hdigit) | rfl
  · exact isSolid_of_isLetter hletter
  · exact isSolid_of_isNumeric (isNumeric_of_isDigit hdigit)
  · decide

theorem cuts_of_not_isSolid {c : Char} (h : isSolid c = false) (cs : List Char) : Cuts (c :: cs) := by
  refine cuts_cons ?_ ?_ cs
  · refine Bool.eq_false_iff.mpr fun hword => ?_
    rw [isSolid_of_isWordChar hword] at h
    cases h
  · refine Bool.eq_false_iff.mpr fun hnum => ?_
    rw [isSolid_of_isNumeric hnum] at h
    cases h

theorem Gap.cuts (g : Gap) (rest : List Char) : Cuts (g.spelling ++ rest) := by
  obtain ⟨p, more⟩ := g
  cases p with
  | blank c ok => exact cuts_of_not_isSolid (by simp [isSolid, ok]) _
  | comment cs e inside ends => exact cuts_of_not_isSolid rfl _

theorem Gap.spelling_ne_nil (g : Gap) (rest : List Char) : g.spelling ++ rest ≠ [] := by
  obtain ⟨p, more⟩ := g
  cases p with
  | blank c ok => exact List.cons_ne_nil _ _
  | comment cs e inside ends => exact List.cons_ne_nil _ _

/-! ## Results -/

/-- A text without quotes between two of them. -/
theorem splitLexeme_closed {cs : List Char} (hcs : '"' ∉ cs) (rest : List Char) :
    splitLexeme ('"' :: (cs ++ '"' :: rest)) = (.quoted cs true, rest) := by
  obtain ⟨htake, hdrop⟩ : (cs ++ '"' :: rest).takeWhile (· != '"') = cs ∧
      (cs ++ '"' :: rest).dropWhile (· != '"') = '"' :: rest := by
    refine takeWhile_run (fun c hc => ?_) (by simp)
    exact bne_iff_ne.mpr fun heq => hcs (heq ▸ hc)
  have hletter : isLetter '"' = false := by decide
  have hnumeric : isNumeric '"' = false := by decide
  simp [splitLexeme, hletter, hnumeric, htake, hdrop]

theorem begins_text {s : String} (hs : '"' ∉ s.toList) (rest : List Char) :
    Begins ('"' :: (s.toList ++ '"' :: rest)) (.text s) rest := by
  rw [Begins, first_solid (by decide), splitLexeme_closed hs]
  simp [Lexeme.reading]

theorem standsAlone_of_written {c : Char}
    (h : isBlank c = false ∧ c.isAlphanum = false ∧ c ∉ ['#', '"', ';', '.']) : standsAlone c = true := by
  obtain ⟨hblank, halnum, hnot⟩ := h
  simp only [Char.isAlphanum, Bool.or_eq_false_iff] at halnum
  simp only [List.mem_cons, List.not_mem_nil, or_false, not_or] at hnot
  simp [standsAlone, isSolid, isLetter, isNumeric, hblank, halnum, hnot]

/-- Before a gap, what is read first is what was written. -/
theorem begins_written (w : Written) (g : Gap) (rest : List Char) :
    Begins (w.spelling ++ (g.spelling ++ rest)) w.token (g.spelling ++ rest) := by
  have hcuts := g.cuts rest
  cases w with
  | keyword k => exact begins_keyword k hcuts
  | name s ok => exact begins_name ok hcuts
  | number cs ok => exact begins_number (Option.some_get _).symm hcuts
  | text s ok =>
    simp only [Written.spelling, Written.token, List.cons_append, List.append_assoc, List.nil_append]
    exact begins_text ok (g.spelling ++ rest)
  | terminator => exact begins_terminator (g.spelling_ne_nil rest)
  | punct c ok => exact begins_punct (standsAlone_of_written ok) _

namespace Lexer

theorem result_zero (l : Lexer) : l.result 0 = (first l.rest).1 := rfl

theorem result_succ (l : Lexer) (n : Nat) : l.result (n + 1) = l.next.2.result n := by
  have hafter : l.after (n + 1) = l.next.2.after n := by
    rw [Nat.add_comm]
    exact (after_after l 1 n).symm
  rw [result, hafter, result]

theorem rest_next_of_first {l : Lexer} {r : Reading} {rest : List Char} (h : first l.rest = (r, rest)) :
    l.next.2.rest = rest := congrArg Prod.snd h

/-- Where nothing but spacers is left. -/
theorem result_of_finished {l : Lexer} (h : first l.rest = first []) (n : Nat) : l.result n = .ok .eof := by
  induction n generalizing l with
  | zero => rw [result_zero, h]; rfl
  | succ n ih =>
    rw [result_succ]
    exact ih (congrArg first (rest_next_of_first h))

/-- A lexer that has written tokens before it, whatever it skips to get to them. -/
theorem result_of_spelt {l : Lexer} {ws : List (Written × Gap)} (h : first l.rest = first (spell ws)) (n : Nat) :
    l.result n = (ws[n]?.map fun w => .ok w.1.token).getD (.ok .eof) := by
  induction ws generalizing l n with
  | nil => exact result_of_finished h n
  | cons w ws ih =>
    have hfirst : first l.rest = (.ok w.1.token, w.2.spelling ++ spell ws) := by
      rw [h, spell, List.flatMap_cons, List.append_assoc]
      exact begins_written w.1 w.2 (spell ws)
    cases n with
    | zero => rw [result_zero, hfirst]; rfl
    | succ n =>
      rw [result_succ, List.getElem?_cons_succ]
      refine ih ?_ n
      rw [rest_next_of_first hfirst, first_gap]

/-- Tokens written one after the other, each with a gap after it, are read as those tokens,
    without an error; after them there is the end of input, however often it is asked for. -/
theorem results_of_written (lead : List Spacer) (ws : List (Written × Gap)) (n : Nat) :
    (ofText (write lead ws)).result n = (ws[n]?.map fun w => .ok w.1.token).getD (.ok .eof) := by
  refine result_of_spelt ?_ n
  show first (write lead ws).toList = _
  rw [write, String.toList_ofList, first_spacers]

/-- One token of each kind; the last one is a terminator, and not the end of input. -/
example :
    let space : Gap := { head := .blank ' ' (by decide) }
    let line : Gap := { head := .comment " up to x".toList '\n' (by simp [isLineEnd]) (by decide) }
    write [.blank '\t' (by decide)]
      [(.keyword .forWord, space), (.name "iff" (by decide), line), (.number ".5".toList (by decide), line),
        (.text "a#b" (by decide), space), (.punct '=' (by decide), space), (.terminator, space)] =
      "\tfor iff# up to x\n.5# up to x\n\"a#b\" = ; " := by decide

end Lexer

end Source

end Kaleidoscope
