/-
  Kaleidoscope.Proofs.Tiling — the results of the lexer side by side.

  `Skippable` and `Lexeme.Before` say, without a reader, what may be skipped before a token and
  what a lexeme is. A lexeme is not told by its characters alone: a text that is not closed
  is one only at the end of input.

  Each result of the lexer takes a piece of the text, from where the one before it ended:
  first what is skipped, then what is read (`Piece`). Both are as long as they can be
  (`Skippable.prefix_splitTrivia`, `Lexeme.Before.length_le`), although the lexer goes through
  the characters once and takes the kinds of lexemes in a fixed order. A result is an error
  exactly if its lexeme is a run of digits and points that is no literal, or a text that is
  not closed (`Lexeme.reading_error_iff`).

  `results_tile`: so it is for every result of every text, and the positions that the lexer
  reports are those of its pieces. The end of input comes where nothing is left, for ever,
  and after no more results than the text has characters.
-/

import Kaleidoscope.Proofs.Spelling

namespace Kaleidoscope.Source

/-! ## What is skipped -/

/-- Blanks and comments. A comment goes on up to the end of its line. -/
inductive Skippable : List Char → Prop
  | nil : Skippable []
  | blank {c : Char} {cs : List Char} : isBlank c = true → Skippable cs → Skippable (c :: cs)
  | comment {text cs : List Char} :
      (∀ c ∈ text, isLineEnd c = false) → Skippable cs → Skippable ('#' :: (text ++ cs))

/-- From inside a comment: the rest of it comes first. -/
theorem skippable_splitTriviaFrom (comment : Bool) (cs : List Char) :
    (comment = false → Skippable (splitTriviaFrom comment cs).1) ∧
    (comment = true → ∃ text more, (∀ c ∈ text, isLineEnd c = false) ∧ Skippable more ∧
      (splitTriviaFrom comment cs).1 = text ++ more) := by
  induction cs generalizing comment with
  | nil => exact ⟨fun _ => .nil, fun _ => ⟨[], [], by simp, .nil, rfl⟩⟩
  | cons c cs ih =>
    cases comment with
    | false =>
      refine ⟨fun _ => ?_, Bool.noConfusion⟩
      simp only [splitTriviaFrom, Bool.false_or, Bool.false_eq_true, if_false]
      by_cases hsign : c = '#'
      · subst hsign
        obtain ⟨text, more, htext, hmore, heq⟩ := (ih true).2 rfl
        simp only [beq_self_eq_true, Bool.or_true, if_true, heq]
        exact .comment htext hmore
      · have hsign' : (c == '#') = false := by simpa using hsign
        by_cases hblank : isBlank c = true
        · simp only [hblank, hsign', Bool.true_or, if_true]
          exact .blank hblank ((ih false).1 rfl)
        · simp only [hblank, hsign', Bool.or_false, if_false, Bool.false_eq_true]
          exact .nil
    | true =>
      refine ⟨Bool.noConfusion, fun _ => ?_⟩
      simp only [splitTriviaFrom, Bool.true_or, if_true]
      by_cases hend : isLineEnd c = true
      · refine ⟨[], c :: (splitTriviaFrom false cs).1, by simp, ?_, ?_⟩
        · exact .blank (isBlank_of_isLineEnd hend) ((ih false).1 rfl)
        · simp [hend]
      · have hend' : isLineEnd c = false := by simpa using hend
        obtain ⟨text, more, htext, hmore, heq⟩ := (ih true).2 rfl
        refine ⟨c :: text, more, ?_, hmore, ?_⟩
        · simpa [hend'] using htext
        · simp [hend', heq]

theorem skippable_splitTrivia (cs : List Char) : Skippable (splitTrivia cs).1 := (skippable_splitTriviaFrom false cs).1 rfl

/-- A comment goes on as long as its line does. -/
theorem splitTriviaFrom_inside {text : List Char} (htext : ∀ c ∈ text, isLineEnd c = false) (cs : List Char) :
    (splitTriviaFrom true (text ++ cs)).1 = text ++ (splitTriviaFrom true cs).1 := by
  induction text with
  | nil => rfl
  | cons c text ih =>
    simp only [List.cons_append, splitTriviaFrom, Bool.true_or, if_true, htext c (.head _), Bool.not_false]
    rw [ih fun d hd => htext d (.tail _ hd)]

/-- Nothing more can be skipped, and inside a comment nothing less is. -/
theorem Skippable.prefix_splitTriviaFrom {cs : List Char} (h : Skippable cs) (comment : Bool) (rest : List Char) :
    cs <+: (splitTriviaFrom comment (cs ++ rest)).1 := by
  induction h generalizing comment with
  | nil => exact List.nil_prefix
  | @blank c cs hblank _ ih =>
    simp only [List.cons_append, splitTriviaFrom, hblank, Bool.or_true, Bool.true_or, if_true]
    exact List.cons_prefix_cons.mpr ⟨rfl, ih _⟩
  | @comment text cs htext _ ih =>
    have hflag : (if comment = true then !isLineEnd '#' else '#' == '#') = true := by cases comment <;> rfl
    simp only [List.cons_append, splitTriviaFrom, beq_self_eq_true, Bool.or_true, if_true, List.append_assoc]
    rw [show (if comment = true then !isLineEnd '#' else true) = true from hflag, splitTriviaFrom_inside htext]
    exact List.cons_prefix_cons.mpr ⟨rfl, (List.prefix_append_right_inj text).mpr (ih true)⟩

theorem Skippable.prefix_splitTrivia {cs ds : List Char} (h : Skippable cs) (hcs : cs <+: ds) :
    cs <+: (splitTrivia ds).1 := by
  obtain ⟨rest, rfl⟩ := hcs
  exact h.prefix_splitTriviaFrom false rest

/-! ## Lexemes -/

namespace Lexeme

/-- The lexeme may stand in a text before `rest`. -/
inductive Before : Lexeme → List Char → Prop
  | word {c : Char} {cs rest : List Char} :
      isLetter c = true → (∀ d ∈ cs, isWordChar d = true) → Before (.word (c :: cs)) rest
  | digits {cs rest : List Char} : cs ≠ [] → (∀ c ∈ cs, isNumeric c = true) → Before (.digits cs) rest
  | closed {cs rest : List Char} : '"' ∉ cs → Before (.quoted cs true) rest
  | unclosed {cs : List Char} : '"' ∉ cs → Before (.quoted cs false) []
  | punct {c : Char} {rest : List Char} :
      isLetter c = false → isNumeric c = false → c ≠ '"' → Before (.punct c) rest
  | finish : Before .finish []

theorem Before.eq_finish {lexeme : Lexeme} {rest : List Char} (h : lexeme.Before rest) (hspelling : lexeme.spelling = []) :
    lexeme = .finish := by
  cases h with
  | word | closed | unclosed | punct => cases hspelling
  | digits hne => exact absurd hspelling hne
  | finish => rfl

end Lexeme

theorem splitLexeme_unclosed {cs : List Char} (hcs : '"' ∉ cs) : splitLexeme ('"' :: cs) = (.quoted cs false, []) := by
  obtain ⟨htake, hdrop⟩ : (cs ++ []).takeWhile (· != '"') = cs ∧ (cs ++ []).dropWhile (· != '"') = [] := by
    refine takeWhile_run (fun c hc => ?_) (by simp)
    exact bne_iff_ne.mpr fun heq => hcs (heq ▸ hc)
  rw [List.append_nil] at htake hdrop
  have hletter : isLetter '"' = false := by decide
  have hnumeric : isNumeric '"' = false := by decide
  simp [splitLexeme, hletter, hnumeric, htake, hdrop]

theorem before_splitLexeme (cs : List Char) : (splitLexeme cs).1.Before (splitLexeme cs).2 := by
  cases cs with
  | nil => exact .finish
  | cons c cs =>
    by_cases hletter : isLetter c = true
    · simp only [splitLexeme, hletter, if_true]
      exact .word hletter (List.all_eq_true.mp List.all_takeWhile)
    rw [Bool.not_eq_true] at hletter
    by_cases hnumeric : isNumeric c = true
    · simp only [splitLexeme, hletter, hnumeric, if_true, Bool.false_eq_true, if_false]
      refine .digits (List.cons_ne_nil _ _) fun d hd => ?_
      rcases List.mem_cons.mp hd with rfl | hd
      · exact hnumeric
      · exact List.all_eq_true.mp List.all_takeWhile d hd
    rw [Bool.not_eq_true] at hnumeric
    by_cases hquote : c = '"'
    · subst hquote
      by_cases hclosed : '"' ∈ cs
      · obtain ⟨text, rest, rfl, htext⟩ := List.eq_append_cons_of_mem hclosed
        rw [splitLexeme_closed htext]
        exact .closed htext
      · rw [splitLexeme_unclosed hclosed]
        exact .unclosed hclosed
    · have hquote' : (c == '"') = false := beq_eq_false_iff_ne.mpr hquote
      simp only [splitLexeme, hletter, hnumeric, hquote', Bool.false_eq_true, if_false]
      exact .punct hletter hnumeric hquote

theorem spelling_splitLexeme_ne_nil {cs : List Char} (hcs : cs ≠ []) : (splitLexeme cs).1.spelling ≠ [] := by
  intro hspelling
  have hfinish := (before_splitLexeme cs).eq_finish hspelling
  have happend := splitLexeme_append cs
  rw [hspelling, splitLexeme_finish hfinish] at happend
  exact hcs happend.symm

/-- No lexeme that begins a text is longer than the one that is taken. -/
theorem Lexeme.Before.length_le {lexeme : Lexeme} {rest : List Char} (h : lexeme.Before rest) :
    lexeme.spelling.length ≤ (splitLexeme (lexeme.spelling ++ rest)).1.spelling.length := by
  cases h with
  | word hletter hcs =>
    simp only [spelling, List.cons_append, splitLexeme, hletter, if_true, List.takeWhile_append_of_pos hcs]
    simp
  | @digits cs _ hne hcs =>
    obtain ⟨c, cs, rfl⟩ := List.exists_cons_of_ne_nil hne
    have hnumeric := hcs c (.head _)
    have htail : ∀ d ∈ cs, isNumeric d = true := fun d hd => hcs d (.tail _ hd)
    simp only [spelling, List.cons_append, splitLexeme, isLetter_of_isNumeric hnumeric, hnumeric, if_true,
      Bool.false_eq_true, if_false, List.takeWhile_append_of_pos htail]
    simp
  | closed hcs =>
    simp only [spelling, List.cons_append, List.append_assoc, if_true, List.nil_append, splitLexeme_closed hcs]
    exact Nat.le_refl _
  | unclosed hcs =>
    simp only [spelling, Bool.false_eq_true, if_false, List.append_nil, splitLexeme_unclosed hcs]
    exact Nat.le_refl _
  | @punct c => exact List.length_pos_iff.mpr (spelling_splitLexeme_ne_nil (List.cons_ne_nil c rest))
  | finish => exact Nat.zero_le _

/-- A lexeme cannot be read if it is a run of digits and points that is no literal, or a
    text that is not closed. -/
theorem Lexeme.reading_error_iff {lexeme : Lexeme} {last : Bool} {e : LexError} :
    lexeme.reading last = .error e ↔
      (∃ cs, lexeme = .digits cs ∧ Decimal.isLiteral cs = false ∧ e = .malformedNumber (String.ofList cs)) ∨
      ∃ cs, lexeme = .quoted cs false ∧ e = .unterminatedText (String.ofList cs) := by
  cases lexeme with
  | word cs =>
    simp only [reading]
    split <;> simp
  | digits cs =>
    have hliteral : (Decimal.literal? cs).isSome = true ↔ Decimal.isLiteral cs = true := Decimal.literal?_isSome_iff
    simp only [reading]
    split
    · rename_i x hx
      rw [hx] at hliteral
      simp [hliteral.mp rfl]
    · rename_i hx
      rw [hx, ← not_iff_not] at hliteral
      simp only [Option.isSome_none, Bool.false_eq_true, not_false_eq_true, true_iff, Bool.not_eq_true] at hliteral
      constructor
      · rintro ⟨⟩
        exact .inl ⟨cs, rfl, hliteral, rfl⟩
      · rintro (⟨_, ⟨⟩, -, rfl⟩ | ⟨_, ⟨⟩, -⟩)
        rfl
  | quoted cs closed =>
    cases closed with
    | true => simp [reading]
    | false =>
      constructor
      · rintro ⟨⟩
        exact .inr ⟨cs, rfl, rfl⟩
      · rintro (⟨_, ⟨⟩, -⟩ | ⟨_, ⟨⟩, rfl⟩)
        rfl
  | punct c => simp [reading]
  | finish => simp [reading]

/-! ## Pieces of a text -/

theorem length_le_width (cs : List Char) : cs.length ≤ width cs := by
  induction cs with
  | nil => exact Nat.le_refl _
  | cons c cs ih =>
    have hc := c.utf8Size_pos
    rw [List.length_cons, width_cons]
    omega

/-- A number of bytes after which a character begins, or the text ends. -/
theorem isValid_width {source : String} {cs ds : List Char} (h : source.toList = cs ++ ds) :
    String.Pos.Raw.IsValid source ⟨width cs⟩ := by
  rw [String.Pos.Raw.isValid_iff_exists_append]
  refine ⟨String.ofList cs, String.ofList ds, ?_, ?_⟩
  · rw [← String.ofList_append, ← h, String.ofList_toList]
  · have hwidth := width_toList (String.ofList cs)
    rw [String.toList_ofList] at hwidth
    rw [hwidth]
    rfl

namespace Lexer

/-- What the lexer's next result takes of the text, from where the lexer is. -/
structure Piece (source : String) (l : Lexer) (before skipped : List Char) (lexeme : Lexeme) (rest : List Char) : Prop where
  text : source.toList = before ++ (skipped ++ (lexeme.spelling ++ rest))
  position : l.stop = width before
  start : l.next.2.start = width (before ++ skipped)
  stop : l.next.2.stop = width (before ++ (skipped ++ lexeme.spelling))
  skippable : Skippable skipped
  /-- Nothing longer can be skipped there. -/
  skips : ∀ cs, cs <+: skipped ++ (lexeme.spelling ++ rest) → Skippable cs → cs.length ≤ skipped.length
  stands : lexeme.Before rest
  /-- There is no longer lexeme. -/
  longest : ∀ (other : Lexeme) (rest' : List Char), other.spelling ++ rest' = lexeme.spelling ++ rest →
    other.Before rest' → other.spelling.length ≤ lexeme.spelling.length
  error : ∀ e, l.next.1 = .error e ↔
    (∃ cs, lexeme = .digits cs ∧ Decimal.isLiteral cs = false ∧ e = .malformedNumber (String.ofList cs)) ∨
    ∃ cs, lexeme = .quoted cs false ∧ e = .unterminatedText (String.ofList cs)

namespace Piece

variable {source : String} {l : Lexer} {before skipped rest : List Char} {lexeme : Lexeme}
  (h : l.Piece source before skipped lexeme rest)

include h

theorem stop_le_start : l.stop ≤ l.next.2.start := by
  rw [h.position, h.start, width_append]
  exact Nat.le_add_right _ _

theorem start_le_stop : l.next.2.start ≤ l.next.2.stop := by
  rw [h.start, h.stop, ← List.append_assoc, width_append (before ++ skipped)]
  exact Nat.le_add_right _ _

theorem isValid_position : String.Pos.Raw.IsValid source ⟨l.stop⟩ := by
  rw [h.position]
  exact isValid_width h.text

theorem isValid_start : String.Pos.Raw.IsValid source ⟨l.next.2.start⟩ := by
  have htext : source.toList = (before ++ skipped) ++ (lexeme.spelling ++ rest) := by rw [h.text, List.append_assoc]
  rw [h.start]
  exact isValid_width htext

theorem isValid_stop : String.Pos.Raw.IsValid source ⟨l.next.2.stop⟩ := by
  have htext : source.toList = (before ++ (skipped ++ lexeme.spelling)) ++ rest := by
    rw [h.text, List.append_assoc, List.append_assoc]
  rw [h.stop]
  exact isValid_width htext

/-- Only where nothing is left is there no lexeme. -/
theorem start_eq_stop_iff : l.next.2.start = l.next.2.stop ↔ l.next.2.start = source.utf8ByteSize := by
  have hspelling : lexeme.spelling = [] → rest = [] := by
    intro hempty
    have hfinish := h.stands.eq_finish hempty
    have hstands := h.stands
    rw [hfinish] at hstands
    cases hstands
    rfl
  have htext := width_toList source
  have hstop := h.stop
  rw [h.text, ← List.append_assoc, width_append, ← h.start, width_append] at htext
  rw [← List.append_assoc, width_append, ← h.start] at hstop
  constructor
  · intro heq
    have hlexeme : width lexeme.spelling = 0 := by omega
    have hrest : width rest = 0 := width_eq_zero.mpr (hspelling (width_eq_zero.mp hlexeme))
    omega
  · intro heq
    omega

end Piece

/-- The lexer is where its results so far end, and what is left of the text follows there. -/
theorem exists_before (source : String) (n : Nat) :
    ∃ before, source.toList = before ++ ((ofText source).after n).rest ∧
      ((ofText source).after n).stop = width before := by
  induction n with
  | zero => exact ⟨[], rfl, rfl⟩
  | succ n ih =>
    obtain ⟨before, htext, hstop⟩ := ih
    rw [rest_next] at htext
    refine ⟨before ++ ((splitTrivia ((ofText source).after n).rest).1 ++
      (splitLexeme (splitTrivia ((ofText source).after n).rest).2).1.spelling), ?_, ?_⟩
    · rw [List.append_assoc, List.append_assoc]
      exact htext
    · rw [width_append, width_append, ← hstop, ← Nat.add_assoc]
      rfl

/-- What is read next begins where what is skipped before it ends. -/
theorem exists_body (source : String) (n : Nat) :
    ∃ before, source.toList = before ++ (splitTrivia ((ofText source).after n).rest).2 ∧
      ((ofText source).after n).next.2.start = width before := by
  obtain ⟨before, htext, hstop⟩ := exists_before source n
  refine ⟨before ++ (splitTrivia ((ofText source).after n).rest).1, ?_, ?_⟩
  · rw [List.append_assoc, splitTrivia_append, htext]
  · rw [width_append, ← hstop]
    rfl

theorem exists_piece (source : String) (n : Nat) :
    ∃ before skipped lexeme rest, ((ofText source).after n).Piece source before skipped lexeme rest := by
  obtain ⟨before, htext, hposition⟩ := exists_before source n
  generalize (ofText source).after n = l at htext hposition
  have hskip := splitTrivia_append l.rest
  have hlexeme := splitLexeme_append (splitTrivia l.rest).2
  refine ⟨before, (splitTrivia l.rest).1, (splitLexeme (splitTrivia l.rest).2).1, (splitLexeme (splitTrivia l.rest).2).2,
    ?_, hposition, ?_, ?_, skippable_splitTrivia _, ?_, before_splitLexeme _, ?_, fun e => Lexeme.reading_error_iff⟩
  · rw [hlexeme, hskip, htext]
  · rw [width_append, ← hposition]
    rfl
  · rw [width_append, width_append, ← hposition, ← Nat.add_assoc]
    rfl
  · intro cs hcs hskippable
    rw [hlexeme, hskip] at hcs
    exact (hskippable.prefix_splitTrivia hcs).length_le
  · intro other rest' heq hother
    have hle := hother.length_le
    rwa [heq, hlexeme] at hle

/-- As long as the end of input has not come, each result takes a character. -/
theorem length_rest_add_le (source : String) {n : Nat} (hn : n ≤ (ofText source).items.length) :
    ((ofText source).after n).rest.length + n ≤ source.length := by
  induction n with
  | zero => exact Nat.le_of_eq String.length_toList
  | succ n ih =>
    have hne : ((ofText source).after n).next.1 ≠ .ok .eof := (getElem?_items hn).1
    have hlt : ((ofText source).after (n + 1)).rest.length < ((ofText source).after n).rest.length := length_first hne
    have hle := ih (Nat.le_of_succ_le hn)
    omega

/-- Every result of every text takes a piece of the text from where the result before it
    ended. Where it starts, where what it skips ends and where its lexeme ends are, in this
    order, positions between characters; only at the end of the text is there no lexeme. The
    end of input comes at the end of the text, is what every later result is, and no more
    results come before it than the text has characters. -/
theorem results_tile (source : String) :
    (∀ n, let l := (ofText source).after n
      l.stop ≤ l.next.2.start ∧ l.next.2.start ≤ l.next.2.stop ∧
      String.Pos.Raw.IsValid source ⟨l.stop⟩ ∧ String.Pos.Raw.IsValid source ⟨l.next.2.start⟩ ∧
      String.Pos.Raw.IsValid source ⟨l.next.2.stop⟩ ∧
      (l.next.2.start = l.next.2.stop ↔ l.next.2.start = source.utf8ByteSize) ∧
      ∃ before skipped lexeme rest, l.Piece source before skipped lexeme rest) ∧
    (∀ n, (ofText source).result n = .ok .eof →
      ((ofText source).after (n + 1)).stop = source.utf8ByteSize ∧ ∀ m, n ≤ m → (ofText source).result m = .ok .eof) ∧
    ∃ n, n ≤ source.length ∧ source.length ≤ source.utf8ByteSize ∧
      (ofText source).result n = .ok .eof ∧ ∀ m, m < n → (ofText source).result m ≠ .ok .eof := by
  refine ⟨fun n => ?_, fun n heof => ⟨?_, fun m hm => ?_⟩, (ofText source).items.length, ?_, ?_, ?_, ?_⟩
  · obtain ⟨before, skipped, lexeme, rest, h⟩ := exists_piece source n
    exact ⟨h.stop_le_start, h.start_le_stop, h.isValid_position, h.isValid_start, h.isValid_stop, h.start_eq_stop_iff,
      before, skipped, lexeme, rest, h⟩
  · obtain ⟨before, htext, hstop⟩ := exists_before source (n + 1)
    have hrest : ((ofText source).after (n + 1)).rest = [] := rest_of_eof heof
    rw [hrest, List.append_nil] at htext
    rw [hstop, ← htext, width_toList]
  · exact result_eof_iff.mpr (Nat.le_trans (result_eof_iff.mp heof) hm)
  · exact Nat.le_of_add_left_le (length_rest_add_le source (Nat.le_refl _))
  · rw [← width_toList, ← String.length_toList]
    exact length_le_width _
  · exact result_eof_iff.mpr (Nat.le_refl _)
  · exact fun m hm => (getElem?_items hm).1

end Lexer

end Kaleidoscope.Source
