/-
  Kaleidoscope.Proofs.Lookahead — looking for an operator, and coming back.

  A parser finds the operator at its current token among the items it has left, and nothing
  moves. A `Scanner` has no items: it reads on in the text and puts the positions of its lexer
  back. Parser and scanner are in step wherever the lexer has come to (`Parser.InStep`): they
  pass tokens alike, find the same operator and take it alike (`InStep.advance`,
  `InStep.operator?`, `InStep.takeOperator`).

  What they find can be told from the text. The punctuation from a byte on, without gaps, is
  as many characters as follow each other there that stand alone (`Cursor.readsRun_iff`), and
  the operator is the longest spelling that it begins with
  (`Operator.isLongest_longest?`). To take it is to pass the characters of its spelling, one
  token each; what is read then is what a lexer reads that begins past them
  (`Scanner.advanceBy_of_text`).

  `operator_maximal` puts this together.
-/

import Kaleidoscope.Parser.Scanner
import Kaleidoscope.Proofs.Prototypes

namespace Kaleidoscope

open Source

/-! ## The longest spelling -/

namespace Operator

/-- It is the longest spelling that the characters begin with; there is none if they begin
    with no spelling. -/
def IsLongest (cs : List Char) : Option String → Prop
  | some op => op ∈ spellings ∧ op.toList <+: cs ∧ ∀ other ∈ spellings, other.toList <+: cs → other.length ≤ op.length
  | none => ∀ op ∈ spellings, ¬op.toList <+: cs

/-- A spelling at the front is one of those that are tried. -/
theorem mem_tried {cs : List Char} {op : String} (hop : op ∈ spellings) (h : op.toList <+: cs) :
    op ∈ [3, 2, 1].map fun n => String.ofList (cs.take n) := by
  have hlength : ∀ op ∈ spellings, op.length ∈ [3, 2, 1] := by decide
  have htake : String.ofList (cs.take op.length) = op := by
    rw [← String.length_toList, ← List.prefix_iff_eq_take.mp h, String.ofList_toList]
  exact List.mem_map.mpr ⟨op.length, hlength op hop, htake⟩

theorem isLongest_longest? (cs : List Char) : IsLongest cs (longest? cs) := by
  have hdescending : ([3, 2, 1].map fun n => String.ofList (cs.take n)).Pairwise fun a b => b.length ≤ a.length := by
    simp only [List.pairwise_map, String.length_ofList, List.length_take]
    exact (by decide : [3, 2, 1].Pairwise (fun a b : Nat => b ≤ a)).imp fun h => by omega
  cases h : longest? cs with
  | none =>
    intro op hop hprefix
    exact List.find?_eq_none.mp h op (mem_tried hop hprefix) (by simpa [isSpelling] using hop)
  | some op =>
    obtain ⟨hop, before, after, htried, hbefore⟩ := List.find?_eq_some_iff_append.mp h
    refine ⟨by simpa [isSpelling] using hop, longest?_prefix h, fun other hother hprefix => ?_⟩
    have hmem := mem_tried hother hprefix
    rw [htried] at hmem hdescending
    rcases List.mem_append.mp hmem with hmem | hmem
    · have hnot := hbefore other hmem
      simp [isSpelling, hother] at hnot
    · rcases List.mem_cons.mp hmem with rfl | hmem
      · exact Nat.le_refl _
      · exact List.rel_of_pairwise_cons (List.pairwise_append.mp hdescending).2.1 hmem

end Operator

namespace Source

/-! ## The text at the current token -/

namespace Lexer

variable {l : Lexer} {c : Char} {cur : Token}

/-- The current token is punctuation exactly if the text has it where the token begins. -/
theorem head?_body_iff :
    ((splitTrivia l.rest).2.takeWhile standsAlone).head? = some c ↔ l.next.1 = .ok (.punct c) := by
  rw [next_punct_iff]
  constructor
  · intro hhead
    cases hbody : (splitTrivia l.rest).2 with
    | nil => simp [hbody] at hhead
    | cons d cs =>
      rw [hbody, List.head?_takeWhile, List.head?_cons] at hhead
      obtain ⟨hd, rfl⟩ : standsAlone d = true ∧ d = c := by simpa [Option.filter] using hhead
      have hrest : l.next.2.rest = (splitLexeme (splitTrivia l.rest).2).2 := rfl
      rw [hrest, hbody, splitLexeme_of_standsAlone hd]
      exact ⟨hd, rfl⟩
  · rintro ⟨hc, hbody⟩
    rw [hbody, List.takeWhile_cons_of_pos hc, List.head?_cons]

/-- The operator at the token that was read last is told from the text where the token
    begins. -/
theorem operator?_next (hcur : l.next.1 = .ok cur) :
    l.next.2.operator? cur =
      Operator.longest? (((splitTrivia l.rest).2.takeWhile standsAlone).take Operator.longestLength) := by
  by_cases hpunct : ∃ c, cur = .punct c
  · obtain ⟨c, rfl⟩ := hpunct
    obtain ⟨hc, hbody⟩ := next_punct_iff.mp hcur
    rw [hbody, List.takeWhile_cons_of_pos hc, operator?, glued_eq]
    rfl
  · have hnone : (splitTrivia l.rest).2.takeWhile standsAlone = [] := by
      rw [← List.head?_eq_none_iff, Option.eq_none_iff_forall_ne_some]
      intro c hhead
      exact hpunct ⟨c, Except.ok.inj (hcur.symm.trans (head?_body_iff.mp hhead))⟩
    rw [hnone]
    unfold operator?
    split
    · exact absurd ⟨_, rfl⟩ hpunct
    · decide

end Lexer

/-! ## Positions in a text -/

namespace Cursor

/-- The cursor after the first `n` results of a text. -/
def after (source : String) (n : Nat) : Cursor :=
  ⟨source, ((Lexer.ofText source).after n).start, ((Lexer.ofText source).after n).stop⟩

variable {source : String} {before rest cs : List Char} {c : Char}

theorem lexer_of_text {k : Cursor} (htext : k.source.toList = before ++ rest) (hstop : k.stop = width before) :
    k.lexer = { rest, start := k.start, stop := k.stop } := by
  rw [lexer, htext, hstop, dropBytes?_width]
  rfl

/-- Two positions are enough to read on where the lexer is. -/
theorem lexer_after (source : String) (n : Nat) : (after source n).lexer = (Lexer.ofText source).after n := by
  obtain ⟨before, htext, hstop⟩ := Lexer.exists_before source n
  exact lexer_of_text htext hstop

theorem next_after (source : String) (n : Nat) :
    (after source n).next = ((Lexer.ofText source).result n, after source (n + 1)) := by
  rw [next, lexer_after]
  rfl

theorem next_of_standsAlone (hc : standsAlone c = true) (htext : source.toList = before ++ c :: rest) (start : Nat) :
    (⟨source, start, width before⟩ : Cursor).next =
      (.ok (.punct c), ⟨source, width before, width before + c.utf8Size⟩) := by
  have hlexer : (⟨source, start, width before⟩ : Cursor).lexer = { rest := c :: rest, start, stop := width before } :=
    lexer_of_text htext rfl
  rw [next, hlexer, Lexer.next_of_standsAlone hc rfl]

/-- The text has the current token where the cursor says that it is. -/
theorem text_of_punct {n : Nat} (h : (Lexer.ofText source).result n = .ok (.punct c)) :
    ∃ before, source.toList = before ++ c :: ((Lexer.ofText source).after (n + 1)).rest ∧
      after source (n + 1) = ⟨source, width before, width (before ++ [c])⟩ := by
  obtain ⟨before, htext, hstart⟩ := Lexer.exists_body source n
  have hbody := (Lexer.next_punct_iff.mp h).2
  have hlexeme : (splitLexeme (splitTrivia ((Lexer.ofText source).after n).rest).2).1 = .punct c :=
    (Lexeme.reading_punct h).1
  have hstart' : (after source (n + 1)).start = width before := hstart
  have hstop : (after source (n + 1)).stop = width (before ++ [c]) := by
    show ((Lexer.ofText source).after n).next.2.start +
      width (splitLexeme (splitTrivia ((Lexer.ofText source).after n).rest).2).1.spelling = _
    rw [hstart, hlexeme, width_append]
    rfl
  refine ⟨before, hbody ▸ htext, ?_⟩
  rw [← hstart', ← hstop]
  rfl

/-! ## Punctuation without gaps -/

/-- From a byte of the text on, the characters are read as punctuation, one token each, and
    each where the one before it ended. -/
def ReadsRun (source : String) : Nat → List Char → Prop
  | _, [] => True
  | byte, c :: cs =>
    (startingAt source byte).next = (.ok (.punct c), ⟨source, byte, byte + c.utf8Size⟩) ∧
      ReadsRun source (byte + c.utf8Size) cs

theorem readsRun_iff (htext : source.toList = before ++ rest) :
    ReadsRun source (width before) cs ↔ cs <+: rest.takeWhile standsAlone := by
  induction cs generalizing before rest with
  | nil => exact ⟨fun _ => List.nil_prefix, fun _ => trivial⟩
  | cons c cs ih =>
    have hstep {more : List Char} (hrest : rest = c :: more) :
        ReadsRun source (width before + c.utf8Size) cs ↔ cs <+: more.takeWhile standsAlone := by
      rw [← width_concat]
      exact ih (by rw [htext, hrest, List.append_assoc]; rfl)
    constructor
    · rintro ⟨hnext, hcs⟩
      have hlexer : (startingAt source (width before)).lexer = { rest, start := width before, stop := width before } :=
        lexer_of_text htext rfl
      rw [next, hlexer, Prod.mk.injEq] at hnext
      obtain ⟨hc, hrest⟩ := Lexer.rest_of_adjoining hnext.1 (congrArg Cursor.start hnext.2)
      change rest = c :: _ at hrest
      rw [hrest, List.takeWhile_cons_of_pos hc, List.cons_prefix_cons]
      exact ⟨rfl, (hstep hrest).mp hcs⟩
    · intro hprefix
      cases rest with
      | nil => cases List.prefix_nil.mp hprefix
      | cons d more =>
        by_cases hd : standsAlone d = true
        · rw [List.takeWhile_cons_of_pos hd, List.cons_prefix_cons] at hprefix
          obtain ⟨rfl, hcs⟩ := hprefix
          exact ⟨next_of_standsAlone hd htext _, (hstep rfl).mpr hcs⟩
        · rw [List.takeWhile_cons_of_neg hd] at hprefix
          cases List.prefix_nil.mp hprefix

/-- The punctuation from a byte on, as long as it goes on without a gap and as operators
    are. -/
structure MaximalRun (source : String) (byte : Nat) (run : List Char) : Prop where
  length_le : run.length ≤ Operator.longestLength
  reads : ReadsRun source byte run
  maximal : ∀ cs, cs.length ≤ Operator.longestLength → ReadsRun source byte cs → cs <+: run

theorem maximalRun_take (htext : source.toList = before ++ rest) :
    MaximalRun source (width before) ((rest.takeWhile standsAlone).take Operator.longestLength) := by
  refine ⟨List.length_take_le _ _, (readsRun_iff htext).mpr (List.take_prefix _ _), fun cs hlength hcs => ?_⟩
  exact List.prefix_take_iff.mpr ⟨(readsRun_iff htext).mp hcs, hlength⟩

end Cursor

end Source

/-! ## Scanners -/

namespace Scanner

variable {source : String} {before rest cs : List Char}

/-! ### Looking -/

theorem probe_after (source : String) (cur : Token) (wrapped m n : Nat) :
    ∃ k, probe m ⟨cur, Cursor.after source n, wrapped⟩ =
      .ok (((Lexer.ofText source).after n).glued m) ⟨cur, Cursor.after source k, wrapped⟩ := by
  induction m generalizing n with
  | zero => exact ⟨n, rfl⟩
  | succ m ih =>
    have hdraw : draw ⟨cur, Cursor.after source n, wrapped⟩ =
        .ok ((Lexer.ofText source).result n) ⟨cur, Cursor.after source (n + 1), wrapped⟩ := by
      simp only [draw, Cursor.next_after]
    have hnext : ((Lexer.ofText source).after n).next =
        ((Lexer.ofText source).result n, (Lexer.ofText source).after (n + 1)) := rfl
    rw [probe, get_bind_run, bind_of_ok hdraw, Lexer.glued, hnext]
    rcases (Lexer.ofText source).result n with e | t
    · exact ⟨n + 1, rfl⟩
    · cases t with
      | punct c =>
        simp only [get_bind_run]
        by_cases hstart : (Cursor.after source (n + 1)).start = (Cursor.after source n).stop
        · have hadjoins : ((Lexer.ofText source).after (n + 1)).start = ((Lexer.ofText source).after n).stop := hstart
          obtain ⟨k, hk⟩ := ih (n + 1)
          refine ⟨k, ?_⟩
          rw [if_pos hstart, if_pos hadjoins, bind_of_ok hk]
          rfl
        · have hgap : ¬((Lexer.ofText source).after (n + 1)).start = ((Lexer.ofText source).after n).stop := hstart
          refine ⟨n + 1, ?_⟩
          rw [if_neg hstart, if_neg hgap]
          rfl
      | _ => exact ⟨n + 1, rfl⟩

/-- Looking reads on over what comes, and leaves the scanner as it was. -/
theorem operator?_after (source : String) (n : Nat) (cur : Token) (wrapped : Nat) :
    operator? ⟨cur, Cursor.after source n, wrapped⟩ =
      .ok (((Lexer.ofText source).after n).operator? cur) ⟨cur, Cursor.after source n, wrapped⟩ := by
  rw [operator?, get_bind_run]
  cases cur with
  | punct c =>
    obtain ⟨k, hk⟩ := probe_after source (.punct c) wrapped (Operator.longestLength - 1) n
    dsimp only
    rw [bind_of_ok hk, modify_bind_run]
    rfl
  | _ => rfl

/-! ### Taking -/

theorem elim_getLast?_cons (c : Char) (cs : List Char) (cur : Token) :
    (c :: cs).getLast?.elim cur Token.punct = cs.getLast?.elim (.punct c) .punct := by
  rw [List.getLast?_cons]
  cases cs.getLast? <;> rfl

/-- To pass characters that stand alone, and what comes after them. -/
theorem advanceBy_of_text (hcs : ∀ c ∈ cs, standsAlone c = true) (htext : source.toList = before ++ (cs ++ rest))
    (cur : Token) (start wrapped : Nat) :
    Parser.advanceBy (cs.length + 1) (⟨cur, ⟨source, start, width before⟩, wrapped⟩ : Scanner) =
      match (Cursor.startingAt source (width (before ++ cs))).next with
      | (.ok t, k) => .ok () ⟨t, k, wrapped⟩
      | (.error e, k) => .error (.lexical e) ⟨cs.getLast?.elim cur .punct, k, wrapped⟩ := by
  induction cs generalizing before cur start with
  | nil =>
    rw [List.length_nil, Parser.advanceBy, Parser.advanceBy, bind_pure_unit, List.append_nil]
    rfl
  | cons c cs ih =>
    have hc := hcs c (.head _)
    have hadvance : Parser.advance (⟨cur, ⟨source, start, width before⟩, wrapped⟩ : Scanner) =
        .ok () ⟨.punct c, ⟨source, width before, width (before ++ [c])⟩, wrapped⟩ := by
      rw [advance_run, Cursor.next_of_standsAlone hc htext, width_concat]
    rw [List.length_cons, Parser.advanceBy, bind_of_ok hadvance, elim_getLast?_cons,
      ih (fun d hd => hcs d (.tail _ hd)) (by rw [htext, List.append_assoc]; rfl), List.append_assoc]
    rfl

/-- To take the operator at the token that was read last is to pass its characters, and to read
    on from the byte past them. -/
theorem takeOperator_after {n : Nat} {cur : Token} (hcur : (Lexer.ofText source).result n = .ok cur) (wrapped : Nat) :
    Parser.takeOperator (⟨cur, Cursor.after source (n + 1), wrapped⟩ : Scanner) =
      match ((Lexer.ofText source).after (n + 1)).operator? cur with
      | none => .ok none ⟨cur, Cursor.after source (n + 1), wrapped⟩
      | some op =>
        match (Cursor.startingAt source ((Cursor.after source (n + 1)).start + op.utf8ByteSize)).next with
        | (.ok t, k) => .ok (some op) ⟨t, k, wrapped⟩
        | (.error e, k) => .error (.lexical e) ⟨op.toList.getLast?.elim cur .punct, k, wrapped⟩ := by
  have hlook : (TokenSource.operator? : Scan _) ⟨cur, Cursor.after source (n + 1), wrapped⟩ = .ok _ _ :=
    operator?_after source (n + 1) cur wrapped
  rw [Parser.takeOperator, bind_of_ok hlook]
  cases hop : ((Lexer.ofText source).after (n + 1)).operator? cur with
  | none => rfl
  | some op =>
    obtain ⟨c, rfl⟩ : ∃ c, cur = .punct c := by
      unfold Lexer.operator? at hop
      split at hop
      · exact ⟨_, rfl⟩
      · cases hop
    obtain ⟨before, htext, hafter⟩ := Cursor.text_of_punct hcur
    obtain ⟨cs, hcs⟩ : ∃ cs, op.toList = c :: cs := List.head?_eq_some_iff.mp (Parser.longest?_cons hop).2
    have hprefix := Operator.longest?_prefix hop
    rw [hcs, List.cons_prefix_cons, Lexer.glued_eq] at hprefix
    have hrun := hprefix.2.trans (List.take_prefix _ _)
    obtain ⟨rest, hrest⟩ := hrun.trans (List.takeWhile_prefix _)
    have halone : ∀ d ∈ cs, standsAlone d = true := fun d hd =>
      List.all_eq_true.mp List.all_takeWhile d (hrun.subset hd)
    have hlength : op.length = cs.length + 1 := by rw [← String.length_toList, hcs, List.length_cons]
    have hbytes : width before + op.utf8ByteSize = width (before ++ [c] ++ cs) := by
      rw [← width_toList, hcs, ← width_append, List.append_assoc]
      rfl
    have htext' : source.toList = (before ++ [c]) ++ (cs ++ rest) := by
      rw [htext, ← hrest, List.append_assoc]
      rfl
    have hpass := advanceBy_of_text halone htext' (.punct c) (width before) wrapped
    rw [hafter]
    simp only [hlength, hbytes, hcs, elim_getLast?_cons]
    rcases hnext : (Cursor.startingAt source (width (before ++ [c] ++ cs))).next with ⟨e | t, k⟩
    · rw [hnext] at hpass
      exact bind_of_error hpass
    · rw [hnext] at hpass
      exact bind_of_ok hpass

end Scanner

/-! ## Parsers and scanners in step -/

namespace Parser

/-- The parser has left what comes after `n` results, and the cursor of the scanner is past
    as many. Both have the same current token, and have wrapped as many expressions. -/
structure InStep (source : String) (n : Nat) (p : Parser) (r : Scanner) : Prop where
  rest : p.rest = (Lexer.ofText source).items.drop n
  cur : r.cur = p.cur
  cursor : r.cursor = Cursor.after source n
  wrapped : r.wrapped = p.wrapped
  /-- Every token but the one to start with was read from the text. -/
  start : n = 0 → p.cur = .terminator
  /-- The end of input is the current token from when it was read. -/
  ended : p.cur = .eof ↔ (Lexer.ofText source).items.length < n

/-- Both succeed with the same value or fail with the same error, and are in step again. -/
inductive Agree (source : String) {α : Type} :
    EStateM.Result ReadError Parser α → EStateM.Result ReadError Scanner α → Prop
  | ok {n : Nat} {p : Parser} {r : Scanner} (a : α) : InStep source n p r → Agree source (.ok a p) (.ok a r)
  | error {n : Nat} {p : Parser} {r : Scanner} (e : ReadError) :
      InStep source n p r → Agree source (.error e p) (.error e r)

variable {α β : Type} {source : String} {n : Nat} {p : Parser} {r : Scanner}

theorem Agree.bind {x : Parse α} {y : Scanner.Scan α} {f : α → Parse β} {g : α → Scanner.Scan β}
    (h : Agree source (x p) (y r)) (hf : ∀ a n q s, InStep source n q s → Agree source (f a q) (g a s)) :
    Agree source ((x >>= f) p) ((y >>= g) r) := by
  generalize hx : x p = a at h
  generalize hy : y r = b at h
  cases h with
  | ok a hstep =>
    rw [bind_of_ok hx, bind_of_ok hy]
    exact hf _ _ _ _ hstep
  | error e hstep =>
    rw [bind_of_error hx, bind_of_error hy]
    exact .error e hstep

theorem InStep.eq (h : InStep source n p r) : r = ⟨p.cur, Cursor.after source n, p.wrapped⟩ := by
  obtain ⟨cur, cursor, wrapped⟩ := r
  cases h.cur
  cases h.cursor
  cases h.wrapped
  rfl

/-- To pass a token is to read one result. -/
theorem InStep.advance (h : InStep source n p r) : Agree source (Parser.advance p) (Parser.advance r) := by
  have hended := h.ended
  have hstart : ∀ t : Token, n + 1 = 0 → t = .terminator := fun _ hn => absurd hn (Nat.succ_ne_zero n)
  obtain ⟨cur, rest, wrapped⟩ := p
  obtain rfl : rest = _ := h.rest
  rw [h.eq, Scanner.advance_run, Cursor.next_after]
  by_cases hn : n < (Lexer.ofText source).items.length
  · obtain ⟨hne, hitem⟩ := Lexer.getElem?_items hn
    have hlater : ¬(Lexer.ofText source).items.length < n + 1 := Nat.not_lt.mpr hn
    rw [List.drop_eq_getElem_cons hn, (List.getElem?_eq_some_iff.mp hitem).2]
    rcases hresult : (Lexer.ofText source).result n with e | t
    · exact .error _ ⟨rfl, rfl, rfl, rfl, hstart _, iff_of_false (mt hended.mp (Nat.lt_asymm hn)) hlater⟩
    · exact .ok _ ⟨rfl, rfl, rfl, rfl, hstart _, iff_of_false (fun heof => hne (heof ▸ hresult)) hlater⟩
  · have hle : (Lexer.ofText source).items.length ≤ n := Nat.le_of_not_lt hn
    rw [List.drop_eq_nil_of_le hle, Lexer.result_of_length_le hle]
    exact .ok _ ⟨(List.drop_eq_nil_of_le (Nat.le_succ_of_le hle)).symm, rfl, rfl, rfl, hstart _,
      iff_of_true rfl (Nat.lt_succ_of_le hle)⟩

/-- Past the first result, what the items have without a gap is what the lexer has. -/
theorem glued_items_drop (source : String) (m n : Nat) :
    glued m ((Lexer.ofText source).items.drop (n + 1)) = ((Lexer.ofText source).after (n + 1)).glued m := by
  by_cases hn : n + 1 ≤ (Lexer.ofText source).items.length
  · rw [Lexer.items_drop hn]
    exact Lexer.glued_scan_rest m _
  · have hle : (Lexer.ofText source).items.length ≤ n := by omega
    have hrest : ((Lexer.ofText source).after (n + 1)).rest = [] := Lexer.rest_of_eof (Lexer.result_of_length_le hle)
    rw [List.drop_eq_nil_of_le (Nat.le_succ_of_le hle), Lexer.glued_eq, hrest]
    cases m <;> rfl

theorem InStep.operator?_eq (h : InStep source n p r) :
    p.operator? = ((Lexer.ofText source).after n).operator? p.cur := by
  cases n with
  | zero =>
    -- nothing was read yet, and a terminator begins no operator
    rw [Parser.operator?, h.start rfl]
    rfl
  | succ n =>
    unfold Parser.operator? Lexer.operator?
    rw [h.rest]
    cases p.cur with
    | punct c => exact congrArg (fun cs => Operator.longest? (c :: cs)) (glued_items_drop source _ n)
    | _ => rfl

theorem InStep.operator? (h : InStep source n p r) : Scanner.operator? r = .ok p.operator? r := by
  rw [h.operator?_eq, h.eq]
  exact Scanner.operator?_after source n p.cur p.wrapped

theorem closed_agree (source : String) : Closed fun α (x : Parse α) (y : Scanner.Scan α) =>
    ∀ {n p r}, InStep source n p r → Agree source (x p) (y r) where
  pure a _ _ _ h := .ok a h
  fail e _ _ _ h := .error (.grammar e) h
  bind hx hf _ _ _ h := (hx h).bind fun a _ _ _ hstep => hf a hstep
  current {n p r} h := by
    have hcur : Parser.current r = .ok p.cur r := congrArg (EStateM.Result.ok · r) h.cur
    rw [hcur]
    exact .ok p.cur h
  advance h := h.advance
  operator? {n p r} h := by
    have hlook : (TokenSource.operator? : Scanner.Scan _) r = .ok p.operator? r := h.operator?
    rw [hlook]
    exact .ok p.operator? h

theorem InStep.takeOperator (h : InStep source n p r) :
    Agree source (Parser.takeOperator p) (Parser.takeOperator r) := (closed_agree source).takeOperator h

/-- Wherever a parser was brought to, there is a scanner in step with it. -/
theorem On.inStep (h : p.On source) :
    InStep source (p.used source) p ⟨p.cur, Cursor.after source (p.used source), p.wrapped⟩ := by
  by_cases hcur : p.cur = .eof
  · have hused : p.used source = (Lexer.ofText source).items.length + 1 := by
      rw [used, h.eof hcur, if_pos hcur]
      rfl
    refine ⟨?_, rfl, rfl, rfl, h.start, iff_of_true hcur (hused ▸ Nat.lt_succ_self _)⟩
    rw [h.eof hcur, hused, List.drop_eq_nil_of_le (Nat.le_succ _)]
  · have hused : p.used source = (Lexer.ofText source).items.length - p.rest.length := by
      rw [used, if_neg hcur]
      rfl
    refine ⟨?_, rfl, rfl, rfl, h.start, iff_of_false hcur (hused ▸ Nat.not_lt.mpr (Nat.sub_le _ _))⟩
    rw [hused]
    exact List.suffix_iff_eq_drop.mp h.rest

theorem Reachable.current (h : Reachable source p) : p.Current source := by
  induction h with
  | refl => rw [Current, token?, used_ofText]; rfl
  | tail hp huse ih =>
    rcases huse.cases with hreaches | ⟨ops, d, hwrapper⟩
    · exact (Reachable.on hp).current_reaches hreaches ih
    · exact (wrapper_passes hwrapper).current (Reachable.on hp) ih

/-- However a parser was used: if what it used up last is a token, that is its current token,
    and there is a scanner in step with it. -/
theorem Reachable.inStep (h : Reachable source p) (hused : p.used source = n + 1)
    (htoken : p.token? source = some n) :
    InStep source (n + 1) p ⟨p.cur, Cursor.after source (n + 1), p.wrapped⟩ ∧
      (Lexer.ofText source).result n = .ok p.cur := by
  have hstep := h.on.inStep
  have hcurrent := h.current
  rw [hused] at hstep
  rw [Current, htoken] at hcurrent
  exact ⟨hstep, hcurrent⟩

/-- Where the current token is what the lexer gave last: to look for an operator changes
    neither the current token nor the two positions of the lexer, with any precedences. What is
    found is the longest spelling that the punctuation from the current token on begins with,
    or nothing. To take it gives the same; the current token and the lexer are then what a
    lexer that begins at the byte past the spelling makes of them. It fails only if that lexer
    does, and the last character of the spelling is the current token then. -/
theorem operator_maximal (h : InStep source (n + 1) p r) (hcur : (Lexer.ofText source).result n = .ok p.cur) :
    (Scanner.operator? r = .ok p.operator? r ∧ ∀ ops, nextPrecedence? ops r = .ok (p.precedence? ops) r) ∧
    (∃ run, Cursor.MaximalRun source r.cursor.start run ∧ (∀ c, p.cur = .punct c ↔ run.head? = some c) ∧
      Operator.IsLongest run p.operator?) ∧
    Agree source (takeOperator p) (takeOperator r) ∧
    takeOperator r =
      match p.operator? with
      | none => .ok none r
      | some op =>
        match (Cursor.startingAt source (r.cursor.start + op.utf8ByteSize)).next with
        | (.ok t, k) => .ok (some op) ⟨t, k, r.wrapped⟩
        | (.error e, k) => .error (.lexical e) ⟨op.toList.getLast?.elim p.cur .punct, k, r.wrapped⟩ := by
  refine ⟨⟨h.operator?, fun ops => bind_of_ok h.operator?⟩, ?_, h.takeOperator, ?_⟩
  · obtain ⟨before, htext, hstart⟩ := Lexer.exists_body source n
    have hbyte : r.cursor.start = width before := by
      rw [h.cursor]
      exact hstart
    rw [hbyte]
    refine ⟨_, Cursor.maximalRun_take htext, fun c => ?_, ?_⟩
    · rw [List.head?_take, if_neg (by decide), Lexer.head?_body_iff]
      show _ ↔ (Lexer.ofText source).result n = _
      rw [hcur, Except.ok.injEq]
    · rw [h.operator?_eq, show (Lexer.ofText source).after (n + 1) = ((Lexer.ofText source).after n).next.2 from rfl,
        Lexer.operator?_next hcur]
      exact Operator.isLongest_longest? _
  · rw [h.operator?_eq, h.eq]
    exact Scanner.takeOperator_after hcur p.wrapped

/-! An operator of three characters past one of two bytes, before a literal that cannot be read. -/

def malformedOperand : String := "é<<=1.2.3"

theorem operator_maximal_malformedOperand :
    let r : Scanner := ⟨.punct '<', ⟨malformedOperand, 2, 3⟩, 0⟩
    ∃ p, Reachable malformedOperand p ∧ InStep malformedOperand 2 p r ∧
      (Lexer.ofText malformedOperand).result 1 = .ok p.cur ∧ Scanner.operator? r = .ok (some "<<=") r ∧
      (∃ run, Cursor.MaximalRun malformedOperand 2 run ∧ Operator.IsLongest run (some "<<=")) ∧
      Agree malformedOperand (takeOperator p) (takeOperator r) ∧
      takeOperator r =
        .error (.lexical (.malformedNumber "1.2.3")) ⟨.punct '=', ⟨malformedOperand, 5, 10⟩, 0⟩ := by
  intro r
  let p := left (advance (left (advance (ofText malformedOperand))))
  have hp : Reachable malformedOperand p := (Relation.ReflTransGen.single .advance).tail .advance
  have hop : p.operator? = some "<<=" := by decide +kernel
  have hr : (⟨p.cur, Cursor.after malformedOperand 2, p.wrapped⟩ : Scanner) = r := by decide +kernel
  obtain ⟨hstep, hresult⟩ := hp.inStep (n := 1) (by decide +kernel) (by decide +kernel)
  rw [hr] at hstep
  obtain ⟨⟨hlook, -⟩, ⟨run, hrun, -, hlongest⟩, hagree, htake⟩ := operator_maximal hstep hresult
  have hnext : (Cursor.startingAt malformedOperand 5).next =
      (.error (.malformedNumber "1.2.3"), ⟨malformedOperand, 5, 10⟩) := by decide +kernel
  rw [hop] at hlook hlongest htake
  have hstart : r.cursor.start + "<<=".utf8ByteSize = 5 := by decide +kernel
  simp only [hstart, hnext] at htake
  exact ⟨p, hp, hstep, hresult, hlook, ⟨run, hrun, hlongest⟩, hagree, htake⟩

/-- A literal that cannot be read was passed, and the current token is not what the lexer gave
    last: what goes on without a gap is what comes after the literal. -/
example : (left (advance (left (advance (ofText "<1.2.3="))))).operator? = some "<=" := by decide +kernel

end Parser

end Kaleidoscope
