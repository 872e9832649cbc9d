/-
  Kaleidoscope.Proofs.Position — where in its text a parser stands.

  A parser has the items that are left of its text, and no position. But items are what the
  lexer gives, one result after the other, from wherever it has come to: `Lexer.after` is
  the lexer after a number of results, and `items_drop` says that what is left after so
  many items is what is read from there. So a parser that was brought to where it is by
  passing tokens (`On`) stands where the lexer is after as many results as were used up
  (`Parser.lexer`), and to pass a token is to read one result there (`On.lexer_advance`).
  Past the end of input the lexer stays where it is. To look for an operator is to read on
  from there for as long as the bytes adjoin, and to come back (`On.operator?_lexer`); that is
  for as long as characters stand alone (`Lexer.glued_eq`).
-/

import Kaleidoscope.Proofs.Reading
import Kaleidoscope.Proofs.Scanning

namespace Kaleidoscope

namespace Source

/-! ## Bytes -/

@[simp] theorem width_nil : width [] = 0 := rfl

theorem width_append (cs ds : List Char) : width (cs ++ ds) = width cs + width ds := by
  have h : ∀ (cs : List Char) n, cs.foldl (fun n c => n + c.utf8Size) n = n + width cs := by
    intro cs
    induction cs with
    | nil => intro n; rfl
    | cons c cs ih =>
      intro n
      rw [width, List.foldl_cons, List.foldl_cons, ih, ih]
      omega
  rw [width, List.foldl_append, h ds]
  rfl

theorem width_cons (c : Char) (cs : List Char) : width (c :: cs) = c.utf8Size + width cs := by
  have happend := width_append [c] cs
  rwa [List.singleton_append, show width [c] = c.utf8Size by simp [width]] at happend

theorem width_concat (cs : List Char) (c : Char) : width (cs ++ [c]) = width cs + c.utf8Size := by
  rw [width_append, width_cons, width_nil, Nat.add_zero]

theorem width_toList (s : String) : width s.toList = s.utf8ByteSize := by
  have h : ∀ cs, width cs = (String.ofList cs).utf8ByteSize := by
    intro cs
    induction cs with
    | nil => rfl
    | cons c cs ih =>
      have hsplit : String.ofList (c :: cs) = String.singleton c ++ String.ofList cs := by
        rw [String.singleton_eq_ofList, ← String.ofList_append]
        rfl
      rw [hsplit, String.utf8ByteSize_append, String.utf8ByteSize_singleton, ← ih, width_cons]
  rw [h, String.ofList_toList]

theorem dropBytes?_width (cs ds : List Char) : Prototype.dropBytes? (width cs) (cs ++ ds) = some ds := by
  induction cs with
  | nil => cases ds <;> rfl
  | cons c cs ih =>
    have hwidth := width_cons c cs
    have hpos := c.utf8Size_pos
    obtain ⟨n, hn⟩ : ∃ n, width (c :: cs) = n + 1 := ⟨width (c :: cs) - 1, by omega⟩
    rw [hn, List.cons_append, Prototype.dropBytes?, if_pos (by omega), show n + 1 - c.utf8Size = width cs by omega, ih]

/-! ## Results one after the other -/

theorem Lexeme.reading_eof {lexeme : Lexeme} {last : Bool} (h : lexeme.reading last = .ok .eof) :
    last = true ∨ lexeme = .finish := by
  cases lexeme with
  | word cs =>
    simp only [reading] at h
    split at h <;> cases h
  | digits cs =>
    simp only [reading] at h
    split at h <;> cases h
  | quoted cs closed => cases closed <;> cases h
  | punct c =>
    cases last with
    | true => exact .inl rfl
    | false =>
      simp only [reading] at h
      split at h <;> cases h
  | finish => exact .inr rfl

theorem splitLexeme_finish {cs : List Char} (h : (splitLexeme cs).1 = .finish) : (splitLexeme cs).2 = [] := by
  unfold splitLexeme at h ⊢
  split at h
  · rfl
  · split at h
    · cases h
    · split at h
      · cases h
      · split at h
        · split at h <;> cases h
        · cases h

namespace Lexer

/-- The lexer after `n` results. -/
def after (l : Lexer) : Nat → Lexer
  | 0 => l
  | n + 1 => (l.after n).next.2

/-- The result after the first `n`. -/
def result (l : Lexer) (n : Nat) : Reading := (l.after n).next.1

/-- Whether that result begins where the one before it ended. -/
def adjoins (l : Lexer) (n : Nat) : Bool := (l.after n).next.2.start == (l.after n).stop

variable {l : Lexer}

theorem rest_next (l : Lexer) :
    l.rest = (splitTrivia l.rest).1 ++ ((splitLexeme (splitTrivia l.rest).2).1.spelling ++ l.next.2.rest) := by
  have hlexeme := splitLexeme_append (splitTrivia l.rest).2
  have htrivia := splitTrivia_append l.rest
  rw [← hlexeme] at htrivia
  exact htrivia.symm

theorem width_next (h : l.next.1 ≠ .ok .eof) : width l.next.2.rest < width l.rest := by
  have hlength : l.next.2.rest.length < l.rest.length := @length_first l.rest h
  have hrest := rest_next l
  rw [← List.append_assoc] at hrest
  generalize (splitTrivia l.rest).1 ++ (splitLexeme (splitTrivia l.rest).2).1.spelling = taken at hrest
  have htaken : width taken ≠ 0 := by
    rw [Ne, width_eq_zero]
    rintro rfl
    rw [List.nil_append] at hrest
    rw [← hrest] at hlength
    exact Nat.lt_irrefl _ hlength
  have hwidth := congrArg width hrest
  rw [width_append] at hwidth
  omega

/-- The end of input is read only where nothing is left. -/
theorem rest_of_eof (h : l.next.1 = .ok .eof) : l.next.2.rest = [] := by
  have hread : (splitLexeme (splitTrivia l.rest).2).1.reading (splitLexeme (splitTrivia l.rest).2).2.isEmpty =
      .ok .eof := h
  show (splitLexeme (splitTrivia l.rest).2).2 = []
  rcases Lexeme.reading_eof hread with hlast | hfinish
  · exact List.isEmpty_iff.mp hlast
  · exact splitLexeme_finish hfinish

theorem next_of_nil (h : l.rest = []) : l.next = (.ok .eof, { rest := [], start := l.stop, stop := l.stop }) := by
  simp only [next, h]
  rfl

theorem isEmpty_trivia (l : Lexer) : (splitTrivia l.rest).1.isEmpty = (l.next.2.start == l.stop) := by
  show _ = (l.stop + width (splitTrivia l.rest).1 == l.stop)
  cases htrivia : (splitTrivia l.rest).1 with
  | nil => simp
  | cons c cs =>
    have hwidth : width (c :: cs) ≠ 0 := by simp [width_eq_zero]
    simp [hwidth]

/-- What is read from where the lexer is: nothing at the end of input, and otherwise an item
    and what is read after it. -/
theorem scan_rest (b : Bool) (l : Lexer) :
    l.next.1 = .ok .eof ∧ scan b l.rest = [] ∨
    l.next.1 ≠ .ok .eof ∧ scan b l.rest = ⟨l.next.1, b && l.next.2.start == l.stop⟩ :: scan true l.next.2.rest := by
  by_cases h : l.next.1 = .ok .eof
  · exact .inl ⟨h, scanWithin_eof h⟩
  · refine .inr ⟨h, ?_⟩
    rw [scan_cons h, isEmpty_trivia]
    rfl

/-- What is left after `n` items is what is read after `n` results. -/
theorem items_drop {source : String} {n : Nat} (hn : n ≤ (ofText source).items.length) :
    (ofText source).items.drop n = scan (n != 0) ((ofText source).after n).rest := by
  induction n with
  | zero => exact items_eq_scan source
  | succ n ih =>
    have hdrop := ih (Nat.le_of_succ_le hn)
    have hne : (ofText source).items.drop n ≠ [] := by
      rw [Ne, List.drop_eq_nil_iff]
      omega
    rcases scan_rest (n != 0) ((ofText source).after n) with ⟨-, hnil⟩ | ⟨-, hcons⟩
    · exact absurd (hdrop.trans hnil) hne
    · rw [← List.tail_drop, hdrop, hcons]
      rfl

/-- The punctuation from where the lexer is, each character beginning where the one before
    it ended, `n` characters at most. -/
def glued (l : Lexer) : Nat → List Char
  | 0 => []
  | n + 1 =>
    match l.next with
    | (.ok (.punct c), l') => if l'.start = l.stop then c :: l'.glued n else []
    | _ => []

/-- The operator that begins with `cur`, which the lexer has read last, and goes on where the
    lexer is. -/
def operator? (l : Lexer) (cur : Token) : Option String :=
  match cur with
  | .punct c => Operator.longest? (c :: l.glued (Operator.longestLength - 1))
  | _ => none

theorem glued_scan_rest (n : Nat) (l : Lexer) : Parser.glued n (scan true l.rest) = l.glued n := by
  induction n generalizing l with
  | zero => rfl
  | succ n ih =>
    have hscan := scan_rest true l
    rw [glued]
    generalize l.next = x at hscan ⊢
    obtain ⟨reading, l'⟩ := x
    rcases hscan with ⟨heof, hnil⟩ | ⟨-, hcons⟩
    · cases heof
      rw [hnil]
      rfl
    · rw [hcons, Bool.true_and]
      rcases reading with e | t
      · rfl
      · cases t with
        | punct c =>
          by_cases hstart : l'.start = l.stop
          · simp only [hstart, beq_self_eq_true, Parser.glued, ih, if_true]
          · simp only [beq_eq_false_iff_ne.mpr hstart, Parser.glued, if_neg hstart]
        | _ => rfl

/-- A character that stands alone is read where the lexer is, and nothing but it. -/
theorem next_of_standsAlone {c : Char} {cs : List Char} (hc : standsAlone c = true) (hrest : l.rest = c :: cs) :
    l.next = (.ok (.punct c), { rest := cs, start := l.stop, stop := l.stop + c.utf8Size }) := by
  simp [next, hrest, splitTrivia_solid (isSolid_of_standsAlone hc), splitLexeme_of_standsAlone hc, Lexeme.reading,
    ne_semicolon_of_standsAlone hc, Lexeme.spelling, width]

/-- Punctuation is a character that stands alone, past what is skipped. -/
theorem next_punct_iff {c : Char} :
    l.next.1 = .ok (.punct c) ↔ standsAlone c = true ∧ (splitTrivia l.rest).2 = c :: l.next.2.rest := by
  constructor
  · intro hnext
    have hlexeme : (splitLexeme (splitTrivia l.rest).2).1 = .punct c := (Lexeme.reading_punct hnext).1
    have happend := splitLexeme_append (splitTrivia l.rest).2
    rw [hlexeme] at happend
    exact ⟨standsAlone_of_next hnext, happend.symm⟩
  · rintro ⟨hc, hbody⟩
    have hlexeme : splitLexeme (splitTrivia l.rest).2 = (.punct c, l.next.2.rest) := by
      rw [hbody, splitLexeme_of_standsAlone hc]
    show (splitLexeme (splitTrivia l.rest).2).1.reading _ = _
    rw [hlexeme, Lexeme.reading, if_neg (ne_semicolon_of_standsAlone hc)]

/-- Punctuation that begins where the lexer is is the character there. -/
theorem rest_of_adjoining {c : Char} (hnext : l.next.1 = .ok (.punct c)) (hstart : l.next.2.start = l.stop) :
    standsAlone c = true ∧ l.rest = c :: l.next.2.rest := by
  obtain ⟨hc, hbody⟩ := next_punct_iff.mp hnext
  have hskip : (splitTrivia l.rest).1 = [] := by
    rw [← List.isEmpty_iff, isEmpty_trivia]
    exact beq_iff_eq.mpr hstart
  have happend := splitTrivia_append l.rest
  rw [hskip, hbody] at happend
  exact ⟨hc, happend.symm⟩

/-- Without a gap, the lexer goes on for as long as characters stand alone. -/
theorem glued_eq (n : Nat) (l : Lexer) : l.glued n = (l.rest.takeWhile standsAlone).take n := by
  induction n generalizing l with
  | zero => rfl
  | succ n ih =>
    cases hrest : l.rest with
    | nil =>
      rw [glued, next_of_nil hrest]
      rfl
    | cons c cs =>
      by_cases hc : standsAlone c = true
      · rw [glued, next_of_standsAlone hc hrest, List.takeWhile_cons_of_pos hc, List.take_succ_cons]
        simp only [if_true, ih]
      · rw [glued, List.takeWhile_cons_of_neg hc, List.take_nil]
        split
        · rename_i d l' hnext
          have hl' : l.next.2 = l' := congrArg Prod.snd hnext
          refine if_neg fun hstart => hc ?_
          obtain ⟨hd, hhead⟩ := rest_of_adjoining (congrArg Prod.fst hnext) (hl' ▸ hstart)
          rw [hrest] at hhead
          exact List.head_eq_of_cons_eq hhead ▸ hd
        · rfl

theorem result_of_items_nil {source : String} : (ofText source).result (ofText source).items.length = .ok .eof := by
  have hdrop := items_drop (Nat.le_refl (ofText source).items.length)
  rw [List.drop_length] at hdrop
  rcases scan_rest ((ofText source).items.length != 0) ((ofText source).after (ofText source).items.length) with
    ⟨heof, -⟩ | ⟨-, hcons⟩
  · exact heof
  · cases hdrop.trans hcons

end Lexer

end Source

namespace Parser

open Source

variable {source : String} {p q : Parser}

/-! ## Parsers on a text -/

/-- How many results of the lexer the parser has used up, the end of input being one. -/
def used (source : String) (p : Parser) : Nat :=
  (Lexer.ofText source).items.length - p.rest.length + if p.cur = .eof then 1 else 0

/-- The lexer that has just given the last of them. -/
def lexer (source : String) (p : Parser) : Lexer := (Lexer.ofText source).after (p.used source)

/-- The parser was brought from the start of the text to where it is by passing tokens. -/
structure On (source : String) (p : Parser) : Prop where
  rest : p.rest <:+ (Lexer.ofText source).items
  /-- Nothing is left at the end of input. -/
  eof : p.cur = .eof → p.rest = []
  /-- Every token but the one to start with was read from the text. -/
  start : p.used source = 0 → p.cur = .terminator

theorem on_ofText (source : String) : (ofText source).On source :=
  ⟨List.suffix_refl _, Token.noConfusion, fun _ => rfl⟩

/-- The end of input is not among the items. -/
theorem ne_eof_of_mem_items {i : Item} (h : i ∈ (Lexer.ofText source).items) : i.reading ≠ .ok .eof := by
  obtain ⟨n, hn⟩ := List.mem_iff_getElem?.mp h
  have hlt : n < (Lexer.ofText source).items.length := (List.getElem?_eq_some_iff.mp hn).1
  have hdrop := Lexer.items_drop (Nat.le_of_lt hlt)
  have hhead : ((Lexer.ofText source).items.drop n).head? = some i := by rw [List.head?_drop, hn]
  rw [hdrop] at hhead
  rcases Lexer.scan_rest (n != 0) ((Lexer.ofText source).after n) with ⟨-, hnil⟩ | ⟨hne, hcons⟩
  · rw [hnil] at hhead
    cases hhead
  · rw [hcons] at hhead
    cases hhead
    exact hne

theorem On.used_advance (h : p.On source) (hcur : p.cur ≠ .eof) :
    (left (Parser.advance p)).used source = p.used source + 1 := by
  have hlength := h.rest.length_le
  obtain ⟨cur, rest, wrapped⟩ := p
  cases rest with
  | nil => simp [used, left, advance_run, hcur]
  | cons i rest =>
    have hne := ne_eof_of_mem_items (h.rest.subset (List.mem_cons_self (a := i)))
    have hpassed : ∀ t, t ≠ .eof → used source ⟨t, rest, wrapped⟩ = used source ⟨cur, i :: rest, wrapped⟩ + 1 := by
      intro t ht
      simp only [used, ht, hcur, if_false, List.length_cons] at hlength ⊢
      omega
    obtain ⟨reading, adjoins⟩ := i
    cases reading with
    | ok t => exact hpassed t fun ht => hne (congrArg Except.ok ht)
    | error e => exact hpassed cur hcur

theorem On.advance_of_eof (h : p.On source) (hcur : p.cur = .eof) : left (Parser.advance p) = p := by
  have hrest := h.eof hcur
  obtain ⟨cur, rest, wrapped⟩ := p
  cases hcur
  cases hrest
  rfl

theorem On.advance (h : p.On source) : (left (Parser.advance p)).On source := by
  by_cases hcur : p.cur = .eof
  · rw [h.advance_of_eof hcur]
    exact h
  · have hused := h.used_advance hcur
    refine ⟨?_, fun heof => ?_, fun hzero => ?_⟩
    · obtain ⟨cur, rest, wrapped⟩ := p
      cases rest with
      | nil => exact h.rest
      | cons i rest =>
        have hsuffix : rest <:+ (Lexer.ofText source).items := (List.suffix_cons i rest).trans h.rest
        obtain ⟨reading | reading, adjoins⟩ := i
        · exact hsuffix
        · exact hsuffix
    · obtain ⟨cur, rest, wrapped⟩ := p
      cases rest with
      | nil => rfl
      | cons i rest =>
        have hne := ne_eof_of_mem_items (h.rest.subset (List.mem_cons_self (a := i)))
        obtain ⟨reading | reading, adjoins⟩ := i
        · exact absurd heof hcur
        · exact absurd (congrArg Except.ok heof) hne
    · rw [hused] at hzero
      cases hzero

theorem On.reaches (h : p.On source) (hq : Reaches p q) : q.On source := by
  induction hq with
  | refl => exact h
  | tail _ hstep ih =>
    subst hstep
    exact ih.advance

/-! ## Where the lexer is -/

/-- To pass a token is to read one result where the lexer is. -/
theorem On.lexer_advance (h : p.On source) (hcur : p.cur ≠ .eof) :
    (left (Parser.advance p)).lexer source = (p.lexer source).next.2 := by
  rw [lexer, h.used_advance hcur]
  rfl

/-- The lexer reads from there what the parser has left. -/
theorem On.scan_lexer (h : p.On source) (hcur : p.cur ≠ .eof) :
    p.rest = scan (p.used source != 0) (p.lexer source).rest := by
  have hused : p.used source = (Lexer.ofText source).items.length - p.rest.length := by
    rw [used, if_neg hcur, Nat.add_zero]
  rw [lexer, hused, ← Lexer.items_drop (Nat.sub_le _ _)]
  exact List.suffix_iff_eq_drop.mp h.rest

/-- The operator at the current token is the one that the lexer finds there. -/
theorem On.operator?_lexer (h : p.On source) : p.operator? = (p.lexer source).operator? p.cur := by
  unfold Parser.operator? Lexer.operator?
  cases hcur : p.cur with
  | punct c =>
    have hused : p.used source ≠ 0 := by
      intro hzero
      rw [h.start hzero] at hcur
      cases hcur
    have hscan := h.scan_lexer (by rw [hcur]; exact Token.noConfusion)
    rw [bne_iff_ne.mpr hused] at hscan
    simp only [hscan, Lexer.glued_scan_rest]
  | _ => rfl

end Parser

end Kaleidoscope
