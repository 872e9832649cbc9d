/-
  Kaleidoscope.Proofs.Members — what `;` separates in a block.

  Texts that are expressions by themselves are put into a block, a terminator after each:
  `blockText`. The block should be read as those expressions, and it is not always.
  - A member that is a conditional or a loop is taken to have passed the terminator after
    it, and any other member not to have done so. But whether the terminator is passed does
    not show in the expression: it is not by a conditional in parentheses, and it is by one
    that ends an operation or an initial value.
  - An operator with a precedence, behind a terminator that was passed, goes on with the
    member before it.
  - `}` is an operator before an operand, and it ends a block.
  `block_members`: the block is read as the members exactly if none of this happens, which
  is `Separable`.

  The way there: a text without comments that ends neither in `;` nor in the middle of a
  literal has the same items before a space as at its end (`scan_append`); what such a text
  does as a member is said by `expression_carried` and `expression_ne` (`Member`); then one
  member after the other, from left to right (`members_read`, `separable_of_members`).
-/

import Mathlib.Data.List.Chain
import Kaleidoscope.Proofs.Continuation
import Kaleidoscope.Proofs.Spelling

namespace Kaleidoscope

open Source

namespace Source

/-! ## Texts before a space -/

/-- Without comments, and without a terminator as the last character. -/
def isPlain (cs : List Char) : Bool := !cs.contains '#' && cs.getLast? != some ';'

theorem isPlain_iff {cs : List Char} : isPlain cs = true ↔ '#' ∉ cs ∧ cs.getLast? ≠ some ';' := by
  simp [isPlain]

theorem isPlain_of_suffix {cs ds : List Char} (h : isPlain cs = true) (hsuffix : ds <:+ cs) : isPlain ds = true := by
  obtain ⟨hsign, hlast⟩ := isPlain_iff.mp h
  refine isPlain_iff.mpr ⟨fun hd => hsign (hsuffix.subset hd), fun hd => ?_⟩
  obtain ⟨es, rfl⟩ := hsuffix
  rw [List.getLast?_append, hd, Option.some_or] at hlast
  exact hlast rfl

theorem scan_blank {c : Char} (hc : isBlank c = true) (adjoins : Bool) (cs : List Char) :
    scan adjoins (c :: cs) = scan false cs := by
  have hfirst : first (c :: cs) = first cs := first_spacer (.blank c hc) cs
  have htrivia : (splitTrivia (c :: cs)).1.isEmpty = false := by simp [splitTrivia, splitTriviaFrom, hc]
  by_cases h : (first cs).1 = .ok .eof
  · rw [scan, scan, scanWithin_eof h, scanWithin_eof (hfirst ▸ h)]
  · rw [scan_cons h, scan_cons (hfirst ▸ h), hfirst, htrivia]
    simp

/-- Without comments, what is skipped is blank. -/
theorem splitTrivia_cons {c : Char} (hc : c ≠ '#') (cs : List Char) :
    splitTrivia (c :: cs) = if isBlank c then (c :: (splitTrivia cs).1, (splitTrivia cs).2) else ([], c :: cs) := by
  have hsign : (c == '#') = false := by simpa using hc
  rw [splitTrivia, splitTriviaFrom]
  simp only [hsign, Bool.false_or, Bool.or_false, splitTrivia]
  rfl

theorem scan_of_blank {cs : List Char} (hsign : '#' ∉ cs) (h : (splitTrivia cs).2 = []) (adjoins : Bool)
    (rest : List Char) : scan adjoins (cs ++ ' ' :: rest) = scan false rest := by
  induction cs generalizing adjoins with
  | nil => exact scan_space adjoins rest
  | cons c cs ih =>
    obtain ⟨hc, hcs⟩ : c ≠ '#' ∧ '#' ∉ cs := by simpa [eq_comm] using hsign
    rw [splitTrivia_cons hc] at h
    split at h
    · rename_i hblank
      rw [List.cons_append, scan_blank hblank]
      exact ih hcs h false
    · cases h

theorem splitTrivia_append_of_solid {cs ds : List Char} {c : Char} (hsign : '#' ∉ cs) (h : (splitTrivia cs).2 = c :: ds)
    (rest : List Char) : splitTrivia (cs ++ rest) = ((splitTrivia cs).1, c :: ds ++ rest) := by
  induction cs with
  | nil => cases h
  | cons d cs ih =>
    obtain ⟨hd, hcs⟩ : d ≠ '#' ∧ '#' ∉ cs := by simpa [eq_comm] using hsign
    rw [splitTrivia_cons hd] at h
    rw [List.cons_append, splitTrivia_cons hd, splitTrivia_cons hd]
    split at h
    · rename_i hblank
      rw [if_pos hblank, if_pos hblank, ih hcs h]
    · rename_i hblank
      rw [if_neg hblank, if_neg hblank, ← h]
      rfl

theorem takeWhile_append_stop {p : Char → Bool} {d : Char} (hd : p d = false) (cs rest : List Char) :
    (cs ++ d :: rest).takeWhile p = cs.takeWhile p ∧ (cs ++ d :: rest).dropWhile p = cs.dropWhile p ++ d :: rest := by
  induction cs with
  | nil => simp [hd]
  | cons c cs ih =>
    cases hc : p c with
    | true => simp [hc, ih]
    | false => simp [hc]

theorem takeWhile_append_of_rest {p : Char → Bool} {cs : List Char} (h : cs.dropWhile p ≠ []) (rest : List Char) :
    (cs ++ rest).takeWhile p = cs.takeWhile p ∧ (cs ++ rest).dropWhile p = cs.dropWhile p ++ rest := by
  induction cs with
  | nil => exact absurd rfl h
  | cons c cs ih =>
    cases hc : p c with
    | true => simp [hc, ih (by simpa [hc] using h)]
    | false => simp [hc]

/-- A literal that is closed is not reached by the space. -/
theorem splitLexeme_append_space {c : Char} {cs : List Char} (rest : List Char)
    (h : ∀ ds, (splitLexeme (c :: cs)).1 ≠ .quoted ds false) :
    splitLexeme (c :: cs ++ ' ' :: rest) = ((splitLexeme (c :: cs)).1, (splitLexeme (c :: cs)).2 ++ ' ' :: rest) := by
  rw [List.cons_append]
  by_cases hletter : isLetter c = true
  · obtain ⟨htake, hdrop⟩ := takeWhile_append_stop (p := isWordChar) (d := ' ') (by decide) cs rest
    simp [splitLexeme, hletter, htake, hdrop]
  · by_cases hnum : isNumeric c = true
    · obtain ⟨htake, hdrop⟩ := takeWhile_append_stop (p := isNumeric) (d := ' ') (by decide) cs rest
      simp [splitLexeme, hletter, hnum, htake, hdrop]
    · by_cases hquote : (c == '"') = true
      · cases hclose : cs.dropWhile (· != '"') with
        | nil => simp [splitLexeme, hletter, hnum, hquote, hclose] at h
        | cons d ds =>
          have hne : cs.dropWhile (· != '"') ≠ [] := hclose ▸ List.cons_ne_nil d ds
          obtain ⟨htake, hdrop⟩ := takeWhile_append_of_rest hne (' ' :: rest)
          rw [hclose] at hdrop
          simp [splitLexeme, hletter, hnum, hquote, hclose, hdrop, htake]
      · simp [splitLexeme, hletter, hnum, hquote]

theorem reading_of_ne {lexeme : Lexeme} (h : lexeme ≠ .punct ';') (last last' : Bool) :
    lexeme.reading last = lexeme.reading last' := by
  cases lexeme with
  | punct c =>
    have hc : c ≠ ';' := fun hc => h (congrArg _ hc)
    simp [Lexeme.reading, hc]
  | quoted cs closed => cases closed <;> rfl
  | _ => rfl

theorem reading_eof_cases {lexeme : Lexeme} {last : Bool} (h : lexeme.reading last = .ok .eof) :
    lexeme = .punct ';' ∧ last = true ∨ lexeme = .finish := by
  by_cases hterm : lexeme = .punct ';'
  · subst hterm
    cases last with
    | true => exact .inl ⟨rfl, rfl⟩
    | false => cases h
  · rw [reading_of_ne hterm last false] at h
    exact .inr ((Lexeme.reading_eof h).resolve_left Bool.false_ne_true)

theorem first_suffix (cs : List Char) : (first cs).2 <:+ cs := by
  refine ⟨(splitTrivia cs).1 ++ (splitLexeme (splitTrivia cs).2).1.spelling, ?_⟩
  show _ ++ (splitLexeme (splitTrivia cs).2).2 = cs
  rw [List.append_assoc, splitLexeme_append, splitTrivia_append]

/-- A terminator that nothing follows is the last character. -/
theorem getLast?_of_terminator {cs : List Char} (h : (splitLexeme (splitTrivia cs).2).1 = .punct ';')
    (hrest : (first cs).2 = []) : cs.getLast? = some ';' := by
  have hlexeme := splitLexeme_append (splitTrivia cs).2
  have hnil : (splitLexeme (splitTrivia cs).2).2 = [] := hrest
  rw [h, hnil, Lexeme.spelling, List.append_nil] at hlexeme
  rw [← splitTrivia_append cs, ← hlexeme, List.getLast?_append]
  rfl

/-- The first token of a plain text is the first token before a space too. -/
theorem first_append {cs : List Char} (hplain : isPlain cs = true) {t : Token} (h : (first cs).1 = .ok t) (ht : t ≠ .eof)
    (rest : List Char) :
    first (cs ++ ' ' :: rest) = (.ok t, (first cs).2 ++ ' ' :: rest) ∧
      (splitTrivia (cs ++ ' ' :: rest)).1 = (splitTrivia cs).1 := by
  obtain ⟨hsign, hlast⟩ := isPlain_iff.mp hplain
  cases hbody : (splitTrivia cs).2 with
  | nil =>
    rw [first, hbody] at h
    cases h
    exact absurd rfl ht
  | cons c ds =>
    have htrivia := splitTrivia_append_of_solid hsign hbody (' ' :: rest)
    have hread : (splitLexeme (c :: ds)).1.reading (splitLexeme (c :: ds)).2.isEmpty = .ok t := hbody ▸ h
    have hclosed : ∀ es, (splitLexeme (c :: ds)).1 ≠ .quoted es false := by
      intro es hes
      rw [hes] at hread
      cases hread
    have hsplit := splitLexeme_append_space rest hclosed
    have hsame : (splitLexeme (c :: ds)).1.reading ((splitLexeme (c :: ds)).2 ++ ' ' :: rest).isEmpty = .ok t := by
      by_cases hterm : (splitLexeme (c :: ds)).1 = .punct ';'
      · have hne : (splitLexeme (c :: ds)).2 ≠ [] := fun hnil =>
          hlast (getLast?_of_terminator (hbody.symm ▸ hterm) (by rw [first, hbody]; exact hnil))
        have hempty : (splitLexeme (c :: ds)).2.isEmpty = false := by simpa using hne
        have hempty' : ((splitLexeme (c :: ds)).2 ++ ' ' :: rest).isEmpty = false := by simp
        rw [hempty', ← hempty]
        exact hread
      · rw [reading_of_ne hterm _ (splitLexeme (c :: ds)).2.isEmpty]
        exact hread
    refine ⟨?_, by rw [htrivia]⟩
    simp only [first, htrivia, hsplit, hsame, hbody]

/-- In a plain text the end of input comes after nothing but blanks. -/
theorem splitTrivia_of_eof {cs : List Char} (hplain : isPlain cs = true) (h : (first cs).1 = .ok .eof) :
    (splitTrivia cs).2 = [] := by
  have hlexeme := splitLexeme_append (splitTrivia cs).2
  rcases reading_eof_cases h with ⟨hterm, hempty⟩ | hfinish
  · have hrest : (first cs).2 = [] := List.isEmpty_iff.mp hempty
    exact absurd (getLast?_of_terminator hterm hrest) (isPlain_iff.mp hplain).2
  · rw [splitLexeme_finish hfinish, hfinish] at hlexeme
    exact hlexeme.symm

/-- Before a space a plain text has the items that it has by itself. -/
theorem scan_append {cs : List Char} (hplain : isPlain cs = true) {adjoins : Bool}
    (hok : ∀ i ∈ scan adjoins cs, ∃ t, i.reading = .ok t) (rest : List Char) :
    scan adjoins (cs ++ ' ' :: rest) = scan adjoins cs ++ scan false rest := by
  induction hn : cs.length using Nat.strongRecOn generalizing cs adjoins with
  | ind n ih =>
    by_cases heof : (first cs).1 = .ok .eof
    · have hnil : scan adjoins cs = [] := scanWithin_eof heof
      rw [scan_of_blank (isPlain_iff.mp hplain).1 (splitTrivia_of_eof hplain heof), hnil, List.nil_append]
    · have hscan := scan_cons heof adjoins
      rw [hscan] at hok
      obtain ⟨t, ht⟩ := hok _ (.head _)
      obtain ⟨hfirst, htrivia⟩ := first_append hplain ht (fun h => heof (h ▸ ht)) rest
      have heof' : (first (cs ++ ' ' :: rest)).1 ≠ .ok .eof := by
        rw [hfirst, ← ht]
        exact heof
      have hrest := ih _ (hn ▸ length_first heof) (isPlain_of_suffix hplain (first_suffix cs))
        (fun i hi => hok i (.tail _ hi)) rfl
      rw [scan_cons heof', hscan, hfirst, htrivia, hrest, ← ht]
      rfl

/-! ## The text of a block -/

/-- Members with a terminator after each, and the brace that ends them. -/
def blockBody : List String → String
  | [] => "\x7d"
  | s :: ss => s ++ " ; " ++ blockBody ss

def blockText (ss : List String) : String := "\x7b " ++ blockBody ss

example : blockText ["a", "if b then c"] = "\x7b a ; if b then c ; \x7d" := by decide

/-- The items of the members. -/
def memberItems : List String → List Item
  | [] => [⟨.ok (.punct '}'), false⟩]
  | s :: ss => scan false s.toList ++ ⟨.ok .terminator, false⟩ :: memberItems ss

theorem scan_terminator (cs : List Char) : scan false (';' :: ' ' :: cs) = ⟨.ok .terminator, false⟩ :: scan false cs := by
  rw [Parser.scan_of_begins (begins_terminator (List.cons_ne_nil _ _)) Token.noConfusion, scan_space]
  rfl

theorem scan_blockBody {ss : List String} (hplain : ∀ s ∈ ss, isPlain s.toList = true)
    (hok : ∀ s ∈ ss, ∀ i ∈ scan false s.toList, ∃ t, i.reading = .ok t) :
    scan false (blockBody ss).toList = memberItems ss := by
  induction ss with
  | nil => rfl
  | cons s ss ih =>
    have htext : (blockBody (s :: ss)).toList = s.toList ++ ' ' :: ';' :: ' ' :: (blockBody ss).toList := by
      simp [blockBody]
    rw [htext, scan_append (hplain s (.head _)) (hok s (.head _)), scan_terminator,
      ih (fun s hs => hplain s (.tail _ hs)) fun s hs => hok s (.tail _ hs)]
    rfl

end Source

namespace Parser

variable {ops : Operator.Precedences} {s : String} {e : Expr} {past : Bool} {ms : List (String × Expr)}

/-! ## A text as a member -/

/-- The text is read as an expression, from its first token to its end. -/
def ReadsAs (ops : Operator.Precedences) (s : String) (e : Expr) : Prop :=
  (do
    advance
    expression ops : Parse Expr) (ofText s) = .ok e { cur := .eof, rest := [] }

/-- A terminator after the text is read along with it. -/
def takes (ops : Operator.Precedences) (s : String) : Bool :=
  match (do
    advance
    expression ops : Parse Expr) (ofText (s ++ " ; \x7d")) with
  | .ok _ p => p.cur == .punct '}'
  | .error .. => false

theorem standing_eq_entered (cs : List Char) : standing 0 cs = entered (scan false cs) := rfl

theorem ofText_eq (s : String) : ofText s = { rest := scan false s.toList } := by rw [ofText, items_eq_scan]

/-- Tokens that no expression begins with. -/
theorem cur_of_expression {p q : Parser} (hcur : p.cur ≠ .eof) (h : expression ops p = .ok e q) :
    p.cur ≠ .terminator ∧ p.cur ≠ .keyword .thenWord ∧ p.cur ≠ .keyword .elseWord := by
  rw [expression_eq] at h
  obtain ⟨lhs, r, hr, -⟩ := bind_ok_iff.mp h
  rw [operand_run ops hcur (Nat.le_succ _)] at hr
  refine ⟨fun ht => ?_, fun ht => ?_, fun ht => ?_⟩
  · rw [ht] at hr
    cases hr
  · rw [ht] at hr
    cases hr
  · rw [ht] at hr
    cases hr

/-- Where the reader stands after a text and the terminator after that, if it was passed. -/
def behind (past : Bool) (ys : List Item) : Parser := if past then entered ys else { rest := ys }

/-- What a text does before a terminator, `past` saying whether it takes that. -/
structure Member (ops : Operator.Precedences) (s : String) (e : Expr) (past : Bool) : Prop where
  readable : ∀ i ∈ scan false s.toList, ∃ t, i.reading = .ok t
  opens : ∃ t adjoins items, scan false s.toList = ⟨.ok t, adjoins⟩ :: items ∧
    t ≠ .eof ∧ t ≠ .terminator ∧ t ≠ .keyword .thenWord ∧ t ≠ .keyword .elseWord
  reads : ∀ ys, (past = true → GoesOn ys ∧ Inert ops ys) →
    expression ops (entered (scan false s.toList ++ ⟨.ok .terminator, false⟩ :: ys)) = .ok e (behind past ys)
  /-- Before an operator it is read as something else. -/
  strays : past = true → ∀ ys, GoesOn ys → ¬Inert ops ys → ∀ q,
    expression ops (entered (scan false s.toList ++ ⟨.ok .terminator, false⟩ :: ys)) ≠ .ok e q

theorem exists_member (h : ReadsAs ops s e) : ∃ past, Member ops s e past := by
  have hitems : ∀ i ∈ scan false s.toList, i.reading ≠ .ok .eof := by
    rw [← items_eq_scan]
    exact fun i hi => ne_eof_of_mem_items hi
  rw [ReadsAs, ofText_eq] at h
  obtain ⟨⟨⟩, p, hp, he⟩ := bind_ok_iff.mp h
  cases hscan : scan false s.toList with
  | nil =>
    rw [hscan] at hp
    cases hp
    rw [expression_stopsAtEnd ops _ rfl] at he
    cases he
  | cons i items =>
    obtain ⟨reading, adjoins⟩ := i
    cases reading with
    | error e =>
      rw [hscan] at hp
      cases hp
    | ok t =>
      rw [hscan] at hp hitems
      cases hp
      have hcur : t ≠ .eof := fun ht => hitems _ (.head _) (congrArg Except.ok ht)
      have hfits : Fits (size ⟨t, items, 0⟩) ⟨t, items, 0⟩ :=
        ⟨Nat.le_refl _, fun heof => absurd heof hcur, fun i hi => hitems i (.tail _ hi)⟩
      obtain ⟨hclears, past, hreads⟩ := expression_carried ops _ _ false hfits e _ he
      have hlonger : ∀ ys, entered (scan false s.toList ++ ⟨.ok .terminator, false⟩ :: ys) =
          beyond ys false ⟨t, items, 0⟩ := by
        intro ys
        rw [hscan, beyond_of_ne hcur]
        rfl
      refine ⟨past, ?_, ⟨t, adjoins, items, hscan, hcur, cur_of_expression hcur he⟩, fun ys hys => ?_, ?_⟩
      · rw [hscan]
        intro i hi
        rcases List.mem_cons.mp hi with rfl | hi
        · exact ⟨t, rfl⟩
        · exact hclears.readable rfl i hi
      · rw [hlonger]
        rcases (hreads ys fun _ hpast => (hys hpast).1).2 with hrun | ⟨⟨-, hpast⟩, hinert, -⟩
        · refine hrun.trans (congrArg (EStateM.Result.ok e) ?_)
          cases past with
          | true => rfl
          | false => rfl
        · exact absurd (hys hpast).2 hinert
      · rintro rfl ys hgoes hinert q
        rw [hlonger]
        exact expression_ne he hcur rfl (hreads ys fun _ _ => hgoes).2 rfl hgoes hinert q

theorem goesOn_memberItems_nil : GoesOn (memberItems []) :=
  ⟨.punct '}', false, [], rfl, Token.noConfusion, Token.noConfusion, Token.noConfusion⟩

theorem Member.goesOn_memberItems (h : Member ops s e past) (ss : List String) : GoesOn (memberItems (s :: ss)) := by
  obtain ⟨t, adjoins, items, hscan, -, hne⟩ := h.opens
  refine ⟨t, adjoins, items ++ ⟨.ok .terminator, false⟩ :: memberItems ss, ?_, hne⟩
  rw [memberItems, hscan]
  rfl

theorem Member.entered_cur (h : Member ops s e past) (ss : List String) :
    (entered (memberItems (s :: ss))).cur = (standing 0 s.toList).cur ∧ (standing 0 s.toList).cur ≠ .eof ∧
      (standing 0 s.toList).cur ≠ .terminator := by
  obtain ⟨t, adjoins, items, hscan, heof, hterminator, -⟩ := h.opens
  rw [standing_eq_entered, memberItems, hscan]
  exact ⟨rfl, heof, hterminator⟩

/-- The operator that a member begins with does not depend on what follows it. -/
theorem Member.inert_iff (h : Member ops s e past) (ss : List String) :
    Inert ops (memberItems (s :: ss)) ↔ (standing 0 s.toList).precedence? ops = none := by
  obtain ⟨t, adjoins, items, hscan, -⟩ := h.opens
  have hprec : (entered (memberItems (s :: ss))).precedence? ops = (standing 0 s.toList).precedence? ops := by
    rw [standing_eq_entered, memberItems, hscan]
    show precedence? ops ⟨t, items ++ ⟨.ok .terminator, false⟩ :: memberItems ss, 0⟩ = precedence? ops ⟨t, items, 0⟩
    simp only [precedence?, operator?, glued_append]
  rw [Inert, hprec]

theorem Member.advance (h : Member ops s e past) (ss : List String) (u : Token) :
    Parser.advance { cur := u, rest := memberItems (s :: ss) } = .ok () (entered (memberItems (s :: ss))) := by
  obtain ⟨t, adjoins, items, hscan, -⟩ := h.opens
  rw [memberItems, hscan]
  rfl

/-- Whether a member takes the terminator after it can be seen from any text that goes on
    after that. -/
theorem Member.takes_eq (h : Member ops s e past) (hplain : isPlain s.toList = true) : takes ops s = past := by
  have htext : (s ++ " ; \x7d").toList = (blockBody [s]).toList := by simp [blockBody]
  have hscan : scan false (s ++ " ; \x7d").toList = memberItems [s] := by
    rw [htext]
    exact scan_blockBody (by simpa using hplain) (by simpa using h.readable)
  have hrun : (Parser.advance >>= fun _ => expression ops : Parse Expr) (ofText (s ++ " ; \x7d")) =
      .ok e (behind past (memberItems [])) := by
    rw [ofText_eq, hscan, bind_of_ok (h.advance [] _)]
    exact h.reads (memberItems []) fun _ => ⟨goesOn_memberItems_nil, rfl⟩
  have htakes : takes ops s = ((behind past (memberItems [])).cur == .punct '}') := by
    unfold takes
    rw [hrun]
  rw [htakes]
  cases past with
  | true => rfl
  | false => rfl

/-! ## One member after the other -/

/-- The members as they are to be read. -/
def Members (ops : Operator.Precedences) (ms : List (String × Expr)) : Prop :=
  ∀ m ∈ ms, Member ops m.1 m.2 (takes ops m.1)

/-- What members have to be like for a block to be read as them. -/
structure Separable (ops : Operator.Precedences) (ms : List (String × Expr)) : Prop where
  /-- None begins with the brace that ends the block. -/
  brace : ∀ m ∈ ms, (standing 0 m.1.toList).cur ≠ .punct '}'
  /-- After one that takes its terminator none begins with an operator that goes on with it. -/
  operator : ms.IsChain fun m m' => takes ops m.1 = true → (standing 0 m'.1.toList).precedence? ops = none
  /-- Conditionals and loops, which are taken to have passed their terminators, do take them. -/
  passed : ∀ m ∈ ms, m.2.takesTerminator = true → takes ops m.1 = true
  /-- No other member takes its own. The last one may: what it then stands at ends the block. -/
  waits : ∀ m ∈ ms.dropLast, takes ops m.1 = true → m.2.takesTerminator = true

/-- The same of one member, `ms` being those that follow it. -/
structure SeparableAt (ops : Operator.Precedences) (m : String × Expr) (ms : List (String × Expr)) : Prop where
  brace : (standing 0 m.1.toList).cur ≠ .punct '}'
  operator : takes ops m.1 = true → ∀ m' ∈ ms.head?, (standing 0 m'.1.toList).precedence? ops = none
  passed : m.2.takesTerminator = true → takes ops m.1 = true
  waits : ms ≠ [] → takes ops m.1 = true → m.2.takesTerminator = true

variable {m : String × Expr} {n : Nat} {nested : Parse Expr} {p q : Parser} {es : List Expr}

theorem separable_cons : Separable ops (m :: ms) ↔ SeparableAt ops m ms ∧ Separable ops ms := by
  cases ms with
  | nil =>
    constructor
    · rintro ⟨hbrace, -, hpassed, -⟩
      exact ⟨⟨hbrace m (.head _), nofun, hpassed m (.head _), fun h => absurd rfl h⟩, nofun, .nil, nofun, nofun⟩
    · rintro ⟨⟨hbrace, -, hpassed, -⟩, -⟩
      exact ⟨by simpa using hbrace, .singleton m, by simpa using hpassed, nofun⟩
  | cons m' ms =>
    constructor
    · rintro ⟨hbrace, hoperator, hpassed, hwaits⟩
      rw [List.isChain_cons_cons] at hoperator
      rw [List.dropLast_cons_cons] at hwaits
      refine ⟨⟨hbrace m (.head _), ?_, hpassed m (.head _), fun _ => hwaits m (.head _)⟩, ?_⟩
      · rintro htakes m' ⟨⟩
        exact hoperator.1 htakes
      · exact ⟨fun m hm => hbrace m (.tail _ hm), hoperator.2, fun m hm => hpassed m (.tail _ hm),
          fun m hm => hwaits m (.tail _ hm)⟩
    · rintro ⟨⟨hbrace, hoperator, hpassed, hwaits⟩, hrest⟩
      refine ⟨List.forall_mem_cons.mpr ⟨hbrace, hrest.brace⟩, ?_, List.forall_mem_cons.mpr ⟨hpassed, hrest.passed⟩, ?_⟩
      · exact List.isChain_cons_cons.mpr ⟨fun htakes => hoperator htakes m' rfl, hrest.operator⟩
      · rw [List.dropLast_cons_cons]
        exact List.forall_mem_cons.mpr ⟨hwaits (List.cons_ne_nil _ _), hrest.waits⟩

theorem Members.tail (hms : Members ops (m :: ms)) : Members ops ms := fun m hm => hms m (.tail _ hm)

theorem Members.goesOn (hms : Members ops ms) : GoesOn (memberItems (ms.map (·.1))) := by
  cases ms with
  | nil => exact goesOn_memberItems_nil
  | cons m ms => exact (hms m (.head _)).goesOn_memberItems _

theorem Members.inert_iff (hms : Members ops ms) :
    Inert ops (memberItems (ms.map (·.1))) ↔ ∀ m ∈ ms.head?, (standing 0 m.1.toList).precedence? ops = none := by
  cases ms with
  | nil => exact ⟨fun _ => nofun, fun _ => rfl⟩
  | cons m ms =>
    refine ((hms m (.head _)).inert_iff _).trans ⟨?_, fun h => h m rfl⟩
    rintro h m ⟨⟩
    exact h

theorem Members.advance (hms : Members ops ms) (u : Token) :
    Parser.advance { cur := u, rest := memberItems (ms.map (·.1)) } = .ok () (entered (memberItems (ms.map (·.1)))) := by
  cases ms with
  | nil => rfl
  | cons m ms => exact (hms m (.head _)).advance _ u

theorem Members.cur_ne_terminator (hms : Members ops ms) : (entered (memberItems (ms.map (·.1)))).cur ≠ .terminator := by
  obtain ⟨t, adjoins, zs, hitems, hne, -⟩ := hms.goesOn
  rw [hitems]
  exact hne

/-- What follows a member that was read. -/
def memberRest (nested : Parse Expr) (n : Nat) (e : Expr) : Parse (List Expr) := do
  if e.takesTerminator then pure () else memberEnd
  let es ← membersWithin nested n
  pure (e :: es)

theorem membersWithin_close (h : p.cur = .punct '}') : membersWithin nested (n + 1) p = .ok [] p := by
  have hcurrent : current p = .ok (.punct '}') p := by rw [← h]; rfl
  simp only [membersWithin]
  rw [bind_of_ok hcurrent]
  rfl

theorem membersWithin_turn (hbrace : p.cur ≠ .punct '}') (heof : p.cur ≠ .eof) :
    membersWithin nested (n + 1) p = (nested >>= memberRest nested n) p := by
  have hcurrent : current p = .ok p.cur p := rfl
  simp only [membersWithin]
  rw [bind_of_ok hcurrent]
  generalize p.cur = t at hbrace heof
  split
  · exact absurd rfl hbrace
  · exact absurd rfl heof
  · rfl

theorem membersWithin_terminator (n : Nat) (items : List Item) (es : List Expr) (q : Parser) :
    membersWithin (expression ops) n { rest := items } ≠ .ok es q := by
  intro h
  cases n with
  | zero => cases h
  | succ n =>
    rw [membersWithin_turn Token.noConfusion Token.noConfusion] at h
    obtain ⟨e, r, he, -⟩ := bind_ok_iff.mp h
    exact (cur_of_expression Token.noConfusion he).1 rfl

theorem memberRest_ok {es' : List Expr} (h : memberRest nested n e p = .ok es' q) :
    ∃ es r, es' = e :: es ∧ membersWithin nested n r = .ok es q ∧
      ((if e.takesTerminator then pure () else memberEnd : Parse Unit) p = .ok () r) := by
  unfold memberRest at h
  cases htag : e.takesTerminator with
  | true =>
    simp only [htag, if_true] at h
    obtain ⟨es, r, hes, h⟩ := bind_ok_iff.mp h
    cases h
    exact ⟨es, p, rfl, hes, rfl⟩
  | false =>
    simp only [htag, Bool.false_eq_true, if_false] at h
    obtain ⟨⟨⟩, r, hend, h⟩ := bind_ok_iff.mp h
    obtain ⟨es, r', hes, h⟩ := bind_ok_iff.mp h
    cases h
    exact ⟨es, r, rfl, hes, hend⟩

theorem cur_of_memberEnd {u : Unit} (h : memberEnd p = .ok u q) : p.cur = .terminator ∨ p.cur = .punct '}' ∧ p = q := by
  obtain ⟨t, r, ht, h⟩ := bind_ok_iff.mp h
  obtain ⟨hcur, rfl⟩ := current_ok ht
  split at h
  · exact .inl hcur
  · cases h
    exact .inr ⟨hcur, rfl⟩
  · cases h

/-- A member that did what it is taken to have done: the next one is next. -/
theorem members_turn (hms : Members ops (m :: ms)) (hsep : SeparableAt ops m ms) :
    membersWithin (expression ops) (n + 1) (entered (memberItems ((m :: ms).map (·.1)))) =
      (membersWithin (expression ops) n >>= fun es => pure (m.2 :: es) : Parse (List Expr))
        (entered (memberItems (ms.map (·.1)))) := by
  have hm := hms m (.head _)
  obtain ⟨hcur, heof, -⟩ := hm.entered_cur (ms.map (·.1))
  have hread := hm.reads _ fun htakes => ⟨hms.tail.goesOn, hms.tail.inert_iff.mpr (hsep.operator htakes)⟩
  rw [membersWithin_turn (hcur ▸ hsep.brace) (hcur ▸ heof)]
  refine (bind_of_ok hread).trans ?_
  unfold memberRest
  cases htag : m.2.takesTerminator with
  | true =>
    rw [hsep.passed htag]
    rfl
  | false =>
    cases htakes : takes ops m.1 with
    | false => exact bind_of_ok (hms.tail.advance _)
    | true =>
      -- The member has passed its terminator and is not taken to have done so: the block ends here.
      cases ms with
      | nil => rfl
      | cons m' ms =>
        have htag' := hsep.waits (List.cons_ne_nil _ _) htakes
        rw [htag] at htag'
        cases htag'

theorem members_read (hms : Members ops ms) (hsep : Separable ops ms) (hn : ms.length < n) :
    membersWithin (expression ops) n (entered (memberItems (ms.map (·.1)))) =
      .ok (ms.map (·.2)) { cur := .punct '}', rest := [] } := by
  induction ms generalizing n with
  | nil =>
    obtain ⟨k, rfl⟩ : ∃ k, n = k + 1 := ⟨n - 1, by omega⟩
    rfl
  | cons m ms ih =>
    obtain ⟨k, rfl⟩ : ∃ k, n = k + 1 := ⟨n - 1, by omega⟩
    obtain ⟨hfirst, hrest⟩ := separable_cons.mp hsep
    rw [members_turn hms hfirst, bind_of_ok (ih hms.tail hrest (Nat.lt_of_succ_lt_succ hn))]
    rfl

/-- Conversely, a turn that gives the member as it is to be read goes on with the next one,
    and what the member did is what it is taken to have done, unless the block ends there. -/
theorem members_turn_ok (hms : Members ops (m :: ms))
    (h : membersWithin (expression ops) (n + 1) (entered (memberItems ((m :: ms).map (·.1)))) = .ok (m.2 :: es) q) :
    membersWithin (expression ops) n (entered (memberItems (ms.map (·.1)))) = .ok es q ∧
      (standing 0 m.1.toList).cur ≠ .punct '}' ∧
      (takes ops m.1 = true → Inert ops (memberItems (ms.map (·.1)))) ∧
      (m.2.takesTerminator = true → takes ops m.1 = true) ∧
      (takes ops m.1 = true → m.2.takesTerminator = true ∨ (entered (memberItems (ms.map (·.1)))).cur = .punct '}') := by
  have hm := hms m (.head _)
  obtain ⟨hcur, heof, -⟩ := hm.entered_cur (ms.map (·.1))
  have hbrace : (standing 0 m.1.toList).cur ≠ .punct '}' := by
    intro hbrace
    rw [List.map_cons, membersWithin_close (hcur.trans hbrace)] at h
    cases h
  rw [List.map_cons, membersWithin_turn (hcur ▸ hbrace) (hcur ▸ heof)] at h
  obtain ⟨e, p, he, h⟩ := bind_ok_iff.mp h
  obtain ⟨es, r, hes, hrest, hend⟩ := memberRest_ok h
  cases hes
  have hinert : takes ops m.1 = true → Inert ops (memberItems (ms.map (·.1))) := fun htakes =>
    Classical.byContradiction fun hinert => hm.strays htakes _ hms.tail.goesOn hinert p he
  have hread := hm.reads _ fun htakes => ⟨hms.tail.goesOn, hinert htakes⟩
  obtain rfl : behind (takes ops m.1) (memberItems (ms.map (·.1))) = p := by
    cases hread.symm.trans he
    rfl
  cases htag : m.2.takesTerminator with
  | true =>
    rw [htag] at hend
    cases hend
    cases htakes : takes ops m.1 with
    | true =>
      rw [htakes] at hrest
      exact ⟨hrest, hbrace, htakes ▸ hinert, fun _ => rfl, fun _ => .inl rfl⟩
    | false =>
      rw [htakes] at hrest
      exact absurd hrest (membersWithin_terminator n _ es q)
  | false =>
    rw [htag] at hend
    cases htakes : takes ops m.1 with
    | true =>
      rw [htakes] at hend
      rcases cur_of_memberEnd hend with hfound | ⟨hfound, rfl⟩
      · exact absurd hfound hms.tail.cur_ne_terminator
      · exact ⟨hrest, hbrace, htakes ▸ hinert, nofun, fun _ => .inr hfound⟩
    | false =>
      rw [htakes] at hend
      cases (hms.tail.advance _).symm.trans hend
      exact ⟨hrest, hbrace, nofun, nofun, nofun⟩

theorem separable_of_members (hms : Members ops ms)
    (h : membersWithin (expression ops) n (entered (memberItems (ms.map (·.1)))) = .ok (ms.map (·.2)) q) :
    Separable ops ms := by
  induction ms generalizing n with
  | nil => exact ⟨nofun, .nil, nofun, nofun⟩
  | cons m ms ih =>
    cases n with
    | zero => cases h
    | succ n =>
      obtain ⟨hrest, hbrace, hinert, hpassed, hwaits⟩ := members_turn_ok hms h
      have hsep := ih hms.tail hrest
      refine separable_cons.mpr ⟨⟨hbrace, fun htakes => hms.tail.inert_iff.mp (hinert htakes), hpassed, ?_⟩, hsep⟩
      -- The block does not end at the next member, which does not begin with a brace.
      intro hne htakes
      obtain ⟨m', ms, rfl⟩ := List.exists_cons_of_ne_nil hne
      refine (hwaits htakes).resolve_right fun hfound => ?_
      obtain ⟨hcur, -⟩ := (hms.tail m' (.head _)).entered_cur (ms.map (·.1))
      exact hsep.brace m' (.head _) (hcur.symm.trans hfound)

/-! ## The block -/

theorem scan_blockText (hms : Members ops ms) (hplain : ∀ m ∈ ms, isPlain m.1.toList = true) :
    scan false (blockText (ms.map (·.1))).toList = ⟨.ok (.punct '{'), false⟩ :: memberItems (ms.map (·.1)) := by
  have htext : (blockText (ms.map (·.1))).toList = '{' :: ' ' :: (blockBody (ms.map (·.1))).toList := by simp [blockText]
  have hplain' : ∀ s ∈ ms.map (·.1), isPlain s.toList = true := by
    simpa using fun s e hm => hplain (s, e) hm
  have hok : ∀ s ∈ ms.map (·.1), ∀ i ∈ scan false s.toList, ∃ t, i.reading = .ok t := by
    intro s hs
    obtain ⟨m, hm, rfl⟩ := List.mem_map.mp hs
    exact (hms m hm).readable
  rw [htext, scan_of_begins (begins_punct (by decide) _) Token.noConfusion, scan_space, scan_blockBody hplain' hok]
  rfl

/-- At an opening brace, an expression is a block and what follows it. -/
theorem expression_brace {items : List Item} (hn : items.length ≤ n) :
    expression ops { cur := .punct '{', rest := items } =
      (block (expression ops) n >>= climb ops 0 : Parse Expr) { cur := .punct '{', rest := items } := by
  have hsize : size { cur := .punct '{', rest := items } ≤ n + 1 := Nat.le_trans (size_le _) (Nat.succ_le_succ hn)
  have hoperand : operand ops { cur := .punct '{', rest := items } =
      block (expression ops) n { cur := .punct '{', rest := items } := operand_run ops Token.noConfusion hsize
  refine (congrFun (expression_eq ops) _).trans ?_
  cases hblock : block (expression ops) n { cur := .punct '{', rest := items } with
  | ok e q => rw [bind_of_ok hblock, bind_of_ok (hoperand.trans hblock)]
  | error e q => rw [bind_of_error hblock, bind_of_error (hoperand.trans hblock)]

/-- Texts that are read as expressions, each to its end, are put into a block with a
    terminator after each. The block is read as those expressions, to its end, exactly if
    the texts can be told apart in it. -/
theorem block_members (hplain : ∀ m ∈ ms, isPlain m.1.toList = true) (hreads : ∀ m ∈ ms, ReadsAs ops m.1 m.2) :
    ReadsAs ops (blockText (ms.map (·.1))) (.block (ms.map (·.2))) ↔ Separable ops ms := by
  have hms : Members ops ms := by
    intro m hm
    obtain ⟨past, hmember⟩ := exists_member (hreads m hm)
    exact hmember.takes_eq (hplain m hm) ▸ hmember
  -- Any count will do that is enough for the items and for the members.
  generalize hn : max (memberItems (ms.map (·.1))).length (ms.length + 1) = n
  have hitems : (memberItems (ms.map (·.1))).length ≤ n := hn ▸ Nat.le_max_left _ _
  have hlength : ms.length < n := hn ▸ Nat.le_max_right _ _
  have hstart : advance { rest := ⟨.ok (.punct '{'), false⟩ :: memberItems (ms.map (·.1)) } =
      .ok () { cur := .punct '{', rest := memberItems (ms.map (·.1)) } := rfl
  rw [ReadsAs, ofText_eq, scan_blockText hms hplain, bind_of_ok hstart, expression_brace hitems]
  have hopen : advance { cur := .punct '{', rest := memberItems (ms.map (·.1)) } =
      .ok () (entered (memberItems (ms.map (·.1)))) := hms.advance _
  constructor
  · intro h
    obtain ⟨e, q, hblock, hclimb⟩ := bind_ok_iff.mp h
    obtain ⟨⟨⟩, p, hp, hblock⟩ := bind_ok_iff.mp hblock
    obtain ⟨es, r, hes, hblock⟩ := bind_ok_iff.mp hblock
    obtain ⟨⟨⟩, r', -, hblock⟩ := bind_ok_iff.mp hblock
    cases hblock
    cases hopen.symm.trans hp
    rcases (climb_ok (Nat.le_refl _) hclimb).1 with hsame | ⟨op, lhs, rhs, hbinary⟩
    · cases hsame
      exact separable_of_members hms hes
    · cases hbinary
  · intro hsep
    have hblock : block (expression ops) n { cur := .punct '{', rest := memberItems (ms.map (·.1)) } =
        .ok (.block (ms.map (·.2))) { cur := .eof, rest := [] } := by
      refine (bind_of_ok hopen).trans ((bind_of_ok (members_read hms hsep hlength)).trans ?_)
      rfl
    rw [bind_of_ok hblock]
    exact climb_of_precedence? rfl 0 _

/-! An operator begins a member after one that does not take its terminator, and the last
member takes its own without being a conditional. In the second block the terminator after
the parenthesis is taken for the beginning of a member. -/

def separated : List (String × Expr) :=
  [("c", .ref "c"), ("-d", .unary '-' (.ref "d")), ("if a then b", .cond (.ref "a") (.ref "b") none),
   ("e = if a then b", .binary "=" (.ref "e") (.cond (.ref "a") (.ref "b") none))]

def parenthesised : List (String × Expr) := [("(if a then b)", .cond (.ref "a") (.ref "b") none), ("c", .ref "c")]

theorem readsAs_of_items {ops : Operator.Precedences} {s : String} {e : Expr} (items : List Item)
    (hitems : (Lexer.ofText s).items = items)
    (hread : (do
      advance
      expression ops : Parse Expr) { rest := items } = .ok e { cur := .eof, rest := [] }) : ReadsAs ops s e := by
  rw [ReadsAs, ofText, hitems]
  exact hread

theorem reads_separated : ∀ m ∈ separated, ReadsAs Operator.builtin m.1 m.2 := by
  simp only [separated, List.forall_mem_cons]
  refine ⟨?_, ?_, ?_, ?_, nofun⟩
  · exact readsAs_of_items [⟨.ok (.name "c"), false⟩] (by decide +kernel) rfl
  · exact readsAs_of_items [⟨.ok (.punct '-'), false⟩, ⟨.ok (.name "d"), true⟩] (by decide +kernel) rfl
  · exact readsAs_of_items [⟨.ok (.keyword .ifWord), false⟩, ⟨.ok (.name "a"), false⟩,
      ⟨.ok (.keyword .thenWord), false⟩, ⟨.ok (.name "b"), false⟩] (by decide +kernel) rfl
  · exact readsAs_of_items [⟨.ok (.name "e"), false⟩, ⟨.ok (.punct '='), false⟩, ⟨.ok (.keyword .ifWord), false⟩,
      ⟨.ok (.name "a"), false⟩, ⟨.ok (.keyword .thenWord), false⟩, ⟨.ok (.name "b"), false⟩] (by decide +kernel) rfl

theorem reads_parenthesised : ∀ m ∈ parenthesised, ReadsAs Operator.builtin m.1 m.2 := by
  simp only [parenthesised, List.forall_mem_cons]
  refine ⟨?_, ?_, nofun⟩
  · exact readsAs_of_items [⟨.ok (.punct '('), false⟩, ⟨.ok (.keyword .ifWord), true⟩, ⟨.ok (.name "a"), false⟩,
      ⟨.ok (.keyword .thenWord), false⟩, ⟨.ok (.name "b"), false⟩, ⟨.ok (.punct ')'), true⟩] (by decide +kernel) rfl
  · exact readsAs_of_items [⟨.ok (.name "c"), false⟩] (by decide +kernel) rfl

theorem block_members_separated :
    ReadsAs Operator.builtin "\x7b c ; -d ; if a then b ; e = if a then b ; \x7d" (.block (separated.map (·.2))) ∧
      ¬ReadsAs Operator.builtin "\x7b (if a then b) ; c ; \x7d" (.block (parenthesised.map (·.2))) := by
  have htext : blockText (separated.map (·.1)) = "\x7b c ; -d ; if a then b ; e = if a then b ; \x7d" := by decide
  have htext' : blockText (parenthesised.map (·.1)) = "\x7b (if a then b) ; c ; \x7d" := by decide
  have hsep : Separable Operator.builtin separated :=
    ⟨by decide +kernel, by decide +kernel, by decide +kernel, by decide +kernel⟩
  have hsep' : ¬Separable Operator.builtin parenthesised := fun h =>
    absurd (h.passed _ (.head _) rfl) (by decide +kernel)
  rw [← htext, ← htext']
  constructor
  · exact (block_members (by decide +kernel) reads_separated).mpr hsep
  · intro h
    exact hsep' ((block_members (by decide +kernel) reads_parenthesised).mp h)

end Parser

end Kaleidoscope
