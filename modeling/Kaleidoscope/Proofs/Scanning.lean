/-
  Kaleidoscope.Proofs.Scanning — a text from left to right.

  The items of a text are found by cutting one lexeme after the other from its front; byte
  positions only say whether something was skipped in between (`items_eq_scan`). So a text
  can be read from left to right: `Begins` says what its first token is and what is left,
  whatever the text goes on with. `begins_keyword`, `begins_name`, `begins_number`,
  `begins_punct` and `begins_terminator` are the lexemes; a word or a number ends where the
  next character cannot go on with it (`Cuts`).

  `Reads` is the same for a reader of the parser: what it makes of a text and where in it the
  reader stops. There is one lemma for each way to put readers together. An operator before a
  space is read whole, whatever comes after the space (`operator?_standing`).
-/

import Kaleidoscope.Source.Stream
import Kaleidoscope.Parser.Basic
import Kaleidoscope.Proofs.Success

namespace Kaleidoscope

open Source

namespace Source

/-! ## Items without positions -/

/-- The items of a text, `adjoins` saying whether the text begins where a result ended. -/
def scanWithin : Nat → Bool → List Char → List Item
  | 0, _, _ => []
  | n + 1, adjoins, cs =>
    let trivia := splitTrivia cs
    let lexeme := splitLexeme trivia.2
    match lexeme.1.reading lexeme.2.isEmpty with
    | .ok .eof => []
    | r => ⟨r, adjoins && trivia.1.isEmpty⟩ :: scanWithin n true lexeme.2

def scan (adjoins : Bool) (cs : List Char) : List Item := scanWithin (cs.length + 1) adjoins cs

theorem width_eq_zero {cs : List Char} : width cs = 0 ↔ cs = [] := by
  have h : ∀ (cs : List Char) n, cs.foldl (fun n c => n + c.utf8Size) n = 0 ↔ n = 0 ∧ cs = [] := by
    intro cs
    induction cs with
    | nil => simp
    | cons c cs ih =>
      intro n
      have hc := c.utf8Size_pos
      simp only [List.foldl_cons, ih]
      constructor
      · rintro ⟨h, -⟩
        omega
      · rintro ⟨-, h⟩
        cases h
  simpa [width] using h cs 0

theorem itemsFrom_cons {stop : Option Nat} {r : Reading} (hr : r ≠ .ok .eof) (l : Lexer) (rest : List (Reading × Lexer)) :
    itemsFrom stop ((r, l) :: rest) = ⟨r, stop == some l.start⟩ :: itemsFrom (some l.stop) rest := by
  rw [itemsFrom]
  rintro l' h
  cases h
  exact absurd rfl hr

theorem readingsWithin_eof {l : Lexer} (n : Nat) (h : l.next.1 = .ok .eof) : l.readingsWithin (n + 1) = [l.next] := by
  rw [Lexer.readingsWithin]
  split
  · rename_i h'
    rw [h']
  · rename_i hne h'
    rw [h'] at h
    exact absurd h hne

theorem readingsWithin_cons {l : Lexer} (n : Nat) (h : l.next.1 ≠ .ok .eof) :
    l.readingsWithin (n + 1) = l.next :: l.next.2.readingsWithin n := by
  rw [Lexer.readingsWithin]
  split
  · rename_i h'
    rw [h'] at h
    exact absurd rfl h
  · rename_i h'
    rw [h']

/-- The first result of a text, and what follows it. -/
def first (cs : List Char) : Reading × List Char :=
  let lexeme := splitLexeme (splitTrivia cs).2
  (lexeme.1.reading lexeme.2.isEmpty, lexeme.2)

theorem scanWithin_eof {n : Nat} {adjoins : Bool} {cs : List Char} (h : (first cs).1 = .ok .eof) :
    scanWithin (n + 1) adjoins cs = [] := by
  simp only [first] at h
  simp only [scanWithin, h]

theorem scanWithin_cons {n : Nat} {adjoins : Bool} {cs : List Char} (h : (first cs).1 ≠ .ok .eof) :
    scanWithin (n + 1) adjoins cs = ⟨(first cs).1, adjoins && (splitTrivia cs).1.isEmpty⟩ ::
      scanWithin n true (first cs).2 := by
  simp only [first] at h
  simp only [scanWithin, first]

/-- The result before, if there was one, ended where the lexer is. -/
theorem itemsFrom_readingsWithin (n : Nat) (l : Lexer) {stop : Option Nat} (hstop : stop = none ∨ stop = some l.stop) :
    itemsFrom stop (l.readingsWithin n) = scanWithin n stop.isSome l.rest := by
  induction n generalizing l stop with
  | zero => rfl
  | succ n ih =>
    have hfirst : l.next.1 = (first l.rest).1 := rfl
    by_cases h : (first l.rest).1 = .ok .eof
    · rw [scanWithin_eof h, readingsWithin_eof n (hfirst.trans h)]
      rw [show l.next = (.ok .eof, l.next.2) from Prod.ext (hfirst.trans h) rfl]
      rfl
    · have hadjoins : (stop == some l.next.2.start) = (stop.isSome && (splitTrivia l.rest).1.isEmpty) := by
        show (stop == some (l.stop + width (splitTrivia l.rest).1)) = _
        rcases hstop with rfl | rfl
        · rfl
        · by_cases hskip : (splitTrivia l.rest).1 = []
          · simp [hskip, width]
          · have hwidth : width (splitTrivia l.rest).1 ≠ 0 := fun hw => hskip (width_eq_zero.mp hw)
            have hempty : (splitTrivia l.rest).1.isEmpty = false := by simpa using hskip
            simp only [hempty, Option.isSome_some, Bool.and_false, beq_eq_false_iff_ne, ne_eq, Option.some.injEq]
            omega
      have hcons : itemsFrom stop (l.next :: l.next.2.readingsWithin n) =
          ⟨(first l.rest).1, stop == some l.next.2.start⟩ :: itemsFrom (some l.next.2.stop) (l.next.2.readingsWithin n) :=
        itemsFrom_cons h l.next.2 _
      rw [readingsWithin_cons n h, scanWithin_cons h, hcons, hadjoins, ih l.next.2 (.inr rfl)]
      rfl

/-- What follows the first result is shorter, unless nothing is read. -/
theorem length_first {cs : List Char} (h : (first cs).1 ≠ .ok .eof) : (first cs).2.length < cs.length := by
  have htrivia := congrArg List.length (splitTrivia_append cs)
  have hlexeme := congrArg List.length (splitLexeme_append (splitTrivia cs).2)
  rw [List.length_append] at htrivia hlexeme
  have hpos : 0 < (splitLexeme (splitTrivia cs).2).1.spelling.length := by
    unfold splitLexeme
    split
    · rename_i hnil
      simp only [first, hnil, splitLexeme, Lexeme.reading] at h
      exact absurd rfl h
    · split
      · simp [Lexeme.spelling]
      · split
        · simp [Lexeme.spelling]
        · split
          · split <;> simp [Lexeme.spelling]
          · simp [Lexeme.spelling]
  show (splitLexeme (splitTrivia cs).2).2.length < _
  omega

theorem scanWithin_eq {n : Nat} {cs : List Char} (hn : cs.length < n) (adjoins : Bool) :
    scanWithin n adjoins cs = scan adjoins cs := by
  have h : ∀ (n m : Nat) (cs : List Char) (adjoins : Bool), cs.length < n → cs.length < m →
      scanWithin n adjoins cs = scanWithin m adjoins cs := by
    intro n
    induction n with
    | zero => exact fun m cs adjoins hn => absurd hn (Nat.not_lt_zero _)
    | succ n ih =>
      intro m cs adjoins hn hm
      obtain ⟨m, rfl⟩ : ∃ k, m = k + 1 := ⟨m - 1, by omega⟩
      by_cases heof : (first cs).1 = .ok .eof
      · rw [scanWithin_eof heof, scanWithin_eof heof]
      · have hlt := length_first heof
        rw [scanWithin_cons heof, scanWithin_cons heof, ih m _ _ (by omega) (by omega)]
  exact h n _ cs adjoins hn (Nat.lt_succ_self _)

theorem items_eq_scan (source : String) : (Lexer.ofText source).items = scan false source.toList :=
  itemsFrom_readingsWithin _ _ (.inl rfl)

theorem scan_cons {cs : List Char} (h : (first cs).1 ≠ .ok .eof) (adjoins : Bool) :
    scan adjoins cs = ⟨(first cs).1, adjoins && (splitTrivia cs).1.isEmpty⟩ :: scan true (first cs).2 := by
  rw [scan, scanWithin_cons h, scanWithin_eq (length_first h)]

theorem first_space (cs : List Char) : first (' ' :: cs) = first cs := rfl

theorem scan_space (adjoins : Bool) (cs : List Char) : scan adjoins (' ' :: cs) = scan false cs := by
  have htrivia : (splitTrivia (' ' :: cs)).1.isEmpty = false := rfl
  by_cases h : (first cs).1 = .ok .eof
  · rw [scan, scan, scanWithin_eof h, scanWithin_eof (first_space cs ▸ h)]
  · rw [scan_cons h, scan_cons (first_space cs ▸ h), first_space, htrivia]
    simp

/-! ## Lexemes at the front -/

/-- The first token of a text, and what follows it. -/
def Begins (cs : List Char) (t : Token) (rest : List Char) : Prop := first cs = (.ok t, rest)

theorem begins_space {cs rest : List Char} {t : Token} : Begins (' ' :: cs) t rest ↔ Begins cs t rest := by
  rw [Begins, first_space, Begins]

theorem begins_nil : Begins [] .eof [] := rfl

theorem Begins.unique {cs rest rest' : List Char} {t t' : Token} (h : Begins cs t rest) (h' : Begins cs t' rest') :
    t = t' ∧ rest = rest' := by
  rw [Begins, h] at h'
  cases h'
  exact ⟨rfl, rfl⟩

theorem Begins.ne_nil {cs rest : List Char} {t : Token} (h : Begins cs t rest) (ht : t ≠ .eof) : cs ≠ [] := by
  rintro rfl
  exact ht (h.unique begins_nil).1

/-- The characters that no blank and no comment begins with. -/
def isSolid (c : Char) : Bool := !isBlank c && c != '#'

theorem splitTrivia_solid {c : Char} (hc : isSolid c = true) (cs : List Char) : splitTrivia (c :: cs) = ([], c :: cs) := by
  simp only [isSolid, Bool.and_eq_true, Bool.not_eq_true', bne_iff_ne] at hc
  simp [splitTrivia, splitTriviaFrom, hc.1, hc.2]

theorem first_solid {c : Char} (hc : isSolid c = true) (cs : List Char) :
    first (c :: cs) = ((splitLexeme (c :: cs)).1.reading (splitLexeme (c :: cs)).2.isEmpty, (splitLexeme (c :: cs)).2) := by
  rw [first, splitTrivia_solid hc]

/-- Characters in a range without blanks, the number sign below it. -/
theorem isSolid_of_range {c : Char} (hlow : 35 < c.toNat) (hhigh : c.toNat < 133) : isSolid c = true := by
  have hne : c ≠ '#' := by
    rintro rfl
    exact absurd hlow (by decide)
  have hblank : isBlank c = false := by
    simp [isBlank, blanks]
    omega
  simp [isSolid, hblank, hne]

theorem isLetter_iff {c : Char} :
    isLetter c = true ↔ 65 ≤ c.toNat ∧ c.toNat ≤ 90 ∨ 97 ≤ c.toNat ∧ c.toNat ≤ 122 := by
  show (decide (65 ≤ c.val ∧ c.val ≤ 90) || (decide (97 ≤ c.val) && decide (c.val ≤ 122))) = true ↔ _
  simp only [Bool.or_eq_true, Bool.and_eq_true, decide_eq_true_eq, UInt32.le_iff_toNat_le]
  rfl

theorem range_of_isNumeric {c : Char} (h : isNumeric c = true) : 46 ≤ c.toNat ∧ c.toNat ≤ 57 := by
  simp only [isNumeric, Bool.or_eq_true, beq_iff_eq] at h
  rcases h with h | rfl
  · simp [Char.isDigit, UInt32.le_iff_toNat_le] at h
    omega
  · decide

theorem isSolid_of_isLetter {c : Char} (h : isLetter c = true) : isSolid c = true := by
  rw [isLetter_iff] at h
  exact isSolid_of_range (by omega) (by omega)

theorem isSolid_of_isNumeric {c : Char} (h : isNumeric c = true) : isSolid c = true := by
  have hrange := range_of_isNumeric h
  exact isSolid_of_range (by omega) (by omega)

/-- The next character goes on neither with a word nor with a number. -/
def Cuts (rest : List Char) : Prop := ∀ c ∈ rest.head?, isWordChar c = false ∧ isNumeric c = false

theorem cuts_nil : Cuts [] := by simp [Cuts]

theorem cuts_cons {c : Char} (hword : isWordChar c = false) (hnum : isNumeric c = false) (cs : List Char) : Cuts (c :: cs) := by
  intro d hd
  cases hd
  exact ⟨hword, hnum⟩

theorem takeWhile_run {p : Char → Bool} {cs rest : List Char} (hcs : ∀ c ∈ cs, p c = true)
    (hrest : ∀ c ∈ rest.head?, p c = false) :
    (cs ++ rest).takeWhile p = cs ∧ (cs ++ rest).dropWhile p = rest := by
  rw [List.takeWhile_append_of_pos hcs, List.dropWhile_append_of_pos hcs]
  cases rest with
  | nil => simp
  | cons d ds => simp [hrest d rfl]

def isWord (s : String) : Bool := s.toList.head?.any isLetter && s.toList.all isWordChar

/-- A word that is not a keyword. -/
def isIdentifier (s : String) : Bool := isWord s && (Keyword.ofWord? s).isNone

theorem first_word {s : String} (hs : isWord s = true) {rest : List Char} (hrest : Cuts rest) :
    first (s.toList ++ rest) = ((Lexeme.word s.toList).reading false, rest) := by
  simp only [isWord, Bool.and_eq_true, List.all_eq_true] at hs
  obtain ⟨hhead, hall⟩ := hs
  cases hcs : s.toList with
  | nil => simp [hcs] at hhead
  | cons c cs =>
    rw [hcs] at hhead hall
    have hc : isLetter c = true := by simpa using hhead
    obtain ⟨htake, hdrop⟩ := takeWhile_run (fun d hd => hall d (.tail _ hd)) fun d hd => (hrest d hd).1
    rw [List.cons_append, first_solid (isSolid_of_isLetter hc)]
    simp [splitLexeme, hc, htake, hdrop, Lexeme.reading]

theorem isWord_spelling (k : Keyword) : isWord k.spelling = true := by
  cases k <;> decide

theorem begins_keyword (k : Keyword) {rest : List Char} (hrest : Cuts rest) :
    Begins (k.spelling.toList ++ rest) (.keyword k) rest := by
  rw [Begins, first_word (isWord_spelling k) hrest]
  simp [Lexeme.reading, Keyword.ofWord?_spelling]

theorem begins_name {s : String} (hs : isIdentifier s = true) {rest : List Char} (hrest : Cuts rest) :
    Begins (s.toList ++ rest) (.name s) rest := by
  simp only [isIdentifier, Bool.and_eq_true, Option.isNone_iff_eq_none] at hs
  rw [Begins, first_word hs.1 hrest]
  simp [Lexeme.reading, hs.2]

theorem isNumeric_of_isDigit {c : Char} (h : c.isDigit = true) : isNumeric c = true := by simp [isNumeric, h]

/-- A literal that can be read has digits and points only, and is not empty. -/
theorem isNumeric_of_literal? {cs : List Char} {x : Float} (h : Decimal.literal? cs = some x) :
    cs ≠ [] ∧ ∀ c ∈ cs, isNumeric c = true := by
  have hsplit := List.takeWhile_append_dropWhile (p := Char.isDigit) (l := cs)
  have hwhole : ∀ c ∈ cs.takeWhile Char.isDigit, isNumeric c = true := fun c hc =>
    isNumeric_of_isDigit (List.all_eq_true.mp List.all_takeWhile c hc)
  simp only [Decimal.literal?] at h
  split at h
  · rename_i hdrop
    rw [hdrop, List.append_nil] at hsplit
    refine ⟨fun hnil => ?_, hsplit ▸ hwhole⟩
    simp [hnil] at h
  · rename_i d part hdrop
    rw [hdrop] at hsplit
    refine ⟨fun hnil => by simp [hnil] at hdrop, fun c hc => ?_⟩
    split at h
    · rename_i hpart
      simp only [Bool.and_eq_true, beq_iff_eq, List.all_eq_true] at hpart
      rw [← hsplit] at hc
      rcases List.mem_append.mp hc with hc | hc
      · exact hwhole c hc
      · rcases List.mem_cons.mp hc with rfl | hc
        · simp [isNumeric, hpart.1.1]
        · exact isNumeric_of_isDigit (hpart.1.2 c hc)
    · cases h

theorem isLetter_of_isNumeric {c : Char} (h : isNumeric c = true) : isLetter c = false := by
  have hrange := range_of_isNumeric h
  rw [← Bool.not_eq_true, isLetter_iff]
  omega

theorem begins_number {cs : List Char} {x : Float} (h : Decimal.literal? cs = some x) {rest : List Char}
    (hrest : Cuts rest) : Begins (cs ++ rest) (.number x) rest := by
  obtain ⟨hne, hall⟩ := isNumeric_of_literal? h
  obtain ⟨c, ds, rfl⟩ := List.exists_cons_of_ne_nil hne
  have hc := hall c (.head _)
  obtain ⟨htake, hdrop⟩ := takeWhile_run (fun d hd => hall d (.tail _ hd)) fun d hd => (hrest d hd).2
  rw [List.cons_append, Begins, first_solid (isSolid_of_isNumeric hc)]
  simp [splitLexeme, isLetter_of_isNumeric hc, hc, htake, hdrop, Lexeme.reading, h]

/-- The characters that are tokens by themselves. -/
def standsAlone (c : Char) : Bool := isSolid c && !isLetter c && !isNumeric c && c != '"' && c != ';'

theorem isSolid_of_standsAlone {c : Char} (hc : standsAlone c = true) : isSolid c = true := by
  simp only [standsAlone, Bool.and_eq_true] at hc
  exact hc.1.1.1.1

theorem ne_semicolon_of_standsAlone {c : Char} (hc : standsAlone c = true) : c ≠ ';' := by
  rintro rfl
  exact absurd hc (by decide)

theorem splitLexeme_of_standsAlone {c : Char} (hc : standsAlone c = true) (cs : List Char) :
    splitLexeme (c :: cs) = (.punct c, cs) := by
  simp only [standsAlone, Bool.and_eq_true, Bool.not_eq_true', bne_iff_ne] at hc
  obtain ⟨⟨⟨⟨-, hletter⟩, hnum⟩, hquote⟩, -⟩ := hc
  simp [splitLexeme, hletter, hnum, hquote]

theorem begins_punct {c : Char} (hc : standsAlone c = true) (cs : List Char) : Begins (c :: cs) (.punct c) cs := by
  rw [Begins, first_solid (isSolid_of_standsAlone hc), splitLexeme_of_standsAlone hc]
  simp [Lexeme.reading, ne_semicolon_of_standsAlone hc]

theorem begins_terminator {cs : List Char} (h : cs ≠ []) : Begins (';' :: cs) .terminator cs := by
  have hsplit : splitLexeme (';' :: cs) = (.punct ';', cs) := rfl
  rw [Begins, first_solid (by decide), hsplit]
  simp [Lexeme.reading, h]

theorem isSolid_of_splitTrivia {comment : Bool} {cs ds : List Char} {c : Char}
    (h : (splitTriviaFrom comment cs).2 = c :: ds) : isSolid c = true := by
  induction cs generalizing comment with
  | nil => cases h
  | cons d cs ih =>
    rw [splitTriviaFrom] at h
    split at h
    · exact ih h
    · rename_i hd
      cases h
      simp only [Bool.or_eq_true, beq_iff_eq, not_or] at hd
      simp [isSolid, hd.1.2, hd.2]

theorem Lexeme.reading_punct {l : Lexeme} {last : Bool} {c : Char} (h : l.reading last = .ok (.punct c)) :
    l = .punct c ∧ c ≠ ';' := by
  cases l with
  | word cs =>
    simp only [reading] at h
    split at h <;> cases h
  | digits cs =>
    simp only [reading] at h
    split at h <;> cases h
  | quoted cs closed => cases closed <;> cases h
  | punct d =>
    simp only [reading] at h
    split at h
    · split at h <;> cases h
    · rename_i hd
      cases h
      exact ⟨rfl, hd⟩
  | finish => cases h

/-- Whatever the lexer reads as punctuation stands alone. -/
theorem standsAlone_of_next {l : Lexer} {c : Char} (h : l.next.1 = .ok (.punct c)) : standsAlone c = true := by
  obtain ⟨hlexeme, hsemi⟩ := Lexeme.reading_punct h
  change (splitLexeme (splitTrivia l.rest).2).1 = .punct c at hlexeme
  cases hbody : (splitTrivia l.rest).2 with
  | nil =>
    rw [hbody] at hlexeme
    cases hlexeme
  | cons d ds =>
    have hsolid := isSolid_of_splitTrivia hbody
    rw [hbody, splitLexeme] at hlexeme
    split at hlexeme
    · cases hlexeme
    · rename_i hletter
      split at hlexeme
      · cases hlexeme
      · rename_i hnum
        split at hlexeme
        · split at hlexeme <;> cases hlexeme
        · rename_i hquote
          cases hlexeme
          simp only [Bool.not_eq_true, beq_eq_false_iff_ne] at hletter hnum hquote
          simp [standsAlone, hsolid, hletter, hnum, hquote, hsemi]

end Source

namespace Parser

/-! ## Parsers on a text -/

/-- The parser whose current token is the first one of a text. -/
def standing (k : Nat) (cs : List Char) : Parser := left (advance { rest := scan false cs, wrapped := k })

@[simp] theorem standing_space (k : Nat) (cs : List Char) : standing k (' ' :: cs) = standing k cs := by
  rw [standing, scan_space, standing]

theorem scan_of_begins {cs rest : List Char} {t : Token} (h : Begins cs t rest) (ht : t ≠ .eof) (adjoins : Bool) :
    scan adjoins cs = ⟨.ok t, adjoins && (splitTrivia cs).1.isEmpty⟩ :: scan true rest := by
  have hne : (first cs).1 ≠ .ok .eof := by
    rw [h]
    simpa using ht
  rw [scan_cons hne, h]

theorem scan_of_begins_eof {cs rest : List Char} (h : Begins cs .eof rest) (adjoins : Bool) : scan adjoins cs = [] := by
  rw [scan, scanWithin_eof]
  rw [h]

theorem standing_of_begins {cs rest : List Char} {t : Token} (h : Begins cs t rest) (ht : t ≠ .eof) (k : Nat) :
    standing k cs = ⟨t, scan true rest, k⟩ := by
  rw [standing, scan_of_begins h ht]
  rfl

theorem standing_of_begins_eof {cs rest : List Char} (h : Begins cs .eof rest) (k : Nat) :
    standing k cs = ⟨.eof, [], k⟩ := by
  rw [standing, scan_of_begins_eof h]
  rfl

theorem cur_standing {cs rest : List Char} {t : Token} (h : Begins cs t rest) (k : Nat) : (standing k cs).cur = t := by
  by_cases ht : t = .eof
  · subst ht
    rw [standing_of_begins_eof h]
  · rw [standing_of_begins h ht]

/-- Whether the first item adjoins what came before is not seen by passing to it. -/
theorem advance_scan {cs rest : List Char} {t : Token} (h : Begins cs t rest) (u : Token) (adjoins : Bool) (k : Nat) :
    advance ⟨u, scan adjoins cs, k⟩ = .ok () (standing k cs) := by
  by_cases ht : t = .eof
  · subst ht
    rw [standing_of_begins_eof h, scan_of_begins_eof h]
    rfl
  · rw [standing_of_begins h ht, scan_of_begins h ht]
    rfl

/-- On a text the reader gives `a` and stops before `rest`. -/
def Reads {α : Type} (x : Parse α) (cs : List Char) (a : α) (rest : List Char) : Prop :=
  ∀ k, x (standing k cs) = .ok a (standing k rest)

namespace Reads

variable {α β : Type} {x : Parse α} {f : α → Parse β} {a : α} {b : β} {cs mid rest : List Char} {t u : Token}

theorem pure (a : α) (cs : List Char) : Reads (Pure.pure a) cs a cs := fun _ => rfl

theorem bind (h : Reads x cs a mid) (hf : Reads (f a) mid b rest) : Reads (x >>= f) cs b rest := fun k =>
  (bind_of_ok (h k)).trans (hf k)

theorem map (h : Reads x cs a rest) (g : α → β) : Reads (g <$> x) cs (g a) rest := h.bind (.pure (g a) rest)

theorem space (h : Reads x cs a rest) : Reads x (' ' :: cs) a rest := fun k => by
  rw [standing_space]
  exact h k

theorem advance (h : Begins cs t mid) (ht : t ≠ .eof) (hmid : Begins mid u rest) : Reads advance cs () mid := fun k => by
  rw [standing_of_begins h ht]
  exact advance_scan hmid t true k

theorem current (h : Begins cs t mid) : Reads current cs t cs := fun k =>
  congrArg (EStateM.Result.ok · (standing k cs)) (cur_standing h k)

theorem expect (h : Begins cs t mid) (ht : t ≠ .eof) (hmid : Begins mid u rest) (e : ParseError) :
    Reads (expect t e) cs () mid := by
  refine (current h).bind ?_
  rw [if_pos rfl]
  exact advance h ht hmid

theorem passIf (h : Begins cs t mid) (ht : t ≠ .eof) (hmid : Begins mid u rest) : Reads (passIf t) cs () mid := by
  refine (current h).bind ?_
  rw [if_pos rfl]
  exact advance h ht hmid

theorem passIf_of_ne (h : Begins cs t mid) (htu : t ≠ u) : Reads (Parser.passIf u) cs () cs := by
  refine (current h).bind ?_
  rw [if_neg htu]
  exact pure _ _

end Reads

/-! ## Operators in a text -/

theorem longest?_cons {c : Char} {cs : List Char} {op : String} (h : Operator.longest? (c :: cs) = some op) :
    op ∈ Operator.spellings ∧ op.toList.head? = some c := by
  refine ⟨by simpa [Operator.isSpelling] using List.find?_some h, ?_⟩
  obtain ⟨n, hn, rfl⟩ := List.mem_map.mp (List.mem_of_find?_eq_some h)
  obtain ⟨m, rfl⟩ : ∃ m, n = m + 1 := ⟨n - 1, by simp at hn; omega⟩
  simp

theorem longest?_spelling : ∀ op ∈ Operator.spellings, Operator.longest? op.toList = some op := by decide

theorem standsAlone_spelling {op : String} (hop : op ∈ Operator.spellings) : ∀ c ∈ op.toList, standsAlone c = true := by
  have hall : Operator.spellings.all (fun op => op.toList.all standsAlone) = true := by decide
  exact List.all_eq_true.mp (List.all_eq_true.mp hall op hop)

theorem glued_scan_false (n : Nat) (cs : List Char) : glued n (scan false cs) = [] := by
  by_cases h : (first cs).1 = .ok .eof
  · rw [scan, scanWithin_eof h]
    cases n <;> rfl
  · rw [scan_cons h, Bool.false_and]
    cases n <;> simp [glued]

/-- Punctuation without gaps, before a space. -/
theorem glued_scan {cs : List Char} (hcs : ∀ c ∈ cs, standsAlone c = true) {n : Nat} (hn : cs.length ≤ n)
    (rest : List Char) : glued n (scan true (cs ++ ' ' :: rest)) = cs := by
  induction cs generalizing n with
  | nil => rw [List.nil_append, scan_space, glued_scan_false]
  | cons c cs ih =>
    obtain ⟨m, rfl⟩ : ∃ m, n = m + 1 := ⟨n - 1, by simp at hn; omega⟩
    have hc := hcs c (.head _)
    have hsolid := isSolid_of_standsAlone hc
    have hcons : scan true (c :: (cs ++ ' ' :: rest)) = ⟨.ok (.punct c), true⟩ :: scan true (cs ++ ' ' :: rest) := by
      rw [scan_of_begins (begins_punct hc _) (by simp), splitTrivia_solid hsolid]
      rfl
    rw [List.cons_append, hcons, glued, ih (fun d hd => hcs d (.tail _ hd)) (by simpa using hn)]

theorem operator?_standing {op : String} (hop : op ∈ Operator.spellings) (rest : List Char) (k : Nat) :
    (standing k (op.toList ++ ' ' :: rest)).operator? = some op := by
  have halone := standsAlone_spelling hop
  have hlong := longest?_spelling op hop
  have hlen : op.toList.length ≤ 3 := (by decide : ∀ op ∈ Operator.spellings, op.toList.length ≤ 3) op hop
  cases hcs : op.toList with
  | nil =>
    rw [hcs] at hlong
    cases hlong
  | cons c cs =>
    rw [hcs] at halone hlong hlen
    have hc := begins_punct (halone c (.head _)) (cs ++ ' ' :: rest)
    rw [List.cons_append, standing_of_begins hc (by simp)]
    have hglued := glued_scan (fun d hd => halone d (.tail _ hd)) (n := 2) (Nat.le_of_succ_le_succ hlen) rest
    simp only [operator?]
    rw [show Operator.longestLength - 1 = 2 from rfl, hglued, hlong]

theorem begins_operator {op : String} (hop : op ∈ Operator.spellings) (rest : List Char) :
    ∃ c next, Begins (op.toList ++ rest) (.punct c) next ∧ Token.punct c ≠ .punct '(' := by
  have halone := standsAlone_spelling hop
  have hfirst : ∀ op ∈ Operator.spellings, op.toList ≠ [] ∧ '(' ∉ op.toList := by decide
  obtain ⟨hne, hparen⟩ := hfirst op hop
  obtain ⟨c, cs, hcs⟩ := List.exists_cons_of_ne_nil hne
  rw [hcs] at halone hparen ⊢
  refine ⟨c, cs ++ rest, begins_punct (halone c (.head _)) _, fun h => ?_⟩
  cases h
  exact hparen (.head _)

theorem reads_advanceBy {cs rest : List Char} {t : Token} {next : List Char} (hcs : ∀ c ∈ cs, standsAlone c = true)
    (hrest : Begins rest t next) : Reads (advanceBy cs.length) (cs ++ rest) () rest := by
  induction cs with
  | nil => exact .pure _ _
  | cons c cs ih =>
    have hcs' : ∀ d ∈ cs, standsAlone d = true := fun d hd => hcs d (.tail _ hd)
    have hc := begins_punct (hcs c (.head _)) (cs ++ rest)
    have hnext : ∃ u next', Begins (cs ++ rest) u next' := by
      cases cs with
      | nil => exact ⟨t, next, hrest⟩
      | cons d ds => exact ⟨_, _, begins_punct (hcs' d (.head _)) (ds ++ rest)⟩
    obtain ⟨u, next', hnext⟩ := hnext
    exact (Reads.advance hc (by simp) hnext).bind (ih hcs')

end Parser

end Kaleidoscope
