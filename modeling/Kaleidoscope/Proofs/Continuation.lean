/-
  Kaleidoscope.Proofs.Continuation — expressions that are not the end of their text.

  A text is read as an expression, to its end. Put a terminator after it, and whatever may
  follow a terminator: what is the same, and what is not? The reader makes the same moves,
  and where it came to the end of input it now comes to the terminator. But conditionals and
  loops take a terminator, also one that is not there; so if the last thing read was one of
  them, the terminator is taken, and the reader stands behind it. If there is an operator
  with a precedence, it goes on.

  `beyond` is where the reader stands in the longer text, given where it stands in the
  shorter one and whether the terminator was taken. `Carries` says of a reader that it
  follows from there: it keeps in step, or it has gone on behind the terminator, and then
  what follows the terminator weighs more than what is left of it. There is one lemma for
  each way to put readers together.
  - `expression_carried`: an expression is followed in this way, and whether the terminator
    is taken does not depend on what comes after it.
  - `expression_ne`: a reader that went on gives another expression.
-/

import Kaleidoscope.Proofs.Contents

namespace Kaleidoscope.Parser

open Source

variable {α β : Type} {ops : Operator.Precedences} {p q : Parser} {s : Nat} {past : Bool}

/-! ## Where a reader stands -/

/-- By passing tokens, each of them read without an error, the one parser comes to be the
    other. -/
def Clears : Parser → Parser → Prop := Relation.ReflTransGen fun p q => advance p = .ok () q

/-- A parser with no more than `s` left to read, which has the end of input at its end only. -/
structure Fits (s : Nat) (p : Parser) : Prop where
  size : p.size ≤ s
  eof : p.cur = .eof → p.rest = []
  items : ∀ i ∈ p.rest, i.reading ≠ .ok .eof

theorem Fits.mono {t : Nat} (h : Fits s p) (hst : s ≤ t) : Fits t p := ⟨Nat.le_trans h.size hst, h.eof, h.items⟩

theorem Fits.size_eq_zero (h : Fits s p) (hcur : p.cur = .eof) : p.size = 0 := by
  have hrest := h.eof hcur
  obtain ⟨cur, rest, wrapped⟩ := p
  cases hcur
  cases hrest
  rfl

theorem size_of_cur (h : p.cur ≠ .eof) : p.size = p.rest.length + 1 := by
  obtain ⟨cur, rest, wrapped⟩ := p
  cases cur with
  | eof => exact absurd rfl h
  | _ => cases rest <;> rfl

theorem Fits.advance (h : Fits s p) (hadvance : advance p = .ok () q) : Fits s q := by
  have hsize := advance_shrinks p
  rw [hadvance] at hsize
  refine ⟨Nat.le_trans hsize h.size, fun hq => ?_, fun i hi => ?_⟩
  · obtain ⟨cur, _ | ⟨⟨reading, adjoins⟩, rest⟩, wrapped⟩ := p
    · cases hadvance
      rfl
    · cases reading with
      | error e => cases hadvance
      | ok t =>
        cases hadvance
        exact absurd (congrArg Except.ok hq) (h.items _ (.head _))
  · obtain ⟨cur, _ | ⟨⟨reading, adjoins⟩, rest⟩, wrapped⟩ := p
    · cases hadvance
      cases hi
    · cases reading with
      | error e => cases hadvance
      | ok t =>
        cases hadvance
        exact h.items i (.tail _ hi)

theorem Fits.clears (h : Fits s p) (hpq : Clears p q) : Fits s q := by
  induction hpq with
  | refl => exact h
  | tail _ hstep ih => exact ih.advance hstep

/-- All that was passed could be read. -/
theorem Clears.readable (h : Clears p q) (hq : q.rest = []) : ∀ i ∈ p.rest, ∃ t, i.reading = .ok t := by
  induction h using Relation.ReflTransGen.head_induction_on with
  | refl => simp [hq]
  | @head p r hstep _ ih =>
    obtain ⟨cur, _ | ⟨⟨reading, adjoins⟩, rest⟩, wrapped⟩ := p
    · simp
    · cases reading with
      | error e => cases hstep
      | ok t =>
        cases hstep
        simpa using ih

/-! ## The longer text -/

/-- The parser whose current token is the first of the items. -/
def entered (items : List Item) : Parser := left (advance { rest := items })

/-- What comes after a terminator: what an expression begins with, or the end of a block. -/
def GoesOn (ys : List Item) : Prop :=
  ∃ t adjoins zs, ys = ⟨.ok t, adjoins⟩ :: zs ∧ t ≠ .terminator ∧ t ≠ .keyword .thenWord ∧ t ≠ .keyword .elseWord

/-- What does not go on with the expression before the terminator. -/
def Inert (ops : Operator.Precedences) (ys : List Item) : Prop := (entered ys).precedence? ops = none

/-- The same place in the text that goes on with a terminator and `ys`; at its end `past`
    says whether the terminator was taken. -/
def beyond (ys : List Item) (past : Bool) (p : Parser) : Parser :=
  if p.cur = .eof then
    if past then left (advance ⟨.terminator, ys, p.wrapped⟩) else ⟨.terminator, ys, p.wrapped⟩
  else { p with rest := p.rest ++ ⟨.ok .terminator, false⟩ :: ys }

/-- Of `ys` nothing is seen before the terminator was taken. -/
def Quiet (ys : List Item) (past : Bool) (p : Parser) : Prop := p.cur = .eof → past = true → GoesOn ys

/-- What a reader does in the longer text, if it gives `a` and stands at `q` in the shorter
    one: the same, or it has taken an operator behind the terminator and what follows that. -/
def Tracks (ops : Operator.Precedences) (ys : List Item) (a : α) (past : Bool) (q : Parser)
    (result : EStateM.Result ReadError Parser α) : Prop :=
  result = .ok a (beyond ys past q) ∨
    (q.cur = .eof ∧ past = true) ∧ ¬Inert ops ys ∧ ∀ b r, result = .ok b r → r.weight < Source.weight ys

variable {ys : List Item}

theorem beyond_of_ne (h : p.cur ≠ .eof) (ys : List Item) (past : Bool) :
    beyond ys past p = { p with rest := p.rest ++ ⟨.ok .terminator, false⟩ :: ys } := if_neg h

theorem beyond_stopped (h : p.cur = .eof) (ys : List Item) : beyond ys false p = ⟨.terminator, ys, p.wrapped⟩ := by
  rw [beyond, if_pos h]
  rfl

theorem cur_beyond (h : p.cur ≠ .eof) : (beyond ys past p).cur = p.cur := by rw [beyond_of_ne h]

theorem not_goesOn_nil : ¬GoesOn [] := nofun

/-- Behind the terminator. -/
theorem GoesOn.beyond_past (h : GoesOn ys) (hcur : p.cur = .eof) :
    advance ⟨.terminator, ys, p.wrapped⟩ = .ok () (beyond ys true p) ∧
      (beyond ys true p).cur ≠ .terminator ∧ (beyond ys true p).cur ≠ .keyword .thenWord ∧
      (beyond ys true p).cur ≠ .keyword .elseWord := by
  obtain ⟨t, adjoins, zs, rfl, hterminator, hthen, helse⟩ := h
  have hbeyond : beyond (⟨.ok t, adjoins⟩ :: zs) true p = ⟨t, zs, p.wrapped⟩ := by
    rw [beyond, if_pos hcur]
    rfl
  rw [hbeyond]
  exact ⟨rfl, hterminator, hthen, helse⟩

theorem GoesOn.weight_beyond (h : GoesOn ys) (hcur : p.cur = .eof) : (beyond ys true p).weight = Source.weight ys := by
  obtain ⟨t, adjoins, zs, rfl, -⟩ := h
  rw [beyond, if_pos hcur, weight_cons_ok]
  rfl

theorem GoesOn.precedence?_beyond (h : GoesOn ys) (hcur : p.cur = .eof) :
    (beyond ys true p).precedence? ops = (entered ys).precedence? ops := by
  obtain ⟨t, adjoins, zs, rfl, -⟩ := h
  rw [beyond, if_pos hcur]
  rfl

theorem glued_append (n : Nat) (items : List Item) (adjoins : Bool) (ys : List Item) :
    glued n (items ++ ⟨.ok .terminator, adjoins⟩ :: ys) = glued n items := by
  induction items generalizing n with
  | nil => cases n <;> rfl
  | cons i items ih =>
    cases n with
    | zero => rfl
    | succ n =>
      obtain ⟨reading, a⟩ := i
      rcases reading with e | t
      · rfl
      · cases t with
        | punct c =>
          cases a with
          | true => simp only [List.cons_append, glued, ih]
          | false => rfl
        | _ => rfl

theorem operator?_beyond (h : p.cur ≠ .eof) : (beyond ys past p).operator? = p.operator? := by
  rw [beyond_of_ne h]
  simp only [operator?, glued_append]

theorem precedence?_beyond (h : p.cur ≠ .eof) : (beyond ys past p).precedence? ops = p.precedence? ops := by
  rw [precedence?, operator?_beyond h, precedence?]

theorem Fits.precedence?_eof (hp : Fits s p) (hcur : p.cur = .eof) : p.precedence? ops = none := by
  rw [precedence?, operator?_at_end (hp.size_eq_zero hcur), Option.bind_none]

theorem size_beyond (h : p.cur ≠ .eof) : (beyond ys past p).size ≤ p.size + ys.length + 1 := by
  have hsize := size_le (beyond ys past p)
  rw [beyond_of_ne h] at hsize ⊢
  rw [size_of_cur h]
  simp only [List.length_append, List.length_cons] at hsize
  omega

theorem weight_beyond (h : p.cur ≠ .eof) : (beyond ys past p).weight = p.weight + Source.weight ys := by
  rw [beyond_of_ne h]
  simp only [weight, weight_append, weight_cons_ok, Token.weight]
  omega

/-- A token that is passed in the one text is passed in the other. -/
theorem advance_beyond (hp : Fits s p) (hcur : p.cur ≠ .eof) (h : advance p = .ok () q) :
    advance (beyond ys past p) = .ok () (beyond ys false q) := by
  rw [beyond_of_ne hcur]
  obtain ⟨cur, _ | ⟨⟨reading, adjoins⟩, rest⟩, wrapped⟩ := p
  · cases h
    rfl
  · cases reading with
    | error e => cases h
    | ok t =>
      have ht : t ≠ .eof := fun ht => hp.items _ (.head _) (congrArg Except.ok ht)
      cases h
      rw [beyond_of_ne ht]
      rfl

/-! ## Readers that only go on -/

/-- A reader that passes tokens and does nothing else. -/
class Moves (x : Parse α) : Prop where
  same : ∀ s, Same s x x

namespace Moves

variable {x y : Parse α} {f : α → Parse β}

theorem weight_le [h : Moves x] {a : α} (hx : x p = .ok a q) : q.weight ≤ p.weight := by
  have hreaches := (h.same p.size).moves p (Nat.le_refl _)
  rw [hx] at hreaches
  exact hreaches.weight_le

theorem size_le [h : Moves x] {a : α} (hx : x p = .ok a q) : q.size ≤ p.size := by
  have hshrinks := (h.same p.size).shrinks p (Nat.le_refl _)
  rw [hx] at hshrinks
  exact hshrinks

instance (a : α) : Moves (Pure.pure a : Parse α) := ⟨fun _ => .pure a⟩

instance (e : ParseError) : Moves (Parser.fail e : Parse α) := ⟨fun _ => .fail e⟩

instance [hx : Moves x] [hf : ∀ a, Moves (f a)] : Moves (x >>= f) := ⟨fun s => (hx.same s).bind fun a => (hf a).same s⟩

instance (c : Prop) [Decidable c] [hx : Moves x] [hy : Moves y] : Moves (if c then x else y) :=
  ⟨fun s => .ite (hx.same s) (hy.same s)⟩

instance : Moves advance := ⟨fun _ => .advance_self⟩

instance : Moves current := ⟨fun _ => Same.current fun t => .pure t⟩

instance (t : Token) (e : ParseError) : Moves (expect t e) := ⟨fun _ => .expect t e⟩

instance (t : Token) : Moves (passIf t) := ⟨fun _ => .passIf t⟩

instance (k : Nat) : Moves (advanceBy k) := ⟨fun _ => .advanceBy k⟩

instance [hx : Moves x] (f : α → β) : Moves (f <$> x) := ⟨fun s => (hx.same s).bind fun a => .pure (f a)⟩

instance : Moves memberEnd := by
  refine ⟨fun _ => Same.current fun t => ?_⟩
  split
  · exact .advance_self
  · exact .pure ()
  · exact .fail _

/-- What follows an argument. -/
theorem argumentEnd (e : Expr) (x : Parse (List Expr)) [Moves x] :
    Moves (do
      match ← current with
      | .punct ')' => pure [e]
      | .punct ',' => do
        advance
        let es ← x
        pure (e :: es)
      | _ => fail .argumentSeparator : Parse (List Expr)) := by
  refine ⟨fun s => Same.current fun t => ?_⟩
  split
  · exact .pure [e]
  · exact same s
  · exact .fail _

instance (nested : Parse Expr) [h : Moves nested] (k : Nat) : Moves (argumentsWithin nested k) := by
  induction k with
  | zero => exact ⟨fun _ => .fail _⟩
  | succ k ih => exact ⟨fun s => (h.same s).bind fun e => (argumentEnd e _).same s⟩

instance (nested : Parse Expr) [h : Moves nested] (k : Nat) : Moves (membersWithin nested k) := by
  induction k with
  | zero => exact ⟨fun _ => .fail _⟩
  | succ k ih =>
    refine ⟨fun s => Same.current fun t => ?_⟩
    split
    · exact .pure []
    · exact .fail _
    · exact same s

instance (ops : Operator.Precedences) : Moves (expression ops) := ⟨expression_same ops⟩

instance (ops : Operator.Precedences) : Moves (operand ops) := ⟨operand_same_self ops⟩

instance (ops : Operator.Precedences) (least : Nat) (lhs : Expr) : Moves (climb ops least lhs) := by
  refine ⟨fun s => ⟨fun _ _ => rfl, fun p _ => ?_⟩⟩
  exact (climb_same (operand_same_self ops p.size) (Nat.le_refl _) (Nat.le_refl _) least lhs).moves p (Nat.le_refl _)

instance (ops : Operator.Precedences) (prec : Nat) (rhs : Expr) : Moves (tighter ops (climb ops) prec rhs) :=
  ⟨fun s => tighter_same (fun _ _ => same s) prec rhs⟩

end Moves

/-! ## Readers in step -/

/-- If the one reader succeeds in the shorter text, it does nothing but pass tokens, and the
    other follows it in the longer one. -/
def Carries (ops : Operator.Precedences) (p : Parser) (past : Bool) (x : Parse α) (y : List Item → Parse α) : Prop :=
  ∀ a q, x p = .ok a q →
    Clears p q ∧ ∃ past', ∀ ys, Quiet ys past' q →
      Quiet ys past p ∧ Tracks ops ys a past' q (y ys (beyond ys past p))

/-- In step from everywhere that fits. -/
def Carried (ops : Operator.Precedences) (s : Nat) (x : Parse α) : Prop :=
  ∀ p past, Fits s p → Carries ops p past x fun _ => x

theorem fail_ne {e : ParseError} (a : α) (q : Parser) : (fail e : Parse α) p ≠ .ok a q := by
  intro h
  cases h

namespace Carries

variable {x x' : Parse α} {y y' : List Item → Parse α} {f : α → Parse β} {g : List Item → α → Parse β} {t : Token}

theorem pure (a : α) : Carries ops p past (Pure.pure a) fun _ => Pure.pure a := by
  intro b q h
  cases h
  exact ⟨.refl, past, fun _ hys => ⟨hys, .inl rfl⟩⟩

/-- A reader that fails in the shorter text may do anything in the longer one. -/
theorem of_error (h : ∀ a q, x p ≠ .ok a q) : Carries ops p past x y := fun a q hx => absurd hx (h a q)

/-- Readers that do here what other readers do. -/
theorem of_run (hx : x p = x' p) (hy : ∀ ys, Quiet ys past p → y ys (beyond ys past p) = y' ys (beyond ys past p))
    (h : Carries ops p past x' y') : Carries ops p past x y := by
  intro a q ha
  obtain ⟨hpq, past', hok⟩ := h a q (hx ▸ ha)
  refine ⟨hpq, past', fun ys hys => ?_⟩
  obtain ⟨hquiet, htracks⟩ := hok ys hys
  exact ⟨hquiet, hy ys hquiet ▸ htracks⟩

theorem fail (e : ParseError) : Carries ops p past (Parser.fail e : Parse α) y := of_error fail_ne

/-- A reader that went on after the terminator does not come back. -/
theorem bind (hp : Fits s p) (hx : Carries ops p past x y)
    (hf : ∀ a q past', x p = .ok a q → Fits s q → Carries ops q past' (f a) fun ys => g ys a)
    [∀ ys a, Moves (g ys a)] : Carries ops p past (x >>= f) fun ys => y ys >>= g ys := by
  intro b r h
  obtain ⟨a, q, ha, hb⟩ := bind_ok_iff.mp h
  obtain ⟨hpq, past₁, hy⟩ := hx a q ha
  obtain ⟨hqr, past₂, hg⟩ := hf a q past₁ ha (hp.clears hpq) b r hb
  refine ⟨hpq.trans hqr, past₂, fun ys hys => ?_⟩
  obtain ⟨hquiet₁, htracks₂⟩ := hg ys hys
  obtain ⟨hquiet, hrun | ⟨⟨hcur, rfl⟩, hinert, hwent⟩⟩ := hy ys hquiet₁
  · refine ⟨hquiet, ?_⟩
    show Tracks ops ys b past₂ r ((y ys >>= g ys) (beyond ys past p))
    rw [bind_of_ok hrun]
    exact htracks₂
  · have hend : r.cur = .eof ∧ past₂ = true := Decidable.byContradiction fun hend =>
      absurd ((hg [] fun hr hpast => absurd ⟨hr, hpast⟩ hend).1 hcur rfl) not_goesOn_nil
    refine ⟨hquiet, .inr ⟨hend, hinert, fun b' r' hb' => ?_⟩⟩
    obtain ⟨a', q', ha', hb'⟩ := bind_ok_iff.mp hb'
    exact Nat.lt_of_le_of_lt (Moves.weight_le hb') (hwent a' q' ha')

theorem map (hp : Fits s p) (hx : Carries ops p past x y) (f : α → β) :
    Carries ops p past (f <$> x) fun ys => f <$> y ys := by
  have hbind : Carries ops p past (x >>= fun a => Pure.pure (f a)) fun ys => y ys >>= fun a => Pure.pure (f a) :=
    bind hp hx fun a _ _ _ _ => pure (f a)
  exact hbind

/-- After a token was passed, a terminator that is next was not taken. -/
theorem advance {f : Unit → Parse β} {g : List Item → Unit → Parse β} (hp : Fits (s + 1) p) (hcur : p.cur ≠ .eof)
    (hf : ∀ q, Fits s q → Carries ops q false (f ()) fun ys => g ys ()) :
    Carries ops p past (Parser.advance >>= f) fun ys => Parser.advance >>= g ys := by
  intro b r h
  obtain ⟨⟨⟩, q, hq, hb⟩ := bind_ok_iff.mp h
  have hlt := size_advance p (size_pos_of_cur hcur)
  rw [hq] at hlt
  have hsize : q.size ≤ s := Nat.le_of_lt_succ (Nat.lt_of_lt_of_le hlt hp.size)
  have hfits := hp.advance hq
  obtain ⟨hqr, past', hg⟩ := hf q ⟨hsize, hfits.eof, hfits.items⟩ b r hb
  refine ⟨.head hq hqr, past', fun ys hys => ⟨fun heof => absurd heof hcur, ?_⟩⟩
  show Tracks ops ys b past' r ((Parser.advance >>= g ys) (beyond ys past p))
  rw [bind_of_ok (advance_beyond hp hcur hq)]
  exact (hg ys hys).2

theorem advance_last (hp : Fits s p) (hcur : p.cur ≠ .eof) : Carries ops p past Parser.advance fun _ => Parser.advance := by
  intro _ q hq
  exact ⟨.single hq, false, fun ys _ => ⟨fun heof => absurd heof hcur, .inl (advance_beyond hp hcur hq)⟩⟩

/-- A reader that looks at the current token, and cannot do with the end of input. -/
theorem look {f : Token → Parse β} {g : List Item → Token → Parse β} (hend : p.cur = .eof → ∀ b q, f .eof p ≠ .ok b q)
    (hf : ∀ t, p.cur = t → t ≠ .eof → Carries ops p past (f t) fun ys => g ys t) :
    Carries ops p past (Parser.current >>= f) fun ys => Parser.current >>= g ys := by
  intro b q h
  have hfp : f p.cur p = .ok b q := h
  by_cases hcur : p.cur = .eof
  · rw [hcur] at hfp
    exact absurd hfp (hend hcur b q)
  · obtain ⟨hpq, past', hg⟩ := hf p.cur rfl hcur b q hfp
    refine ⟨hpq, past', fun ys hys => ⟨(hg ys hys).1, ?_⟩⟩
    show Tracks ops ys b past' q (g ys (beyond ys past p).cur (beyond ys past p))
    rw [cur_beyond hcur]
    exact (hg ys hys).2

/-- A reader that asks for one token, which is not what comes after the shorter text. -/
theorem test (ht : t ≠ .eof) (hend : p.cur = .eof → ∀ ys, Quiet ys past p → (beyond ys past p).cur ≠ t)
    (hyes : p.cur = t → Carries ops p past x y) (hno : Carries ops p past x' y') :
    Carries ops p past (Parser.current >>= fun u => if u = t then x else x')
      fun ys => Parser.current >>= fun u => if u = t then y ys else y' ys := by
  have hrun : (Parser.current >>= fun u => if u = t then x else x') p = (if p.cur = t then x else x') p := rfl
  by_cases hpt : p.cur = t
  · have hcur : p.cur ≠ .eof := hpt ▸ ht
    rw [if_pos hpt] at hrun
    refine of_run hrun (fun ys _ => ?_) (hyes hpt)
    show (if (beyond ys past p).cur = t then y ys else y' ys) (beyond ys past p) = _
    rw [cur_beyond hcur, if_pos hpt]
  · rw [if_neg hpt] at hrun
    refine of_run hrun (fun ys hys => ?_) hno
    show (if (beyond ys past p).cur = t then y ys else y' ys) (beyond ys past p) = _
    by_cases hcur : p.cur = .eof
    · rw [if_neg (hend hcur ys hys)]
    · rw [cur_beyond hcur, if_neg hpt]

/-- Right after a token was passed, what comes after the shorter text is its terminator. -/
theorem test_fresh (ht : t ≠ .eof) (ht' : t ≠ .terminator) (hyes : p.cur = t → Carries ops p false x y)
    (hno : Carries ops p false x' y') :
    Carries ops p false (Parser.current >>= fun u => if u = t then x else x')
      fun ys => Parser.current >>= fun u => if u = t then y ys else y' ys := by
  refine test ht (fun hcur ys _ => ?_) hyes hno
  rw [beyond_stopped hcur]
  exact ht'.symm

theorem expect (hp : Fits s p) (ht : t ≠ .eof) (e : ParseError) :
    Carries ops p past (Parser.expect t e) fun _ => Parser.expect t e := by
  refine look (fun _ => ?_) fun u hu hne => ?_
  · rw [if_neg ht.symm]
    exact fail_ne
  · by_cases hut : u = t
    · simp only [if_pos hut]
      exact advance_last hp (hu ▸ hne)
    · simp only [if_neg hut]
      exact .fail e

theorem passIf_then (hp : Fits s p) :
    Carries ops p past (Parser.passIf (.keyword .thenWord)) fun _ => Parser.passIf (.keyword .thenWord) := by
  refine test Token.noConfusion (fun hcur ys hys => ?_) (fun hcur => ?_) (.pure ())
  · cases past with
    | false =>
      rw [beyond_stopped hcur]
      exact Token.noConfusion
    | true => exact ((hys hcur rfl).beyond_past hcur).2.2.1
  · exact advance_last hp (hcur ▸ Token.noConfusion)

/-- The end of a conditional or a loop: here the terminator after the text is taken. -/
theorem passIf_terminator (hp : Fits s p) :
    Carries ops p past (Parser.passIf .terminator) fun _ => Parser.passIf .terminator := by
  by_cases hcur : p.cur = .eof
  · intro a q h
    have hrun : ((if p.cur = .terminator then Parser.advance else Pure.pure ()) : Parse Unit) p = .ok a q := h
    rw [hcur] at hrun
    cases hrun
    refine ⟨.refl, true, fun ys hys => ⟨fun _ _ => hys hcur rfl, .inl ?_⟩⟩
    obtain ⟨hadvance, hne, -⟩ := (hys hcur rfl).beyond_past hcur
    show ((if (beyond ys past p).cur = .terminator then Parser.advance else Pure.pure ()) : Parse Unit)
      (beyond ys past p) = _
    cases past with
    | false =>
      rw [beyond_stopped hcur]
      exact hadvance
    | true =>
      rw [if_neg hne]
      rfl
  · refine test Token.noConfusion (fun h => absurd h hcur) (fun _ => ?_) (.pure ())
    exact advance_last hp hcur

end Carries

/-! ## Parentheses, variables, conditionals, loops -/

section

variable {nested : Parse Expr}

theorem parenthesis_carries (hnested : Carried ops s nested) (hp : Fits (s + 1) p) (hcur : p.cur ≠ .eof) :
    Carries ops p past (parenthesis nested) fun _ => parenthesis nested := by
  refine .advance hp hcur fun q hq => .bind hq (hnested q false hq) fun e r past₁ _ hr => ?_
  exact .bind hr (.expect hr Token.noConfusion _) fun _ _ _ _ _ => .pure e

theorem variableDecl_carries (hnested : Carried ops s nested) (hp : Fits (s + 1) p) (hcur : p.cur ≠ .eof) :
    Carries ops p past (variableDecl nested) fun _ => variableDecl nested := by
  refine .advance hp hcur fun q hq => .look (fun _ => fail_ne) fun t ht hne => ?_
  split
  · refine .advance (hq.mono (Nat.le_succ s)) (ht ▸ hne) fun r hr => ?_
    refine .test_fresh Token.noConfusion Token.noConfusion (fun hassign => ?_) (.pure _)
    refine .advance (hr.mono (Nat.le_succ s)) (hassign ▸ Token.noConfusion) fun r' hr' => ?_
    exact .bind hr' (hnested r' false hr') fun init _ _ _ _ => .pure _
  · exact .fail _

theorem loopBody_carried (hnested : Carried ops s nested) (f : Expr → Expr) : Carried ops s (loopBody nested f) := by
  intro p past hp
  refine .look (fun _ => fail_ne) fun t ht hne => ?_
  by_cases hbrace : t = .punct '{'
  · simp only [if_pos hbrace]
    refine .bind hp (hnested p past hp) fun body q past₁ _ hq => ?_
    exact .bind hq (.passIf_terminator hq) fun _ _ _ _ _ => .pure _
  · simp only [if_neg hbrace]
    exact .fail _

variable [Moves nested]

/-- What follows the first branch of a conditional. -/
def secondBranch (nested : Parse Expr) (test yes : Expr) : Parse Expr := do
  passIf .terminator
  if (← current) = .keyword .elseWord then
    advance
    let no ← nested
    passIf .terminator
    pure (.cond test yes (some no))
  else pure (.cond test yes none)

theorem secondBranch_carried (hnested : Carried ops s nested) (test yes : Expr) :
    Carried ops s (secondBranch nested test yes) := by
  intro p past hp
  refine .bind hp (.passIf_terminator hp) fun _ q past₁ _ hq => ?_
  refine .test Token.noConfusion (fun hend ys hys => ?_) (fun helse => ?_) (.pure _)
  · cases past₁ with
    | false =>
      rw [beyond_stopped hend]
      exact Token.noConfusion
    | true => exact ((hys hend rfl).beyond_past hend).2.2.2
  · refine .advance (hq.mono (Nat.le_succ s)) (helse ▸ Token.noConfusion) fun r hr => ?_
    refine .bind hr (hnested r false hr) fun no r' past₂ _ hr' => ?_
    exact .bind hr' (.passIf_terminator hr') fun _ _ _ _ _ => .pure _

instance (test yes : Expr) : Moves (secondBranch nested test yes) := by
  unfold secondBranch
  infer_instance

theorem conditional_carries (hnested : Carried ops s nested) (hp : Fits (s + 1) p) (hcur : p.cur ≠ .eof) :
    Carries ops p past (conditional nested) fun _ => conditional nested := by
  have heq : conditional nested = (do
      advance
      let test ← nested
      passIf (.keyword .thenWord)
      let yes ← nested
      secondBranch nested test yes) := rfl
  rw [heq]
  refine .advance hp hcur fun q hq => .bind hq (hnested q false hq) fun test q₁ past₁ _ hq₁ => ?_
  refine .bind hq₁ (.passIf_then hq₁) fun _ q₂ past₂ _ hq₂ => .bind hq₂ (hnested q₂ past₂ hq₂) fun yes q₃ past₃ _ hq₃ => ?_
  exact secondBranch_carried hnested test yes q₃ past₃ hq₃

instance (f : Expr → Expr) : Moves (loopBody nested f) := by
  unfold loopBody
  infer_instance

/-- What follows the end value of a loop. -/
def stepAndBody (nested : Parse Expr) (f : Option Expr → Expr → Expr) : Parse Expr := do
  let step ← if (← current) = .punct '{' then pure none else some <$> nested
  loopBody nested (f step)

/-- Both without a step and with one, what is next is the body or a token that is refused. -/
theorem stepAndBody_carried (hnested : Carried ops s nested) (hend : StopsAtEnd nested) (f : Option Expr → Expr → Expr) :
    Carried ops s (stepAndBody nested f) := by
  intro p past hp
  simp only [stepAndBody]
  refine .look (fun heof => ?_) fun t ht hne => ?_
  · have hstop : (some <$> nested : Parse (Option Expr)) p = .error (.grammar .notAnExpression) p :=
      bind_of_error (hend p (hp.size_eq_zero heof))
    rw [if_neg Token.noConfusion, bind_of_error hstop]
    intro e q he
    cases he
  · by_cases hbrace : t = .punct '{'
    · simp only [if_pos hbrace]
      exact .bind hp (.pure none) fun step q past₁ _ hq => loopBody_carried hnested (f step) q past₁ hq
    · simp only [if_neg hbrace]
      exact .bind hp (.map hp (hnested p past hp) some) fun step q past₁ _ hq => loopBody_carried hnested (f step) q past₁ hq

instance (f : Option Expr → Expr → Expr) : Moves (stepAndBody nested f) := by
  simp only [stepAndBody]
  infer_instance

/-- A loop from its variable on. -/
def loopHead (nested : Parse Expr) (name : String) : Parse Expr := do
  advance
  expect (.punct '=') .loopAssignment
  let start ← nested
  expect .terminator .loopStartEnd
  let stop ← nested
  expect .terminator .loopStopEnd
  stepAndBody nested (.loop name start stop)

theorem loopHead_carries (hnested : Carried ops s nested) (hend : StopsAtEnd nested) (hp : Fits (s + 1) p)
    (hcur : p.cur ≠ .eof) (name : String) : Carries ops p past (loopHead nested name) fun _ => loopHead nested name := by
  refine .advance hp hcur fun q hq => .bind hq (.expect hq Token.noConfusion _) fun _ q₁ past₁ _ hq₁ => ?_
  refine .bind hq₁ (hnested q₁ past₁ hq₁) fun start q₂ past₂ _ hq₂ => ?_
  refine .bind hq₂ (.expect hq₂ Token.noConfusion _) fun _ q₃ past₃ _ hq₃ => ?_
  refine .bind hq₃ (hnested q₃ past₃ hq₃) fun stop q₄ past₄ _ hq₄ => ?_
  refine .bind hq₄ (.expect hq₄ Token.noConfusion _) fun _ q₅ past₅ _ hq₅ => ?_
  exact stepAndBody_carried hnested hend _ q₅ past₅ hq₅

theorem loop_carries (hnested : Carried ops s nested) (hend : StopsAtEnd nested) (hp : Fits (s + 1) p)
    (hcur : p.cur ≠ .eof) : Carries ops p past (loop nested) fun _ => loop nested := by
  refine .advance hp hcur fun q hq => .look (fun _ => fail_ne) fun t ht hne => ?_
  split
  · exact loopHead_carries hnested hend (hq.mono (Nat.le_succ s)) (ht ▸ hne) _
  · exact .fail _

/-! ## Arguments and members -/

/-- A loop that takes a turn in the shorter text takes one in the longer one. -/
theorem exists_turn {n : Nat} {m : List Item → Nat} (hm : ∀ ys, n + 1 ≤ m ys) :
    ∃ m' : List Item → Nat, (m = fun ys => m' ys + 1) ∧ ∀ ys, n ≤ m' ys := by
  refine ⟨fun ys => m ys - 1, funext fun ys => ?_, fun ys => Nat.le_sub_of_add_le (hm ys)⟩
  exact (Nat.sub_add_cancel (Nat.le_trans (Nat.succ_pos n) (hm ys))).symm

/-- A count that was enough in the shorter text is enough in the longer one. -/
theorem arguments_carries (hnested : Carried ops s nested) {n : Nat} {m : List Item → Nat} (hm : ∀ ys, n ≤ m ys)
    (hp : Fits s p) : Carries ops p past (argumentsWithin nested n) fun ys => argumentsWithin nested (m ys) := by
  induction n generalizing m p past with
  | zero => exact .fail _
  | succ n ih =>
    obtain ⟨m, rfl, hm'⟩ := exists_turn hm
    have : ∀ ys e, Moves _ := fun ys e => Moves.argumentEnd e (argumentsWithin nested (m ys))
    simp only [argumentsWithin]
    refine .bind hp (hnested p past hp) fun e q past₁ _ hq => .look (fun _ => fail_ne) fun t ht hne => ?_
    split
    · exact .pure _
    · refine .advance (hq.mono (Nat.le_succ s)) (ht ▸ hne) fun r hr => .bind hr (ih hm' hr) fun es r' past₂ _ _ => .pure _
    · exact .fail _

theorem memberEnd_carries (hp : Fits s p) : Carries ops p past memberEnd fun _ => memberEnd := by
  refine .look (fun _ => fail_ne) fun t ht hne => ?_
  split
  · exact .advance_last hp (ht ▸ hne)
  · exact .pure _
  · exact .fail _

theorem members_carries (hnested : Carried ops s nested) {n : Nat} {m : List Item → Nat} (hm : ∀ ys, n ≤ m ys)
    (hp : Fits s p) : Carries ops p past (membersWithin nested n) fun ys => membersWithin nested (m ys) := by
  induction n generalizing m p past with
  | zero => exact .fail _
  | succ n ih =>
    obtain ⟨m, rfl, hm'⟩ := exists_turn hm
    simp only [membersWithin]
    refine .look (fun _ => fail_ne) fun t ht hne => ?_
    split
    · exact .pure _
    · exact .fail _
    · refine .bind hp (hnested p past hp) fun e q past₁ _ hq => ?_
      have hrest : ∀ r past₂, Fits s r → Carries ops r past₂ (membersWithin nested n >>= fun es => pure (e :: es))
          fun ys => membersWithin nested (m ys) >>= fun es => pure (e :: es) :=
        fun r past₂ hr => .bind hr (ih hm' hr) fun es _ _ _ _ => .pure (e :: es)
      cases e.takesTerminator with
      | true => exact hrest q past₁ hq
      | false => exact .bind hq (memberEnd_carries hq) fun _ r past₂ _ hr => hrest r past₂ hr

/-! ## Operands -/

theorem reference_carries (hnested : Carried ops s nested) {n : Nat} {m : List Item → Nat} (hm : ∀ ys, n ≤ m ys)
    (hp : Fits (s + 1) p) (hcur : p.cur ≠ .eof) (name : String) :
    Carries ops p past (reference nested n name) fun ys => reference nested (m ys) name := by
  have hclose : ∀ es r past₁, Fits s r → r.cur = .punct ')' →
      Carries ops r past₁ (advance >>= fun _ => pure (Expr.call name es))
        fun _ => advance >>= fun _ => pure (.call name es) :=
    fun es r past₁ hr hparen => .bind hr (.advance_last hr (hparen ▸ Token.noConfusion)) fun _ _ _ _ _ => .pure _
  simp only [reference]
  refine .advance hp hcur fun q hq => .test_fresh Token.noConfusion Token.noConfusion (fun hopen => ?_) (.pure _)
  refine .advance (hq.mono (Nat.le_succ s)) (hopen ▸ Token.noConfusion) fun r hr => ?_
  refine .test_fresh Token.noConfusion Token.noConfusion (fun hparen => ?_) ?_
  · refine .bind hr (.pure []) fun args r' past₁ hargs hr' => hclose args r' past₁ hr' ?_
    cases hargs
    exact hparen
  · exact .bind hr (arguments_carries hnested hm hr) fun args r' past₁ hargs hr' =>
      hclose args r' past₁ hr' (arguments_close hargs)

theorem block_carries (hnested : Carried ops s nested) {n : Nat} {m : List Item → Nat} (hm : ∀ ys, n ≤ m ys)
    (hp : Fits (s + 1) p) (hcur : p.cur ≠ .eof) :
    Carries ops p past (block nested n) fun ys => block nested (m ys) := by
  refine .advance hp hcur fun q hq => .bind hq (members_carries hnested hm hq) fun es r past₁ hes hr => ?_
  exact .bind hr (.advance_last hr (members_close hes ▸ Token.noConfusion)) fun _ _ _ _ _ => .pure _

theorem primaryAt_carries (hnested : Carried ops s nested) (hend : StopsAtEnd nested) {n : Nat} {m : List Item → Nat}
    (hm : ∀ ys, n ≤ m ys) (hp : Fits (s + 1) p) (hcur : p.cur ≠ .eof) (t : Token) :
    Carries ops p past (primaryAt nested n t) fun ys => primaryAt nested (m ys) t := by
  unfold primaryAt
  split
  · exact reference_carries hnested hm hp hcur _
  · exact .advance hp hcur fun _ _ => .pure _
  · exact conditional_carries hnested hp hcur
  · exact loop_carries hnested hend hp hcur
  · exact variableDecl_carries hnested hp hcur
  · exact parenthesis_carries hnested hp hcur
  · exact block_carries hnested hm hp hcur
  · exact .fail _
  · exact .fail _

end

/-! ## Expressions -/

/-- What the reader of operands does at token `u`. -/
def operandAt (ops : Operator.Precedences) (n : Nat) (u : Token) : Parse Expr :=
  match unaryOperator? u with
  | some op => do
    advance
    let e ← operand ops
    pure (.unary op e)
  | none => primaryAt (expression ops) n u

theorem operand_carried (hexpression : Carried ops s (expression ops)) (hoperand : Carried ops s (operand ops)) :
    Carried ops (s + 1) (operand ops) := by
  intro p past hp
  by_cases hcur : p.cur = .eof
  · refine .of_error fun a q h => ?_
    rw [operand_stopsAtEnd ops p (hp.size_eq_zero hcur)] at h
    cases h
  · have hat : Carries ops p past (operandAt ops p.size p.cur) fun ys => operandAt ops (p.size + ys.length) p.cur := by
      unfold operandAt
      split
      · refine .advance hp hcur fun r hr => ?_
        exact .bind hr (hoperand r false hr) fun e _ _ _ _ => .pure _
      · exact primaryAt_carries hexpression (expression_stopsAtEnd ops) (fun ys => Nat.le_add_right _ _) hp hcur _
    refine .of_run (operand_run ops hcur (Nat.le_succ p.size)) (fun ys _ => ?_) hat
    have hne : (beyond ys past p).cur ≠ .eof := cur_beyond hcur ▸ hcur
    have hrun := operand_run ops hne (size_beyond hcur)
    rw [cur_beyond hcur] at hrun
    exact hrun

theorem length_glued (n : Nat) (items : List Item) : (glued n items).length ≤ items.length := by
  induction items generalizing n with
  | nil => cases n <;> exact Nat.le_refl _
  | cons i items ih =>
    unfold glued
    split
    · rename_i h
      cases h
      exact Nat.succ_le_succ (ih _)
    · exact Nat.zero_le _

/-- All of an operator is there to be passed. -/
theorem length_operator {op : String} (h : p.operator? = some op) : op.length ≤ p.size := by
  have hsize := size_of_cur (operator?_spec h).1
  unfold operator? at h
  split at h
  · have hglued := length_glued (Operator.longestLength - 1) p.rest
    obtain ⟨n, -, rfl⟩ := List.mem_map.mp (List.mem_of_find?_eq_some h)
    rw [String.length_ofList, List.length_take, List.length_cons]
    omega
  · cases h

theorem size_of_advance (hp : Fits s p) (hcur : p.cur ≠ .eof) (h : advance p = .ok () q) : p.size = q.size + 1 := by
  rw [size_of_cur hcur]
  obtain ⟨cur, _ | ⟨⟨reading, adjoins⟩, rest⟩, wrapped⟩ := p
  · cases h
    rfl
  · cases reading with
    | error e => cases h
    | ok t =>
      have ht : t ≠ .eof := fun ht => hp.items _ (.head _) (congrArg Except.ok ht)
      cases h
      rw [size_of_cur ht]
      rfl

theorem advanceBy_carries {k : Nat} (hp : Fits s p) (hk : k ≤ p.size) :
    Carries ops p past (advanceBy k) fun _ => advanceBy k := by
  induction k generalizing p past with
  | zero => exact .pure ()
  | succ k ih =>
    have hcur : p.cur ≠ .eof := fun hcur => by
      rw [hp.size_eq_zero hcur] at hk
      cases hk
    refine .bind hp (.advance_last hp hcur) fun _ q past₁ hq hfits => ih hfits ?_
    have hsize := size_of_advance hp hcur hq
    omega

theorem climb_of_precedence? (h : p.precedence? ops = none) (least : Nat) (lhs : Expr) :
    climb ops least lhs p = .ok lhs p := by
  rw [climb_run, h]
  cases p.operator? <;> rfl

/-- What follows an operand at an operator with a precedence. -/
def climbAt (ops : Operator.Precedences) (least : Nat) (lhs : Expr) (op : String) (prec : Nat) : Parse Expr :=
  if prec < least then pure lhs else operation ops (operand ops) (climb ops) prec op lhs least

theorem climb_at {op : String} {prec : Nat} (hop : p.operator? = some op) (hprec : p.precedence? ops = some prec)
    (least : Nat) (lhs : Expr) : climb ops least lhs p = climbAt ops least lhs op prec p := by
  rw [climb_run, hop, hprec, climbAt]
  simp only
  split
  · rfl
  · rfl

/-- What follows an operand leaves it alone or makes it part of an operation, and stops where
    nothing binds tightly enough. -/
theorem climb_ok {n least : Nat} {lhs e : Expr} (hn : p.size ≤ n) (h : climb ops least lhs p = .ok e q) :
    (e = lhs ∨ ∃ op l r, e = .binary op l r) ∧ ∀ prec, q.precedence? ops = some prec → prec < least := by
  have hidle : ∀ {p : Parser} {lhs : Expr}, p.precedence? ops = none → climb ops least lhs p = .ok e q →
      (e = lhs ∨ ∃ op l r, e = .binary op l r) ∧ ∀ prec, q.precedence? ops = some prec → prec < least := by
    intro p lhs hprec h
    rw [climb_of_precedence? hprec] at h
    cases h
    exact ⟨.inl rfl, fun prec hnext => absurd (hprec.symm.trans hnext) nofun⟩
  induction n generalizing p lhs with
  | zero =>
    refine hidle ?_ h
    rw [precedence?, operator?_at_end (Nat.le_zero.mp hn), Option.bind_none]
  | succ n ih =>
    cases hprec : p.precedence? ops with
    | none => exact hidle hprec h
    | some prec =>
      obtain ⟨op, hop, -⟩ := precedence?_some hprec
      rw [climb_at hop hprec, climbAt] at h
      split at h
      · rename_i hlt
        cases h
        refine ⟨.inl rfl, fun next hnext => ?_⟩
        rw [hprec] at hnext
        cases hnext
        exact hlt
      · obtain ⟨_, p₁, h₁, h⟩ := bind_ok_iff.mp h
        obtain ⟨rhs, p₂, h₂, h⟩ := bind_ok_iff.mp h
        obtain ⟨rhs', p₃, h₃, h⟩ := bind_ok_iff.mp h
        obtain ⟨hcur, hlength⟩ := operator?_spec hop
        have hlt : p₁.size < p.size := advanceBy_consumes hlength (size_pos_of_cur hcur) h₁
        have hle : p₃.size ≤ p₁.size := Nat.le_trans (Moves.size_le h₃) (Moves.size_le h₂)
        obtain ⟨hresult, hstop⟩ := ih (by omega) h
        exact ⟨.inr (hresult.elim (fun he => ⟨op, lhs, rhs', he⟩) id), hstop⟩

theorem precedence?_of_expression {e : Expr} (h : expression ops p = .ok e q) : q.precedence? ops = none := by
  rw [expression_eq] at h
  obtain ⟨lhs, r, -, h⟩ := bind_ok_iff.mp h
  cases hprec : q.precedence? ops with
  | none => rfl
  | some prec => exact absurd ((climb_ok (Nat.le_refl _) h).2 prec hprec) (Nat.not_lt_zero prec)

/-- An operator comes with an operand. -/
theorem weight_operation {op : String} {prec least : Nat} {lhs e : Expr}
    (h : operation ops (operand ops) (climb ops) prec op lhs least p = .ok e q) : q.weight < p.weight := by
  obtain ⟨_, p₁, h₁, h⟩ := bind_ok_iff.mp h
  obtain ⟨rhs, p₂, h₂, h⟩ := bind_ok_iff.mp h
  obtain ⟨rhs', p₃, h₃, h⟩ := bind_ok_iff.mp h
  calc q.weight ≤ p₃.weight := Moves.weight_le h
    _ ≤ p₂.weight := Moves.weight_le h₃
    _ < p₂.weight + rhs.weight := Nat.lt_add_of_pos_right rhs.weight_pos
    _ = p₁.weight := (operand_weighs ops p₁ rhs p₂ h₂).symm
    _ ≤ p.weight := Moves.weight_le h₁

/-- Where the shorter text has no operator, the longer one has one only behind the terminator. -/
theorem climb_tracks (hprec : p.precedence? ops = none) (hys : Quiet ys past p) (least : Nat) (lhs : Expr) :
    Tracks ops ys lhs past p (climb ops least lhs (beyond ys past p)) := by
  cases hnext : (beyond ys past p).precedence? ops with
  | none => exact .inl (climb_of_precedence? hnext least lhs)
  | some prec =>
    have hcur : p.cur = .eof := Decidable.byContradiction fun hcur => by
      rw [precedence?_beyond hcur, hprec] at hnext
      cases hnext
    cases past with
    | false =>
      rw [beyond_stopped hcur] at hnext
      cases hnext
    | true =>
      have hgoes := hys hcur rfl
      have hinert : ¬Inert ops ys := by
        intro hinert
        rw [hgoes.precedence?_beyond hcur, hinert] at hnext
        cases hnext
      obtain ⟨op, hop, -⟩ := precedence?_some hnext
      rw [climb_at hop hnext, climbAt]
      split
      · exact .inl rfl
      · exact .inr ⟨⟨hcur, rfl⟩, hinert, fun e q h => hgoes.weight_beyond hcur ▸ weight_operation h⟩

theorem climb_carries_of_none (hprec : p.precedence? ops = none) (least : Nat) (lhs : Expr) :
    Carries ops p past (climb ops least lhs) fun _ => climb ops least lhs := by
  intro e q h
  rw [climb_of_precedence? hprec] at h
  cases h
  exact ⟨.refl, past, fun ys hys => ⟨hys, climb_tracks hprec hys least lhs⟩⟩

theorem tighter_carried (hclimb : ∀ least lhs, Carried ops s (climb ops least lhs)) (prec : Nat) (rhs : Expr) :
    Carried ops s (tighter ops (climb ops) prec rhs) := by
  intro p past hp
  cases hprec : p.precedence? ops with
  | none =>
    intro e q h
    rw [tighter_at, hprec] at h
    cases h
    refine ⟨.refl, past, fun ys hys => ⟨hys, ?_⟩⟩
    show Tracks ops ys rhs past p (tighter ops (climb ops) prec rhs (beyond ys past p))
    rw [tighter_at]
    cases (beyond ys past p).precedence? ops with
    | none => exact .inl rfl
    | some next =>
      simp only [tighterAt]
      split
      · exact climb_tracks hprec hys (prec + 1) rhs
      · exact .inl rfl
  | some next =>
    have hcur : p.cur ≠ .eof := fun hcur => by
      rw [hp.precedence?_eof hcur] at hprec
      cases hprec
    have hat : Carries ops p past (tighterAt (climb ops) prec rhs (some next)) fun _ => tighterAt (climb ops) prec rhs (some next) := by
      simp only [tighterAt]
      split
      · exact hclimb _ _ p past hp
      · exact .pure _
    refine .of_run (hprec ▸ tighter_at (climb ops) prec rhs p) (fun ys _ => ?_) hat
    rw [tighter_at, precedence?_beyond hcur, hprec]

theorem operation_carries {op : String} (hoperand : Carried ops s (operand ops))
    (hclimb : ∀ least lhs, Carried ops s (climb ops least lhs)) (hp : Fits (s + 1) p) (hop : p.operator? = some op)
    (prec least : Nat) (lhs : Expr) :
    Carries ops p past (operation ops (operand ops) (climb ops) prec op lhs least)
      fun _ => operation ops (operand ops) (climb ops) prec op lhs least := by
  obtain ⟨hcur, hlength⟩ := operator?_spec hop
  refine .bind hp (advanceBy_carries hp (length_operator hop)) fun _ q past₁ hq hfits => ?_
  have hlt := advanceBy_consumes hlength (size_pos_of_cur hcur) hq
  have hq : Fits s q := ⟨Nat.le_of_lt_succ (Nat.lt_of_lt_of_le hlt hp.size), hfits.eof, hfits.items⟩
  refine .bind hq (hoperand q past₁ hq) fun rhs q₂ past₂ _ hq₂ => ?_
  exact .bind hq₂ (tighter_carried hclimb prec rhs q₂ past₂ hq₂) fun rhs q₃ past₃ _ hq₃ => hclimb least _ q₃ past₃ hq₃

/-- Operators are found and passed in both texts alike. -/
theorem climb_carried (hoperand : Carried ops s (operand ops)) {r : Nat} (hr : r ≤ s + 1) (least : Nat) (lhs : Expr) :
    Carried ops r (climb ops least lhs) := by
  induction r generalizing least lhs with
  | zero =>
    intro p past hp
    exact climb_carries_of_none (hp.precedence?_eof (size_eq_zero (Nat.le_zero.mp hp.size)).1) least lhs
  | succ r ih =>
    intro p past hp
    cases hprec : p.precedence? ops with
    | none => exact climb_carries_of_none hprec least lhs
    | some prec =>
      obtain ⟨op, hop, -⟩ := precedence?_some hprec
      have hcur : p.cur ≠ .eof := (operator?_spec hop).1
      have hrest : Carried ops r (operand ops) := fun q past hq => hoperand q past (hq.mono (Nat.le_of_succ_le_succ hr))
      have hat : Carries ops p past (climbAt ops least lhs op prec) fun _ => climbAt ops least lhs op prec := by
        unfold climbAt
        split
        · exact .pure lhs
        · exact operation_carries hrest (ih (Nat.le_of_succ_le hr)) hp hop prec least lhs
      refine .of_run (climb_at hop hprec least lhs) (fun ys _ => ?_) hat
      exact climb_at ((operator?_beyond hcur).trans hop) ((precedence?_beyond hcur).trans hprec) least lhs

theorem expression_operand_carried (ops : Operator.Precedences) (s : Nat) :
    Carried ops s (expression ops) ∧ Carried ops s (operand ops) := by
  induction s with
  | zero =>
    refine ⟨fun p past hp => .of_error fun a q h => ?_, fun p past hp => .of_error fun a q h => ?_⟩
    · rw [expression_stopsAtEnd ops p (Nat.le_zero.mp hp.size)] at h
      cases h
    · rw [operand_stopsAtEnd ops p (Nat.le_zero.mp hp.size)] at h
      cases h
  | succ s ih =>
    obtain ⟨hexpression, hoperand⟩ := ih
    have hoperand' := operand_carried hexpression hoperand
    refine ⟨fun p past hp => ?_, hoperand'⟩
    rw [expression_eq]
    refine .bind hp (hoperand' p past hp) fun lhs q past₁ _ hq => ?_
    exact climb_carried hoperand (Nat.le_refl _) 0 lhs q past₁ hq

/-- A text that is read as an expression is followed where a terminator comes after it, and
    whether that is taken does not depend on what comes next. -/
theorem expression_carried (ops : Operator.Precedences) (s : Nat) : Carried ops s (expression ops) :=
  (expression_operand_carried ops s).1

/-- With an operator behind the terminator the reader goes on there, and what it gives is
    another expression. -/
theorem expression_ne {e : Expr} (he : expression ops p = .ok e q) (hcur : p.cur ≠ .eof) (hq : q.weight = 0)
    (htracks : Tracks ops ys e true q (expression ops (beyond ys past p))) (hend : q.cur = .eof) (hgoes : GoesOn ys)
    (hinert : ¬Inert ops ys) (r : Parser) : expression ops (beyond ys past p) ≠ .ok e r := by
  intro hr
  rcases htracks with hrun | ⟨-, -, hwent⟩
  · have hprec := precedence?_of_expression hrun
    rw [hgoes.precedence?_beyond hend] at hprec
    exact hinert hprec
  · have hshort := expression_weighs ops p e q he
    have hlong := expression_weighs ops _ e r hr
    have hlt := hwent e r hr
    rw [weight_beyond hcur] at hlong
    omega

end Kaleidoscope.Parser
