/-
  Kaleidoscope.Proofs.Indifference — layout does not matter.

  A scanner knows its text by positions, and in texts that are alike everything may stand at
  different ones. Two sessions that scan such texts are abreast (`Session.Abreast`): both
  lexers are past as many results, and everything but the positions is the same.

  They stay abreast through all that a turn reads: where an operator is looked for and the
  positions are put back, where a literal cannot be lexed and where a statement is given up.
  The texts have the same items. So one session reads the items for both (`Session.Together`),
  each turn of it is in step with theirs (`Together.next`), and two sessions that are in step
  with the same one are abreast (`Together.abreast`).
-/

import Kaleidoscope.Proofs.Agreement

namespace Kaleidoscope

open Source

/-! ## Scanners of two texts -/

/-- The one scanner has come as far in `a` as the other in `b`. -/
structure Scanner.Abreast (a b : String) (r q : Scanner) : Prop where
  cur : q.cur = r.cur
  wrapped : q.wrapped = r.wrapped
  /-- Past as many results, until the end of input is the current token. -/
  cursors : ∃ n m, r.cursor = .after a n ∧ q.cursor = .after b m ∧ (r.cur ≠ .eof → n = m)
  lexers : r.cursor.lexer.Alike q.cursor.lexer
  /-- Both find the same operator, and are where they were. -/
  operator : ∃ op, operator? r = .ok op r ∧ operator? q = .ok op q

/-- Nothing but the positions is different. -/
def Session.Abreast (a b : String) (s t : Session Scanner) : Prop :=
  ∃ q, s.parser.Abreast a b q ∧ t = s.passed q

structure Handled.Abreast (a b : String) (h k : Handled Scanner) : Prop where
  turn : k.turn = h.turn
  calls : k.calls = h.calls
  session : h.session.Abreast a b k.session

structure Transcript.Abreast (a b : String) (t u : Transcript Scanner) : Prop where
  events : u.events = t.events
  fatal : u.fatal = t.fatal
  session : t.session.Abreast a b u.session

variable {a b : String}

namespace Parser

variable {n m : Nat} {p : Parser} {r q : Scanner}

/-- What is left of two texts is the same after the same results, and at the ends of both. -/
theorem InStep.abreast (halike : (Lexer.ofText a).Alike (Lexer.ofText b)) (hr : InStep a n p r) (hq : InStep b m p q) :
    r.Abreast a b q := by
  have hcur : r.cur = p.cur := hr.cur
  have hlength := halike.length_items
  have hsame : p.cur ≠ .eof → n = m := by
    intro hne
    have hn := Nat.le_of_not_lt (mt hr.ended.mpr hne)
    have hm := Nat.le_of_not_lt (mt hq.ended.mpr hne)
    have hrest := congrArg List.length (hr.rest.symm.trans hq.rest)
    rw [List.length_drop, List.length_drop] at hrest
    omega
  refine ⟨hq.cur.trans hcur.symm, hq.wrapped.trans hr.wrapped.symm, ⟨n, m, hr.cursor, hq.cursor, hcur ▸ hsame⟩, ?_,
    p.operator?, hr.operator?, hq.operator?⟩
  rw [hr.cursor, hq.cursor, Cursor.lexer_after, Cursor.lexer_after]
  by_cases heof : p.cur = .eof
  · have hend {source : String} {n : Nat} (hn : (Lexer.ofText source).items.length < n) (k : Nat) :
        ((Lexer.ofText source).after n).result k = .ok .eof := by
      rw [Lexer.result, Lexer.after_after]
      exact Lexer.result_of_length_le (Nat.le_trans (Nat.le_of_lt hn) (Nat.le_add_right n k))
    have hra := hend (hr.ended.mp heof)
    have hqb := hend (hq.ended.mp heof)
    exact ⟨fun k => (hra k).trans (hqb k).symm, fun k hne => absurd (hra (k + 1)) hne⟩
  · obtain rfl := hsame heof
    exact halike.after n

end Parser

/-! ## Sessions of two texts -/

/-- What is related to the same is related. -/
theorem rel_of_common {α β γ : Type} {P : α → β → Prop} {Q : α → γ → Prop} {R : β → γ → Prop}
    (hR : ∀ x y z, P x y → Q x z → R y z) {x : Option α} {y : Option β} {z : Option γ} (hy : Option.Rel P x y)
    (hz : Option.Rel Q x z) : Option.Rel R y z := by
  cases hy with
  | none =>
    cases hz
    exact .none
  | some hy =>
    cases hz with
    | some hz => exact .some (hR _ _ _ hy hz)

/-- One session reads the items for both. -/
def Session.Together (a b : String) (s t : Session Scanner) : Prop :=
  ∃ reader : Session, reader.InStep a s ∧ reader.InStep b t

/-- Both turns went the way of one. -/
def Handled.Together (a b : String) (h k : Handled Scanner) : Prop :=
  ∃ way : Handled, way.InStep a h ∧ way.InStep b k

namespace Session

variable {s t : Session Scanner}

theorem together_ofText (halike : (Lexer.ofText a).Alike (Lexer.ofText b)) :
    Together a b (ofText a Scanner) (ofText b Scanner) := by
  have hparser : Parser.ofText a = Parser.ofText b := by
    rw [Parser.ofText, Parser.ofText, Lexer.alike_iff.mp halike]
  have hsession : (ofText a : Session) = ofText b :=
    congrArg (fun parser => ({ parser, unit := newUnit 0 } : Session)) hparser
  exact ⟨ofText a, inStep_ofText a, hsession ▸ inStep_ofText b⟩

theorem Together.next (h : Together a b s t) (budget : Nat) :
    Option.Rel (Handled.Together a b) (s.next budget) (t.next budget) := by
  obtain ⟨reader, hs, ht⟩ := h
  exact rel_of_common (fun way _ _ hh hk => ⟨way, hh, hk⟩) (hs.next budget) (ht.next budget)

theorem Together.abreast (h : Together a b s t) (halike : (Lexer.ofText a).Alike (Lexer.ofText b)) :
    s.Abreast a b t := by
  obtain ⟨reader, ⟨n, r, hr, rfl⟩, m, q, hq, rfl⟩ := h
  exact ⟨q, hr.abreast halike hq, rfl⟩

end Session

namespace Handled.Together

variable {h k : Handled Scanner}

theorem session (hk : Together a b h k) : h.session.Together a b k.session := by
  obtain ⟨way, hh, hk⟩ := hk
  exact ⟨way.session, hh.session, hk.session⟩

theorem abreast (hk : Together a b h k) (halike : (Lexer.ofText a).Alike (Lexer.ofText b)) : h.Abreast a b k := by
  have hsession := hk.session.abreast halike
  obtain ⟨way, hh, hk⟩ := hk
  exact ⟨hk.turn.trans hh.turn.symm, hk.calls.trans hh.calls.symm, hsession⟩

end Handled.Together

namespace Session

/-! ## Main statement -/

/-- If two texts are alike, then for every session that scans the one there is a session that
    scans the other, after as many turns. Any two such sessions are abreast, however many steps
    their calls are given: each two turns had the same outcome or the same failure, called the
    same builtins, and left sessions that differ only in where in its text the scanner is;
    which is past the same results, so that it goes on alike and finds the same operators. Run to
    their end, both sessions show the same and end abreast. -/
theorem layout_immaterial (halike : (Lexer.ofText a).Alike (Lexer.ofText b)) :
    (∀ past (s : Session Scanner), Run a past s →
      ∃ past', ∃ t : Session Scanner, Run b past' t ∧ past.length = past'.length) ∧
    (∀ past past' (s t : Session Scanner), Run a past s → Run b past' t → past.length = past'.length →
      List.Forall₂ (fun x y => x.1.Abreast a b y.1 ∧ x.2.Abreast a b y.2) past past' ∧ s.Abreast a b t) ∧
    ∀ showIr budget, Option.Rel (Transcript.Abreast a b) ((ofText a Scanner).run showIr budget)
      ((ofText b Scanner).run showIr budget) := by
  have hlockstep {past : List (Session Scanner × Handled Scanner)} {s : Session Scanner} (hrun : Run a past s) :=
    hrun.lockstep (together_ofText halike) (fun _ _ budget h => h.next budget) fun _ _ h => h.session
  refine ⟨fun past s hrun => ?_, fun past past' s t hrun hrun' hlength => ?_, fun showIr budget => ?_⟩
  · obtain ⟨past', t, hrun', hpast, -⟩ := hlockstep hrun
    exact ⟨past', t, hrun', hpast.length_eq⟩
  · obtain ⟨past₁, t₁, hrun₁, hpast, hst⟩ := hlockstep hrun
    obtain ⟨rfl, rfl⟩ := hrun₁.unique hrun' (hpast.length_eq.symm.trans hlength)
    exact ⟨hpast.imp fun x y h => ⟨h.1.abreast halike, h.2.abreast halike⟩, hst.abreast halike⟩
  · obtain ⟨reader, hs, ht⟩ := together_ofText halike
    refine rel_of_common (fun shown t u htu hu => ?_) (hs.run showIr budget) (ht.run showIr budget)
    have hsession : t.session.Together a b u.session := ⟨shown.session, htu.session, hu.session⟩
    exact ⟨hu.events.trans htu.events.symm, hu.fatal.trans htu.fatal.symm, hsession.abreast halike⟩

/-! An operator of two characters, a number that cannot be lexed and comments: the one text
has blanks wherever it may have them, the other only where it must. -/

def spread : String := "#\n\tdef binary@<=(a  b)\na<b;\n1<=2;#\n 1.2.3\r\n y"

def dense : String := "def binary@<=(a b) a<b; 1<=2; 1.2.3 y"

/-- The lexers have come to different positions, and the outcomes are the same. -/
theorem layout_immaterial_spread : (Lexer.ofText spread).Alike (Lexer.ofText dense) ∧
    ∃ past past', ∃ s t : Session Scanner, Run spread past s ∧ Run dense past' t ∧ past.length = past'.length ∧
      (past.any fun x => evaluatesTo 1 x.2) = true ∧ s.parser.cursor.stop = 41 ∧ t.parser.cursor.stop = 35 ∧
      List.Forall₂ (fun x y => x.1.Abreast spread dense y.1 ∧ x.2.Abreast spread dense y.2) past past' ∧
      s.Abreast spread dense t ∧
      Option.Rel (Transcript.Abreast spread dense) ((ofText spread Scanner).run true 20)
        ((ofText dense Scanner).run true 20) := by
  have halike : (Lexer.ofText spread).Alike (Lexer.ofText dense) := by decide +kernel
  have hspread : ((takeTurns 20 5 ([], ofText spread Scanner)).any fun x =>
      x.1.length == 5 && x.1.any (fun t => evaluatesTo 1 t.2) && x.2.parser.cursor.stop == 41) = true := by
    decide +kernel
  have hdense : ((takeTurns 20 5 ([], ofText dense Scanner)).any fun x =>
      x.1.length == 5 && x.2.parser.cursor.stop == 35) = true := by decide +kernel
  obtain ⟨⟨past, s⟩, hs, hspread⟩ := (Option.any_eq_true _ _).mp hspread
  obtain ⟨⟨past', t⟩, ht, hdense⟩ := (Option.any_eq_true _ _).mp hdense
  simp only [Bool.and_eq_true, beq_iff_eq] at hspread hdense
  obtain ⟨⟨hlength, hvalue⟩, hstop⟩ := hspread
  obtain ⟨hlength', hstop'⟩ := hdense
  have hrun : Run spread past s := Run.start.takeTurns hs
  have hrun' : Run dense past' t := Run.start.takeTurns ht
  obtain ⟨-, hruns, htranscripts⟩ := layout_immaterial halike
  obtain ⟨hpast, hst⟩ := hruns past past' s t hrun hrun' (hlength.trans hlength'.symm)
  exact ⟨halike, past, past', s, t, hrun, hrun', hlength.trans hlength'.symm, hvalue, hstop, hstop', hpast, hst,
    htranscripts true 20⟩

end Session

end Kaleidoscope
