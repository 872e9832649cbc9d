/-
  Kaleidoscope.Proofs.Prototypes — whose function a prototype is for.

  Plain functions, operators and wrappers share one namespace. A prototype that is read is
  for one of them (`Role`, `Prototype.IsFor`), and the names of the four are apart by how
  they begin: an identifier has no `@`, the names of operators have their markers, and only
  wrappers begin with an underscore. So a name tells whose it is (`IsFor.eq_of_name`), and
  the operator can be read back from it (`IsFor.operator?`).

  A parser may be used in any way: tokens passed, expressions and statements read with any
  precedences, with success or without (`Use`). However it was used, what it reads next
  stands in the text (`Role.StandsAt`): the identifier past the first word of the statement,
  or the operator past its marker, character for character. Wrappers are numbered, and no
  use sets the number back.

  `prototypes_apart` puts this together.
-/

import Kaleidoscope.Proofs.OperatorTable
import Kaleidoscope.Proofs.Recovery
import Kaleidoscope.Proofs.Tiling

namespace Kaleidoscope

open Source
open Prototype (unaryName binaryName)

/-! ## Roles -/

/-- Whose function it is. -/
inductive Role where
  | function (name : String)
  | unary (op : Char)
  | binary (op : String)
  | wrapper (n : Nat)
  deriving DecidableEq, Repr

def Role.operator? : Role → Option String
  | unary op => some (String.singleton op)
  | binary op => some op
  | _ => none

/-- The prototype is what one for this role has to be. -/
inductive Prototype.IsFor : Prototype → Role → Prop
  | function {name : String} {params : List String} :
      isIdentifier name = true → IsFor (.function name params) (.function name)
  | unary {op : Char} {param : String} : op.toNat < 128 → IsFor (.unary op param) (.unary op)
  | binary {op : String} {precedence : Nat} {lhs rhs : String} :
      Operator.isSpelling op = true → 1 ≤ precedence → precedence ≤ 100 →
      IsFor (.binary op precedence lhs rhs) (.binary op)
  | wrapper (n : Nat) : IsFor (.function (Parser.wrapperName n) []) (.wrapper n)

theorem plain_of_isIdentifier {s : String} (h : isIdentifier s = true) : ¬Reserved s ∧ '@' ∉ s.toList := by
  simp only [isIdentifier, isWord, Bool.and_eq_true, List.all_eq_true] at h
  obtain ⟨⟨hhead, hall⟩, -⟩ := h
  constructor
  · intro hreserved
    rw [show s.toList.head? = some '_' from hreserved] at hhead
    exact absurd hhead (by decide)
  · intro hmem
    exact absurd (hall '@' hmem) (by decide)

namespace Prototype

/-- What the name of a function tells about its kind. -/
def Kind.ofName (n : String) : Kind :=
  if Reserved n ∨ '@' ∉ n.toList then .function else if n.toList.head? = some 'u' then .unary else .binary

theorem toList_unaryName (op : Char) : (unaryName op).toList = ['u', 'n', 'a', 'r', 'y', '@'] ++ [op] :=
  String.toList_push op

theorem toList_binaryName (op : String) : (binaryName op).toList = ['b', 'i', 'n', 'a', 'r', 'y', '@'] ++ op.toList :=
  String.toList_append

theorem unaryName_injective {op op' : Char} (h : unaryName op = unaryName op') : op = op' := by
  have hlist := congrArg String.toList h
  rw [toList_unaryName, toList_unaryName, List.append_cancel_left_eq] at hlist
  exact List.head_eq_of_cons_eq hlist

theorem operator?_unary (op : Char) (param : String) :
    (Prototype.unary op param).operator? = some (String.singleton op) := by
  have hname : unaryName op = Kind.unary.marker ++ String.singleton op := String.append_singleton.symm
  exact operator?_of_name nofun hname

theorem operator?_binary (op : String) (precedence : Nat) (lhs rhs : String) :
    (Prototype.binary op precedence lhs rhs).operator? = some op := operatorOf?_binary op precedence lhs rhs

namespace IsFor

variable {proto proto' : Prototype} {role role' : Role}

theorem operator? (h : proto.IsFor role) : proto.operator? = role.operator? := by
  cases h with
  | function | wrapper => rfl
  | unary => exact operator?_unary _ _
  | binary => exact operator?_binary _ _ _ _

theorem kind_eq (h : proto.IsFor role) : proto.kind = Kind.ofName proto.name := by
  cases h with
  | @function name _ hname =>
    exact (if_pos (.inr (plain_of_isIdentifier hname).2)).symm
  | wrapper n => exact (if_pos (.inl (reserved_wrapperName n))).symm
  | @unary op param _ =>
    have hmarked : ¬(Reserved (unaryName op) ∨ '@' ∉ (unaryName op).toList) := by
      simp [not_reserved_unaryName, toList_unaryName]
    show Kind.unary = Kind.ofName (unaryName op)
    rw [Kind.ofName, if_neg hmarked, if_pos (head?_unaryName op)]
  | @binary op _ _ _ _ _ _ =>
    have hmarked : ¬(Reserved (binaryName op) ∨ '@' ∉ (binaryName op).toList) := by
      simp [not_reserved_binaryName, toList_binaryName]
    show Kind.binary = Kind.ofName (binaryName op)
    rw [Kind.ofName, if_neg hmarked, head?_binaryName]
    rfl

/-- A name is the name of one function, one operator or one wrapper. -/
theorem eq_of_name (h : proto.IsFor role) (h' : proto'.IsFor role') (hname : proto.name = proto'.name) : role = role' := by
  have hkind : proto.kind = proto'.kind := by rw [h.kind_eq, h'.kind_eq, hname]
  -- Only an identifier and the name of a wrapper have the same kind and are apart.
  have hplain : ∀ {n : String} {k : Nat}, isIdentifier n = true → n ≠ Parser.wrapperName k := by
    rintro n k hn rfl
    exact (plain_of_isIdentifier hn).1 (reserved_wrapperName k)
  cases h with
  | function hn =>
    cases h' with
    | function => exact congrArg Role.function hname
    | wrapper k => exact absurd hname (hplain hn)
    | unary | binary => cases hkind
  | wrapper k =>
    cases h' with
    | function hn => exact absurd hname.symm (hplain hn)
    | wrapper => exact congrArg Role.wrapper (Parser.wrapperName_injective hname)
    | unary | binary => cases hkind
  | unary =>
    cases h' with
    | unary => exact congrArg Role.unary (unaryName_injective hname)
    | function | wrapper | binary => cases hkind
  | binary =>
    cases h' with
    | binary => exact congrArg Role.binary (binaryName_injective hname)
    | function | wrapper | unary => cases hkind

end IsFor

end Prototype

/-! ## What stands in the text -/

namespace Source

theorem Lexer.isIdentifier_of_next {l : Lexer} {w : String} (h : l.next.1 = .ok (.name w)) : isIdentifier w = true := by
  have hread : (splitLexeme (splitTrivia l.rest).2).1.reading (splitLexeme (splitTrivia l.rest).2).2.isEmpty =
      .ok (.name w) := h
  obtain ⟨cs, hlexeme, rfl⟩ := Lexeme.reading_name hread
  obtain ⟨c, ds, rfl, hc, hds⟩ := isLetter_of_word hlexeme
  have hkeyword : Keyword.ofWord? (String.ofList (c :: ds)) = none := by
    rw [hlexeme, Lexeme.reading] at hread
    split at hread
    · cases hread
    · assumption
  have hword : isWord (String.ofList (c :: ds)) = true := by
    simp only [isWord, String.toList_ofList, List.head?_cons, Option.any_some, hc, Bool.true_and, List.all_eq_true]
    intro d hd
    rcases List.mem_cons.mp hd with rfl | hd
    · exact Bool.or_eq_true_iff.mpr (.inl (Bool.or_eq_true_iff.mpr (.inl hc)))
    · exact hds d hd
  rw [isIdentifier, hword, hkeyword]
  rfl

/-- What a result was read from stands in the text where the result begins. -/
theorem Lexer.exists_lexeme (source : String) (n : Nat) :
    ∃ before lexeme last, Lexeme.reading last lexeme = ((ofText source).after n).next.1 ∧
      source.toList = before ++ (lexeme.spelling ++ ((ofText source).after n).next.2.rest) ∧
      ((ofText source).after n).next.2.start = width before := by
  obtain ⟨before, htext, hstart⟩ := exists_body source n
  have hbody := splitLexeme_append (splitTrivia ((ofText source).after n).rest).2
  refine ⟨before, (splitLexeme (splitTrivia ((ofText source).after n).rest).2).1,
    (splitLexeme (splitTrivia ((ofText source).after n).rest).2).2.isEmpty, rfl, ?_, hstart⟩
  rw [htext]
  exact congrArg (before ++ ·) hbody.symm

/-- What goes on without a gap is what the text has there. -/
theorem Lexer.glued_prefix (n : Nat) (l : Lexer) : l.glued n <+: l.rest := by
  rw [glued_eq]
  exact (List.take_prefix n _).trans (List.takeWhile_prefix _)

end Source

theorem Operator.longest?_prefix {cs : List Char} {op : String} (h : longest? cs = some op) : op.toList <+: cs := by
  obtain ⟨n, -, rfl⟩ := List.mem_map.mp (List.mem_of_find?_eq_some h)
  rw [String.toList_ofList]
  exact List.take_prefix n cs

namespace Parser

variable {source : String} {p q : Parser}

theorem On.of_advance (h : p.On source) (hq : Parser.advance p = .ok () q) : q.On source := by
  have hleft := h.advance
  rwa [hq] at hleft

/-- The text has `s` where the current token begins. -/
def Spells (source : String) (p : Parser) (s : String) : Prop :=
  ∃ before after, source.toList = before ++ (s.toList ++ after) ∧ (p.lexer source).start = width before

/-- The token that was just passed to is what the lexer has just read. -/
theorem On.next_of_advance (h : p.On source) (hq : Parser.advance p = .ok () q) (hcur : q.cur ≠ .eof) :
    (p.lexer source).next = (.ok q.cur, q.lexer source) := by
  have hne : p.cur ≠ .eof := by
    intro heof
    have hsame := h.advance_of_eof heof
    rw [hq] at hsame
    have hcur' : q.cur = p.cur := congrArg Parser.cur hsame
    exact hcur (hcur'.trans heof)
  have hlexer := h.lexer_advance hne
  rw [hq] at hlexer
  rcases h.advance_cases with ⟨q', hq', hnext⟩ | ⟨e, q', hq', -⟩
  · cases hq.symm.trans hq'
    exact Prod.ext hnext hlexer.symm
  · cases hq.symm.trans hq'

theorem On.spells_name {name : String} (h : p.On source) (hq : Parser.advance p = .ok () q) (hcur : q.cur = .name name) :
    isIdentifier name = true ∧ q.Spells source name := by
  have hnext := h.next_of_advance hq (by rw [hcur]; exact Token.noConfusion)
  rw [hcur] at hnext
  obtain ⟨before, lexeme, last, hread, htext, hstart⟩ := Lexer.exists_lexeme source (p.used source)
  rw [show (Lexer.ofText source).after (p.used source) = p.lexer source from rfl, hnext] at hread htext hstart
  obtain ⟨cs, rfl, rfl⟩ := Lexeme.reading_name hread
  refine ⟨Lexer.isIdentifier_of_next (congrArg Prod.fst hnext), before, (q.lexer source).rest, ?_, hstart⟩
  rw [String.toList_ofList]
  exact htext

theorem On.spells_punct {c : Char} (h : p.On source) (hq : Parser.advance p = .ok () q) (hcur : q.cur = .punct c) :
    ∃ before, source.toList = before ++ (c :: (q.lexer source).rest) ∧ (q.lexer source).start = width before := by
  have hnext := h.next_of_advance hq (by rw [hcur]; exact Token.noConfusion)
  rw [hcur] at hnext
  obtain ⟨before, lexeme, last, hread, htext, hstart⟩ := Lexer.exists_lexeme source (p.used source)
  rw [show (Lexer.ofText source).after (p.used source) = p.lexer source from rfl, hnext] at hread htext hstart
  obtain ⟨rfl, -⟩ := Lexeme.reading_punct hread
  exact ⟨before, htext, hstart⟩

theorem On.spells_operator {op : String} (h : p.On source) (hq : Parser.advance p = .ok () q)
    (hop : q.operator? = some op) : Operator.isSpelling op = true ∧ q.Spells source op := by
  rw [(h.of_advance hq).operator?_lexer] at hop
  unfold Lexer.operator? at hop
  split at hop
  · rename_i c hcur
    obtain ⟨before, htext, hstart⟩ := h.spells_punct hq hcur
    obtain ⟨more, hmore⟩ := (Operator.longest?_prefix hop).trans
      (List.cons_prefix_cons.mpr ⟨rfl, Lexer.glued_prefix (Operator.longestLength - 1) (q.lexer source)⟩)
    refine ⟨List.find?_some hop, before, more, ?_, hstart⟩
    rw [htext, hmore]
  · cases hop

end Parser

/-- What it is for stands in the text from where the parser is: an identifier past the word
    that the statement begins with, an operator past its marker. A wrapper does not. -/
def Role.StandsAt (source : String) (p : Parser) : Role → Prop
  | function name => ∃ q, Parser.advance p = .ok () q ∧ q.cur = .name name ∧ q.Spells source name
  | unary op => ∃ q, Parser.advanceBy 3 p = .ok () q ∧ q.cur = .punct op ∧ q.Spells source (String.singleton op)
  | binary op => ∃ q, Parser.advanceBy 3 p = .ok () q ∧ q.operator? = some op ∧ q.Spells source op
  | wrapper _ => False

namespace Parser

variable {source : String} {p q q' : Parser} {ops : Operator.Precedences} {d : Definition} {proto : Prototype}

/-- The prototype of a statement is for what stands in the text. -/
theorem On.isFor (hon : p.On source) (hlexed : p.Lexed) (hq : Parser.advance p = .ok () q)
    (h : prototype q = .ok proto q') : ∃ role : Role, role.StandsAt source p ∧ proto.IsFor role := by
  have honq := hon.of_advance hq
  have hlexedq : q.Lexed := by
    have hleft := hlexed.advance
    rwa [hq] at hleft
  have hrange := (prototype_tabular hlexedq h).range
  simp only [prototype, bind_ok_iff] at h
  obtain ⟨hd, _, hhead, _, _, _, params, _, _, _, _, _, h⟩ := h
  -- The parser past the marker is a token past the one that has the `@`.
  have hmarker : ∀ {r r'}, Parser.advance q = .ok () r → Parser.advance r = .ok () r' →
      r.On source ∧ advanceBy 3 p = .ok () r' := by
    intro r r' hr hr'
    exact ⟨honq.of_advance hr, bind_ok_iff.mpr ⟨(), q, hq, bind_ok_iff.mpr ⟨(), r, hr, bind_ok_iff.mpr ⟨(), r', hr', rfl⟩⟩⟩⟩
  rcases head_ok hhead with ⟨name, hcur, rfl⟩ | ⟨op, r, r', rfl, hr, hr', hcur, hascii⟩ |
    ⟨op, precedence, r, r', -, rfl, hr, hr', hop, -⟩
  · obtain ⟨hname, hspells⟩ := hon.spells_name hq hcur
    rcases prototypeOf_ok h with ⟨_, heq, rfl⟩ | ⟨_, _, heq, -⟩ | ⟨_, _, _, _, heq, -⟩ <;> cases heq
    exact ⟨.function name, ⟨q, hq, hcur, hspells⟩, .function hname⟩
  · obtain ⟨honr, hthree⟩ := hmarker hr hr'
    obtain ⟨before, htext, hstart⟩ := honr.spells_punct hr' hcur
    rcases prototypeOf_ok h with ⟨_, heq, -⟩ | ⟨_, param, heq, rfl⟩ | ⟨_, _, _, _, heq, -⟩ <;> cases heq
    refine ⟨.unary op, ⟨r', hthree, hcur, before, (r'.lexer source).rest, ?_, hstart⟩, .unary hascii⟩
    rw [htext, String.toList_singleton]
    rfl
  · obtain ⟨honr, hthree⟩ := hmarker hr hr'
    obtain ⟨hspelling, hspells⟩ := honr.spells_operator hr' hop
    rcases prototypeOf_ok h with ⟨_, heq, -⟩ | ⟨_, _, heq, -⟩ | ⟨_, _, lhs, rhs, heq, rfl⟩ <;> cases heq
    obtain ⟨hlow, hhigh⟩ := hrange op rfl
    exact ⟨.binary op, ⟨r', hthree, hop, hspells⟩, .binary hspelling hlow hhigh⟩

/-! ## Uses of a parser -/

/-- One use of a parser, whether it succeeds or fails. -/
inductive Use : Parser → Parser → Prop
  | advance {p : Parser} : Use p (left (advance p))
  | expression {p : Parser} (ops : Operator.Precedences) : Use p (left (expression ops p))
  | definition {p : Parser} (ops : Operator.Precedences) : Use p (left (definition ops p))
  | declaration {p : Parser} : Use p (left (declaration p))
  | wrapper {p : Parser} (ops : Operator.Precedences) : Use p (left (wrapper ops p))

/-- The states that a parser of the text can be in. -/
def Reachable (source : String) (p : Parser) : Prop := Relation.ReflTransGen Use (ofText source) p

/-- A use passes tokens and does nothing else, unless it makes a wrapper. -/
theorem Use.cases (h : Use p q) : Reaches p q ∨ ∃ ops d, Parser.wrapper ops p = .ok d q := by
  cases h with
  | advance => exact .inl (reaches_advance p)
  | expression ops => exact .inl ((expression_same ops p.size).moves p (Nat.le_refl _))
  | definition ops => exact .inl ((definition_same p.size).moves p (Nat.le_refl _))
  | declaration => exact .inl ((declaration_same p.size).moves p (Nat.le_refl _))
  | wrapper ops =>
    cases hx : Parser.wrapper ops p with
    | ok d q => exact .inr ⟨ops, d, hx⟩
    | error e q => exact .inl (wrapper_reaches hx)

theorem Use.wrapped_le (h : Use p q) : p.wrapped ≤ q.wrapped := by
  rcases h.cases with hreaches | ⟨ops, d, hwrapper⟩
  · exact Nat.le_of_eq hreaches.wrapped.symm
  · rw [(wrapper_named hwrapper).2]
    exact Nat.le_succ _

theorem Reachable.on (h : Reachable source p) : p.On source := by
  induction h with
  | refl => exact on_ofText source
  | tail _ huse ih =>
    rcases huse.cases with hreaches | ⟨ops, d, hwrapper⟩
    · exact ih.reaches hreaches
    · exact (wrapper_passes hwrapper).on ih

theorem Reachable.lexed (h : Reachable source p) : p.Lexed := by
  induction h with
  | refl => exact lexed_ofText source
  | @tail p _ _ huse ih =>
    rcases huse.cases with hreaches | ⟨ops, d, hwrapper⟩
    · exact hreaches.lexed ih
    · have hleft : (left (Parser.wrapper ops p)).Lexed := wrapper_lexed ih
      rwa [hwrapper] at hleft

theorem wrapped_le_of_uses (h : Relation.ReflTransGen Use p q) : p.wrapped ≤ q.wrapped := by
  induction h with
  | refl => exact Nat.le_refl _
  | tail _ huse ih => exact Nat.le_trans ih huse.wrapped_le

theorem Reachable.definition_isFor (hp : Reachable source p) (h : definition ops p = .ok d q) :
    ∃ role : Role, role.StandsAt source p ∧ d.proto.IsFor role := by
  simp only [definition, bind_ok_iff, pure_ok_iff] at h
  obtain ⟨⟨⟩, r, hr, proto, r', hproto, body, _, -, rfl, -⟩ := h
  exact hp.on.isFor hp.lexed hr hproto

theorem Reachable.declaration_isFor (hp : Reachable source p) (h : declaration p = .ok proto q) :
    ∃ role : Role, role.StandsAt source p ∧ proto.IsFor role := by
  simp only [declaration, bind_ok_iff] at h
  obtain ⟨⟨⟩, r, hr, hproto⟩ := h
  exact hp.on.isFor hp.lexed hr hproto

theorem wrapper_isFor (h : wrapper ops p = .ok d q) : d.proto.IsFor (.wrapper p.wrapped) := by
  rw [(wrapper_named h).1]
  exact .wrapper _

/-- The parser gives the prototype with a statement. -/
inductive Gives (p : Parser) : Prototype → Prop
  | definition {ops : Operator.Precedences} {d : Definition} {q : Parser} :
      definition ops p = .ok d q → Gives p d.proto
  | declaration {proto : Prototype} {q : Parser} : declaration p = .ok proto q → Gives p proto
  | wrapper {ops : Operator.Precedences} {d : Definition} {q : Parser} :
      wrapper ops p = .ok d q → Gives p d.proto

theorem Reachable.isFor (hp : Reachable source p) (h : p.Gives proto) : ∃ role, proto.IsFor role := by
  cases h with
  | definition hd =>
    obtain ⟨role, -, hrole⟩ := hp.definition_isFor hd
    exact ⟨role, hrole⟩
  | declaration hd =>
    obtain ⟨role, -, hrole⟩ := hp.declaration_isFor hd
    exact ⟨role, hrole⟩
  | wrapper hd => exact ⟨_, wrapper_isFor hd⟩

/-- In every state of every parser: what a definition or a declaration gives is the prototype
    of a plain function, named by the identifier that stands in the text, or of the operator
    that stands there, and the operator is read back from its name; a wrapper has no
    parameters and is named by its number. Whatever gives the prototypes, and of whatever
    texts, those of one name are for the same function, operator or wrapper. No two wrappers
    of a parser have the same name. -/
theorem prototypes_apart (hp : Reachable source p) :
    (∀ proto, (∃ ops d q, definition ops p = .ok d q ∧ d.proto = proto) ∨ (∃ q, declaration p = .ok proto q) →
      ∃ role : Role, role.StandsAt source p ∧ proto.IsFor role ∧ proto.operator? = role.operator?) ∧
    (∀ ops d q, wrapper ops p = .ok d q →
      d.proto.IsFor (.wrapper p.wrapped) ∧ d.proto.operator? = none ∧
      ∀ p' ops' d' q', Relation.ReflTransGen Use q p' → wrapper ops' p' = .ok d' q' → d'.proto.name ≠ d.proto.name) ∧
    (∀ source' p' proto proto', Reachable source' p' → p.Gives proto → p'.Gives proto' → proto.name = proto'.name →
      proto.kind = proto'.kind ∧ proto.operator? = proto'.operator? ∧ ∃ role, proto.IsFor role ∧ proto'.IsFor role) := by
  refine ⟨?_, fun ops d q hd => ⟨wrapper_isFor hd, (wrapper_isFor hd).operator?, ?_⟩, ?_⟩
  · rintro proto (⟨ops, d, q, hd, rfl⟩ | ⟨q, hd⟩)
    · obtain ⟨role, hstands, hrole⟩ := hp.definition_isFor hd
      exact ⟨role, hstands, hrole, hrole.operator?⟩
    · obtain ⟨role, hstands, hrole⟩ := hp.declaration_isFor hd
      exact ⟨role, hstands, hrole, hrole.operator?⟩
  · intro p' ops' d' q' huses hd' hname
    have hle := wrapped_le_of_uses huses
    have hnext := (wrapper_named hd).2
    have hsame : Role.wrapper p'.wrapped = .wrapper p.wrapped := (wrapper_isFor hd').eq_of_name (wrapper_isFor hd) hname
    have hwrapped : p'.wrapped = p.wrapped := Role.wrapper.inj hsame
    omega
  · intro source' p' proto proto' hp' hproto hproto' hname
    obtain ⟨role, hrole⟩ := hp.isFor hproto
    obtain ⟨role', hrole'⟩ := hp'.isFor hproto'
    have hsame := hrole.eq_of_name hrole' hname
    subst hsame
    exact ⟨by rw [hrole.kind_eq, hrole'.kind_eq, hname], by rw [hrole.operator?, hrole'.operator?], role, hrole, hrole'⟩

/-! An operator of three characters with a fraction in its precedence, and two wrappers. -/

def shiftAssign : String := "extern binary@<<= 7.5 (a, b); 1; 2"

theorem prototypes_apart_shiftAssign : ∃ p proto q p₁ d₁ q₁ p₂ d₂ q₂, Reachable shiftAssign p ∧
    declaration p = .ok proto q ∧ proto = .binary "<<=" 7 "a" "b" ∧ proto.operator? = some "<<=" ∧
    (∃ role : Role, role.StandsAt shiftAssign p ∧ proto.IsFor role) ∧
    wrapper [] p₁ = .ok d₁ q₁ ∧ wrapper [] p₂ = .ok d₂ q₂ ∧ d₂.proto.name ≠ d₁.proto.name := by
  let p := left (advance (ofText shiftAssign))
  let p₁ := left (advance (left (declaration p)))
  let q₁ := left (wrapper [] p₁)
  let p₂ := left (advance q₁)
  have hp : Reachable shiftAssign p := .single .advance
  have hp₁ : Reachable shiftAssign p₁ := (hp.tail .declaration).tail .advance
  have huses : Relation.ReflTransGen Use q₁ p₂ := .single .advance
  obtain ⟨q, hq⟩ := run'_eq_some_iff.mp (by decide +kernel : declaration.run' p = some (.binary "<<=" 7 "a" "b"))
  obtain ⟨d₁, hd₁⟩ := Option.isSome_iff_exists.mp (by decide +kernel : ((wrapper []).run' p₁).isSome = true)
  obtain ⟨d₂, hd₂⟩ := Option.isSome_iff_exists.mp (by decide +kernel : ((wrapper []).run' p₂).isSome = true)
  obtain ⟨q₁', hq₁⟩ := run'_eq_some_iff.mp hd₁
  obtain ⟨q₂, hq₂⟩ := run'_eq_some_iff.mp hd₂
  have hleft : q₁' = q₁ := (congrArg left hq₁).symm
  obtain ⟨role, hstands, hrole, -⟩ := (prototypes_apart hp).1 _ (.inr ⟨q, hq⟩)
  obtain ⟨-, -, hname⟩ := (prototypes_apart hp₁).2.1 [] d₁ q₁' hq₁
  exact ⟨p, _, q, p₁, d₁, q₁', p₂, d₂, q₂, hp, hq, rfl, by decide +kernel, ⟨role, hstands, hrole⟩, hq₁, hq₂,
    hname p₂ [] d₂ q₂ (hleft ▸ huses) hq₂⟩

end Parser

end Kaleidoscope
