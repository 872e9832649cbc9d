/-
  Kaleidoscope.Proofs.Permanence — a definition is for good.

  Once a turn has defined a function, the session keeps it (`Session.Keeps`): its name
  resolves by one symbol to that function, in a unit that no tracker owns, and its
  registration is marked as defined. Nothing a later turn may do touches either. To define
  it again is refused before anything is announced; to declare it again leaves a function
  that has its body alone; a unit is loaded only if it has no body for the name; and what
  is unloaded after an expression was loaded under a tracker (`Keeps.takes`).

  `Run.definition_permanent` says it of every run.
-/

import Kaleidoscope.Proofs.Arity
import Kaleidoscope.Proofs.Loading
import Kaleidoscope.Proofs.Rollback

namespace Kaleidoscope.Session

variable {s s' : Session} {past : List (Session × Handled)} {r : Handled} {d : Definition} {p : Prototype} {q : Parser}
  {f g : Ir.Function} {l : Lowering} {symbol : Symbol}

/-- The session has the function for good, registered with the prototype. -/
structure Keeps (s : Session) (f : Ir.Function) (symbol : Symbol) (p : Prototype) : Prop where
  resolves : s.engine.Binds f.name symbol f none
  registered : s.registry.find? f.name = some ⟨p, true⟩

theorem Keeps.isDefined (h : s.Keeps f symbol p) : s.registry.isDefined f.name = true :=
  Registry.isDefined_of_find? h.registered

theorem Keeps.congr (h : s.Keeps f symbol p) (hr : s'.registry = s.registry) (he : s'.engine = s.engine) :
    s'.Keeps f symbol p := by
  constructor
  · rw [he]
    exact h.resolves
  · rw [hr]
    exact h.registered

/-! ## Later turns -/

/-- Whatever is defined later has another name. -/
theorem Keeps.name_ne (h : s.Keeps f symbol p) (hd : Lowering.Defines d s.lowering g l) : d.proto.name ≠ f.name := by
  intro hname
  have hundef := not_isDefined_of_defines hd
  rw [hname, h.isDefined] at hundef
  cases hundef

theorem Keeps.defines (h : s.Keeps f symbol p) (hd : Lowering.Defines d s.lowering g l) {e : Engine}
    (he : e.Binds f.name symbol f none) : (((s.passed q).lowered l).handedOver e).Keeps f symbol p := by
  refine ⟨he, ?_⟩
  show l.registry.find? f.name = _
  rw [hd.find?, if_neg (h.name_ne hd)]
  exact h.registered

theorem Keeps.released (h : s.Keeps f symbol p) (t : Tracker) {wrapper : String} (hne : wrapper ≠ f.name) :
    (s.released t wrapper).Keeps f symbol p := by
  refine ⟨h.resolves.release (by simp), ?_⟩
  show Bindings.find? (s.registry.erase wrapper) f.name = _
  rw [Bindings.find?_erase, if_neg hne]
  exact h.registered

theorem Keeps.takes (h : s.Keeps f symbol p) (ht : s.Takes r) : r.session.Keeps f symbol p := by
  have hpassed : ∀ q, (s.passed q).Keeps f symbol p := fun q => h.congr rfl rfl
  cases ht with
  | ended _ => exact h
  | skipped _ => exact hpassed _
  | unpassed _ => exact hpassed _
  | unread _ => exact hpassed _
  | undeclared _ hl =>
    cases Lowering.declare_error hl
    exact hpassed _
  | @declared proto _ _ _ _ hl =>
    obtain ⟨-, -, rfl⟩ := Lowering.declare_ok hl
    exact ⟨h.resolves, (Lowering.find?_declared proto h.isDefined).trans h.registered⟩
  | undefined _ hl => exact h.congr (Lowering.define_error_tables hl).1 rfl
  | rejected _ hl hadd =>
    obtain rfl := Engine.add_error_eq hadd
    exact h.defines (Lowering.define_ok hl) h.resolves
  | defined _ hl hadd => exact h.defines (Lowering.define_ok hl) (h.resolves.add hadd)
  | wrapperRejected _ hl hadd =>
    obtain rfl := Engine.add_error_eq hadd
    exact h.defines (Lowering.define_ok hl) (Engine.binds_newTracker.mpr h.resolves)
  | @evaluated d q _ _ _ _ _ hl hadd heval =>
    have hd := Lowering.define_ok hl
    have hloaded := h.defines (q := q) hd ((Engine.binds_newTracker.mpr h.resolves).add hadd)
    cases heval with
    | unlinked _ => exact hloaded
    | stopped _ _ _ => exact hloaded
    | returned _ _ _ =>
      have hne := h.name_ne hd
      rw [← hd.name] at hne
      exact hloaded.released s.tracker hne

/-- To define the function again fails. -/
theorem Keeps.refuses (h : s.Keeps f symbol p) (hcur : s.parser.cur = .keyword .defWord)
    (hp : Parser.definition s.ops s.parser = .ok d q) (hname : d.proto.name = f.name) (budget : Nat) :
    ∃ r, s.next budget = some r ∧ r.turn = .done (.failed (.lowering (.redefinition f.name))) := by
  have hbody : s.lowering.hasBody d.proto.name = true := by
    rw [Lowering.hasBody, hname, show s.lowering.registry = s.registry from rfl, h.isDefined, Bool.or_true]
  have hdefine : Lowering.define d s.lowering = .error (.redefinition d.proto.name) s.lowering := by
    rw [Lowering.define, if_pos hbody]
  refine ⟨s.handleDefinition, by simp only [next_eq, hcur], ?_⟩
  simp only [handleDefinition, read_eq, hp, lower_eq, passed_lowering, hdefine, hname, fail]

/-! ## Main statement -/

/-- A turn that defines a function leaves a session that keeps it. -/
theorem Takes.keeps (hs : s.WellFormed) (ht : s.Takes r) (hr : r.turn = .done (.defined f)) :
    ∃ symbol p, r.session.Keeps f symbol p := by
  cases ht with
  | @defined d _ _ l e hp hl hadd =>
    cases hr
    have hd := Lowering.define_ok hl
    obtain ⟨symbol, hbinds⟩ := Engine.binds_new (hd.distinct hs.named hs.unit) hadd hd.mem hd.isDeclaration
    refine ⟨symbol, d.proto, hbinds, ?_⟩
    show l.registry.find? f.name = _
    rw [hd.find?, if_pos hd.name.symm]
  | evaluated _ _ _ heval =>
    cases heval with
    | unlinked _ => cases hr
    | stopped _ _ _ => cases hr
    | returned _ _ _ => cases hr
  | _ => cases hr

theorem Run.keeps {source : String} (hrun : Run source past s) {t : Session × Handled} (ht : t ∈ past)
    (hdef : t.2.turn = .done (.defined f)) : ∃ symbol p, t.2.session.Keeps f symbol p ∧ s.Keeps f symbol p := by
  induction hrun with
  | start => cases ht
  | turn budget hrun hn ih =>
    rcases List.mem_append.mp ht with ht | ht
    · obtain ⟨symbol, p, hthen, hnow⟩ := ih ht
      exact ⟨symbol, p, hthen, hnow.takes (next_takes hn)⟩
    · cases List.mem_singleton.mp ht
      obtain ⟨symbol, p, h⟩ := (next_takes hn).keeps hrun.wellFormed hdef
      exact ⟨symbol, p, h, h⟩

/-- In a run of any text, once a turn has defined a function, then in every later session
    its name resolves, by the symbol from then, to that very function in a unit loaded for
    good, and its registration is the one from then, marked as defined. Every definition of
    the name that is read there fails. -/
theorem Run.definition_permanent {source : String} (hrun : Run source past s) {t : Session × Handled} (ht : t ∈ past)
    (hdef : t.2.turn = .done (.defined f)) :
    ∃ symbol p,
      (t.2.session.engine.Binds f.name symbol f none ∧ s.engine.Binds f.name symbol f none) ∧
      (t.2.session.registry.find? f.name = some ⟨p, true⟩ ∧ s.registry.find? f.name = some ⟨p, true⟩) ∧
      ∀ budget d q, s.parser.cur = .keyword .defWord → Parser.definition s.ops s.parser = .ok d q →
        d.proto.name = f.name →
        ∃ r, s.next budget = some r ∧ r.turn = .done (.failed (.lowering (.redefinition f.name))) := by
  obtain ⟨symbol, p, hthen, hnow⟩ := hrun.keeps ht hdef
  refine ⟨symbol, p, ⟨hthen.resolves, hnow.resolves⟩, ⟨hthen.registered, hnow.registered⟩, ?_⟩
  intro budget d q hcur hp hname
  exact hnow.refuses hcur hp hname budget

/-! A definition, a declaration of the same function, a fatal turn, and a definition that is
refused. -/

def defineTwice : String := "def f(a) a; extern f(b); extern g(x); g(f(1)); def f(x y) x"

/-- The function that the turn defined. -/
def defined? (r : Handled) : Option Ir.Function :=
  match r.turn with
  | .done (.defined f) => some f
  | _ => none

/-- Whether a definition of `n` is next. -/
def definesNext (n : String) (s : Session) : Bool :=
  match s.parser.cur, Parser.definition s.ops s.parser with
  | .keyword .defWord, .ok d _ => d.proto.name == n
  | _, _ => false

theorem definition_permanent_defineTwice : ∃ past s t f symbol, Run defineTwice past s ∧ t ∈ past ∧
    t.2.turn = .done (.defined f) ∧ f.name = "f" ∧ f.params = ["a"] ∧ s.engine.Binds "f" symbol f none ∧
    ∃ r, s.next 0 = some r ∧ r.turn = .done (.failed (.lowering (.redefinition "f"))) := by
  have hturns : ((takeTurns 20 9 ([], ofText defineTwice)).any fun x =>
      (x.1.any fun t => (defined? t.2).any fun f => f.name == "f" && f.params == ["a"]) &&
        definesNext "f" x.2) = true := by decide +kernel
  obtain ⟨x, hx, hturns⟩ := (Option.any_eq_true _ _).mp hturns
  have hrun : Run defineTwice x.1 x.2 := Run.start.takeTurns hx
  obtain ⟨hpast, hnext⟩ := Bool.and_eq_true_iff.mp hturns
  obtain ⟨t, ht, hpast⟩ := List.any_eq_true.mp hpast
  obtain ⟨f, hf, hpast⟩ := (Option.any_eq_true _ _).mp hpast
  simp only [Bool.and_eq_true, beq_iff_eq] at hpast
  obtain ⟨hname, hparams⟩ := hpast
  have hdef : t.2.turn = .done (.defined f) := by
    unfold defined? at hf
    split at hf
    · rename_i hturn
      rw [hturn, Option.some.inj hf]
    · cases hf
  obtain ⟨symbol, p, ⟨-, hbinds⟩, -, hrefused⟩ := hrun.definition_permanent ht hdef
  rw [hname] at hbinds hrefused
  refine ⟨x.1, x.2, t, f, symbol, hrun, ht, hdef, hname, hparams, hbinds, ?_⟩
  unfold definesNext at hnext
  split at hnext
  · rename_i d q hcur hp
    exact hrefused 0 d q hcur hp (by simpa using hnext)
  · cases hnext

end Kaleidoscope.Session
