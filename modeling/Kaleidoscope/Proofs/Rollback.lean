/-
  Kaleidoscope.Proofs.Rollback — a turn that fails leaves the session's tables as they were.

  A definition is announced before its body is lowered: it stands in the registry, over an
  earlier declaration if there is one, and its operator has its precedence, over a builtin
  one if there is one. Whatever the body does after that, registry and operators are not
  touched by it (`lowerFunction_tables`), so what is withdrawn is what was announced, and
  both tables are again what they were, entry by entry and in the same order
  (`withdraw_tables`). The unit is another matter: what the body declared in it stays.

  `tables_of_failed`: after any turn that fails, registry, operators, engine and number of
  units are those from before the turn.
-/

import Kaleidoscope.Proofs.Declarations
import Kaleidoscope.Proofs.Turns

namespace Kaleidoscope

namespace Lowering

variable {d : Definition} {s s' : Lowering} {e : LoweringError}

/-- Lowering a function leaves registry and operators alone, also if it fails. -/
theorem lowerFunction_tables (d : Definition) (s : Lowering) :
    (left (lowerFunction d s)).registry = s.registry ∧ (left (lowerFunction d s)).ops = s.ops := by
  have hext := lowerBody_extends d.proto.params d.body (opened d s)
  rw [lowerFunction_run]
  split
  · cases hbody : lowerBody d.proto.params d.body (opened d s) with
    | error e t =>
      rw [hbody] at hext
      exact ⟨hext.registry, hext.ops⟩
    | ok body t =>
      rw [hbody] at hext
      simp only
      split
      · exact ⟨hext.registry, hext.ops⟩
      · exact ⟨hext.registry, hext.ops⟩
  · exact ⟨rfl, rfl⟩

/-- Withdrawing a definition undoes its announcement. -/
theorem withdraw_tables (p : Prototype) (hregistry : s'.registry = (s.announce p).registry)
    (hops : s'.ops = (s.announce p).ops) :
    (s'.withdraw p s).registry = s.registry ∧ (s'.withdraw p s).ops = s.ops := by
  constructor
  · show Bindings.restore s'.registry p.name (s.registry.find? p.name) = s.registry
    rw [hregistry]
    exact Bindings.restore_insert s.registry p.name _
  · unfold withdraw
    simp only [hops, announce]
    cases operatorOf? p with
    | none => rfl
    | some op => exact Bindings.restore_insert s.ops op p.precedence

/-- A definition that succeeds leaves the precedence that it announced. -/
theorem define_ok_ops {f : Ir.Function} (h : define d s = .ok f s') : s'.ops = (s.announce d.proto).ops := by
  unfold define at h
  split at h
  · cases h
  · have htables := lowerFunction_tables d (s.announce d.proto)
    split at h
    · rename_i hlower
      rw [hlower] at htables
      cases h
      exact htables.2
    · cases h

theorem define_error_tables (h : define d s = .error e s') : s'.registry = s.registry ∧ s'.ops = s.ops := by
  unfold define at h
  split at h
  · cases h
    exact ⟨rfl, rfl⟩
  · have htables := lowerFunction_tables d (s.announce d.proto)
    split at h
    · cases h
    · rename_i t hlower
      rw [hlower] at htables
      cases h
      exact withdraw_tables d.proto htables.1 htables.2

end Lowering

namespace Session

/-- A turn that fails changes no table that outlives a statement. -/
theorem tables_of_failed {s : Session} {budget : Nat} {h : Handled} {e : Error} (hnext : s.next budget = some h)
    (hfailed : h.turn = .done (.failed e)) :
    h.session.registry = s.registry ∧ h.session.ops = s.ops ∧ h.session.engine = s.engine ∧
      h.session.units = s.units := by
  cases next_takes hnext with
  | ended _ => cases hfailed
  | skipped _ => cases hfailed
  | unpassed _ => exact ⟨rfl, rfl, rfl, rfl⟩
  | unread _ => exact ⟨rfl, rfl, rfl, rfl⟩
  | undeclared _ hlower =>
    cases Lowering.declare_error hlower
    exact ⟨rfl, rfl, rfl, rfl⟩
  | declared _ _ => cases hfailed
  | undefined _ hlower =>
    obtain ⟨hregistry, hops⟩ := Lowering.define_error_tables hlower
    exact ⟨hregistry, hops, rfl, rfl⟩
  | rejected _ _ _ => cases hfailed
  | defined _ _ _ => cases hfailed
  | wrapperRejected _ _ _ => cases hfailed
  | evaluated _ _ _ heval =>
    cases heval with
    | unlinked _ => cases hfailed
    | stopped _ _ _ => cases hfailed
    | returned _ _ _ => cases hfailed

/-! A definition of a builtin operator that was declared before, and that fails deep in its
body. -/

def redefinedSum : String := "extern binary@+(a b); def binary@+(a b) { if a then { var c = a; } else b; c };"

/-- Whether `s` has `+` at its builtin precedence and as a declared function, and the turn
    fails for a variable that is not in sight. -/
def failsOverSum (s : Session) (h : Handled) : Bool :=
  match h.turn with
  | .done (.failed e) => s.ops.find? "+" == some 20 && s.registry.find? "binary@+" == some ⟨.binary "+" 30 "a" "b", false⟩
      && e == .lowering (.unknownVariable "c")
  | _ => false

theorem tables_of_failed_redefinedSum : ∃ past s h, Run redefinedSum past s ∧ s.next 0 = some h ∧
    h.turn = .done (.failed (.lowering (.unknownVariable "c"))) ∧ h.session.ops.find? "+" = some 20 ∧
    h.session.registry.find? "binary@+" = some ⟨.binary "+" 30 "a" "b", false⟩ ∧ h.session.engine = s.engine ∧
    h.session.units = s.units := by
  have hturn : ((takeTurns 0 3 ([], ofText redefinedSum)).any fun x =>
      (x.2.next 0).any (failsOverSum x.2)) = true := by decide +kernel
  obtain ⟨x, hx, hturn⟩ := (Option.any_eq_true _ _).mp hturn
  obtain ⟨h, hnext, hturn⟩ := (Option.any_eq_true _ _).mp hturn
  have hrun : Run redefinedSum x.1 x.2 := Run.start.takeTurns hx
  unfold failsOverSum at hturn
  split at hturn
  · rename_i e hfailed
    simp only [Bool.and_eq_true, beq_iff_eq] at hturn
    obtain ⟨⟨hops, hregistry⟩, rfl⟩ := hturn
    obtain ⟨h₁, h₂, h₃, h₄⟩ := tables_of_failed hnext hfailed
    refine ⟨x.1, x.2, h, hrun, hnext, hfailed, ?_, ?_, h₃, h₄⟩
    · rw [h₂]
      exact hops
    · rw [h₁]
      exact hregistry
  · cases hturn

end Session

end Kaleidoscope
