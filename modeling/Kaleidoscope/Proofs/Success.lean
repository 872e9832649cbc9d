/-
  Kaleidoscope.Proofs.Success — how a computation that succeeded went.

  Reading and lowering keep a state and may fail. A sequence of steps succeeds exactly if
  each step does, the next one starting from the state the one before it left
  (`bind_ok_iff`); it fails with its first failure (`bind_of_error`). Steps that cannot fail
  are run on the spot: the `_bind` equations.
-/

import Kaleidoscope.Lowering.Expression

namespace Kaleidoscope

section

variable {ε σ α β : Type}

theorem bind_of_ok {x : EStateM ε σ α} {f : α → EStateM ε σ β} {s t : σ} {a : α} (h : x s = .ok a t) :
    (x >>= f) s = f a t := by
  show EStateM.bind x f s = _
  simp only [EStateM.bind, h]

theorem bind_of_error {x : EStateM ε σ α} {f : α → EStateM ε σ β} {s t : σ} {e : ε} (h : x s = .error e t) :
    (x >>= f) s = .error e t := by
  show EStateM.bind x f s = _
  simp only [EStateM.bind, h]

theorem bind_ok_iff {x : EStateM ε σ α} {f : α → EStateM ε σ β} {s s' : σ} {b : β} :
    (x >>= f) s = .ok b s' ↔ ∃ a t, x s = .ok a t ∧ f a t = .ok b s' := by
  cases h : x s with
  | ok a t =>
    rw [bind_of_ok h]
    constructor
    · intro hf
      exact ⟨a, t, rfl, hf⟩
    · rintro ⟨_, _, ha, hf⟩
      cases ha
      exact hf
  | error e t => simp [bind_of_error h]

theorem pure_ok_iff {a b : α} {s s' : σ} : (pure a : EStateM ε σ α) s = .ok b s' ↔ a = b ∧ s = s' := by
  show EStateM.Result.ok a s = _ ↔ _
  simp

theorem throw_ok_iff {e : ε} {b : α} {s s' : σ} : (throw e : EStateM ε σ α) s = .ok b s' ↔ False := by
  show EStateM.Result.error e s = _ ↔ _
  simp

theorem run'_eq_some_iff {x : EStateM ε σ α} {s : σ} {a : α} : x.run' s = some a ↔ ∃ t, x s = .ok a t := by
  delta EStateM.run' EStateM.run
  cases x s <;> simp

theorem get_bind_run (f : σ → EStateM ε σ β) (s : σ) : (get >>= f) s = f s s := rfl

theorem modify_bind_run (g : σ → σ) (f : PUnit → EStateM ε σ β) (s : σ) : (modify g >>= f) s = f ⟨⟩ (g s) := rfl

end

namespace Lowering

variable {α β : Type} {s s' : Lowering}

/-- The state with another builder. -/
def withBuilder (s : Lowering) (b : Ir.Builder) : Lowering := { s with builder := b }

@[simp] theorem withBuilder_builder (s : Lowering) (b : Ir.Builder) : (s.withBuilder b).builder = b := rfl
@[simp] theorem withBuilder_locals (s : Lowering) (b : Ir.Builder) : (s.withBuilder b).locals = s.locals := rfl
@[simp] theorem withBuilder_withBuilder (s : Lowering) (b c : Ir.Builder) :
    (s.withBuilder b).withBuilder c = s.withBuilder c := rfl

theorem build_bind_run (f : Ir.Builder → α × Ir.Builder) (g : α → Lower β) (s : Lowering) :
    (build f >>= g) s = g (f s.builder).1 (s.withBuilder (f s.builder).2) := rfl

theorem emit_bind_run (f : Ir.Builder → Ir.Builder) (g : Unit → Lower β) (s : Lowering) :
    (emit f >>= g) s = g () (s.withBuilder (f s.builder)) := rfl

theorem build_ok_iff {f : Ir.Builder → α × Ir.Builder} {a : α} :
    build f s = .ok a s' ↔ (f s.builder).1 = a ∧ s.withBuilder (f s.builder).2 = s' := by
  show EStateM.Result.ok _ _ = _ ↔ _
  simp [withBuilder]

theorem emit_ok_iff {f : Ir.Builder → Ir.Builder} {u : Unit} :
    emit f s = .ok u s' ↔ s.withBuilder (f s.builder) = s' := by
  show EStateM.Result.ok () _ = _ ↔ _
  simp [withBuilder]

theorem ensuring_ok_iff {x : Lower α} {after : Lowering → Lowering} {a : α} :
    ensuring x after s = .ok a s' ↔ ∃ t, x s = .ok a t ∧ after t = s' := by
  unfold ensuring
  cases h : x s with
  | ok b t =>
    constructor
    · intro hb
      cases hb
      exact ⟨t, rfl, rfl⟩
    · rintro ⟨_, hb, rfl⟩
      cases hb
      rfl
  | error e t => simp

theorem slotOf_ok_iff {name : String} {slot : Nat} :
    slotOf name s = .ok slot s' ↔ s.locals.find? name = some slot ∧ s = s' := by
  simp only [slotOf, get_bind_run]
  cases s.locals.find? name with
  | none => simp [throw_ok_iff]
  | some c => simp [pure_ok_iff]

/-- Looking a function up changes nothing but the unit. -/
theorem resolve?_ok {name : String} {o : Option Nat} (h : resolve? name s = .ok o s') :
    ∃ unit, s' = { s with unit } := by
  unfold resolve? at h
  split at h
  · simp only [EStateM.Result.ok.injEq] at h
    exact ⟨s.unit, h.2.symm⟩
  · split at h
    · simp only [EStateM.Result.ok.injEq] at h
      exact ⟨_, h.2.symm⟩
    · simp only [EStateM.Result.ok.injEq] at h
      exact ⟨s.unit, h.2.symm⟩

end Lowering

end Kaleidoscope
