/-
  Kaleidoscope.Proofs.Symbols — what the engine's names resolve to.

  `Engine.Reached P` are the engines reached from a new one by creating trackers, loading
  units for which `P` holds and releasing trackers. In all of them, a name that resolves to
  a compiled function resolves to one that is loaded, has that name and has a body
  (`Reached.resolves`): loading a unit enters only such names, and releasing units takes
  back every name that resolves to them, because it is the name of one of their functions.
-/

import Kaleidoscope.Engine.Basic
import Kaleidoscope.Proofs.Success

namespace Kaleidoscope

namespace Engine

/-! ## Entering names -/

/-- A name is as before, or it is that of a function with a body which was entered. -/
theorem find?_enlist (unit i : Nat) (fs : List Ir.Function) (symbols : Bindings Resolution) (n : String) :
    (enlist unit i fs symbols).find? n = symbols.find? n ∨
    ∃ j f, fs[j]? = some f ∧ f.name = n ∧ f.isDeclaration = false ∧
      (enlist unit i fs symbols).find? n = some (.compiled ⟨unit, i + j⟩) := by
  induction fs generalizing i symbols with
  | nil => exact .inl rfl
  | cons f fs ih =>
    rw [enlist]
    rcases ih (i + 1) (if f.isDeclaration then symbols else symbols.insert f.name (.compiled ⟨unit, i⟩)) with h | h
    · rw [h]
      by_cases hd : f.isDeclaration = true
      · exact .inl (by rw [if_pos hd])
      · rw [if_neg hd, Bindings.find?_insert]
        by_cases hn : f.name = n
        · exact .inr ⟨0, f, rfl, hn, by simpa using hd, if_pos hn⟩
        · exact .inl (if_neg hn)
    · obtain ⟨j, g, hj, hn, hd, hg⟩ := h
      refine .inr ⟨j + 1, g, hj, hn, hd, ?_⟩
      rw [hg, show i + 1 + j = i + (j + 1) by omega]

/-! ## Taking names back -/

/-- Whether a name resolves to a function of unit `i`. -/
def resolvesIn (i : Nat) : Option Resolution → Bool
  | some (.compiled s) => s.unit == i
  | _ => false

/-- What a name resolves to if no compiled function has it. -/
def builtin? (n : String) : Option Resolution := (Builtin.ofName? n).map .builtin

theorem resolvesIn_builtin? (i : Nat) (n : String) : resolvesIn i (builtin? n) = false := by
  unfold builtin?
  cases Builtin.ofName? n <;> rfl

theorem find?_disown (i : Nat) (symbols : Bindings Resolution) (name n : String) :
    (disown i symbols name).find? n =
      if name = n ∧ resolvesIn i (symbols.find? n) = true then builtin? n else symbols.find? n := by
  unfold disown
  split
  · rename_i s hs
    split
    · rename_i hu
      rw [Bindings.find?_restore]
      by_cases hn : name = n
      · subst hn
        simp [hs, resolvesIn, hu, builtin?]
      · simp [hn]
    · rename_i hu
      by_cases hn : name = n
      · subst hn
        simp [hs, resolvesIn, hu]
      · simp [hn]
  · rename_i hs
    by_cases hn : name = n
    · subst hn
      have : resolvesIn i (symbols.find? name) = false := by
        unfold resolvesIn
        split
        · rename_i s h
          exact absurd h (hs s)
        · rfl
      simp [this]
    · simp [hn]

theorem find?_disown_all (i : Nat) (names : List String) (symbols : Bindings Resolution) (n : String) :
    (names.foldl (disown i) symbols).find? n =
      if n ∈ names ∧ resolvesIn i (symbols.find? n) = true then builtin? n else symbols.find? n := by
  induction names generalizing symbols with
  | nil => simp
  | cons name names ih =>
    rw [List.foldl_cons, ih, find?_disown]
    by_cases hn : name = n
    · subst hn
      by_cases hu : resolvesIn i (symbols.find? name) = true
      · simp [hu, resolvesIn_builtin?]
      · simp [hu]
    · simp [hn, Ne.symm hn]

/-- The name is resolved to a unit of `t`, which has a function of that name; the first of
    `units` has the number `i`. -/
def Withdrawn (t : Tracker) (i : Nat) (units : List (Option Loaded)) (n : String) (r : Option Resolution) : Prop :=
  ∃ s l, r = some (.compiled s) ∧ i ≤ s.unit ∧ units[s.unit - i]? = some (some l) ∧ l.tracker = some t ∧
    n ∈ l.unit.functions.map Ir.Function.name

theorem not_withdrawn_builtin? (t : Tracker) (i : Nat) (units : List (Option Loaded)) (n : String) :
    ¬Withdrawn t i units n (builtin? n) := by
  rintro ⟨s, l, hs, -⟩
  unfold builtin? at hs
  cases h : Builtin.ofName? n <;> simp [h] at hs

/-- The names of the first unit, if it is one of `t`. -/
theorem withdrawn_cons (t : Tracker) (i : Nat) (l : Option Loaded) (units : List (Option Loaded)) (n : String)
    (r : Option Resolution) : Withdrawn t i (l :: units) n r ↔
      (n ∈ (if ownedBy t l then (l.map fun l => l.unit.functions.map Ir.Function.name).getD [] else []) ∧
        resolvesIn i r = true) ∨ Withdrawn t (i + 1) units n r := by
  constructor
  · rintro ⟨s, m, rfl, hi, hm, ht, hn⟩
    by_cases hu : s.unit = i
    · left
      rw [hu, Nat.sub_self, List.getElem?_cons_zero] at hm
      cases hm
      refine ⟨?_, by simp [resolvesIn, hu]⟩
      simpa [ownedBy, ht] using hn
    · right
      obtain ⟨k, hk⟩ : ∃ k, s.unit = i + 1 + k := ⟨s.unit - i - 1, by omega⟩
      rw [show s.unit - i = k + 1 by omega, List.getElem?_cons_succ] at hm
      exact ⟨s, m, rfl, by omega, by rwa [show s.unit - (i + 1) = k by omega], ht, hn⟩
  · rintro (⟨hn, hr⟩ | ⟨s, m, rfl, hi, hm, ht, hn⟩)
    · unfold resolvesIn at hr
      split at hr
      · rename_i s
        have hu : s.unit = i := by simpa using hr
        cases l with
        | none => simp [ownedBy] at hn
        | some m =>
          by_cases ht : m.tracker = some t
          · exact ⟨s, m, rfl, by omega, by simp [hu], ht, by simpa [ownedBy, ht] using hn⟩
          · simp [ownedBy, ht] at hn
      · cases hr
    · refine ⟨s, m, rfl, by omega, ?_, ht, hn⟩
      rw [show s.unit - i = s.unit - (i + 1) + 1 by omega, List.getElem?_cons_succ]
      exact hm

open Classical in
theorem find?_disownUnits (t : Tracker) (i : Nat) (units : List (Option Loaded)) (symbols : Bindings Resolution)
    (n : String) : (disownUnits t i units symbols).find? n =
      if Withdrawn t i units n (symbols.find? n) then builtin? n else symbols.find? n := by
  induction units generalizing i symbols with
  | nil =>
    have : ¬Withdrawn t i [] n (symbols.find? n) := by
      rintro ⟨s, l, -, -, h, -⟩
      simp at h
    rw [if_neg this]
    rfl
  | cons l units ih =>
    simp only [disownUnits, withdrawn_cons]
    rw [ih, find?_disown_all]
    generalize (if ownedBy t l then (l.map fun l => l.unit.functions.map Ir.Function.name).getD [] else []) = names
    by_cases h : n ∈ names ∧ resolvesIn i (symbols.find? n) = true
    · simp only [h, true_and, true_or, if_true]
      exact if_neg (not_withdrawn_builtin? t (i + 1) units n)
    · simp only [h, false_or, if_false]

/-! ## Loading -/

theorem checkName_run (f : Ir.Function) (e : Engine) :
    checkName f e =
      if (!f.isDeclaration && e.isDefined f.name) = true then .error (.duplicate f.name) e else .ok () e := by
  rw [checkName, get_bind_run]
  split <;> rfl

/-- Checking the names of functions changes nothing, and stops at the first that is taken. -/
theorem forM_checkName (fs : List Ir.Function) (e : Engine) :
    (fs.forM checkName : Change Unit) e = match fs.find? fun f => !f.isDeclaration && e.isDefined f.name with
      | some f => .error (.duplicate f.name) e
      | none => .ok () e := by
  induction fs with
  | nil => rfl
  | cons f fs ih =>
    show (checkName f >>= fun _ => fs.forM checkName) e = _
    rw [List.find?_cons]
    have hcheck := checkName_run f e
    cases htaken : !f.isDeclaration && e.isDefined f.name with
    | true =>
      rw [htaken, if_pos rfl] at hcheck
      rw [bind_of_error hcheck]
    | false =>
      rw [htaken, if_neg Bool.false_ne_true] at hcheck
      rw [bind_of_ok hcheck]
      exact ih

theorem add_run (e : Engine) (u : Ir.CompilationUnit) (t : Option Tracker) :
    e.add u t = match u.functions.find? fun f => !f.isDeclaration && e.isDefined f.name with
      | some f => .error (.duplicate f.name) e
      | none => .ok () { e with
          symbols := enlist e.units.size 0 u.functions e.symbols
          units := e.units.push (some ⟨u, t⟩) } := by
  have hnames := forM_checkName u.functions e
  unfold add
  split <;> rename_i hfind <;> rw [hfind] at hnames
  · exact bind_of_error hnames
  · exact bind_of_ok hnames

/-- A unit that is refused leaves the engine as it was. -/
theorem add_error_eq {e e' : Engine} {u : Ir.CompilationUnit} {t : Option Tracker} {err : EngineError}
    (h : e.add u t = .error err e') : e' = e := by
  rw [add_run] at h
  split at h <;> cases h
  rfl

/-! ## Reached engines -/

/-- From a new engine, by creating trackers, loading units that have the property, and
    releasing trackers. -/
inductive Reached (P : Ir.CompilationUnit → Prop) : Engine → Prop
  | new : Reached P {}
  | newTracker {e : Engine} : Reached P e → Reached P e.newTracker.2
  | add {e e' : Engine} {u : Ir.CompilationUnit} {t : Option Tracker} :
      Reached P e → P u → e.add u t = .ok () e' → Reached P e'
  | release {e : Engine} (t : Tracker) : Reached P e → Reached P (e.release t)

variable {e e' : Engine} {u : Ir.CompilationUnit} {t : Option Tracker}

theorem add_eq (h : e.add u t = .ok () e') :
    e' = { e with
      symbols := enlist e.units.size 0 u.functions e.symbols
      units := e.units.push (some ⟨u, t⟩) } := by
  rw [add_run] at h
  split at h <;> cases h
  rfl

theorem loaded?_add (h : e.add u t = .ok () e') (i : Nat) :
    e'.loaded? i = if i = e.units.size then some ⟨u, t⟩ else e.loaded? i := by
  rw [add_eq h]
  unfold loaded?
  simp only [Array.getElem?_push]
  split <;> rfl

theorem loaded?_release (e : Engine) (t : Tracker) (i : Nat) :
    (e.release t).loaded? i = if ownedBy t (e.loaded? i) then none else e.loaded? i := by
  unfold loaded? release
  simp only [Array.getElem?_map]
  cases e.units[i]? with
  | none => rfl
  | some l =>
    simp only [Option.map_some, Option.join_some]

/-- Every loaded unit has the property that units are loaded with. -/
theorem Reached.loaded {P : Ir.CompilationUnit → Prop} (h : Reached P e) {i : Nat} {l : Loaded}
    (hl : e.loaded? i = some l) : P l.unit := by
  induction h generalizing i l with
  | new => simp [loaded?] at hl
  | newTracker _ ih => exact ih hl
  | add _ hP ha ih =>
    rw [loaded?_add ha] at hl
    split at hl
    · cases hl
      exact hP
    · exact ih hl
  | release t _ ih =>
    rw [loaded?_release] at hl
    split at hl
    · cases hl
    · exact ih hl

theorem find?_builtins {bs : List Builtin} {n : String} {r : Resolution}
    (h : Bindings.find? (bs.map fun b => (b.name, Resolution.builtin b)) n = some r) : ∃ b, r = .builtin b := by
  induction bs with
  | nil => cases h
  | cons b bs ih =>
    simp only [List.map_cons, Bindings.find?] at h
    split at h
    · exact ⟨b, (Option.some.inj h).symm⟩
    · exact ih h

/-- The symbol means a loaded function with that name and a body. -/
def Means (e : Engine) (n : String) (s : Symbol) : Prop :=
  ∃ l f, e.loaded? s.unit = some l ∧ l.unit.functions[s.index]? = some f ∧ f.name = n ∧ f.isDeclaration = false

theorem Means.function? {n : String} {s : Symbol} (h : e.Means n s) :
    ∃ f, e.function? s = some f ∧ f.name = n ∧ f.isDeclaration = false := by
  obtain ⟨l, f, hl, hf, hn, hd⟩ := h
  exact ⟨f, by simp only [Engine.function?, hl, Option.bind_some, hf], hn, hd⟩

theorem Means.add {n : String} {s : Symbol} (hm : e.Means n s) (h : e.add u t = .ok () e') : e'.Means n s := by
  obtain ⟨l, f, hl, hf, hn, hd⟩ := hm
  refine ⟨l, f, ?_, hf, hn, hd⟩
  rw [loaded?_add h, if_neg, hl]
  intro hs
  simp [loaded?, hs] at hl

/-- Names of compiled functions resolve to loaded functions. -/
theorem Reached.resolves {P : Ir.CompilationUnit → Prop} (h : Reached P e) {n : String} {s : Symbol}
    (hs : e.symbols.find? n = some (.compiled s)) : e.Means n s := by
  induction h generalizing n s with
  | new =>
    obtain ⟨b, hb⟩ := find?_builtins hs
    cases hb
  | newTracker _ ih => exact ih hs
  | @add e e' u t _ _ ha ih =>
    rw [add_eq ha] at hs
    rcases find?_enlist e.units.size 0 u.functions e.symbols n with h | ⟨j, f, hj, hn, hd, h⟩
    · exact (ih (h ▸ hs)).add ha
    · rw [h] at hs
      cases hs
      exact ⟨⟨u, t⟩, f, by rw [loaded?_add ha, if_pos rfl], by simpa using hj, hn, hd⟩
  | @release e t _ ih =>
    classical
    have hs' : (disownUnits t 0 e.units.toList e.symbols).find? n = some (.compiled s) := hs
    rw [find?_disownUnits] at hs'
    split at hs'
    · exact absurd hs' (by unfold builtin?; cases Builtin.ofName? n <;> simp)
    · rename_i hw
      obtain ⟨l, f, hl, hf, hn, hd⟩ := ih hs'
      refine ⟨l, f, ?_, hf, hn, hd⟩
      rw [loaded?_release, hl, if_neg]
      -- a unit that is released takes back the names that resolve to it
      intro ho
      refine hw ⟨s, l, hs', Nat.zero_le _, ?_, by simpa [ownedBy] using ho, ?_⟩
      · have hu : (e.units[s.unit]?).join = some l := hl
        cases h : e.units[s.unit]? with
        | none => simp [h] at hu
        | some o => simpa [h] using hu
      · rw [← hn]
        exact List.mem_map_of_mem (List.mem_of_getElem? hf)

end Engine

end Kaleidoscope
