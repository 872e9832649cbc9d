/-
  Kaleidoscope.Proofs.Loading — what a name means while units come and go.

  `Engine.Binds` says all there is to say of a name that resolves to a compiled function:
  by which symbol, to which function, and under which tracker its unit was loaded. Loading
  a unit leaves every such name as it is (`Binds.add`), because a unit with a body for it is
  refused, and adds the functions of the unit that have bodies (`binds_new`,
  `Binds.of_add`). Releasing a tracker leaves every name whose unit was loaded under
  another one, or for good (`Binds.release`), and no other (`Binds.of_release`).
-/

import Kaleidoscope.Proofs.Coverage

namespace Kaleidoscope.Engine

variable {e e' : Engine} {u : Ir.CompilationUnit} {t t' : Option Tracker} {n : String} {s s' : Symbol}
  {f g : Ir.Function} {P : Ir.CompilationUnit → Prop}

/-- The name resolves, by the symbol, to a function of a unit that was loaded under `t`. -/
structure Binds (e : Engine) (n : String) (s : Symbol) (g : Ir.Function) (t : Option Tracker) : Prop where
  symbol : e.symbols.find? n = some (.compiled s)
  loaded : ∃ l, e.loaded? s.unit = some l ∧ l.unit.functions[s.index]? = some g ∧ l.tracker = t

theorem Binds.function? (h : e.Binds n s g t) : e.function? s = some g := by
  obtain ⟨l, hl, hg, -⟩ := h.loaded
  simp only [Engine.function?, hl, Option.bind_some, hg]

theorem Binds.isDefined (h : e.Binds n s g t) : e.isDefined n = true := by
  simp only [Engine.isDefined, h.symbol]

theorem Binds.compiled (h : e.Binds n s g t) : e.Compiled n g := ⟨s, h.symbol, h.function?⟩

theorem Binds.unit_lt (h : e.Binds n s g t) : s.unit < e.units.size := by
  obtain ⟨l, hl, -⟩ := h.loaded
  rw [← Nat.not_le]
  intro hle
  rw [loaded?, Array.getElem?_eq_none hle] at hl
  cases hl

/-- A name means one function at a time. -/
theorem Binds.unique (h : e.Binds n s g t) (h' : e.Compiled n f) : f = g := by
  obtain ⟨s', hs', hf⟩ := h'
  have hs := h.symbol
  rw [hs'] at hs
  cases hs
  rw [h.function?] at hf
  exact (Option.some.inj hf).symm

theorem Binds.tracker (h : e.Binds n s g t) (h' : e.Binds n s' f t') : t = t' := by
  obtain ⟨l, hl, -, ht⟩ := h.loaded
  obtain ⟨l', hl', -, ht'⟩ := h'.loaded
  cases h.symbol.symm.trans h'.symbol
  cases hl.symm.trans hl'
  exact ht.symm.trans ht'

theorem Reached.binds (hr : e.Reached P) (h : e.isDefined n = true) :
    ∃ s g t, e.Binds n s g t ∧ g.name = n ∧ g.isDeclaration = false := by
  unfold Engine.isDefined at h
  split at h
  · rename_i s hs
    obtain ⟨l, g, hl, hg, hname, hbody⟩ := hr.resolves hs
    exact ⟨s, g, l.tracker, ⟨hs, l, hl, hg, rfl⟩, hname, hbody⟩
  · cases h

theorem binds_newTracker : e.newTracker.2.Binds n s g t ↔ e.Binds n s g t :=
  ⟨fun h => ⟨h.symbol, h.loaded⟩, fun h => ⟨h.symbol, h.loaded⟩⟩

/-! ## Loading -/

/-- A unit that was loaded has no body for a name that was compiled before. -/
theorem isDefined_of_add (ha : e.add u t = .ok () e') (hf : f ∈ u.functions) (hbody : f.isDeclaration = false) :
    e.isDefined f.name = false := by
  rw [add_run] at ha
  split at ha
  · cases ha
  · rename_i hnone
    simpa [hbody] using List.find?_eq_none.mp hnone f hf

/-- The name of a function with a body resolves to the last function of that name. -/
theorem find?_enlist_of_mem (unit i : Nat) {fs : List Ir.Function} (symbols : Bindings Resolution) (hf : f ∈ fs)
    (hbody : f.isDeclaration = false) :
    ∃ j g, fs[j]? = some g ∧ g.name = f.name ∧
      (enlist unit i fs symbols).find? f.name = some (.compiled ⟨unit, i + j⟩) := by
  induction fs generalizing i symbols with
  | nil => cases hf
  | cons h fs ih =>
    rw [enlist]
    rcases List.mem_cons.mp hf with rfl | hf
    · rw [if_neg (by simp [hbody])]
      rcases find?_enlist unit (i + 1) fs (symbols.insert f.name (.compiled ⟨unit, i⟩)) f.name with hsame | hlater
      · exact ⟨0, f, rfl, rfl, by rw [hsame, Bindings.find?_insert, if_pos rfl, Nat.add_zero]⟩
      · obtain ⟨j, g, hj, hname, -, hfind⟩ := hlater
        exact ⟨j + 1, g, hj, hname, by rw [hfind, Nat.add_assoc, Nat.add_comm 1]⟩
    · obtain ⟨j, g, hj, hname, hfind⟩ := ih (i + 1) _ hf
      exact ⟨j + 1, g, hj, hname, by rw [hfind, Nat.add_assoc, Nat.add_comm 1]⟩

theorem Binds.add (h : e.Binds n s g t) (ha : e.add u t' = .ok () e') : e'.Binds n s g t := by
  obtain ⟨l, hl, hg, ht⟩ := h.loaded
  refine ⟨?_, l, ?_, hg, ht⟩
  · rcases find?_enlist e.units.size 0 u.functions e.symbols n with hsame | ⟨j, f, hj, rfl, hbody, -⟩
    · rw [add_eq ha]
      exact hsame.trans h.symbol
    · have hundef := isDefined_of_add ha (List.mem_of_getElem? hj) hbody
      rw [h.isDefined] at hundef
      cases hundef
  · rw [loaded?_add ha, if_neg (Nat.ne_of_lt h.unit_lt)]
    exact hl

theorem binds_new (hu : u.Distinct) (ha : e.add u t = .ok () e') (hf : f ∈ u.functions)
    (hbody : f.isDeclaration = false) :
    ∃ s, e'.Binds f.name s f t := by
  obtain ⟨j, g, hj, hname, hfind⟩ := find?_enlist_of_mem e.units.size 0 e.symbols hf hbody
  obtain rfl : g = f := hu.eq_of_name (List.mem_of_getElem? hj) hf hname
  refine ⟨⟨e.units.size, j⟩, ?_, ⟨u, t⟩, ?_, hj, rfl⟩
  · rw [add_eq ha]
    simpa using hfind
  · rw [loaded?_add ha, if_pos rfl]

theorem Binds.of_add (hr : e.Reached P) (ha : e.add u t' = .ok () e') (h : e'.Binds n s g t) :
    e.Binds n s g t ∨ g ∈ u.functions ∧ g.name = n ∧ g.isDeclaration = false ∧ t = t' := by
  obtain ⟨l, hl, hg, ht⟩ := h.loaded
  have hs := h.symbol
  rw [add_eq ha] at hs
  rcases find?_enlist e.units.size 0 u.functions e.symbols n with hsame | ⟨j, f, hj, hname, hbody, hnew⟩
  · left
    have hs : e.symbols.find? n = some (.compiled s) := hsame.symm.trans hs
    obtain ⟨l', -, hl', -⟩ := hr.resolves hs
    have hne : s.unit ≠ e.units.size := by
      intro heq
      simp [loaded?, heq] at hl'
    rw [loaded?_add ha, if_neg hne] at hl
    exact ⟨hs, l, hl, hg, ht⟩
  · right
    cases hnew.symm.trans hs
    rw [loaded?_add ha, if_pos rfl] at hl
    cases hl
    rw [Nat.zero_add, hj] at hg
    cases hg
    exact ⟨List.mem_of_getElem? hj, hname, hbody, ht.symm⟩

/-! ## Releasing -/

theorem Binds.release {r : Tracker} (h : e.Binds n s g t) (hne : t ≠ some r) : (e.release r).Binds n s g t := by
  classical
  obtain ⟨l, hl, hg, ht⟩ := h.loaded
  refine ⟨?_, l, ?_, hg, ht⟩
  · show (disownUnits r 0 e.units.toList e.symbols).find? n = _
    rw [find?_disownUnits, if_neg, h.symbol]
    -- a name is taken back only with the unit that it resolves to
    rintro ⟨s', l', hs', -, hl', ht', -⟩
    cases h.symbol.symm.trans hs'
    have hl' : e.loaded? s.unit = some l' := by
      rw [Nat.sub_zero, Array.getElem?_toList] at hl'
      simp [loaded?, hl']
    rw [hl] at hl'
    cases hl'
    exact hne (ht.symm.trans ht')
  · rw [loaded?_release, hl, if_neg]
    simpa [ownedBy, ht] using hne

theorem Binds.of_release {r : Tracker} (h : (e.release r).Binds n s g t) : e.Binds n s g t ∧ t ≠ some r := by
  classical
  obtain ⟨l, hl, hg, ht⟩ := h.loaded
  have hs : (disownUnits r 0 e.units.toList e.symbols).find? n = some (.compiled s) := h.symbol
  rw [find?_disownUnits] at hs
  rw [loaded?_release] at hl
  split at hl
  · cases hl
  · rename_i howned
    split at hs
    · unfold builtin? at hs
      cases hb : Builtin.ofName? n <;> simp [hb] at hs
    · refine ⟨⟨hs, l, hl, hg, ht⟩, ?_⟩
      rintro rfl
      simp [hl, ownedBy, ht] at howned

end Kaleidoscope.Engine
