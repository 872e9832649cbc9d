/-
  Kaleidoscope.Proofs.Coverage — the open unit against the registry.

  Between statements the open unit holds nothing but declarations, under distinct names, of
  functions that are registered with as many parameters (`Registry.Covers`). Lowering keeps
  it so: what it declares it takes from the registry. The one exception is the function
  that is being defined, which may stand in the unit with parameters of its own; it is
  taken out again if the definition fails (`covers_define_error`), and if it succeeds, it
  has its own parameters in both places (`Defines.covered`), so that all calls of its body
  agree with the registry (`Defines.calls`).
-/

import Mathlib.Data.List.Nodup
import Kaleidoscope.Proofs.Calls
import Kaleidoscope.Proofs.Declarations

namespace Kaleidoscope

/-! ## What a registry says of a name -/

namespace Registry

/-- The number of parameters a name is registered with. -/
def arity? (r : Registry) (n : String) : Option Nat := (r.proto? n).map Prototype.arity

/-- Prototypes are stored under their own names. -/
def Named (r : Registry) : Prop := ∀ n p, r.proto? n = some p → p.name = n

variable {r : Registry} {n : String}

theorem arity?_of_isDefined (h : r.isDefined n = true) : ∃ k, r.arity? n = some k := by
  unfold isDefined at h
  cases hf : r.find? n with
  | none => simp [hf] at h
  | some entry => exact ⟨entry.proto.arity, by simp [arity?, proto?, hf]⟩

theorem find?_of_isDefined (h : r.isDefined n = true) : ∃ entry, r.find? n = some entry ∧ entry.defined = true := by
  unfold isDefined at h
  cases hf : r.find? n with
  | none => simp [hf] at h
  | some entry => exact ⟨entry, rfl, by simpa [hf] using h⟩

theorem isDefined_of_find? {entry : Registration} (h : r.find? n = some entry) : r.isDefined n = entry.defined := by
  simp only [isDefined, h, Option.map_some, Option.getD_some]

theorem find?_register (r : Registry) (p : Prototype) (n : String) :
    (r.register p).find? n = if p.name = n then some ⟨p, false⟩ else r.find? n := Bindings.find?_insert ..

/-- After a definition. -/
theorem find?_markDefined (r : Registry) (p : Prototype) (n : String) :
    ((r.register p).markDefined p.name).find? n = if p.name = n then some ⟨p, true⟩ else r.find? n := by
  have h : (r.register p).find? p.name = some ⟨p, false⟩ := by rw [find?_register, if_pos rfl]
  simp only [markDefined, h, Bindings.find?_insert, find?_register]
  split
  · rfl
  · rfl

/-- After a definition that failed. -/
theorem find?_undone (r : Registry) (p : Prototype) (n : String) :
    Bindings.find? ((r.register p).restore p.name (r.find? p.name)) n = r.find? n := by
  rw [Bindings.find?_restore, find?_register]
  by_cases h : p.name = n
  · rw [if_pos h, h]
  · rw [if_neg h, if_neg h]

theorem arity?_congr {r' : Registry} (h : r'.find? n = r.find? n) : r'.arity? n = r.arity? n := by
  simp only [arity?, proto?, h]

theorem isDefined_congr {r' : Registry} (h : r'.find? n = r.find? n) : r'.isDefined n = r.isDefined n := by
  simp only [isDefined, h]

theorem arity?_register (r : Registry) (p : Prototype) (n : String) :
    (r.register p).arity? n = if p.name = n then some p.arity else r.arity? n := by
  simp only [arity?, proto?, find?_register]
  split
  · rfl
  · rfl

theorem Named.register (h : r.Named) (p : Prototype) : (r.register p).Named := by
  intro n q hq
  simp only [proto?, find?_register] at hq
  split at hq
  · rename_i hn
    cases hq
    exact hn
  · exact h n q hq

end Registry

/-! ## Units -/

namespace Ir.CompilationUnit

variable {u : CompilationUnit} {f g : Function} {n : String} {params : List String}

/-- No two functions have the same name. -/
def Distinct (u : CompilationUnit) : Prop := (u.functions.map Function.name).Nodup

theorem find?_some (h : u.find? n = some g) : g ∈ u.functions ∧ g.name = n :=
  ⟨List.mem_of_find?_eq_some h, by simpa using List.find?_some h⟩

theorem find?_none (h : u.find? n = none) : ∀ g ∈ u.functions, g.name ≠ n := by
  intro g hg
  simpa using List.find?_eq_none.mp h g hg

theorem Distinct.eq_of_name (h : u.Distinct) (hf : f ∈ u.functions) (hg : g ∈ u.functions) (hn : f.name = g.name) :
    f = g :=
  List.inj_on_of_nodup_map h hf hg hn

theorem mem_declare (h : g ∈ (u.declare n params).2.functions) :
    g ∈ u.functions ∨ u.find? n = none ∧ g = { name := n, params } := by
  unfold declare at h
  split at h
  · exact .inl h
  · rename_i hu
    rcases List.mem_append.mp h with h | h
    · exact .inl h
    · exact .inr ⟨hu, List.mem_singleton.mp h⟩

/-- A declaration is the unit's own or a new one. -/
theorem declare_fst (u : CompilationUnit) (n : String) (params : List String) :
    (u.declare n params).1 ∈ (u.declare n params).2.functions ∧ (u.declare n params).1.name = n ∧
      (u.find? n = some (u.declare n params).1 ∨
        u.find? n = none ∧ (u.declare n params).1 = { name := n, params }) := by
  unfold declare
  split
  · rename_i f hf
    exact ⟨(find?_some hf).1, (find?_some hf).2, .inl hf⟩
  · rename_i hu
    exact ⟨by simp, rfl, .inr ⟨hu, rfl⟩⟩

theorem Distinct.declare (h : u.Distinct) (n : String) (params : List String) : (u.declare n params).2.Distinct := by
  unfold CompilationUnit.declare
  split
  · exact h
  · rename_i hu
    simp only [Distinct, List.map_append, List.map_cons, List.map_nil]
    refine List.nodup_append.mpr ⟨h, List.nodup_singleton _, fun a ha b hb => ?_⟩
    obtain ⟨g, hg, rfl⟩ := List.mem_map.mp ha
    cases List.mem_singleton.mp hb
    exact find?_none hu g hg

theorem mem_putIn {fs : List Function} (h : g ∈ putIn f fs) : g = f ∨ g ∈ fs := by
  induction fs with
  | nil => exact .inl (List.mem_singleton.mp h)
  | cons a fs ih =>
    unfold putIn at h
    split at h
    · rcases List.mem_cons.mp h with h | h
      · exact .inl h
      · exact .inr (List.mem_cons_of_mem _ h)
    · rcases List.mem_cons.mp h with h | h
      · exact .inr (by rw [h]; exact List.mem_cons_self)
      · rcases ih h with h | h
        · exact .inl h
        · exact .inr (List.mem_cons_of_mem _ h)

theorem self_mem_put (u : CompilationUnit) (f : Function) : f ∈ (u.put f).functions := by
  have h : ∀ fs, f ∈ putIn f fs := by
    intro fs
    induction fs with
    | nil => exact List.mem_singleton.mpr rfl
    | cons a fs ih =>
      unfold putIn
      split
      · exact List.mem_cons_self
      · exact List.mem_cons_of_mem _ ih
  exact h u.functions

theorem Distinct.put (h : u.Distinct) (f : Function) : (u.put f).Distinct := by
  have hput : ∀ fs : List Function, (fs.map Function.name).Nodup → ((putIn f fs).map Function.name).Nodup := by
    intro fs hfs
    induction fs with
    | nil => exact List.nodup_singleton _
    | cons a fs ih =>
      obtain ⟨ha, hfs⟩ := List.nodup_cons.mp hfs
      unfold putIn
      split
      · rename_i hn
        rw [hn] at ha
        exact List.nodup_cons.mpr ⟨ha, hfs⟩
      · rename_i hn
        refine List.nodup_cons.mpr ⟨fun hmem => ?_, ih hfs⟩
        obtain ⟨g, hg, hname⟩ := List.mem_map.mp hmem
        rcases mem_putIn hg with rfl | hg
        · exact hn hname.symm
        · exact ha (List.mem_map.mpr ⟨g, hg, hname⟩)
  exact hput u.functions h

theorem Distinct.remove (h : u.Distinct) (n : String) : (u.remove n).Distinct :=
  h.sublist (List.eraseP_sublist.map _)

theorem mem_remove (h : u.Distinct) (hg : g ∈ (u.remove n).functions) : g ∈ u.functions ∧ g.name ≠ n := by
  have hmem : g ∈ u.functions := List.mem_of_mem_eraseP hg
  refine ⟨hmem, fun hn => ?_⟩
  -- removing takes the first function of the name, and there is no second
  have hnodup : ∀ fs : List Function, (fs.map Function.name).Nodup → g ∉ fs.eraseP (·.name == n) := by
    intro fs hfs
    induction fs with
    | nil => simp
    | cons a fs ih =>
      obtain ⟨ha, hfs⟩ := List.nodup_cons.mp hfs
      by_cases han : a.name = n
      · rw [List.eraseP_cons_of_pos (by simpa using han)]
        intro hg
        exact ha (by rw [han, ← hn]; exact List.mem_map_of_mem hg)
      · rw [List.eraseP_cons_of_neg (by simpa using han), List.mem_cons]
        rintro (rfl | hg)
        · exact han hn
        · exact ih hfs hg
  exact hnodup u.functions h hg

end Ir.CompilationUnit

/-! ## Coverage -/

/-- The functions of the unit have distinct names and, except for the one named `but`, they
    are declarations with as many parameters as they are registered with. -/
structure Registry.Covers (r : Registry) (but : Option String) (u : Ir.CompilationUnit) : Prop where
  distinct : u.Distinct
  declared : ∀ g ∈ u.functions, but ≠ some g.name → g.isDeclaration = true ∧ r.arity? g.name = some g.arity

namespace Registry

open Ir (CompilationUnit)

variable {r : Registry} {but : Option String} {u v : CompilationUnit}

theorem covers_empty (h : u.functions = []) : r.Covers but u := by
  refine ⟨?_, fun g hg => ?_⟩
  · simp [CompilationUnit.Distinct, h]
  · rw [h] at hg
    cases hg

theorem Covers.declares (h : r.Covers but u) (hr : r.Named) (hd : r.Declares u v) : r.Covers but v := by
  induction hd with
  | refl => exact h
  | tail _ hstep ih =>
    obtain ⟨n, p, -, hp, rfl⟩ := hstep
    refine ⟨ih.distinct.declare _ _, fun g hg hne => ?_⟩
    rcases CompilationUnit.mem_declare hg with hg | ⟨-, rfl⟩
    · exact ih.declared g hg hne
    · rw [← hr n p hp] at hp
      exact ⟨rfl, by simp only [arity?, hp, Option.map_some]; rfl⟩

/-- A function that is about to be defined is registered and declared. -/
theorem Covers.opened (h : r.Covers none u) (p : Prototype) :
    (r.register p).Covers (some p.name) (u.declare p.name p.params).2 := by
  refine ⟨h.distinct.declare _ _, fun g hg hne => ?_⟩
  have hne : p.name ≠ g.name := fun hn => hne (by rw [hn])
  rcases CompilationUnit.mem_declare hg with hg | ⟨-, rfl⟩
  · rw [arity?_register, if_neg hne]
    exact h.declared g hg (by simp)
  · exact absurd rfl hne

end Registry

namespace Lowering

open Ir (CompilationUnit)

variable {d : Definition} {s s' : Lowering} {f : Ir.Function} {e : LoweringError}

theorem covers_define_error (hr : s.registry.Named) (hc : s.registry.Covers none s.unit)
    (h : define d s = .error e s') :
    (∀ n, s'.registry.find? n = s.registry.find? n) ∧ s'.registry.Covers none s'.unit := by
  rcases define_error h with rfl | ⟨hregistry, u, hu, hunit⟩
  · exact ⟨fun _ => rfl, hc⟩
  · have hfind : ∀ n, s'.registry.find? n = s.registry.find? n := by
      intro n
      rw [hregistry]
      exact Registry.find?_undone s.registry d.proto n
    have hu := (hc.opened d.proto).declares (hr.register d.proto) hu
    refine ⟨hfind, hunit ▸ hu.distinct.remove _, fun g hg _ => ?_⟩
    rw [hunit] at hg
    obtain ⟨hg, hne⟩ := CompilationUnit.mem_remove hu.distinct hg
    have hne : d.proto.name ≠ g.name := Ne.symm hne
    obtain ⟨hdecl, harity⟩ := hu.declared g hg (by simpa using hne)
    rw [Registry.arity?_register, if_neg hne] at harity
    exact ⟨hdecl, by rw [Registry.arity?_congr (hfind g.name)]; exact harity⟩

section

variable {p : Prototype} (hknown : ∀ k, s.knownArity? p.name = some k → k = p.arity)

include hknown

theorem arity?_declared (n : String) :
    (declared p s).registry.arity? n = if p.name = n then some p.arity else s.registry.arity? n := by
  unfold declared
  by_cases hd : s.registry.isDefined p.name = true
  · simp only [hd, if_true]
    by_cases hn : p.name = n
    · subst hn
      obtain ⟨k, hk⟩ := Registry.arity?_of_isDefined hd
      have hk' : s.knownArity? p.name = some k := by
        show (s.registry.arity? p.name).or _ = _
        rw [hk]
        rfl
      rw [if_pos rfl, hk, hknown k hk']
    · rw [if_neg hn]
  · simp only [hd]
    exact Registry.arity?_register s.registry p n

/-- A declaration that is accepted takes as many parameters as the prototype. -/
theorem arity_declare (hc : s.registry.Covers none s.unit) : (s.unit.declare p.name p.params).1.arity = p.arity := by
  obtain ⟨-, hname, hfind | ⟨-, hnew⟩⟩ := CompilationUnit.declare_fst s.unit p.name p.params
  · have hmem := (CompilationUnit.find?_some hfind).1
    obtain ⟨-, harity⟩ := hc.declared _ hmem (by simp)
    refine hknown _ ?_
    show (s.registry.arity? p.name).or _ = _
    rw [hname] at harity
    rw [harity]
    rfl
  · rw [hnew]
    rfl

theorem covers_declared (hc : s.registry.Covers none s.unit) :
    (declared p s).registry.Covers none (declared p s).unit := by
  have hdistinct : (declared p s).unit.Distinct := hc.distinct.declare p.name p.params
  refine ⟨hdistinct, fun g hg _ => ?_⟩
  rw [arity?_declared hknown]
  by_cases hn : p.name = g.name
  · -- the unit has one function of that name, the one declared
    obtain ⟨hmem, hname, hor⟩ := CompilationUnit.declare_fst s.unit p.name p.params
    have hg : g = (s.unit.declare p.name p.params).1 := hdistinct.eq_of_name hg hmem (by rw [← hn, hname])
    rw [if_pos hn, hg, arity_declare hknown hc]
    refine ⟨?_, rfl⟩
    rcases hor with hfind | ⟨-, hnew⟩
    · exact (hc.declared _ (CompilationUnit.find?_some hfind).1 (by simp)).1
    · rw [hnew]
      rfl
  · rw [if_neg hn]
    rcases CompilationUnit.mem_declare hg with hg | ⟨-, rfl⟩
    · exact hc.declared g hg (by simp)
    · exact absurd rfl hn

end

theorem isDefined_declared (p : Prototype) (s : Lowering) (n : String) :
    (declared p s).registry.isDefined n = s.registry.isDefined n := by
  unfold declared
  by_cases hd : s.registry.isDefined p.name = true
  · simp only [hd, if_true]
  · simp only [hd]
    by_cases hn : p.name = n
    · subst hn
      rw [Bool.not_eq_true] at hd
      rw [hd]
      simp [Registry.isDefined, Registry.find?_register]
    · exact Registry.isDefined_congr (by simp [Registry.find?_register, hn])

/-- A function that has its body keeps its entry. -/
theorem find?_declared (p : Prototype) {s : Lowering} {n : String} (h : s.registry.isDefined n = true) :
    (declared p s).registry.find? n = s.registry.find? n := by
  unfold declared
  by_cases hd : s.registry.isDefined p.name = true
  · simp only [hd, if_true]
  · have hn : p.name ≠ n := by
      rintro rfl
      exact hd h
    simp only [hd, Bool.false_eq_true, if_false, Registry.find?_register, if_neg hn]

/-! ## Definitions -/

theorem Defines.find? (h : Defines d s f s') (n : String) :
    s'.registry.find? n = if d.proto.name = n then some ⟨d.proto, true⟩ else s.registry.find? n := by
  rw [h.registry]
  exact Registry.find?_markDefined s.registry d.proto n

theorem Defines.name (h : Defines d s f s') : f.name = d.proto.name := by
  obtain ⟨body, rfl⟩ := h.function
  rfl

theorem Defines.isDeclaration (h : Defines d s f s') : f.isDeclaration = false := by
  obtain ⟨body, rfl⟩ := h.function
  rfl

theorem Defines.params (h : Defines d s f s') : f.params = d.proto.params := by
  obtain ⟨body, rfl⟩ := h.function
  rfl

theorem Defines.arity_eq (h : Defines d s f s') : f.arity = d.proto.arity := by
  obtain ⟨body, rfl⟩ := h.function
  rfl

/-- After a definition, functions have as many parameters as they are registered with, and
    only the one that was defined has a body. -/
theorem Defines.covered (h : Defines d s f s') (hr : s.registry.Named) (hc : s.registry.Covers none s.unit)
    {g : Ir.Function} (hg : g ∈ s'.unit.functions) :
    s'.registry.arity? g.name = some g.arity ∧ (g = f ∨ g.isDeclaration = true) := by
  obtain ⟨u, hu, hunit⟩ := h.unit
  have hu := (hc.opened d.proto).declares (hr.register d.proto) hu
  rw [hunit] at hg
  by_cases hn : d.proto.name = g.name
  · have hf : g = f := (hu.distinct.put f).eq_of_name hg (CompilationUnit.self_mem_put u f) (by rw [← hn, h.name])
    refine ⟨?_, .inl hf⟩
    rw [hf, h.name, h.arity_eq]
    simp [Registry.arity?, Registry.proto?, h.find?]
  · rcases CompilationUnit.mem_putIn hg with rfl | hg
    · exact absurd h.name.symm hn
    · obtain ⟨hdecl, harity⟩ := hu.declared g hg (by simpa using hn)
      rw [Registry.arity?_register, if_neg hn] at harity
      refine ⟨?_, .inr hdecl⟩
      rw [← harity]
      exact Registry.arity?_congr (by rw [h.find?, if_neg hn])

theorem Defines.mem (h : Defines d s f s') : f ∈ s'.unit.functions := by
  obtain ⟨u, -, hunit⟩ := h.unit
  rw [hunit]
  exact CompilationUnit.self_mem_put u f

theorem Defines.distinct (h : Defines d s f s') (hr : s.registry.Named) (hc : s.registry.Covers none s.unit) :
    s'.unit.Distinct := by
  obtain ⟨u, hu, hunit⟩ := h.unit
  rw [hunit]
  exact ((hc.opened d.proto).declares (hr.register d.proto) hu).distinct.put f

theorem Defines.checks (h : Defines d s f s') (hr : s.registry.Named) (hc : s.registry.Covers none s.unit)
    {g : Ir.Function} (hg : g ∈ s'.unit.functions) : s'.unit.check g = .ok () := by
  rcases (h.covered hr hc hg).2 with rfl | hdecl
  · exact h.check
  · have hbody : g.body = none := by simpa [Ir.Function.isDeclaration] using hdecl
    simp only [CompilationUnit.check, hbody]

/-- The calls of a unit with a new function agree with the registry. -/
theorem Defines.calls (h : Defines d s f s') (hr : s.registry.Named) (hc : s.registry.Covers none s.unit) {n : String}
    {k : Nat} (hcall : s'.unit.Calls n k) : s'.registry.arity? n = some k := by
  obtain ⟨g, hg, body, hbody, hcall⟩ := hcall
  rcases (h.covered hr hc hg).2 with rfl | hdecl
  · obtain ⟨callee, hfind, rfl⟩ := CompilationUnit.check_calls h.check hbody hcall
    obtain ⟨hmem, rfl⟩ := CompilationUnit.find?_some hfind
    exact (h.covered hr hc hmem).1
  · simp [Ir.Function.isDeclaration, hbody] at hdecl

end Lowering

end Kaleidoscope
