/-
  Kaleidoscope.Proofs.Mirror — the engine's names against its live units.

  The table of names is kept by hand: loading a unit enters what it has bodies for, over a
  builtin of the same name, and releasing it takes those entries back and puts the builtin
  in their place. `Engine.Mirrors` says that the table has no memory of its own: a name
  resolves to the function that a live unit has a body for, there being one such unit at
  most, and to its builtin, if it has one, when there is none. Loading keeps it, because a
  unit with a body for a compiled name is refused; so does releasing, because what resolves
  to a released unit is named in it.

  `performAll` is any sequence of operations, refused ones among them. `symbols_mirror` says
  of each what the table holds afterwards, which units are refused, and that a unit without
  a tracker stays.
-/

import Kaleidoscope.Proofs.Loading

namespace Kaleidoscope.Engine

open Ir (CompilationUnit)

variable {e e' : Engine} {u : CompilationUnit} {t : Option Tracker} {n : String} {s s' : Symbol}

/-- Names resolve to what the live units have bodies for, and to builtins otherwise. -/
structure Mirrors (e : Engine) : Prop where
  compiled : ∀ n s, e.Means n s → e.symbols.find? n = some (.compiled s)
  builtin : ∀ n, (∀ s, ¬e.Means n s) → e.symbols.find? n = builtin? n

theorem Mirrors.unique (h : e.Mirrors) (hs : e.Means n s) (hs' : e.Means n s') : s' = s := by
  have hfind := h.compiled n s hs
  rw [h.compiled n s' hs'] at hfind
  cases hfind
  rfl

theorem Mirrors.isDefined_iff (h : e.Mirrors) (n : String) : e.isDefined n = true ↔ ∃ s, e.Means n s := by
  unfold Engine.isDefined
  by_cases hm : ∃ s, e.Means n s
  · obtain ⟨s, hs⟩ := hm
    simp only [h.compiled n s hs, true_iff]
    exact ⟨s, hs⟩
  · rw [h.builtin n (not_exists.mp hm)]
    unfold builtin?
    cases Builtin.ofName? n with
    | none => simpa using hm
    | some b => simpa using hm

theorem Mirrors.binds (h : e.Mirrors) (hs : e.Means n s) :
    ∃ l f, e.loaded? s.unit = some l ∧ e.Binds n s f l.tracker := by
  have hsymbol := h.compiled n s hs
  obtain ⟨l, f, hl, hf, -⟩ := hs
  exact ⟨l, f, hl, hsymbol, l, hl, hf, rfl⟩

/-! ## A new engine -/

theorem find?_builtins_eq (bs : List Builtin) (n : String) :
    Bindings.find? (bs.map fun b => (b.name, Resolution.builtin b)) n = (bs.find? (·.name == n)).map .builtin := by
  induction bs with
  | nil => rfl
  | cons b bs ih =>
    by_cases hb : b.name = n
    · simp [Bindings.find?, hb]
    · simp [Bindings.find?, hb, ih]

theorem mirrors_new : ({} : Engine).Mirrors := by
  refine ⟨fun n s hs => ?_, fun n _ => find?_builtins_eq Builtin.all n⟩
  obtain ⟨l, f, hl, -⟩ := hs
  simp [loaded?] at hl

/-! ## Loading -/

/-- What a unit has a body for, it has in one place. -/
theorem index_unique (hu : u.Distinct) {i j : Nat} {f g : Ir.Function} (hi : u.functions[i]? = some f)
    (hj : u.functions[j]? = some g) (hname : f.name = g.name) : i = j := by
  have hlt : i < (u.functions.map Ir.Function.name).length := by
    rw [List.length_map]
    exact (List.getElem?_eq_some_iff.mp hi).1
  refine (List.getElem?_inj hlt hu).mp ?_
  rw [List.getElem?_map, List.getElem?_map, hi, hj, Option.map_some, Option.map_some, hname]

/-- A name is had by a unit that was there before, or by the new one. -/
theorem Means.of_add (ha : e.add u t = .ok () e') (hs : e'.Means n s) :
    e.Means n s ∨ s.unit = e.units.size ∧ ∃ f, u.functions[s.index]? = some f ∧ f.name = n ∧ f.isDeclaration = false := by
  obtain ⟨l, f, hl, hf, hname, hbody⟩ := hs
  rw [loaded?_add ha] at hl
  split at hl
  · rename_i hunit
    cases hl
    exact .inr ⟨hunit, f, hf, hname, hbody⟩
  · exact .inl ⟨l, f, hl, hf, hname, hbody⟩

theorem Mirrors.add (h : e.Mirrors) (hu : u.Distinct) (ha : e.add u t = .ok () e') : e'.Mirrors := by
  have hsymbols : e'.symbols = enlist e.units.size 0 u.functions e.symbols := by rw [add_eq ha]
  refine ⟨fun n s hs => ?_, fun n hnone => ?_⟩
  · rcases hs.of_add ha with hold | ⟨hunit, f, hf, rfl, hbody⟩
    · obtain ⟨l, f, -, hbinds⟩ := h.binds hold
      exact (hbinds.add ha).symbol
    · obtain ⟨j, g, hj, hname, hfind⟩ := find?_enlist_of_mem e.units.size 0 e.symbols (List.mem_of_getElem? hf) hbody
      have hindex := index_unique hu hj hf hname
      rw [hsymbols, hfind, ← hunit, Nat.zero_add, hindex]
  · have hold : ∀ s, ¬e.Means n s := fun s hs => hnone s (hs.add ha)
    rcases find?_enlist e.units.size 0 u.functions e.symbols n with hsame | ⟨j, f, hj, hname, hbody, -⟩
    · rw [hsymbols, hsame]
      exact h.builtin n hold
    · refine absurd ?_ (hnone ⟨e.units.size, j⟩)
      exact ⟨⟨u, t⟩, f, by rw [loaded?_add ha, if_pos rfl], hj, hname, hbody⟩

/-! ## Releasing -/

theorem means_release {r : Tracker} :
    (e.release r).Means n s ↔ e.Means n s ∧ ∀ l, e.loaded? s.unit = some l → l.tracker ≠ some r := by
  unfold Means
  rw [loaded?_release]
  constructor
  · rintro ⟨l, f, hl, hf⟩
    split at hl
    · cases hl
    · rename_i howned
      refine ⟨⟨l, f, hl, hf⟩, fun l' hl' => ?_⟩
      rw [hl'] at howned
      simpa [ownedBy] using howned
  · rintro ⟨⟨l, f, hl, hf⟩, htracker⟩
    refine ⟨l, f, ?_, hf⟩
    rw [if_neg, hl]
    simpa [hl, ownedBy] using htracker l hl

theorem Mirrors.release (h : e.Mirrors) (r : Tracker) : (e.release r).Mirrors := by
  classical
  refine ⟨fun n s hs => ?_, fun n hnone => ?_⟩
  · obtain ⟨hs, htracker⟩ := means_release.mp hs
    obtain ⟨l, f, hl, hbinds⟩ := h.binds hs
    exact (hbinds.release (htracker l hl)).symbol
  · show (disownUnits r 0 e.units.toList e.symbols).find? n = builtin? n
    rw [find?_disownUnits]
    split
    · rfl
    · rename_i hkept
      apply h.builtin
      -- what is had before and not afterwards was withdrawn
      intro s hs
      obtain ⟨l, f, hl, hf, hname, -⟩ := id hs
      apply hkept
      by_cases htracker : l.tracker = some r
      · refine ⟨s, l, h.compiled n s hs, Nat.zero_le _, ?_, htracker, ?_⟩
        · have hunit : (e.units[s.unit]?).join = some l := hl
          rw [Nat.sub_zero, Array.getElem?_toList]
          cases hget : e.units[s.unit]? with
          | none => simp [hget] at hunit
          | some o => simpa [hget] using hunit
        · rw [← hname]
          exact List.mem_map_of_mem (List.mem_of_getElem? hf)
      · refine absurd (means_release.mpr ⟨hs, fun l' hl' => ?_⟩) (hnone s)
        rw [hl] at hl'
        cases hl'
        exact htracker

theorem Reached.mirrors (h : e.Reached CompilationUnit.Distinct) : e.Mirrors := by
  induction h with
  | new => exact mirrors_new
  | newTracker _ ih => exact ⟨ih.compiled, ih.builtin⟩
  | add _ hu ha ih => exact ih.add hu ha
  | release r _ ih => exact ih.release r

/-! ## Sequences of operations -/

inductive Operation where
  | newTracker
  | add (u : CompilationUnit) (t : Option Tracker)
  | release (t : Tracker)

/-- The engine after an operation, also one that failed. -/
def perform (e : Engine) : Operation → Engine
  | .newTracker => e.newTracker.2
  | .add u t =>
    match e.add u t with
    | .ok () e' => e'
    | .error _ e' => e'
  | .release t => e.release t

def performAll (e : Engine) (ops : List Operation) : Engine := ops.foldl perform e

theorem Reached.perform {P : CompilationUnit → Prop} (h : e.Reached P) {op : Operation}
    (hop : ∀ u t, op = .add u t → P u) : (e.perform op).Reached P := by
  cases op with
  | newTracker => exact h.newTracker
  | add u t =>
    simp only [Engine.perform]
    split
    · rename_i ha
      exact h.add (hop u t rfl) ha
    · rename_i ha
      rwa [add_error_eq ha]
  | release t => exact h.release t

theorem Reached.performAll {P : CompilationUnit → Prop} (h : e.Reached P) {ops : List Operation}
    (hops : ∀ u t, .add u t ∈ ops → P u) : (e.performAll ops).Reached P := by
  induction ops generalizing e with
  | nil => exact h
  | cons op ops ih =>
    refine ih (h.perform fun u t hop => ?_) fun u t hmem => ?_
    · exact hops u t (hop ▸ List.mem_cons_self)
    · exact hops u t (List.mem_cons_of_mem _ hmem)

/-- Whether an operation releases the unit, if there is one. -/
def Operation.releases (l : Option Loaded) : Operation → Bool
  | .release t => ownedBy t l
  | _ => false

theorem lt_size_of_loaded? {i : Nat} {l : Loaded} (hl : e.loaded? i = some l) : i < e.units.size := by
  by_contra hi
  simp [loaded?, Array.getElem?_eq_none (Nat.le_of_not_lt hi)] at hl

theorem size_le_perform (e : Engine) (op : Operation) : e.units.size ≤ (e.perform op).units.size := by
  cases op with
  | newTracker => exact Nat.le_refl _
  | add u t =>
    simp only [Engine.perform]
    split
    · rename_i ha
      simp [add_eq ha]
    · rename_i ha
      obtain rfl := add_error_eq ha
      exact Nat.le_refl _
  | release t => simp [Engine.perform, Engine.release]

/-- A number that was given means its unit until that is released, and nothing afterwards. -/
theorem loaded?_perform_eq {i : Nat} (hi : i < e.units.size) (op : Operation) :
    (e.perform op).loaded? i = if op.releases (e.loaded? i) then none else e.loaded? i := by
  cases op with
  | newTracker => rfl
  | add u t =>
    simp only [Engine.perform, Operation.releases]
    split
    · rename_i ha
      rw [loaded?_add ha, if_neg (Nat.ne_of_lt hi)]
      rfl
    · rename_i ha
      rw [add_error_eq ha]
      rfl
  | release t => exact loaded?_release e t i

theorem loaded?_performAll_eq {i : Nat} (hi : i < e.units.size) (ops : List Operation) :
    (e.performAll ops).loaded? i = if ops.any (·.releases (e.loaded? i)) then none else e.loaded? i := by
  induction ops generalizing e with
  | nil => rfl
  | cons op ops ih =>
    refine (ih (Nat.lt_of_lt_of_le hi (size_le_perform e op))).trans ?_
    rw [loaded?_perform_eq hi, List.any_cons]
    by_cases hop : op.releases (e.loaded? i) = true
    · simp [hop]
    · simp [hop]

/-- A unit without a tracker stays where it is, whatever is done. -/
theorem loaded?_performAll {i : Nat} {l : Loaded} (hl : e.loaded? i = some l) (ht : l.tracker = none)
    (ops : List Operation) : (e.performAll ops).loaded? i = some l := by
  rw [loaded?_performAll_eq (lt_size_of_loaded? hl), if_neg, hl]
  intro hany
  obtain ⟨op, -, hop⟩ := List.any_eq_true.mp hany
  cases op with
  | newTracker => cases hop
  | add u t => cases hop
  | release t => simp [Operation.releases, hl, ownedBy, ht] at hop

theorem Mirrors.add_error_iff (h : e.Mirrors) (u : CompilationUnit) (t : Option Tracker) :
    (∃ err e', e.add u t = .error err e') ↔ ∃ f ∈ u.functions, f.isDeclaration = false ∧ ∃ s, e.Means f.name s := by
  constructor
  · rintro ⟨err, kept, herr⟩
    by_contra hnone
    have hfresh : ∀ f ∈ u.functions, f.isDeclaration = false → e.isDefined f.name = false := by
      intro f hf hbody
      rw [← Bool.not_eq_true, h.isDefined_iff]
      exact fun hmeans => hnone ⟨f, hf, hbody, hmeans⟩
    obtain ⟨e', ha⟩ := add_ok hfresh (t := t)
    rw [herr] at ha
    cases ha
  · rintro ⟨f, hf, hbody, hmeans⟩
    cases ha : e.add u t with
    | error err kept => exact ⟨err, kept, rfl⟩
    | ok _ e' =>
      have hfresh := isDefined_of_add ha hf hbody
      rw [(h.isDefined_iff f.name).mpr hmeans] at hfresh
      cases hfresh

/-! ## Main statement -/

/-- After any operations on a new engine, of units with distinct names: a name that a live
    unit has a body for resolves to that function, and no other live unit has a body for
    it; any other name resolves to its builtin, or to nothing if it has none. A unit is
    refused exactly if it has a body for a name that a live unit has one for, and then
    nothing is changed. A unit that is loaded without a tracker is there for good. -/
theorem symbols_mirror (ops : List Operation) (hops : ∀ u t, .add u t ∈ ops → u.Distinct) :
    let e := performAll {} ops
    (∀ n s, e.Means n s → e.symbols.find? n = some (.compiled s) ∧ ∀ s', e.Means n s' → s' = s) ∧
    (∀ n, (∀ s, ¬e.Means n s) → e.symbols.find? n = (Builtin.ofName? n).map .builtin) ∧
    (∀ u t, (∃ err e', e.add u t = .error err e') ↔
      ∃ f ∈ u.functions, f.isDeclaration = false ∧ ∃ s, e.Means f.name s) ∧
    (∀ u t err e', e.add u t = .error err e' → e' = e ∧ e.perform (.add u t) = e) ∧
    ∀ u e', e.add u none = .ok () e' → ∀ later, (e'.performAll later).loaded? e.units.size = some ⟨u, none⟩ := by
  intro e
  have hmirrors : e.Mirrors := (Reached.new.performAll hops).mirrors
  refine ⟨fun n s hs => ⟨hmirrors.compiled n s hs, fun s' hs' => hmirrors.unique hs hs'⟩, hmirrors.builtin,
    hmirrors.add_error_iff, fun u t err e' herr => ?_, fun u e' ha later => ?_⟩
  · obtain rfl := add_error_eq herr
    exact ⟨rfl, by simp only [perform, herr]⟩
  · have hl : e'.loaded? e.units.size = some ⟨u, none⟩ := by rw [loaded?_add ha, if_pos rfl]
    exact loaded?_performAll hl rfl later

/-! A unit that hides a builtin is loaded under a tracker, and one that declares it for good;
a third one is refused, and the tracker is released. -/

/-- A function without parameters that returns zero. -/
def zeroFunction (name : String) : Ir.Function :=
  { name, params := [], body := some { blocks := #[{ label := "entry", insts := #[.ret (.const 0)] }] } }

/-- Declares a builtin, and stays. -/
def declaresTab : CompilationUnit := { name := "b", functions := [{ name := "tab", params := [] }, zeroFunction "g"] }

def hidesAndReveals : List Operation :=
  [.newTracker, .add { name := "a", functions := [zeroFunction "tab"] } (some ⟨1⟩), .add declaresTab none,
   .add { name := "c", functions := [zeroFunction "h", zeroFunction "g"] } (some ⟨1⟩), .release ⟨1⟩]

theorem symbols_mirror_hidesAndReveals :
    (performAll {} (hidesAndReveals.take 2)).symbols.find? "tab" = some (.compiled ⟨0, 0⟩) ∧
    (performAll {} hidesAndReveals).symbols.find? "tab" = some (.builtin .tab) ∧
    (performAll {} hidesAndReveals).symbols.find? "g" = some (.compiled ⟨1, 1⟩) ∧
    (performAll {} hidesAndReveals).symbols.find? "h" = none ∧
    ∀ t, ∃ err e', (performAll {} hidesAndReveals).add { name := "d", functions := [zeroFunction "g"] } t =
      .error err e' := by
  have hops : ∀ u t, .add u t ∈ hidesAndReveals → u.Distinct := by
    intro u t h
    simp only [hidesAndReveals, List.mem_cons, Operation.add.injEq, reduceCtorEq, List.not_mem_nil, false_or, or_false] at h
    rcases h with ⟨rfl, -⟩ | ⟨rfl, -⟩ | ⟨rfl, -⟩ <;> simp [CompilationUnit.Distinct, zeroFunction, declaresTab]
  have htab : (performAll {} (hidesAndReveals.take 2)).Means "tab" ⟨0, 0⟩ :=
    ⟨_, zeroFunction "tab", rfl, rfl, rfl, rfl⟩
  obtain ⟨hthen, -, -, -, hstays⟩ :=
    symbols_mirror (hidesAndReveals.take 2) fun u t h => hops u t (List.mem_of_mem_take h)
  obtain ⟨hcompiled, hbuiltin, hrefused, -⟩ := symbols_mirror hidesAndReveals hops
  have hunit : (performAll {} hidesAndReveals).loaded? 1 = some ⟨declaresTab, none⟩ :=
    hstays declaresTab _ rfl (hidesAndReveals.drop 3)
  have hg : (performAll {} hidesAndReveals).Means "g" ⟨1, 1⟩ := ⟨_, zeroFunction "g", hunit, rfl, rfl, rfl⟩
  -- no other unit is left, and "g" is all that this one has a body for
  have honly : ∀ n s, (performAll {} hidesAndReveals).Means n s → n = "g" := by
    have hunits : (performAll {} hidesAndReveals).units = #[none, some ⟨declaresTab, none⟩] := by decide +kernel
    rintro n ⟨unit, index⟩ ⟨l, f, hl, hf, hname, hbody⟩
    rw [loaded?, hunits] at hl
    rcases unit with _ | _ | unit <;> cases hl
    rcases index with _ | _ | index <;> cases hf
    · cases hbody
    · exact hname.symm
  refine ⟨(hthen _ _ htab).1, hbuiltin "tab" ?_, (hcompiled _ _ hg).1, hbuiltin "h" ?_, fun t => ?_⟩
  · exact fun s hs => absurd (honly _ s hs) (by decide)
  · exact fun s hs => absurd (honly _ s hs) (by decide)
  · exact (hrefused _ t).mpr ⟨zeroFunction "g", .head _, rfl, _, hg⟩

end Kaleidoscope.Engine
