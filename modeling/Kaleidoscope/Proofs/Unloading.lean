/-
  Kaleidoscope.Proofs.Unloading — an expression is gone when it has been evaluated.

  To evaluate an expression its wrapper is registered, lowered into the open unit together
  with declarations of what it calls, loaded under a new tracker, run, released and taken
  out of the registry again. Releasing undoes loading (`release_add`): the unit that is
  released has one body, so one name was entered, where it hid a builtin or nothing
  (`Engine.Mirrors`), and nothing else was loaded under the tracker. The registry has no
  entry for the wrapper before, because only wrappers have such names and they are
  registered with their bodies. Both are in `Session.Orderly`, which every turn keeps.

  What stays is what was defined: one unit and one name for each definition (`counts_add`).
  `Run.evaluation_traceless` says both of every run.
-/

import Kaleidoscope.Proofs.Concord
import Kaleidoscope.Proofs.Mirror

namespace Kaleidoscope

/-! ## Counting entries -/

/-- A name that had no value to be counted gets one. -/
theorem Bindings.countP_insert {α : Type} {p : α → Bool} {b : Bindings α} {n : String} {a : α}
    (hold : ∀ c, b.find? n = some c → p c = false) (hnew : p a = true) :
    (b.insert n a).countP (fun entry => p entry.2) = b.countP (fun entry => p entry.2) + 1 := by
  induction b with
  | nil => simp [insert, hnew]
  | cons entry rest ih =>
    obtain ⟨m, c⟩ := entry
    by_cases hm : m = n
    · have hc : p c = false := hold c (by simp [find?, hm])
      simp [insert, hm, hnew, hc]
    · have hrest : ∀ d, find? rest n = some d → p d = false := by
        intro d hd
        exact hold d (by simp [find?, hm, hd])
      simp only [insert, if_neg hm, List.countP_cons, ih hrest]
      omega

/-! ## Units with one body -/

/-- The function is the only one with a body. -/
structure Ir.CompilationUnit.Carries (u : CompilationUnit) (f : Function) : Prop where
  distinct : u.Distinct
  mem : f ∈ u.functions
  body : f.isDeclaration = false
  others : ∀ g ∈ u.functions, g = f ∨ g.isDeclaration = true

theorem Ir.CompilationUnit.Carries.split {u : CompilationUnit} {f : Function} (h : u.Carries f) :
    ∃ before after, u.functions = before ++ f :: after ∧
      ∀ g ∈ before ++ after, g.isDeclaration = true ∧ g.name ≠ f.name := by
  obtain ⟨before, after, hsplit⟩ := List.append_of_mem h.mem
  have hnodup : (u.functions.map Function.name).Nodup := h.distinct
  rw [hsplit, List.map_append, List.map_cons, List.nodup_middle, List.nodup_cons, ← List.map_append] at hnodup
  refine ⟨before, after, hsplit, fun g hg => ?_⟩
  have hname : g.name ≠ f.name := by
    intro hname
    exact hnodup.1 (hname ▸ List.mem_map_of_mem hg)
  have hmem : g ∈ u.functions := by
    rw [hsplit]
    rcases List.mem_append.mp hg with hg | hg
    · exact List.mem_append_left _ hg
    · exact List.mem_append_right _ (.tail _ hg)
  rcases h.others g hmem with rfl | hdecl
  · exact absurd rfl hname
  · exact ⟨hdecl, hname⟩

theorem Lowering.Defines.carries {d : Definition} {s s' : Lowering} {f : Ir.Function} (h : Defines d s f s')
    (hr : s.registry.Named) (hc : s.registry.Covers none s.unit) : s'.unit.Carries f :=
  ⟨h.distinct hr hc, h.mem, h.isDeclaration, fun _ hg => (h.covered hr hc hg).2⟩

/-- The name is that of a compiled function. -/
def Resolution.isCompiled : Resolution → Bool
  | .compiled _ => true
  | .builtin _ => false

namespace Engine

open Ir (CompilationUnit)

variable {e e' : Engine} {u : CompilationUnit} {f : Ir.Function} {t : Tracker}

theorem enlist_append (unit i : Nat) (fs gs : List Ir.Function) (symbols : Bindings Resolution) :
    enlist unit i (fs ++ gs) symbols = enlist unit (i + fs.length) gs (enlist unit i fs symbols) := by
  induction fs generalizing i symbols with
  | nil => rfl
  | cons f fs ih =>
    rw [List.cons_append, enlist, enlist, ih, List.length_cons, Nat.add_assoc, Nat.add_comm 1]

theorem enlist_declarations (unit i : Nat) {fs : List Ir.Function} (h : ∀ g ∈ fs, g.isDeclaration = true)
    (symbols : Bindings Resolution) : enlist unit i fs symbols = symbols := by
  induction fs generalizing i with
  | nil => rfl
  | cons f fs ih => rw [enlist, if_pos (h f (.head _)), ih _ fun g hg => h g (.tail _ hg)]

/-- One name is entered for a unit with one body. -/
theorem enlist_carries (h : u.Carries f) (unit : Nat) (symbols : Bindings Resolution) :
    ∃ j, enlist unit 0 u.functions symbols = symbols.insert f.name (.compiled ⟨unit, j⟩) := by
  obtain ⟨before, after, hsplit, hothers⟩ := h.split
  have hbefore : ∀ g ∈ before, g.isDeclaration = true := fun g hg => (hothers g (List.mem_append_left _ hg)).1
  have hafter : ∀ g ∈ after, g.isDeclaration = true := fun g hg => (hothers g (List.mem_append_right _ hg)).1
  refine ⟨0 + before.length, ?_⟩
  rw [hsplit, enlist_append, enlist_declarations _ _ hbefore, enlist, enlist_declarations _ _ hafter,
    if_neg (by simp [h.body])]

/-! ## Releasing undoes loading -/

theorem disown_of_not {i : Nat} {symbols : Bindings Resolution} {name : String}
    (h : resolvesIn i (symbols.find? name) = false) : disown i symbols name = symbols := by
  unfold disown
  split
  · rename_i s hs
    rw [hs] at h
    rw [if_neg (by simpa [resolvesIn] using h)]
  · rfl

theorem disown_all_of_not {i : Nat} {symbols : Bindings Resolution} {names : List String}
    (h : ∀ name ∈ names, resolvesIn i (symbols.find? name) = false) : names.foldl (disown i) symbols = symbols := by
  induction names with
  | nil => rfl
  | cons name names ih =>
    rw [List.foldl_cons, disown_of_not (h name (.head _))]
    exact ih fun m hm => h m (.tail _ hm)

theorem disownUnits_append (t : Tracker) (i : Nat) (us vs : List (Option Loaded)) (symbols : Bindings Resolution) :
    disownUnits t i (us ++ vs) symbols = disownUnits t (i + us.length) vs (disownUnits t i us symbols) := by
  induction us generalizing i symbols with
  | nil => rfl
  | cons l us ih =>
    rw [List.cons_append, disownUnits, disownUnits, ih, List.length_cons, Nat.add_assoc, Nat.add_comm 1]

theorem disownUnits_of_not (i : Nat) {us : List (Option Loaded)} (h : ∀ l ∈ us, ownedBy t l = false)
    (symbols : Bindings Resolution) : disownUnits t i us symbols = symbols := by
  induction us generalizing i with
  | nil => rfl
  | cons l us ih =>
    simp only [disownUnits, h l (.head _)]
    exact ih _ fun m hm => h m (.tail _ hm)

/-- The names of the unit are gone again, and what the function hid is back. -/
theorem disown_carries (h : u.Carries f) {symbols : Bindings Resolution} {s : Symbol}
    (hnew : ∀ n, resolvesIn s.unit (symbols.find? n) = false) (hhidden : symbols.find? f.name = builtin? f.name) :
    (u.functions.map Ir.Function.name).foldl (disown s.unit) (symbols.insert f.name (.compiled s)) = symbols := by
  obtain ⟨before, after, hsplit, hothers⟩ := h.split
  have hbefore : ∀ name ∈ before.map Ir.Function.name,
      resolvesIn s.unit (Bindings.find? (symbols.insert f.name (.compiled s)) name) = false := by
    intro name hname
    obtain ⟨g, hg, rfl⟩ := List.mem_map.mp hname
    rw [Bindings.find?_insert, if_neg (hothers g (List.mem_append_left _ hg)).2.symm]
    exact hnew g.name
  have hself : disown s.unit (symbols.insert f.name (.compiled s)) f.name = symbols := by
    have hundo := Bindings.restore_insert symbols f.name (.compiled s)
    rw [hhidden] at hundo
    simpa only [disown, Bindings.find?_insert, if_true, builtin?] using hundo
  rw [hsplit, List.map_append, List.map_cons, List.foldl_append, disown_all_of_not hbefore, List.foldl_cons, hself]
  exact disown_all_of_not fun name _ => hnew name

/-- Nothing that is loaded is owned by the tracker. -/
def Fresh (e : Engine) (t : Tracker) : Prop := ∀ i l, e.loaded? i = some l → l.tracker ≠ some t

theorem Fresh.not_owned (h : e.Fresh t) {l : Option Loaded} (hl : l ∈ e.units) : ownedBy t l = false := by
  obtain ⟨i, hi, rfl⟩ := Array.mem_iff_getElem.mp hl
  cases hl : e.units[i] with
  | none => rfl
  | some l =>
    have hloaded : e.loaded? i = some l := by simp [loaded?, hi, hl]
    simpa [ownedBy] using h i l hloaded

theorem release_add_units (hfresh : e.Fresh t) (ha : e.add u (some t) = .ok () e') :
    (e'.release t).units = e.units.push none := by
  have hkeep : e.units.map (fun l => if ownedBy t l then none else l) = e.units := by
    refine (Array.map_congr_left fun l hl => ?_).trans (Array.map_id e.units)
    rw [hfresh.not_owned hl]
    rfl
  have howned : ownedBy t (some ⟨u, some t⟩) = true := by simp [ownedBy]
  simp only [release, add_eq ha, Array.map_push, hkeep, howned, if_true]

theorem Mirrors.unit_lt (h : e.Mirrors) {n : String} {s : Symbol} (hs : e.symbols.find? n = some (.compiled s)) :
    s.unit < e.units.size := by
  by_cases hm : ∃ s, e.Means n s
  · obtain ⟨s', hs'⟩ := hm
    rw [h.compiled n s' hs'] at hs
    cases hs
    obtain ⟨l, f, -, hbinds⟩ := h.binds hs'
    exact hbinds.unit_lt
  · rw [h.builtin n (not_exists.mp hm)] at hs
    unfold builtin? at hs
    cases hb : Builtin.ofName? n <;> simp [hb] at hs

theorem Mirrors.find?_of_not_isDefined (h : e.Mirrors) {n : String} (hn : e.isDefined n = false) :
    e.symbols.find? n = builtin? n := by
  refine h.builtin n fun s hs => ?_
  rw [(h.isDefined_iff n).mpr ⟨s, hs⟩] at hn
  cases hn

theorem release_add_symbols (hm : e.Mirrors) (hu : u.Carries f) (hfresh : e.Fresh t)
    (ha : e.add u (some t) = .ok () e') :
    (e'.release t).symbols = e.symbols := by
  obtain ⟨j, henlist⟩ := enlist_carries hu e.units.size e.symbols
  have hnew : ∀ n, resolvesIn e.units.size (e.symbols.find? n) = false := by
    intro n
    unfold resolvesIn
    split
    · rename_i s hs
      simpa using Nat.ne_of_lt (hm.unit_lt hs)
    · rfl
  have hhidden := hm.find?_of_not_isDefined (isDefined_of_add ha hu.mem hu.body)
  have hold : ∀ l ∈ e.units.toList, ownedBy t l = false := fun l hl => hfresh.not_owned (Array.mem_toList_iff.mp hl)
  simp only [release, add_eq ha, Array.toList_push, henlist, disownUnits_append, disownUnits_of_not 0 hold]
  simpa [disownUnits, ownedBy] using disown_carries hu (s := ⟨e.units.size, j⟩) hnew hhidden

/-- To load a unit with one body under a new tracker and to release it is to do nothing. -/
theorem release_add (hm : e.Mirrors) (hu : u.Carries f) (hfresh : e.Fresh t) (ha : e.add u (some t) = .ok () e') :
    (e'.release t).symbols = e.symbols ∧ (∀ i, (e'.release t).loaded? i = e.loaded? i) ∧
      (e'.release t).unitCount = e.unitCount := by
  have hunits := release_add_units hfresh ha
  refine ⟨release_add_symbols hm hu hfresh ha, fun i => ?_, ?_⟩
  · simp only [loaded?, hunits, Array.getElem?_push]
    split
    · rename_i hi
      simp [hi]
    · rfl
  · simp [unitCount, hunits]

theorem symbolCount_eq (e : Engine) : e.symbolCount = e.symbols.countP (·.2.isCompiled) := rfl

/-- A unit with one body is one unit more and one name more. -/
theorem counts_add (hu : u.Carries f) {t : Option Tracker} (ha : e.add u t = .ok () e') :
    e'.symbolCount = e.symbolCount + 1 ∧ e'.unitCount = e.unitCount + 1 := by
  obtain ⟨j, henlist⟩ := enlist_carries hu e.units.size e.symbols
  have hundefined := isDefined_of_add ha hu.mem hu.body
  rw [add_eq ha]
  constructor
  · rw [symbolCount_eq, symbolCount_eq, henlist]
    refine Bindings.countP_insert ?_ rfl
    intro r hr
    cases r with
    | builtin b => rfl
    | compiled s => simp [isDefined, hr] at hundefined
  · simp [unitCount]

end Engine

/-! ## Sessions -/

namespace Session

variable {s s' : Session} {past : List (Session × Handled)} {r : Handled} {d : Definition} {p : Parser}
  {f : Ir.Function} {l : Lowering} {e : Engine}

structure Orderly (s : Session) : Prop where
  mirrors : s.engine.Mirrors
  /-- Trackers are numbered. -/
  trackers : ∀ i l t, s.engine.loaded? i = some l → l.tracker = some t → t.id ≤ s.engine.trackers
  /-- A wrapper is registered with its body. -/
  wrappers : ∀ n entry, Reserved n → s.registry.find? n = some entry → entry.defined = true

theorem orderly_ofText (source : String) : (ofText source).Orderly where
  mirrors := Engine.mirrors_new
  trackers := by
    intro i l t hl
    simp [ofText, Engine.loaded?] at hl
  wrappers := by
    intro n entry _ hfind
    cases hfind

theorem Orderly.congr (h : s.Orderly) (hr : s'.registry = s.registry) (he : s'.engine = s.engine) : s'.Orderly := by
  refine ⟨?_, ?_, ?_⟩
  · rw [he]
    exact h.mirrors
  · rw [he]
    exact h.trackers
  · rw [hr]
    exact h.wrappers

theorem Orderly.tracked (h : s.Orderly) : s.tracked.Orderly :=
  ⟨⟨h.mirrors.compiled, h.mirrors.builtin⟩, fun i l t hl ht => Nat.le_succ_of_le (h.trackers i l t hl ht), h.wrappers⟩

theorem Orderly.fresh (h : s.Orderly) : s.tracking.Fresh s.tracker := by
  intro i l hl ht
  have hle : s.engine.trackers + 1 ≤ s.engine.trackers := h.trackers i l s.tracker hl ht
  exact absurd hle (Nat.not_succ_le_self _)

theorem Orderly.registers (h : s.Orderly) (hd : Lowering.Defines d s.lowering f l) (n : String) (entry : Registration)
    (hn : Reserved n) (hfind : l.registry.find? n = some entry) : entry.defined = true := by
  rw [hd.find?] at hfind
  split at hfind
  · cases hfind
    rfl
  · exact h.wrappers n entry hn hfind

/-- A definition was lowered and its unit refused. -/
theorem Orderly.refused (h : s.Orderly) (hd : Lowering.Defines d s.lowering f l) :
    ((s.lowered l).handedOver s.engine).Orderly :=
  ⟨h.mirrors, h.trackers, h.registers hd⟩

/-- A definition was lowered and its unit loaded. -/
theorem Orderly.defines (hs : s.WellFormed) (h : s.Orderly) (hd : Lowering.Defines d s.lowering f l)
    {t : Option Tracker} (ha : s.engine.add l.unit t = .ok () e) (ht : ∀ r, t = some r → r.id ≤ s.engine.trackers) :
    ((s.lowered l).handedOver e).Orderly := by
  refine ⟨h.mirrors.add (hd.distinct hs.named hs.unit) ha, fun i l' r hl hr => ?_, h.registers hd⟩
  show r.id ≤ e.trackers
  have hl : e.loaded? i = some l' := hl
  rw [Engine.loaded?_add ha] at hl
  rw [Engine.add_eq ha]
  split at hl
  · cases hl
    exact ht r hr
  · exact h.trackers i l' r hl hr

theorem Orderly.released (h : s.Orderly) (t : Tracker) (wrapper : String) : (s.released t wrapper).Orderly := by
  refine ⟨h.mirrors.release t, fun i l r hl hr => ?_, fun n entry hn hfind => ?_⟩
  · have hl : (s.engine.release t).loaded? i = some l := hl
    rw [Engine.loaded?_release] at hl
    split at hl
    · cases hl
    · exact h.trackers i l r hl hr
  · have hfind : Bindings.find? (s.registry.erase wrapper) n = some entry := hfind
    rw [Bindings.find?_erase] at hfind
    split at hfind
    · cases hfind
    · exact h.wrappers n entry hn hfind

theorem Orderly.takes (hs : s.WellFormed) (h : s.Orderly) (ht : s.Takes r) : r.session.Orderly := by
  have hpassed : ∀ p, (s.passed p).Orderly := fun p => h.congr rfl rfl
  cases ht with
  | ended _ => exact h
  | skipped _ => exact hpassed _
  | unpassed _ => exact hpassed _
  | unread _ => exact hpassed _
  | undeclared _ hl =>
    cases Lowering.declare_error hl
    exact hpassed _
  | @declared proto p f l hp hl =>
    have hname := Parser.declaration_not_reserved hs.lexed hp
    obtain ⟨-, -, rfl⟩ := Lowering.declare_ok hl
    refine ⟨h.mirrors, h.trackers, fun n entry hn hfind => ?_⟩
    refine h.wrappers n entry hn ?_
    rw [← hfind]
    show _ = (Lowering.declared proto s.lowering).registry.find? n
    unfold Lowering.declared
    split
    · rfl
    · have hne : proto.name ≠ n := by
        rintro rfl
        exact hname hn
      rw [Registry.find?_register, if_neg hne]
      rfl
  | undefined _ hl => exact h.congr (Lowering.define_error_tables hl).1 rfl
  | rejected _ hl hadd =>
    obtain rfl := Engine.add_error_eq hadd
    exact (hpassed _).refused (Lowering.define_ok hl)
  | defined hp hl hadd =>
    have hwf := hs.passed (lexed_of_ok (lexed_definition hs) hp)
    exact Orderly.defines hwf (hpassed _) (Lowering.define_ok hl) hadd (by intro r hr; cases hr)
  | wrapperRejected _ hl hadd =>
    obtain rfl := Engine.add_error_eq hadd
    exact (hpassed _).tracked.refused (Lowering.define_ok hl)
  | @evaluated d p f l e _ hp hl hadd heval =>
    have hwf : (s.passed p).tracked.WellFormed := (hs.passed (lexed_of_ok (lexed_wrapper hs) hp)).tracked
    have htracker : ∀ r, some s.tracker = some r → r.id ≤ s.tracking.trackers := by
      rintro r ⟨rfl⟩
      exact Nat.le_refl _
    have hloaded : (((s.passed p).lowered l).handedOver e).Orderly :=
      Orderly.defines (s := (s.passed p).tracked) hwf (hpassed p).tracked (Lowering.define_ok hl) hadd htracker
    cases heval with
    | unlinked _ => exact hloaded
    | stopped _ _ _ => exact hloaded
    | returned _ _ _ => exact hloaded.released _ _

theorem Run.orderly {source : String} (h : Run source past s) : s.Orderly := by
  induction h with
  | start => exact orderly_ofText source
  | turn budget hrun hn ih => exact ih.takes hrun.wellFormed (next_takes hn)

/-! ## What a turn leaves -/

/-- A wrapper that was registered is taken out of the registry without a trace. -/
theorem Orderly.erase_wrapper (h : s.Orderly) (hd : Lowering.Defines d s.lowering f l) (hn : Reserved d.proto.name) :
    Bindings.erase l.registry f.name = s.registry := by
  have hnone : s.registry.find? d.proto.name = none := by
    cases hfind : s.registry.find? d.proto.name with
    | none => rfl
    | some entry =>
      have hundefined := not_isDefined_of_defines hd
      rw [Registry.isDefined_of_find? hfind, h.wrappers _ entry hn hfind] at hundefined
      cases hundefined
  have hinsert : l.registry = (s.registry.register d.proto).insert d.proto.name ⟨d.proto, true⟩ := by
    rw [hd.registry, Registry.markDefined, Registry.find?_register, if_pos rfl]
    rfl
  rw [hinsert, hd.name, Bindings.erase_insert, Registry.register, Bindings.erase_insert]
  have hrestore := Bindings.restore_find? s.registry d.proto.name
  rw [hnone] at hrestore
  exact hrestore

/-- To wrap an expression sets no precedence. -/
theorem ops_of_wrapper (hp : Parser.wrapper s.ops s.parser = .ok d p) (hl : Lowering.define d s.lowering = .ok f l) :
    l.ops = s.ops := by
  obtain ⟨q, -, hproto, -⟩ := Parser.wrapper_ok hp
  rw [Lowering.define_ok_ops hl, Lowering.announce, hproto]
  rfl

/-- The tables and the units that are live are those of before, and the open unit is empty. -/
structure Traceless (s s' : Session) : Prop where
  symbols : s'.engine.symbols = s.engine.symbols
  loaded : ∀ i, s'.engine.loaded? i = s.engine.loaded? i
  unitCount : s'.engine.unitCount = s.engine.unitCount
  registry : s'.registry = s.registry
  ops : s'.ops = s.ops
  unit : s'.unit.functions = []

theorem Orderly.traceless {x : Float} (hs : s.WellFormed) (h : s.Orderly) (ht : s.Takes r)
    (hr : r.turn = .done (.evaluated f x)) : s.Traceless r.session := by
  cases ht with
  | @evaluated d p g l e _ hp hl hadd heval =>
    cases heval with
    | unlinked _ => cases hr
    | stopped _ _ _ => cases hr
    | returned _ _ _ =>
      have hd := Lowering.define_ok hl
      have hcarries := hd.carries hs.named hs.unit
      obtain ⟨hsymbols, hloaded, hcount⟩ := Engine.release_add h.tracked.mirrors hcarries h.fresh hadd
      exact ⟨hsymbols, hloaded, hcount, h.erase_wrapper hd (reserved_of_wrapper hp).1, ops_of_wrapper hp hl, rfl⟩
  | _ => cases hr

end Session

/-! ## Main statement -/

def Turn.isDefinition : Turn → Bool
  | done (.defined _) => true
  | _ => false

def Turn.isFatal : Turn → Bool
  | fatal _ => true
  | _ => false

namespace Session

variable {s : Session} {past : List (Session × Handled)} {r : Handled}

/-- A turn that is not fatal adds a name and a unit if it is a definition, and none if not. -/
theorem Orderly.counts (hs : s.WellFormed) (h : s.Orderly) (ht : s.Takes r) (hr : r.turn.isFatal = false) :
    r.session.engine.symbolCount = s.engine.symbolCount + (if r.turn.isDefinition then 1 else 0) ∧
    r.session.engine.unitCount = s.engine.unitCount + (if r.turn.isDefinition then 1 else 0) := by
  cases ht with
  | rejected _ _ _ => cases hr
  | defined _ hl hadd => exact Engine.counts_add ((Lowering.define_ok hl).carries hs.named hs.unit) hadd
  | wrapperRejected _ _ _ => cases hr
  | evaluated hp hl hadd heval =>
    cases heval with
    | unlinked _ => cases hr
    | stopped _ _ _ => cases hr
    | returned hlookup hran hresult =>
      have htraceless := h.traceless hs (.evaluated hp hl hadd (.returned hlookup hran hresult)) rfl
      exact ⟨congrArg (List.countP _) htraceless.symbols, htraceless.unitCount⟩
  | _ => exact ⟨rfl, rfl⟩

/-- In a run of any text, a turn that evaluates an expression leaves the engine's names, its
    live units, the registry and the operators as they were, and the open unit empty. As
    long as no turn was fatal, there are as many names of compiled functions, and as many
    live units, as there were definitions. -/
theorem Run.evaluation_traceless {source : String} (hrun : Run source past s) :
    (∀ budget r f x, s.next budget = some r → r.turn = .done (.evaluated f x) →
      r.session.engine.symbols = s.engine.symbols ∧ (∀ i, r.session.engine.loaded? i = s.engine.loaded? i) ∧
      r.session.registry = s.registry ∧ r.session.ops = s.ops ∧ r.session.unit.functions = []) ∧
    ((∀ t ∈ past, t.2.turn.isFatal = false) →
      s.engine.symbolCount = past.countP (·.2.turn.isDefinition) ∧
      s.engine.unitCount = past.countP (·.2.turn.isDefinition)) := by
  refine ⟨fun budget r f x hn hr => ?_, fun hfatal => ?_⟩
  · have h := hrun.orderly.traceless hrun.wellFormed (next_takes hn) hr
    exact ⟨h.symbols, h.loaded, h.registry, h.ops, h.unit⟩
  · induction hrun with
    | start => exact ⟨rfl, rfl⟩
    | @turn past s r budget hrun hn ih =>
      obtain ⟨hsymbols, hunits⟩ := ih fun t ht => hfatal t (List.mem_append_left _ ht)
      have hr : r.turn.isFatal = false := hfatal (s, r) (List.mem_append_right _ List.mem_cons_self)
      obtain ⟨hsymbols', hunits'⟩ := hrun.orderly.counts hrun.wellFormed (next_takes hn) hr
      rw [List.countP_append, List.countP_singleton]
      exact ⟨hsymbols'.trans (by rw [hsymbols]), hunits'.trans (by rw [hunits])⟩

/-! An expression that calls a function in the place of a builtin, while a declaration waits in
the open unit. -/

def hiddenTab : String := "def tab() 7; extern g(y); 1 + tab(); tab()"

/-- Whether the turn evaluates an expression in a unit that holds a declaration of `n`. -/
def evaluatesBeside (n : String) (s : Session) (r : Handled) : Bool :=
  match r.turn with
  | .done (.evaluated _ _) => s.unit.functions.map Ir.Function.name == [n]
  | _ => false

theorem evaluation_traceless_hiddenTab : ∃ past s r f x, Run hiddenTab past s ∧ s.next 50 = some r ∧
    r.turn = .done (.evaluated f x) ∧ s.unit.functions.map Ir.Function.name = ["g"] ∧ r.session.unit.functions = [] ∧
    r.session.engine.symbols.find? "tab" = some (.compiled ⟨0, 0⟩) ∧ r.session.registry = s.registry ∧
    r.session.engine.symbolCount = 1 ∧ r.session.engine.unitCount = 1 := by
  have hturns : ((takeTurns 50 5 ([], ofText hiddenTab)).any fun x =>
      (x.1.all fun t => !t.2.turn.isFatal) && x.1.countP (·.2.turn.isDefinition) == 1 &&
        x.2.engine.symbols.find? "tab" == some (.compiled ⟨0, 0⟩) &&
        (x.2.next 50).any (evaluatesBeside "g" x.2)) = true := by decide +kernel
  obtain ⟨⟨past, s⟩, hx, hturns⟩ := (Option.any_eq_true _ _).mp hturns
  have hrun : Run hiddenTab past s := Run.start.takeTurns hx
  simp only [Bool.and_eq_true, beq_iff_eq, List.all_eq_true, Bool.not_eq_true'] at hturns
  obtain ⟨⟨⟨hfatal, hcount⟩, htab⟩, hnext⟩ := hturns
  obtain ⟨r, hn, hnext⟩ := (Option.any_eq_true _ _).mp hnext
  unfold evaluatesBeside at hnext
  split at hnext
  · rename_i f x hr
    obtain ⟨hsymbols, -, hregistry, -, hunit⟩ := hrun.evaluation_traceless.1 50 r f x hn hr
    have hfatal' : ∀ t ∈ past ++ [(s, r)], t.2.turn.isFatal = false := by
      intro t ht
      rcases List.mem_append.mp ht with ht | ht
      · exact hfatal t ht
      · cases List.mem_singleton.mp ht
        simp only [hr, Turn.isFatal]
    obtain ⟨hsymbolCount, hunitCount⟩ := (hrun.turn 50 hn).evaluation_traceless.2 hfatal'
    rw [List.countP_append, hcount] at hsymbolCount hunitCount
    simp only [List.countP_singleton, hr, Turn.isDefinition] at hsymbolCount hunitCount
    exact ⟨past, s, r, f, x, hrun, hn, hr, by simpa using hnext, hunit, hsymbols ▸ htab, hregistry, hsymbolCount, hunitCount⟩
  · cases hnext

end Session

end Kaleidoscope
