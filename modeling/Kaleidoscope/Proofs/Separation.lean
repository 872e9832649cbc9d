/-
  Kaleidoscope.Proofs.Separation — variables and results are apart.

  The numbers that resolution passes over are places: conditionals leave their results
  there. `resolve_separate`: in the tree of a function, every number is one or the other,
  and there are as many as were given out. It holds because a name can only ever mean a
  cell it was bound to, whatever was hidden and given back in between (`Scope.All`), and
  because a new number is used once (`Scope.Extends`).
-/

import Kaleidoscope.Proofs.Resolution

namespace Kaleidoscope

open Resolve

namespace Tree

mutual

/-- The cells named in a tree. -/
def cells : Tree → List Nat
  | .const _ => []
  | .read c => [c]
  | .assign c t => cells t ++ [c]
  | .declare c _ t => cells t ++ [c]
  | .arith _ l r => cells l ++ cells r
  | .less l r => cells l ++ cells r
  | .call _ ts => cellsOf ts
  | .cond _ t y n => cells t ++ cells y ++ cells n
  | .loop c _ start stop body step => [c] ++ cells start ++ cells stop ++ cells body ++ cells step
  | .seq ts => cellsOf ts

def cellsOf : List Tree → List Nat
  | [] => []
  | t :: ts => cells t ++ cellsOf ts

end

mutual

/-- The places where its conditionals leave their results. -/
def places : Tree → List Nat
  | .const _ => []
  | .read _ => []
  | .assign _ t => places t
  | .declare _ _ t => places t
  | .arith _ l r => places l ++ places r
  | .less l r => places l ++ places r
  | .call _ ts => placesOf ts
  | .cond place t y n => [place] ++ places t ++ places y ++ places n
  | .loop _ _ start stop body step => places start ++ places stop ++ places body ++ places step
  | .seq ts => placesOf ts

def placesOf : List Tree → List Nat
  | [] => []
  | t :: ts => places t ++ placesOf ts

end

theorem combine_cells (op : String) (l r : Tree) : (combine op l r).cells = l.cells ++ r.cells := by
  unfold combine
  split <;> simp [cells, cellsOf]

theorem combine_places (op : String) (l r : Tree) : (combine op l r).places = l.places ++ r.places := by
  unfold combine
  split <;> simp [places, placesOf]

/-- Of the numbers below `n`, some are cells and others are places. -/
structure Separate (n : Nat) (t : Tree) : Prop where
  cells : ∀ c ∈ t.cells, c < n ∧ c ∉ t.places
  places : ∀ p ∈ t.places, p < n

end Tree

namespace Scope

/-- Every cell that a name means, or will mean again, has the property. -/
structure All (P : Nat → Prop) (s : Scope) : Prop where
  seen : ∀ name c, s.seen.find? name = some c → P c
  hidden : ∀ block ∈ s.hidden, ∀ h ∈ block, ∀ c, h.2 = some c → P c

variable {P : Nat → Prop} {s s' s'' : Scope}

theorem find?_restore_all {l : Bindings Nat} (hl : ∀ name c, l.find? name = some c → P c) {n : String} {o : Option Nat}
    (ho : ∀ c, o = some c → P c) : ∀ name c, (l.restore n o).find? name = some c → P c := by
  intro name c h
  rw [Bindings.find?_restore] at h
  split at h
  · exact ho c h
  · exact hl name c h

theorem All.restore (h : s.All P) {name : String} {o : Option Nat} (ho : ∀ c, o = some c → P c) :
    (s.restore name o).All P :=
  ⟨find?_restore_all h.seen ho, h.hidden⟩

theorem All.bind (h : s.All P) {name : String} {c : Nat} (hc : P c) : (s.bind name c).All P :=
  h.restore (o := some c) fun d hd => by cases hd; exact hc

theorem All.introduce (h : s.All P) {name : String} {c : Nat} (hc : P c) : (s.introduce name c).All P := by
  refine ⟨(h.bind hc).seen, fun block hb => ?_⟩
  cases hs : s.hidden with
  | nil =>
    simp only [Scope.introduce, hs] at hb
    cases hb
  | cons first outer =>
    simp only [Scope.introduce, hs] at hb
    have hh := h.hidden
    rw [hs] at hh
    rcases List.mem_cons.mp hb with rfl | hb
    · intro p hp d hd
      rcases List.mem_cons.mp hp with rfl | hp
      · exact h.seen name d hd
      · exact hh first List.mem_cons_self p hp d hd
    · exact hh block (List.mem_cons_of_mem _ hb)

theorem All.openBlock (h : s.All P) : s.openBlock.All P := by
  refine ⟨h.seen, fun block hb p hp => ?_⟩
  rcases List.mem_cons.mp hb with rfl | hb
  · cases hp
  · exact h.hidden block hb p hp

theorem All.closeBlock (h : s.All P) : s.closeBlock.All P := by
  unfold Scope.closeBlock
  split
  · exact h
  · rename_i block outer hs
    have hh := h.hidden
    rw [hs] at hh
    refine ⟨?_, fun b hb => hh b (List.mem_cons_of_mem _ hb)⟩
    have hblock := hh block List.mem_cons_self
    have hseen := h.seen
    -- the variables of the block are taken out one by one
    show ∀ name c, (block.foldl (fun l h => l.restore h.1 h.2) s.seen).find? name = some c → P c
    generalize s.seen = l at hseen
    clear hs hh
    induction block generalizing l with
    | nil => exact hseen
    | cons p block ih =>
      exact ih (fun q hq => hblock q (List.mem_cons_of_mem _ hq)) _
        (find?_restore_all hseen (hblock p List.mem_cons_self))

/-- From `s` to `s'`, names were resolved to the cells `cs` and results put in the places `ps`:
    places are new numbers, and a cell is one that could be named in `s` or a new number
    that is not a place. -/
structure Extends (cs ps : List Nat) (s s' : Scope) : Prop where
  next : s.next ≤ s'.next
  places : ∀ p ∈ ps, s.next ≤ p ∧ p < s'.next
  cells : ∀ P : Nat → Prop, s.All P → (∀ c, s.next ≤ c → c < s'.next → c ∉ ps → P c) →
    (∀ c ∈ cs, P c) ∧ s'.All P

variable {cs ps cs' ps' : List Nat}

theorem Extends.refl (s : Scope) : Extends [] [] s s := ⟨Nat.le_refl _, by simp, fun P h _ => ⟨by simp, h⟩⟩

/-- What holds of the new numbers holds of those that came first. -/
theorem Extends.first (h' : Extends cs' ps' s' s'')
    (hP : ∀ c, s.next ≤ c → c < s''.next → c ∉ ps ++ ps' → P c) : ∀ c, s.next ≤ c → c < s'.next → c ∉ ps → P c := by
  intro c hc hlt hmem
  refine hP c hc (Nat.lt_of_lt_of_le hlt h'.next) fun hin => ?_
  rcases List.mem_append.mp hin with hin | hin
  · exact hmem hin
  · have := (h'.places c hin).1
    omega

theorem Extends.trans (h : Extends cs ps s s') (h' : Extends cs' ps' s' s'') :
    Extends (cs ++ cs') (ps ++ ps') s s'' := by
  have h₁ := h.next
  have h₂ := h'.next
  refine ⟨Nat.le_trans h₁ h₂, fun p hp => ?_, fun P hs hP => ?_⟩
  · rcases List.mem_append.mp hp with hp | hp
    · have := h.places p hp
      omega
    · have := h'.places p hp
      omega
  · obtain ⟨hcs, hs'⟩ := h.cells P hs (h'.first hP)
    have hlast : ∀ c, s'.next ≤ c → c < s''.next → c ∉ ps' → P c := fun c hc hlt hmem => by
      refine hP c (Nat.le_trans h₁ hc) hlt fun hin => ?_
      rcases List.mem_append.mp hin with hin | hin
      · have := (h.places c hin).2
        omega
      · exact hmem hin
    obtain ⟨hcs', hs''⟩ := h'.cells P hs' hlast
    refine ⟨fun c hc => ?_, hs''⟩
    rcases List.mem_append.mp hc with hc | hc
    · exact hcs c hc
    · exact hcs' c hc

theorem Extends.place (s : Scope) : Extends [] [s.next] s s.pass :=
  ⟨Nat.le_succ _, fun p hp => by simp only [List.mem_singleton] at hp; subst hp; exact ⟨Nat.le_refl _, Nat.lt_succ_self _⟩,
    fun P h _ => ⟨by simp, h.seen, h.hidden⟩⟩

theorem Extends.cell (s : Scope) : Extends [s.next] [] s s.pass :=
  ⟨Nat.le_succ _, by simp, fun P h hP =>
    ⟨by simpa using hP s.next (Nat.le_refl _) (Nat.lt_succ_self _) (by simp), h.seen, h.hidden⟩⟩

theorem Extends.read {name : String} {c : Nat} (h : s.seen.find? name = some c) : Extends [c] [] s s :=
  ⟨Nat.le_refl _, by simp, fun P hs _ => ⟨by simpa using hs.seen name c h, hs⟩⟩

/-- A change that numbers nothing. -/
theorem Extends.map (h : Extends cs ps s s') (hn : s''.next = s'.next)
    (hall : ∀ P : Nat → Prop, (∀ c ∈ cs, P c) → s'.All P → s''.All P) : Extends cs ps s s'' := by
  refine ⟨hn ▸ h.next, fun p hp => hn ▸ h.places p hp, fun P hs hP => ?_⟩
  obtain ⟨hcs, hs'⟩ := h.cells P hs (hn ▸ hP)
  exact ⟨hcs, hall P hcs hs'⟩

theorem closeBlock_next (s : Scope) : s.closeBlock.next = s.next := by
  unfold Scope.closeBlock
  split <;> rfl

end Scope

namespace Expr

open Scope

/-- Resolving the expression only names cells it may name. -/
def Resolves (e : Expr) : Prop :=
  ∀ {s s' : Scope} {t : Tree}, e.resolve s = some (t, s') → Extends t.cells t.places s s'

theorem resolves_option {o : Option Expr} (ih : ∀ e ∈ o, Resolves e) {s s' : Scope} {t : Tree}
    (h : resolveOption o s = some (t, s')) : Extends t.cells t.places s s' := by
  cases o with
  | none =>
    simp only [resolveOption, pure_some_iff] at h
    obtain ⟨rfl, rfl⟩ := h
    simpa only [Tree.cells, Tree.places] using Extends.refl s
  | some e =>
    simp only [resolveOption] at h
    exact ih e rfl h

theorem resolves_arguments {es : List Expr} (ih : ∀ e ∈ es, Resolves e) {s s' : Scope} {ts : List Tree}
    (h : resolveArguments es s = some (ts, s')) : Extends (Tree.cellsOf ts) (Tree.placesOf ts) s s' := by
  induction es generalizing s ts with
  | nil =>
    simp only [resolveArguments, pure_some_iff] at h
    obtain ⟨rfl, rfl⟩ := h
    simpa only [Tree.cellsOf, Tree.placesOf] using Extends.refl s
  | cons e es ihs =>
    simp only [resolveArguments, bind_some_iff, pure_some_iff] at h
    obtain ⟨t, s₁, h₁, ts, s₂, h₂, rfl, rfl⟩ := h
    have E₁ := ih e List.mem_cons_self h₁
    have E₂ := ihs (fun e he => ih e (List.mem_cons_of_mem _ he)) h₂
    simpa only [Tree.cellsOf, Tree.placesOf] using E₁.trans E₂

theorem resolves (e : Expr) : Resolves e := by
  induction e using Expr.induction with
  | number x =>
    intro s s' t h
    simp only [resolve, pure_some_iff] at h
    obtain ⟨rfl, rfl⟩ := h
    simpa only [Tree.cells, Tree.places] using Extends.refl s
  | ref name =>
    intro s s' t h
    simp only [resolve, bind_some_iff, cellOf_some_iff, pure_some_iff] at h
    obtain ⟨c, _, ⟨hc, rfl⟩, rfl, rfl⟩ := h
    simpa only [Tree.cells, Tree.places] using Extends.read hc
  | var name init ih =>
    intro s s' t h
    simp only [resolve, bind_some_iff, fresh_run, modify_run, pure_some_iff] at h
    obtain ⟨t, s₁, h₁, rfl, rfl⟩ := h
    have E := (resolves_option ih h₁).trans (Extends.cell s₁)
    rw [List.append_nil] at E
    simp only [Tree.cells, Tree.places]
    exact E.map rfl fun P hcs hs => hs.introduce (hcs _ (by simp))
  | unary op operand ih =>
    intro s s' t h
    simp only [resolve, bind_some_iff, pure_some_iff] at h
    obtain ⟨t, s₁, h₁, rfl, rfl⟩ := h
    simpa only [Tree.cells, Tree.places, Tree.cellsOf, Tree.placesOf, List.append_nil] using ih h₁
  | binary op lhs rhs ihl ihr =>
    intro s s' t h
    by_cases hop : op = "="
    · subst hop
      cases lhs with
      | ref name =>
        simp only [resolve, if_true, bind_some_iff, cellOf_some_iff, pure_some_iff] at h
        obtain ⟨t, s₁, h₁, c, _, ⟨hc, rfl⟩, rfl, rfl⟩ := h
        have E := (ihr h₁).trans (Extends.read hc)
        simpa only [Tree.cells, Tree.places, List.append_nil] using E
      | _ => simp only [resolve, if_true, failure_some_iff] at h
    · simp only [resolve, if_neg hop, bind_some_iff, pure_some_iff] at h
      obtain ⟨l, s₁, h₁, r, s₂, h₂, rfl, rfl⟩ := h
      simpa only [Tree.combine_cells, Tree.combine_places] using (ihl h₁).trans (ihr h₂)
  | call callee args ih =>
    intro s s' t h
    simp only [resolve, bind_some_iff, pure_some_iff] at h
    obtain ⟨ts, s₁, h₁, rfl, rfl⟩ := h
    simpa only [Tree.cells, Tree.places] using resolves_arguments ih h₁
  | cond test yes no iht ihy ihn =>
    intro s s' t h
    simp only [resolve, fresh_run, bind_some_iff, pure_some_iff] at h
    obtain ⟨t, s₁, h₁, y, s₂, h₂, n, s₃, h₃, rfl, rfl⟩ := h
    have E := (((Extends.place s).trans (iht h₁)).trans (ihy h₂)).trans (resolves_option ihn h₃)
    simpa only [Tree.cells, Tree.places, List.nil_append] using E
  | loop name start stop step body iha ihb ihc ihd =>
    intro s s' t h
    simp only [resolve, fresh_run, get_run, modify_run, bind_some_iff, pure_some_iff] at h
    obtain ⟨ta, s₁, h₁, tb, s₂, h₂, td, s₃, h₃, tc, s₄, h₄, rfl, rfl⟩ := h
    have E₁ := (Extends.cell s).trans (iha h₁)
    have E₂ : Extends _ _ s (s₁.bind name s.next) := E₁.map rfl fun P hcs hs => hs.bind (hcs _ (by simp))
    have E₃ := ((ihb h₂).trans (ihd h₃)).trans (resolves_option ihc h₄)
    have E := E₂.trans E₃
    simp only [Tree.cells, Tree.places]
    simp only [List.nil_append, ← List.append_assoc] at E
    refine ⟨E.next, E.places, fun P hs hP => ?_⟩
    obtain ⟨hcs, hs₄⟩ := E.cells P hs hP
    -- the variable is given back what it meant after the start value
    have hP₁ : ∀ c, s.next ≤ c → c < s₁.next → c ∉ ta.places → P c :=
      E₃.first fun c hc hlt hmem => hP c hc hlt (by simpa [or_assoc] using hmem)
    have hs₁ : s₁.All P := (E₁.cells P hs hP₁).2
    exact ⟨hcs, hs₄.restore fun c hc => hs₁.seen name c hc⟩
  | block es ih =>
    intro s s' t h
    simp only [resolve, modify_run, bind_some_iff, pure_some_iff] at h
    obtain ⟨ts, s₁, h₁, rfl, rfl⟩ := h
    have E₀ : Extends [] [] s s.openBlock := (Extends.refl s).map rfl fun P _ hs => hs.openBlock
    have E := E₀.trans (resolves_arguments ih h₁)
    simp only [Tree.cells, Tree.places]
    exact E.map (closeBlock_next s₁) fun P _ hs => hs.closeBlock

end Expr

theorem Scope.enter_all (params : List String) {s : Scope} (h : s.All (· < s.next)) :
    (s.enter params).All (· < (s.enter params).next) := by
  induction params generalizing s with
  | nil => exact h
  | cons param params ih =>
    refine ih ⟨?_, fun block hb p hp c hc => Nat.lt_succ_of_lt (h.hidden block hb p hp c hc)⟩
    intro name c hc
    have hs : s.All (· < s.next + 1) :=
      ⟨fun n c hc => Nat.lt_succ_of_lt (h.seen n c hc), fun b hb p hp c hc => Nat.lt_succ_of_lt (h.hidden b hb p hp c hc)⟩
    exact (hs.bind (Nat.lt_succ_self _)).seen name c hc

/-- In the tree of a function, no variable has the place of a result. -/
theorem resolve_separate {params : List String} {e : Expr} {t : Tree} {s : Scope}
    (h : e.resolve (Scope.enter params {}).pass = some (t, s)) : t.Separate s.next := by
  have E := e.resolves h
  have hs := Scope.enter_all params (s := {}) ⟨fun name c hc => (nomatch hc), fun b hb => (nomatch hb)⟩
  have hn : (Scope.enter params {}).next < (Scope.enter params {}).pass.next := Nat.lt_succ_self _
  have hle := E.next
  refine ⟨(E.cells (fun c => c < s.next ∧ c ∉ t.places) ?_ fun c _ hlt hmem => ⟨hlt, hmem⟩).1, fun p hp =>
    (E.places p hp).2⟩
  have hold : ∀ c, c < (Scope.enter params {}).next → c < s.next ∧ c ∉ t.places := fun c hc => by
    refine ⟨by omega, fun hmem => ?_⟩
    have := (E.places c hmem).1
    omega
  exact ⟨fun name c hc => hold c (hs.seen name c hc), fun b hb p hp c hc => hold c (hs.hidden b hb p hp c hc)⟩

end Kaleidoscope
