/-
  Kaleidoscope.Proofs.Fate — loads of a slot, and the stores before them.

  `Fate` is what becomes of a slot that nothing was stored in, over a stretch of code: it may
  be loaded, or it is stored in on every way through, or there is a way through on which
  neither happens. `Tree.fate` works it out for a cell from the tree of an expression, one
  evaluation after another: a conditional takes one branch or the other, a loop may end
  before its first turn.

  `Body.Stretch` says that code from one place to another has a fate, in both directions:
  what the fate rules out is on no path from there (`safe`), and what it allows is on one
  (`through`, `exposed`). Paths are those on which nothing is stored in the slot
  (`Body.Dry`). Stretches are put together like the code is: one after another (`trans`), at
  a test (`fork`) and around a loop (`loop`, by induction on the length of a path, since
  each turn takes a step).
  - `Tree.stretches`: the code of a tree has the tree's fate, wherever it stands.
  - `Tree.exposed_iff`: in the body of a function, a slot is loaded on a path without a store
    exactly if it is not a parameter's and the tree may read it first.
  - `Body.unstored_iff`: these paths, from the start, are the paths of `Body.Path`.
-/

import Kaleidoscope.Proofs.Compilation
import Kaleidoscope.Proofs.Dominance

namespace Kaleidoscope

open Ir (Body Builder Inst Value)

/-- What becomes of a slot that was not stored in before, over a stretch of code. -/
inductive Fate where
  /-- It may be loaded before it is stored in. -/
  | reads
  /-- It is stored in on every way through, and not loaded before that. -/
  | stores
  /-- There is a way through that does not store in it, and it is not loaded. -/
  | passes
  deriving DecidableEq, Repr

namespace Fate

/-- One stretch of code after another. -/
def andThen : Fate → Fate → Fate
  | passes, g => g
  | f, _ => f

/-- One stretch of code or another. -/
def either : Fate → Fate → Fate
  | reads, _ => reads
  | _, reads => reads
  | stores, stores => stores
  | _, _ => passes

@[simp] theorem passes_andThen (f : Fate) : passes.andThen f = f := rfl

@[simp] theorem andThen_passes (f : Fate) : f.andThen passes = f := by cases f <;> rfl

theorem andThen_ne_reads {f g : Fate} (h : f.andThen g ≠ reads) : f ≠ reads ∧ (f = passes → g ≠ reads) := by
  cases f <;> simp_all [andThen]

theorem andThen_eq_passes {f g : Fate} : f.andThen g = passes ↔ f = passes ∧ g = passes := by
  cases f <;> simp [andThen]

theorem andThen_eq_reads {f g : Fate} : f.andThen g = reads ↔ f = reads ∨ f = passes ∧ g = reads := by
  cases f <;> simp [andThen]

theorem either_eq_reads {f g : Fate} : f.either g = reads ↔ f = reads ∨ g = reads := by
  cases f <;> cases g <;> simp [either]

theorem either_eq_passes {f g : Fate} (h : f.either g ≠ reads) : f.either g = passes ↔ f = passes ∨ g = passes := by
  cases f <;> cases g <;> simp_all [either]

/-- A store at the end of either stretch is a store after them. -/
theorem either_andThen_stores (f g h : Fate) :
    ((f.andThen stores).either (g.andThen stores)).andThen h = (f.either g).andThen stores := by
  cases f <;> cases g <;> rfl

end Fate

namespace Ir

namespace Inst

/-- Where control may go from the instruction at `p`. -/
def next (i : Inst) (p : Nat × Nat) : List (Nat × Nat) :=
  if i.isTerminator then i.targets.map (·, 0) else [(p.1, p.2 + 1)]

/-- What becomes of slot `c` over the instruction. -/
def fate (c : Nat) : Inst → Fate
  | load _ s => if s = c then .reads else .passes
  | store _ s => if s = c then .stores else .passes
  | _ => .passes

end Inst

namespace Body

/-! ## Paths without a store -/

def Loads (body : Body) (c : Nat) (p : Nat × Nat) : Prop := ∃ r, body.inst? p.1 p.2 = some (.load r c)

def Stores (body : Body) (c : Nat) (p : Nat × Nat) : Prop := ∃ v, body.inst? p.1 p.2 = some (.store v c)

/-- Control may come from one place to another by `n` instructions, none of which stores
    in slot `c`. -/
inductive Dry (body : Body) (c : Nat) : Nat → Nat × Nat → Nat × Nat → Prop
  | refl (p : Nat × Nat) : Dry body c 0 p p
  | head {n : Nat} {p q r : Nat × Nat} {i : Inst} : body.inst? p.1 p.2 = some i → i.fate c ≠ .stores → q ∈ i.next p →
      Dry body c n q r → Dry body c (n + 1) p r

variable {body : Body} {c : Nat} {n m : Nat} {p q r : Nat × Nat} {i : Inst} {f g : Fate}

theorem Dry.one (hi : body.inst? p.1 p.2 = some i) (hf : i.fate c ≠ .stores) (hq : q ∈ i.next p) : Dry body c 1 p q :=
  .head hi hf hq (.refl q)

theorem Dry.trans (h : Dry body c n p q) (h' : Dry body c m q r) : Dry body c (n + m) p r := by
  induction h with
  | refl p => simpa using h'
  | head hi hf hq _ ih =>
    rw [Nat.succ_add]
    exact .head hi hf hq (ih h')

/-- From an instruction that is known, control stays or goes where the instruction lets it. -/
theorem Dry.cases (hi : body.inst? p.1 p.2 = some i) (h : Dry body c n p r) :
    r = p ∨ i.fate c ≠ .stores ∧ ∃ m q, n = m + 1 ∧ q ∈ i.next p ∧ Dry body c m q r := by
  cases h with
  | refl => exact .inl rfl
  | @head m _ q _ j hj hf hq hrest =>
    cases hi.symm.trans hj
    exact .inr ⟨hf, m, q, rfl, hq, hrest⟩

theorem Loads.fate (h : body.Loads c p) (hi : body.inst? p.1 p.2 = some i) : i.fate c = .reads := by
  obtain ⟨r, hr⟩ := h
  cases hi.symm.trans hr
  simp [Inst.fate]

theorem loads_of_fate (hi : body.inst? p.1 p.2 = some i) (h : i.fate c = .reads) : body.Loads c p := by
  unfold Inst.fate at h
  split at h
  · rename_i r s
    split at h
    · rename_i hs
      subst hs
      exact ⟨r, hi⟩
    · cases h
  · split at h <;> cases h
  · cases h

/-! ## Stretches of code -/

/-- Between two places, slot `c` has this fate: what is promised of the fate holds of every
    way from `p`, and what is said to be possible is. -/
structure Stretch (body : Body) (c : Nat) (f : Fate) (p q : Nat × Nat) : Prop where
  safe : f ≠ .reads → ∀ n r, Dry body c n p r → ¬body.Loads c r ∨ f = .passes ∧ ∃ m ≤ n, Dry body c m q r
  through : f = .passes → ∃ n, Dry body c n p q
  exposed : f = .reads → ∃ n r, Dry body c n p r ∧ body.Loads c r

theorem Stretch.refl (p : Nat × Nat) : Stretch body c .passes p p where
  safe _ n r h := .inr ⟨rfl, n, Nat.le_refl n, h⟩
  through _ := ⟨0, .refl p⟩
  exposed h := by cases h

theorem Stretch.trans (hf : Stretch body c f p q) (hg : Stretch body c g q r) : Stretch body c (f.andThen g) p r where
  safe hne n x hx := by
    obtain ⟨hfne, hgne⟩ := Fate.andThen_ne_reads hne
    rcases hf.safe hfne n x hx with h | ⟨rfl, m, hm, h⟩
    · exact .inl h
    · rcases hg.safe (hgne rfl) m x h with h | ⟨hpass, k, hk, h⟩
      · exact .inl h
      · exact .inr ⟨hpass, k, Nat.le_trans hk hm, h⟩
  through h := by
    obtain ⟨hfp, hgp⟩ := Fate.andThen_eq_passes.mp h
    obtain ⟨n, hn⟩ := hf.through hfp
    obtain ⟨m, hm⟩ := hg.through hgp
    exact ⟨n + m, hn.trans hm⟩
  exposed h := by
    rcases Fate.andThen_eq_reads.mp h with hfr | ⟨hfp, hgr⟩
    · exact hf.exposed hfr
    · obtain ⟨n, hn⟩ := hf.through hfp
      obtain ⟨m, x, hm, hx⟩ := hg.exposed hgr
      exact ⟨n + m, x, hn.trans hm, hx⟩

/-- An instruction that control goes past. -/
theorem Stretch.inst (hi : body.inst? p.1 p.2 = some i) (hterm : i.isTerminator = false) :
    Stretch body c (i.fate c) p (p.1, p.2 + 1) where
  safe hne n r hr := by
    rcases hr.cases hi with rfl | ⟨hf, m, q, rfl, hq, hrest⟩
    · exact .inl fun hl => hne (hl.fate hi)
    · have hpass : i.fate c = .passes := by
        cases h : i.fate c with
        | reads => exact absurd h hne
        | stores => exact absurd h hf
        | passes => rfl
      rw [Inst.next, hterm, if_neg (by simp), List.mem_singleton] at hq
      subst hq
      exact .inr ⟨hpass, m, Nat.le_succ m, hrest⟩
  through h := ⟨1, .one hi (by rw [h]; simp) (by simp [Inst.next, hterm])⟩
  exposed h := ⟨0, p, .refl p, loads_of_fate hi h⟩

/-- A branch. -/
theorem Stretch.jump {k : Nat} (hi : body.inst? p.1 p.2 = some (.branch k)) : Stretch body c .passes p (k, 0) where
  safe _ n r hr := by
    rcases hr.cases hi with rfl | ⟨-, m, q, rfl, hq, hrest⟩
    · exact .inl fun hl => by cases hl.fate hi
    · simp only [Inst.next, Inst.isTerminator, Inst.targets, if_true, List.map_cons, List.map_nil,
        List.mem_singleton] at hq
      subst hq
      exact .inr ⟨rfl, m, Nat.le_succ m, hrest⟩
  through _ := ⟨1, .one hi (by simp [Inst.fate]) (by simp [Inst.next, Inst.isTerminator, Inst.targets])⟩
  exposed h := by cases h

variable {v : Value} {k l : Nat}

theorem mem_next_condBranch : q ∈ (Inst.condBranch v k l).next p ↔ q = (k, 0) ∨ q = (l, 0) := by
  simp [Inst.next, Inst.isTerminator, Inst.targets]

/-- A test, and one of two stretches of code that end in the same place. -/
theorem Stretch.fork (hi : body.inst? p.1 p.2 = some (.condBranch v k l)) (hf : Stretch body c f (k, 0) q)
    (hg : Stretch body c g (l, 0) q) : Stretch body c (f.either g) p q where
  safe hne n r hr := by
    have hnone : ¬(f = .reads ∨ g = .reads) := fun h => hne (Fate.either_eq_reads.mpr h)
    rcases hr.cases hi with rfl | ⟨-, m, x, rfl, hx, hrest⟩
    · exact .inl fun hl => by cases hl.fate hi
    · rcases mem_next_condBranch.mp hx with rfl | rfl
      · rcases hf.safe (fun h => hnone (.inl h)) m r hrest with h | ⟨hpass, j, hj, h⟩
        · exact .inl h
        · exact .inr ⟨(Fate.either_eq_passes hne).mpr (.inl hpass), j, by omega, h⟩
      · rcases hg.safe (fun h => hnone (.inr h)) m r hrest with h | ⟨hpass, j, hj, h⟩
        · exact .inl h
        · exact .inr ⟨(Fate.either_eq_passes hne).mpr (.inr hpass), j, by omega, h⟩
  through h := by
    have hne : f.either g ≠ .reads := by simp [h]
    rcases (Fate.either_eq_passes hne).mp h with hpass | hpass
    · obtain ⟨n, hn⟩ := hf.through hpass
      exact ⟨n + 1, .head hi (by simp [Inst.fate]) (mem_next_condBranch.mpr (.inl rfl)) hn⟩
    · obtain ⟨n, hn⟩ := hg.through hpass
      exact ⟨n + 1, .head hi (by simp [Inst.fate]) (mem_next_condBranch.mpr (.inr rfl)) hn⟩
  exposed h := by
    rcases Fate.either_eq_reads.mp h with hread | hread
    · obtain ⟨n, r, hn, hr⟩ := hf.exposed hread
      exact ⟨n + 1, r, .head hi (by simp [Inst.fate]) (mem_next_condBranch.mpr (.inl rfl)) hn, hr⟩
    · obtain ⟨n, r, hn, hr⟩ := hg.exposed hread
      exact ⟨n + 1, r, .head hi (by simp [Inst.fate]) (mem_next_condBranch.mpr (.inr rfl)) hn, hr⟩

/-- A loop: a stretch that is taken before each test, and one that leads back from there. -/
theorem Stretch.loop (hf : Stretch body c f p q) (hi : body.inst? q.1 q.2 = some (.condBranch v k l))
    (hg : Stretch body c g (k, 0) p) : Stretch body c (f.andThen (g.either .passes)) p (l, 0) where
  safe hne n r hr := by
    obtain ⟨hfne, hrest⟩ := Fate.andThen_ne_reads hne
    -- each turn takes a step at least
    induction n using Nat.strongRecOn with
    | ind n ih =>
      rcases hf.safe hfne n r hr with h | ⟨hpass, m, hm, hq⟩
      · exact .inl h
      · have hone := hrest hpass
        have hgne : g ≠ .reads := fun h => hone (Fate.either_eq_reads.mpr (.inl h))
        rcases hq.cases hi with rfl | ⟨-, j, x, rfl, hx, hj⟩
        · exact .inl fun hl => by cases hl.fate hi
        · rcases mem_next_condBranch.mp hx with rfl | rfl
          · rcases hg.safe hgne j r hj with h | ⟨-, j', hj', hback⟩
            · exact .inl h
            · rcases ih j' (by omega) hback with h | ⟨hp, i, hi, h⟩
              · exact .inl h
              · exact .inr ⟨hp, i, by omega, h⟩
          · refine .inr ⟨Fate.andThen_eq_passes.mpr ⟨hpass, ?_⟩, j, by omega, hj⟩
            exact (Fate.either_eq_passes hone).mpr (.inr rfl)
  through h := by
    obtain ⟨hfp, -⟩ := Fate.andThen_eq_passes.mp h
    obtain ⟨n, hn⟩ := hf.through hfp
    exact ⟨n + 1, hn.trans (.one hi (by simp [Inst.fate]) (mem_next_condBranch.mpr (.inr rfl)))⟩
  exposed h := by
    rcases Fate.andThen_eq_reads.mp h with hfr | ⟨hfp, hgr⟩
    · exact hf.exposed hfr
    · obtain ⟨n, hn⟩ := hf.through hfp
      have hread : g = .reads := by
        rcases Fate.either_eq_reads.mp hgr with h | h
        · exact h
        · cases h
      obtain ⟨m, r, hm, hr⟩ := hg.exposed hread
      exact ⟨n + (m + 1), r, hn.trans (.head hi (by simp [Inst.fate]) (mem_next_condBranch.mpr (.inl rfl)) hm), hr⟩

/-- A stretch after which the function returns. -/
theorem Stretch.exposed_iff (h : Stretch body c f p q) (hi : body.inst? q.1 q.2 = some (.ret v)) :
    (∃ n r, Dry body c n p r ∧ body.Loads c r) ↔ f = .reads := by
  constructor
  · intro hx
    obtain ⟨n, r, hr, hload⟩ := hx
    by_contra hne
    rcases h.safe hne n r hr with hno | ⟨-, m, -, hend⟩
    · exact hno hload
    · rcases hend.cases hi with rfl | ⟨-, j, x, -, hx, -⟩
      · cases hload.fate hi
      · simp [Inst.next, Inst.isTerminator, Inst.targets] at hx
  · exact h.exposed

/-! ## Paths from the start -/

/-- A path from the start of the body leads to a place without a store in slot `c`. -/
def Unstored (body : Body) (c : Nat) (p : Nat × Nat) : Prop :=
  ∃ past, body.Path past p ∧ ∀ q ∈ past, ¬body.Stores c q

theorem mem_next (i : Inst) (p q : Nat × Nat) :
    q ∈ i.next p ↔ i.isTerminator = false ∧ q = (p.1, p.2 + 1) ∨ ∃ k ∈ i.targets, q = (k, 0) := by
  cases i <;> simp [Inst.next, Inst.isTerminator, Inst.targets]

theorem fate_eq_stores : i.fate c = .stores ↔ ∃ v, i = .store v c := by
  constructor
  · intro h
    unfold Inst.fate at h
    split at h
    · split at h <;> cases h
    · rename_i v s
      split at h
      · rename_i hs
        exact ⟨v, by rw [hs]⟩
      · cases h
    · cases h
  · intro h
    obtain ⟨v, rfl⟩ := h
    simp [Inst.fate]

/-- One more instruction that does not store in the slot. -/
theorem Unstored.extend (h : body.Unstored c p) (hi : body.inst? p.1 p.2 = some i) (hf : i.fate c ≠ .stores)
    (hq : q ∈ i.next p) : body.Unstored c q := by
  obtain ⟨past, hpath, hpast⟩ := h
  have hnew : ∀ x ∈ past ++ [p], ¬body.Stores c x := by
    intro x hx
    rcases List.mem_append.mp hx with hx | hx
    · exact hpast x hx
    · rw [List.mem_singleton.mp hx]
      intro hstores
      obtain ⟨v, hv⟩ := hstores
      cases hi.symm.trans hv
      exact hf (fate_eq_stores.mpr ⟨v, rfl⟩)
  rcases (mem_next i p q).mp hq with ⟨hterm, rfl⟩ | ⟨k, hk, rfl⟩
  · exact ⟨past ++ [p], .next hpath hi hterm, hnew⟩
  · exact ⟨past ++ [p], .jump hpath hi hk, hnew⟩

theorem unstored_of_path {past : List (Nat × Nat)} (h : body.Path past p) (hpast : ∀ q ∈ past, ¬body.Stores c q) :
    ∃ n, Dry body c n (0, 0) p := by
  have hfate : ∀ {x : Nat × Nat} {j : Inst}, ¬body.Stores c x → body.inst? x.1 x.2 = some j → j.fate c ≠ .stores := by
    intro x j hx hj hf
    obtain ⟨v, rfl⟩ := fate_eq_stores.mp hf
    exact hx ⟨v, hj⟩
  induction h with
  | start => exact ⟨0, .refl _⟩
  | next _ hi hterm ih =>
    obtain ⟨n, hn⟩ := ih fun q hq => hpast q (List.mem_append_left _ hq)
    have hone := hfate (hpast _ (List.mem_append_right _ (List.mem_singleton.mpr rfl))) hi
    exact ⟨n + 1, hn.trans (.one hi hone ((mem_next _ _ _).mpr (.inl ⟨hterm, rfl⟩)))⟩
  | jump _ hi ht ih =>
    obtain ⟨n, hn⟩ := ih fun q hq => hpast q (List.mem_append_left _ hq)
    have hone := hfate (hpast _ (List.mem_append_right _ (List.mem_singleton.mpr rfl))) hi
    exact ⟨n + 1, hn.trans (.one hi hone ((mem_next _ _ _).mpr (.inr ⟨_, ht, rfl⟩)))⟩

theorem unstored_iff : body.Unstored c p ↔ ∃ n, Dry body c n (0, 0) p := by
  constructor
  · intro h
    obtain ⟨past, hpath, hpast⟩ := h
    exact unstored_of_path hpath hpast
  · intro h
    obtain ⟨n, hn⟩ := h
    have hstart : body.Unstored c (0, 0) := ⟨[], .start, fun q hq => by cases hq⟩
    generalize (0, 0) = x at hn hstart
    induction hn with
    | refl => exact hstart
    | head hi hf hq _ ih => exact ih (hstart.extend hi hf hq)

end Body

/-! ## The builder's moves -/

namespace Builder

variable {body : Body} {c : Nat} {b d : Builder} {v : Value} {i : Inst} {s : Nat}

/-- Where the next instruction goes. -/
def spot (b : Builder) : Nat × Nat := (b.current, b.here)

theorem spot_push (hs : b.Stands) (i : Inst) : (b.push i).spot = (b.current, b.here + 1) := by
  rw [spot, push_here hs, push_current]

theorem stretch_push (hs : b.Stands) (hB : (b.push i).body.Within body) (hterm : i.isTerminator = false) :
    body.Stretch c (i.fate c) b.spot (b.push i).spot := by
  have hi : body.inst? b.spot.1 b.spot.2 = some i := hB.code _ _ _ (push_inst hs)
  rw [spot_push hs]
  exact .inst hi hterm

theorem stretch_emit {ty : Ty} {inst : Nat → Inst} (he : b.emit ty inst = (v, d)) (hs : b.Stands)
    (hB : d.body.Within body) (hterm : (inst b.body.regs.size).isTerminator = false) :
    body.Stretch c ((inst b.body.regs.size).fate c) b.spot d.spot := by
  obtain rfl : (b.emit ty inst).2 = d := congrArg Prod.snd he
  have hi : body.inst? b.spot.1 b.spot.2 = some (inst b.body.regs.size) := hB.code _ _ _ (emit_inst hs)
  rw [show (b.emit ty inst).2.spot = (b.current, b.here + 1) by rw [spot, emit_here hs, emit_current]]
  exact .inst hi hterm

/-- A result is computed, of something else than the slot. -/
theorem stretch_result {ty : Ty} {inst : Nat → Inst} {f : Fate} {p : Nat × Nat} (h : body.Stretch c f p b.spot)
    (he : b.emit ty inst = (v, d)) (hs : b.Stands) (hB : d.body.Within body)
    (hterm : (inst b.body.regs.size).isTerminator = false) (hfate : (inst b.body.regs.size).fate c = .passes) :
    body.Stretch c f p d.spot := by
  have hend := h.trans (stretch_emit he hs hB hterm)
  rwa [hfate, Fate.andThen_passes] at hend

theorem within_of_emit {ty : Ty} {inst : Nat → Inst} (he : b.emit ty inst = (v, d)) (hs : b.Stands)
    (hB : d.body.Within body) : b.body.Within body := by
  obtain rfl : (b.emit ty inst).2 = d := congrArg Prod.snd he
  exact ((Grows.refl hs).emit ty inst).within.trans hB

/-- A value is stored, and control goes to another block. -/
theorem stretch_store_branch {target : Nat} (hi : body.inst? b.current b.here = some (.store v s))
    (hj : body.inst? b.current (b.here + 1) = some (.branch target)) :
    body.Stretch c ((Inst.store v s).fate c) b.spot (target, 0) := by
  have hstore : body.Stretch c ((Inst.store v s).fate c) b.spot (b.current, b.here + 1) := .inst hi rfl
  have hbranch : body.Stretch c .passes (b.current, b.here + 1) (target, 0) := .jump hj
  have h := hstore.trans hbranch
  rwa [Fate.andThen_passes] at h

theorem stretch_join {target next : Nat} (hs : b.Stands) (hB : (b.join v s target next).body.Within body) :
    body.Stretch c ((Inst.store v s).fate c) b.spot (target, 0) := by
  have g : b.Grows (b.store v s) := push_grows _ hs
  have hi := (push_grows (.branch target) g.stands).within.code _ _ _ (push_inst hs)
  have hj : ((b.store v s).branch target).body.inst? (b.store v s).current (b.store v s).here = some (.branch target) :=
    push_inst g.stands
  rw [Builder.store, push_here hs] at hj
  exact stretch_store_branch (hB.code _ _ _ hi) (hB.code _ _ _ hj)

theorem stretch_enterLoop (hs : b.Stands) (hB : (b.enterLoop v s).2.body.Within body) :
    body.Stretch c ((Inst.store v s).fate c) b.spot ((b.enterLoop v s).1.1, 0) := by
  have g : b.Grows (b.store v s) := push_grows _ hs
  have g₁ := (Grows.refl g.stands).appendThree "for.test" "for.body" "for.end"
  have hi := hB.code _ _ _ ((g₁.push _).within.code _ _ _ (push_inst hs))
  have hj := hB.code _ _ _ (push_inst g₁.stands)
  rw [here_appendThree g.stands, Builder.store, push_here hs] at hj
  exact stretch_store_branch hi hj

/-- The test before a branch. -/
theorem stretch_test (hs : b.Stands) (hB : (b.test v).2.body.Within body) :
    body.Stretch c .passes b.spot (b.current, b.here + 1) := by
  have hi : body.inst? b.spot.1 b.spot.2 = some (.compare b.body.regs.size .orderedUnequal v (.const 0)) :=
    hB.code _ _ _ (emit_inst hs)
  exact .inst hi rfl

theorem inst?_fork (hs : b.Stands) (hB : (b.fork v).2.body.Within body) :
    (b.test v).2.body.Within body ∧ body.inst? b.current (b.here + 1) =
      some (.condBranch (b.test v).1 (b.fork v).1.1 (b.fork v).1.2.1) := by
  have g : b.Grows (b.test v).2 := (Grows.refl hs).emit _ _
  have g₁ := (Grows.refl g.stands).appendThree "if.then" "if.else" "if.end"
  have hi := hB.code _ _ _ (push_inst g₁.stands)
  rw [here_appendThree g.stands] at hi
  refine ⟨(g₁.push _).within.trans hB, ?_⟩
  rw [← emit_here hs]
  exact hi

theorem inst?_testLoop {yes no : Nat} (hs : b.Stands) (hB : (b.testLoop v yes no).body.Within body) :
    (b.test v).2.body.Within body ∧ body.inst? b.current (b.here + 1) = some (.condBranch (b.test v).1 yes no) := by
  have g : b.Grows (b.test v).2 := (Grows.refl hs).emit _ _
  have hi := hB.code _ _ _ (push_inst g.stands)
  refine ⟨(push_grows _ g.stands).within.trans hB, ?_⟩
  rw [← emit_here hs]
  exact hi

theorem Opens.spot {k : Nat} {ks : List Nat} (o : Opens b (k :: ks) d) : d.spot = (k, 0) := by
  rw [Builder.spot, o.here, Option.some.inj o.current]

end Builder

end Ir

/-! ## Trees -/

namespace Tree

/-- What storing in cell `s` means for cell `c`. -/
def storing (c s : Nat) : Fate := if s = c then .stores else .passes

mutual

/-- What becomes of cell `c` while the tree is evaluated, going by what is evaluated on some
    way through. A loop may end before its first turn. -/
def fate (c : Nat) : Tree → Fate
  | .const _ => .passes
  | .read s => if s = c then .reads else .passes
  | .assign s t => (fate c t).andThen (storing c s)
  | .declare s _ t => (fate c t).andThen (storing c s)
  | .arith _ l r => (fate c l).andThen (fate c r)
  | .less l r => (fate c l).andThen (fate c r)
  | .call _ args => fateAll c args
  | .cond place t y n => (fate c t).andThen (((fate c y).either (fate c n)).andThen (storing c place))
  | .loop s _ start stop body step =>
    (fate c start).andThen ((storing c s).andThen ((fate c stop).andThen
      (((fate c body).andThen (fate c step)).either .passes)))
  | .seq ts => fateAll c ts

def fateAll (c : Nat) : List Tree → Fate
  | [] => .passes
  | t :: ts => (fate c t).andThen (fateAll c ts)

end

variable {B : Body} {c : Nat} {t l r : Tree} {ts : List Tree}

/-- Wherever it stands in `B`, the code of a tree has the fate of the tree. -/
def Stretches (B : Body) (c : Nat) (t : Tree) : Prop :=
  ∀ {b d : Builder} {v : Value}, t.emit b = (v, d) → b.Stands → d.body.Within B → B.Stretch c (t.fate c) b.spot d.spot

theorem stretches_arguments (ih : ∀ t ∈ ts, Stretches B c t) {b d : Builder} {vs : List Value}
    (he : emitArguments ts b = (vs, d)) (hs : b.Stands) (hB : d.body.Within B) :
    B.Stretch c (fateAll c ts) b.spot d.spot := by
  induction ts generalizing b vs with
  | nil =>
    simp only [emitArguments, Prod.mk.injEq] at he
    obtain ⟨-, rfl⟩ := he
    simp only [fateAll]
    exact .refl _
  | cons t ts ihs =>
    obtain ⟨u, b₁, h₁⟩ : ∃ u b₁, t.emit b = (u, b₁) := ⟨_, _, rfl⟩
    obtain ⟨us, b₂, h₂⟩ : ∃ us b₂, emitArguments ts b₁ = (us, b₂) := ⟨_, _, rfl⟩
    simp only [emitArguments, h₁, h₂, Prod.mk.injEq] at he
    obtain ⟨-, rfl⟩ := he
    have y₁ := yields_of_emit h₁ hs
    have g₂ := grows_of_arguments h₂ y₁.grows.stands
    simp only [fateAll]
    exact (ih t List.mem_cons_self h₁ hs (g₂.within.trans hB)).trans
      (ihs (fun t ht => ih t (List.mem_cons_of_mem _ ht)) h₂ y₁.grows.stands)

theorem stretches_members (ih : ∀ t ∈ ts, Stretches B c t) {b d : Builder} {v last : Value}
    (he : emitMembers ts last b = (v, d)) (hs : b.Stands) (hB : d.body.Within B) :
    B.Stretch c (fateAll c ts) b.spot d.spot := by
  induction ts generalizing b last with
  | nil =>
    simp only [emitMembers, Prod.mk.injEq] at he
    obtain ⟨-, rfl⟩ := he
    simp only [fateAll]
    exact .refl _
  | cons t ts ihs =>
    obtain ⟨u, b₁, h₁⟩ : ∃ u b₁, t.emit b = (u, b₁) := ⟨_, _, rfl⟩
    simp only [emitMembers, h₁] at he
    have y₁ := yields_of_emit h₁ hs
    have g₂ := grows_of_members he y₁
    simp only [fateAll]
    exact (ih t List.mem_cons_self h₁ hs (g₂.within.trans hB)).trans
      (ihs (fun t ht => ih t (List.mem_cons_of_mem _ ht)) he y₁.grows.stands)

theorem stretches_operands (ihl : Stretches B c l) (ihr : Stretches B c r) {b b₁ b₂ : Builder} {v u : Value}
    (hl : l.emit b = (v, b₁)) (hr : r.emit b₁ = (u, b₂)) (hs : b.Stands) (hB : b₂.body.Within B) :
    B.Stretch c ((l.fate c).andThen (r.fate c)) b.spot b₂.spot := by
  have yl := yields_of_emit hl hs
  have yr := yields_of_emit hr yl.grows.stands
  exact (ihl hl hs (yr.grows.within.trans hB)).trans (ihr hr yl.grows.stands hB)

theorem stretches_cond (place : Nat) {y e : Tree} (iht : Stretches B c t) (ihy : Stretches B c y)
    (ihe : Stretches B c e) : Stretches B c (.cond place t y e) := by
  intro b d v he hs hB
  obtain ⟨u, b₁, h₁⟩ : ∃ u b₁, t.emit (b.alloca "if.result").2 = (u, b₁) := ⟨_, _, rfl⟩
  obtain ⟨k₁, k₂, k₃, b₂, h₂⟩ : ∃ k₁ k₂ k₃ b₂, b₁.fork u = ((k₁, k₂, k₃), b₂) := ⟨_, _, _, _, rfl⟩
  obtain ⟨p, b₃, h₃⟩ : ∃ p b₃, y.emit b₂ = (p, b₃) := ⟨_, _, rfl⟩
  obtain ⟨q, b₄, h₄⟩ : ∃ q b₄, e.emit (b₃.join p place k₃ k₂) = (q, b₄) := ⟨_, _, rfl⟩
  simp only [emit, h₁, h₂, h₃, h₄] at he
  -- the stages of the code
  have y₁ : Yields (b.alloca "if.result").2 (u, b₁) := yields_of_emit h₁ hs
  have o₁ := Builder.fork_opens (((Builder.Grows.refl hs).alloca "if.result").trans y₁.grows) u
  simp only [h₂] at o₁
  have y₃ := yields_of_emit h₃ o₁.grows.stands
  have o₂ := o₁.join y₃.grows p place k₃
  have y₄ := yields_of_emit h₄ o₂.grows.stands
  have o₃ := o₂.join y₄.grows q place k₃
  -- and each part of the body
  have w₄ : (b₄.join q place k₃ k₃).body.Within B := by
    obtain rfl : ((b₄.join q place k₃ k₃).load place).2 = d := congrArg Prod.snd he
    exact ((Builder.Grows.refl o₃.grows.stands).emit _ _).within.trans hB
  have w₃ : (b₃.join p place k₃ k₂).body.Within B := y₄.grows.within.trans (within_join y₄.grows.stands w₄)
  have w₂ : b₂.body.Within B := y₃.grows.within.trans (within_join y₃.grows.stands w₃)
  obtain ⟨w₁', hbranch⟩ := Builder.inst?_fork y₁.grows.stands (by rw [h₂]; exact w₂)
  simp only [h₂] at hbranch
  have w₁ : b₁.body.Within B := ((Builder.Grows.refl y₁.grows.stands).emit .bool _).within.trans w₁'
  have htest : B.Stretch c (t.fate c) b.spot (b₁.current, b₁.here + 1) := by
    have h := (iht h₁ hs w₁).trans (Builder.stretch_test y₁.grows.stands w₁')
    rwa [Fate.andThen_passes] at h
  have hyes := (ihy h₃ o₁.grows.stands (within_join y₃.grows.stands w₃)).trans
    (Builder.stretch_join (c := c) y₃.grows.stands w₃)
  have hno := (ihe h₄ o₂.grows.stands (within_join y₄.grows.stands w₄)).trans
    (Builder.stretch_join (c := c) y₄.grows.stands w₄)
  rw [o₁.spot] at hyes
  rw [o₂.spot] at hno
  have hload := Builder.stretch_emit (c := c) he o₃.grows.stands hB rfl
  rw [o₃.spot] at hload
  have h := htest.trans ((Body.Stretch.fork hbranch hyes hno).trans hload)
  have hfate : (Tree.cond place t y e).fate c = (t.fate c).andThen
      ((((y.fate c).andThen (storing c place)).either ((e.fate c).andThen (storing c place))).andThen
        (if place = c then .reads else .passes)) := by
    by_cases hplace : place = c
    · simp only [fate, storing, if_pos hplace, Fate.either_andThen_stores]
    · simp only [fate, storing, if_neg hplace, Fate.andThen_passes]
  rw [hfate]
  exact h

theorem stretches_loop (s : Nat) (name : String) {start stop body step : Tree} (iha : Stretches B c start)
    (ihb : Stretches B c stop) (ihc : Stretches B c body) (ihd : Stretches B c step) :
    Stretches B c (.loop s name start stop body step) := by
  intro b d v he hs hB
  obtain ⟨u, b₁, h₁⟩ : ∃ u b₁, start.emit (b.alloca name).2 = (u, b₁) := ⟨_, _, rfl⟩
  obtain ⟨k₁, k₂, k₃, b₂, h₂⟩ : ∃ k₁ k₂ k₃ b₂, b₁.enterLoop u s = ((k₁, k₂, k₃), b₂) := ⟨_, _, _, _, rfl⟩
  obtain ⟨p, b₃, h₃⟩ : ∃ p b₃, stop.emit b₂ = (p, b₃) := ⟨_, _, rfl⟩
  obtain ⟨q, b₄, h₄⟩ : ∃ q b₄, body.emit (b₃.testLoop p k₂ k₃) = (q, b₄) := ⟨_, _, rfl⟩
  obtain ⟨r, b₅, h₅⟩ : ∃ r b₅, step.emit b₄ = (r, b₅) := ⟨_, _, rfl⟩
  simp only [emit, h₁, h₂, h₃, h₄, h₅, Prod.mk.injEq] at he
  obtain ⟨-, rfl⟩ := he
  -- the stages of the code
  have y₁ : Yields (b.alloca name).2 (u, b₁) := yields_of_emit h₁ hs
  have o₁ := Builder.enterLoop_opens (((Builder.Grows.refl hs).alloca name).trans y₁.grows) u s
  simp only [h₂] at o₁
  have y₃ := yields_of_emit h₃ o₁.grows.stands
  have o₂ := o₁.testLoop y₃.grows p k₃
  have y₄ := yields_of_emit h₄ o₂.grows.stands
  have y₅ := yields_of_emit h₅ y₄.grows.stands
  have o₃ := o₂.join (y₄.grows.trans y₅.grows) r s k₁
  -- and the parts of the body
  have w₅ : b₅.body.Within B := within_join y₅.grows.stands hB
  have w₄ : b₄.body.Within B := y₅.grows.within.trans w₅
  have w₃ : (b₃.testLoop p k₂ k₃).body.Within B := y₄.grows.within.trans w₄
  obtain ⟨w₃', hbranch⟩ := Builder.inst?_testLoop y₃.grows.stands w₃
  have w₃'' : b₃.body.Within B := ((Builder.Grows.refl y₃.grows.stands).emit .bool _).within.trans w₃'
  have w₂ : b₂.body.Within B := y₃.grows.within.trans w₃''
  have w₁ : b₁.body.Within B := by
    have g := (Builder.enterLoop_opens (.refl y₁.grows.stands) u s).grows
    rw [h₂] at g
    exact g.within.trans w₂
  have henter := Builder.stretch_enterLoop (c := c) y₁.grows.stands (by rw [h₂]; exact w₂)
  rw [h₂] at henter
  have htest : B.Stretch c (stop.fate c) (k₁, 0) (b₃.current, b₃.here + 1) := by
    have h := (ihb h₃ o₁.grows.stands w₃'').trans (Builder.stretch_test y₃.grows.stands w₃')
    rwa [Fate.andThen_passes, o₁.spot] at h
  have hturn := ((ihc h₄ o₂.grows.stands w₄).trans (ihd h₅ y₄.grows.stands w₅)).trans
    (Builder.stretch_join (c := c) y₅.grows.stands hB)
  rw [o₂.spot] at hturn
  have h := (iha h₁ hs w₁).trans (henter.trans (Body.Stretch.loop htest hbranch hturn))
  have hfate : (Tree.loop s name start stop body step).fate c = (start.fate c).andThen ((storing c s).andThen
      ((stop.fate c).andThen ((((body.fate c).andThen (step.fate c)).andThen (storing c s)).either .passes))) := by
    by_cases hs : s = c
    · simp only [fate, storing, if_pos hs, Fate.andThen]
    · simp only [fate, storing, if_neg hs, Fate.andThen_passes]
  rw [hfate, o₃.spot]
  exact h

theorem stretches (t : Tree) : Stretches B c t := by
  induction t using Tree.induction with
  | const x =>
    intro b d v he hs hB
    simp only [emit, Prod.mk.injEq] at he
    obtain ⟨-, rfl⟩ := he
    simp only [fate]
    exact .refl _
  | read s =>
    intro b d v he hs hB
    simp only [emit] at he
    simp only [fate]
    exact Builder.stretch_emit he hs hB rfl
  | assign s t ih =>
    intro b d v he hs hB
    obtain ⟨u, b₁, h₁⟩ : ∃ u b₁, t.emit b = (u, b₁) := ⟨_, _, rfl⟩
    simp only [emit, h₁, Prod.mk.injEq] at he
    obtain ⟨-, rfl⟩ := he
    have y₁ := yields_of_emit h₁ hs
    have w₁ : b₁.body.Within B := (Builder.push_grows _ y₁.grows.stands).within.trans hB
    simp only [fate]
    exact (ih h₁ hs w₁).trans (Builder.stretch_push y₁.grows.stands hB rfl)
  | declare s name t ih =>
    intro b d v he hs hB
    obtain ⟨u, b₁, h₁⟩ : ∃ u b₁, t.emit b = (u, b₁) := ⟨_, _, rfl⟩
    simp only [emit, h₁, Prod.mk.injEq] at he
    obtain ⟨-, rfl⟩ := he
    have y₁ := yields_of_emit h₁ hs
    have g := (Builder.Grows.refl y₁.grows.stands).alloca name
    have w₁ : b₁.body.Within B := (g.push _).within.trans hB
    simp only [fate]
    exact (ih h₁ hs w₁).trans (Builder.stretch_push g.stands hB rfl)
  | arith op l r ihl ihr =>
    intro b d v he hs hB
    obtain ⟨x, b₁, h₁⟩ : ∃ x b₁, l.emit b = (x, b₁) := ⟨_, _, rfl⟩
    obtain ⟨y, b₂, h₂⟩ : ∃ y b₂, r.emit b₁ = (y, b₂) := ⟨_, _, rfl⟩
    simp only [emit, h₁, h₂] at he
    have hs₂ := (yields_of_emit h₂ (yields_of_emit h₁ hs).grows.stands).grows.stands
    simp only [fate]
    exact Builder.stretch_result (stretches_operands ihl ihr h₁ h₂ hs (Builder.within_of_emit he hs₂ hB)) he hs₂ hB rfl rfl
  | less l r ihl ihr =>
    intro b d v he hs hB
    obtain ⟨x, b₁, h₁⟩ : ∃ x b₁, l.emit b = (x, b₁) := ⟨_, _, rfl⟩
    obtain ⟨y, b₂, h₂⟩ : ∃ y b₂, r.emit b₁ = (y, b₂) := ⟨_, _, rfl⟩
    obtain ⟨z, b₃, h₃⟩ : ∃ z b₃, b₂.compare .unorderedLess x y = (z, b₃) := ⟨_, _, rfl⟩
    simp only [emit, h₁, h₂, h₃] at he
    have hs₂ := (yields_of_emit h₂ (yields_of_emit h₁ hs).grows.stands).grows.stands
    have hs₃ : b₃.Stands := by
      obtain rfl : (b₂.compare .unorderedLess x y).2 = b₃ := congrArg Prod.snd h₃
      exact ((Builder.Grows.refl hs₂).emit _ _).stands
    have w₃ := Builder.within_of_emit he hs₃ hB
    have w₂ := Builder.within_of_emit h₃ hs₂ w₃
    simp only [fate]
    exact Builder.stretch_result (Builder.stretch_result (stretches_operands ihl ihr h₁ h₂ hs w₂) h₃ hs₂ w₃ rfl rfl)
      he hs₃ hB rfl rfl
  | call callee ts ih =>
    intro b d v he hs hB
    obtain ⟨vs, b₁, h₁⟩ : ∃ vs b₁, emitArguments ts b = (vs, b₁) := ⟨_, _, rfl⟩
    simp only [emit, h₁] at he
    have hs₁ := (grows_of_arguments h₁ hs).stands
    simp only [fate]
    exact Builder.stretch_result (stretches_arguments ih h₁ hs (Builder.within_of_emit he hs₁ hB)) he hs₁ hB rfl rfl
  | cond place t y e iht ihy ihe => exact stretches_cond place iht ihy ihe
  | loop s name start stop body step iha ihb ihc ihd => exact stretches_loop s name iha ihb ihc ihd
  | seq ts ih =>
    intro b d v he hs hB
    simp only [emit] at he
    simp only [fate]
    exact stretches_members ih he hs hB

/-! ## The body of a function -/

theorem stretch_enterParams (i : Nat) (params : List String) {b : Builder} (hs : b.Stands)
    (hB : (b.enterParams i params).body.Within B) (hslots : b.body.slots.size = i) :
    B.Stretch c (if i ≤ c ∧ c < i + params.length then .stores else .passes) b.spot (b.enterParams i params).spot := by
  induction params generalizing i b with
  | nil =>
    rw [if_neg (by simp only [List.length_nil]; omega)]
    exact .refl _
  | cons param params ih =>
    have g := (Builder.Grows.refl hs).alloca param
    have g₁ := g.push (.store (.param i) b.body.slots.size)
    have hw := (enterParams_grows (i + 1) params g₁.stands).within.trans hB
    have hfirst := Builder.stretch_push (c := c) g.stands hw rfl
    have hrest := ih (i + 1) g₁.stands hB (by simp [Builder.alloca, hslots])
    have h := hfirst.trans hrest
    have hfate : (if i ≤ c ∧ c < i + (param :: params).length then Fate.stores else .passes) =
        ((Ir.Inst.store (.param i) b.body.slots.size).fate c).andThen
          (if i + 1 ≤ c ∧ c < i + 1 + params.length then .stores else .passes) := by
      rw [hslots, List.length_cons]
      by_cases hc : i = c
      · subst hc
        simp [Ir.Inst.fate, Fate.andThen]
      · simp only [Ir.Inst.fate, if_neg hc, Fate.passes_andThen]
        congr 1
        simp only [eq_iff_iff]
        omega
    rw [hfate]
    exact h

/-- Of the slots of a function's body, those are loaded without having been stored in, on
    some path, that are no parameter and that the tree may read before it stores there. -/
theorem exposed_iff (params : List String) (t : Tree) (c : Nat) :
    (∃ n p, (t.code params).Dry c n (0, 0) p ∧ (t.code params).Loads c p) ↔ params.length ≤ c ∧ t.fate c = .reads := by
  obtain ⟨b₁, h₁⟩ : ∃ b₁, (({} : Builder).appendBlock "entry").2.enterParams 0 params = b₁ := ⟨_, rfl⟩
  obtain ⟨v, b₂, h₂⟩ : ∃ v b₂, t.emit (b₁.alloca "ret").2 = (v, b₂) := ⟨_, _, rfl⟩
  obtain ⟨u, b₃, h₃⟩ : ∃ u b₃, (b₂.store v params.length).load params.length = (u, b₃) := ⟨_, _, rfl⟩
  have hcode : (b₃.ret u).body = t.code params := by
    simp only [Tree.code, h₁, h₂, h₃]
  rw [← hcode]
  have hs₀ : (({} : Builder).appendBlock "entry").2.Stands := Nat.zero_lt_one
  have g₁ := enterParams_grows 0 params hs₀
  rw [h₁] at g₁
  have g₁' := (Builder.Grows.refl g₁.stands).alloca "ret"
  have y₂ := yields_of_emit h₂ g₁'.stands
  have g₂ := Builder.push_grows (.store v params.length) y₂.grows.stands
  have hs₃ : b₃.Stands := by
    obtain rfl : ((b₂.store v params.length).load params.length).2 = b₃ := congrArg Prod.snd h₃
    exact ((Builder.Grows.refl g₂.stands).emit _ _).stands
  have w₃ : b₃.body.Within (b₃.ret u).body := (Builder.push_grows (.ret u) hs₃).within
  have w₂ := Builder.within_of_emit h₃ g₂.stands w₃
  have w₁ : b₂.body.Within (b₃.ret u).body := g₂.within.trans w₂
  have w₀ : b₁.body.Within (b₃.ret u).body := (g₁'.trans y₂.grows).within.trans w₁
  have hparams := stretch_enterParams (c := c) 0 params hs₀ (by rw [h₁]; exact w₀) rfl
  rw [h₁] at hparams
  -- the result is loaded from where it was stored just before
  obtain ⟨last, hlast, hresult⟩ : ∃ last, last ≠ Fate.reads ∧ (b₃.ret u).body.Stretch c last b₂.spot b₃.spot := by
    refine ⟨_, ?_, (Builder.stretch_push y₂.grows.stands w₂ rfl).trans (Builder.stretch_emit h₃ g₂.stands w₃ rfl)⟩
    by_cases hc : params.length = c
    · simp [Ir.Inst.fate, hc, Fate.andThen]
    · simp [Ir.Inst.fate, hc]
  have h := hparams.trans ((t.stretches h₂ g₁'.stands w₁).trans hresult)
  have hret : (b₃.ret u).body.inst? b₃.spot.1 b₃.spot.2 = some (.ret u) := Builder.push_inst hs₃
  refine (h.exposed_iff hret).trans ?_
  by_cases hc : c < params.length
  · rw [if_pos (by omega)]
    simp only [Fate.andThen, reduceCtorEq, false_iff, not_and]
    omega
  · rw [if_neg (by omega), Fate.passes_andThen, Fate.andThen_eq_reads]
    have hle : params.length ≤ c := by omega
    simp only [hlast, and_false, or_false, hle, true_and]

end Tree

end Kaleidoscope
