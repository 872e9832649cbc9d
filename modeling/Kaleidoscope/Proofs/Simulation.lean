/-
  Kaleidoscope.Proofs.Simulation — compiled functions do what definitions mean.

  An activation follows an evaluation: where the tree has a value, the code of the tree
  gets to its end with that value (`Simulates`). The two agree on the cells and on the
  calls made (`At`). Values in registers survive whatever is evaluated after them, because
  code writes only the registers it added (`Keeps`); results of conditionals do not get in
  the way of variables, because they have places of their own.

  An evaluation also has to end where the code does. If it ends in a call without a result,
  so does the code; if `n` turns of a loop were not enough, the code takes at least `n`
  steps. So a body that returns within `n` steps is one whose tree has a value within `n`
  turns.

  `define_returns_iff`: a function that was accepted returns what its definition means.
-/

import Kaleidoscope.Proofs.Activation

namespace Kaleidoscope

open Ir (Body Builder Value)
open Activation

/-! ## Following an evaluation -/

/-- From `a`, the code ends as the evaluation does; where it has a value, so that `Q` holds
    of the value, the world and the activation reached. -/
def Simulates {α : Type} (M : Meaning) (n : Nat) (a : Activation) (Q : α → World → Activation → Prop) :
    EStateM.Result Halt World α → Prop
  | .ok x w => ∃ k b, Steps M k a b ∧ Q x w b
  | .error .noResult _ => ∃ k b, Steps M k a b ∧ b.step M = .halted
  | .error .outOfTurns _ => ∃ k b, Steps M k a b ∧ n ≤ k

namespace Simulates

variable {α β : Type} {M : Meaning} {n m k : Nat} {a b : Activation} {w : World}
variable {Q : α → World → Activation → Prop} {R : β → World → Activation → Prop}

theorem steps {r : EStateM.Result Halt World α} (hs : Steps M k a b) (h : Simulates M n b Q r) :
    Simulates M (k + n) a Q r := by
  match r, h with
  | .ok x w, ⟨j, c, hj, hq⟩ => exact ⟨k + j, c, hs.trans hj, hq⟩
  | .error .noResult w, ⟨j, c, hj, hq⟩ => exact ⟨k + j, c, hs.trans hj, hq⟩
  | .error .outOfTurns w, ⟨j, c, hj, hq⟩ => exact ⟨k + j, c, hs.trans hj, Nat.add_le_add_left hq k⟩

theorem mono {r : EStateM.Result Halt World α} (h : Simulates M n a Q r) (hm : m ≤ n) : Simulates M m a Q r := by
  match r, h with
  | .ok x w, h => exact h
  | .error .noResult w, h => exact h
  | .error .outOfTurns w, ⟨j, c, hj, hq⟩ => exact ⟨j, c, hj, Nat.le_trans hm hq⟩

theorem after {r : EStateM.Result Halt World α} (hs : Steps M k a b) (h : Simulates M n b Q r) :
    Simulates M n a Q r :=
  (h.steps hs).mono (Nat.le_add_left n k)

theorem pure {x : α} (h : Q x w a) : Simulates M n a Q ((Pure.pure x : Eval α) w) := ⟨0, a, .refl a, h⟩

theorem bind {x : Eval α} {f : α → Eval β} (h : Simulates M n a Q (x w))
    (hf : ∀ y v b, Q y v b → Simulates M n b R (f y v)) : Simulates M n a R ((x >>= f) w) := by
  show Simulates M n a R (EStateM.bind x f w)
  unfold EStateM.bind
  match hx : x w, h with
  | .ok y v, ⟨k, b, hk, hq⟩ => exact (hf y v b hq).after hk
  | .error .noResult v, h => exact h
  | .error .outOfTurns v, h => exact h

/-- The code that follows a value. -/
theorem finish {R : α → World → Activation → Prop} {r : EStateM.Result Halt World α} (h : Simulates M n a Q r)
    (hf : ∀ x w b, Q x w b → ∃ k c, Steps M k b c ∧ R x w c) : Simulates M n a R r := by
  match r, h with
  | .ok x w, ⟨k, b, hk, hq⟩ =>
    obtain ⟨j, c, hj, hr⟩ := hf x w b hq
    exact ⟨k + j, c, hk.trans hj, hr⟩
  | .error .noResult w, h => exact h
  | .error .outOfTurns w, h => exact h

end Simulates

/-! ## What an activation and an evaluation agree on -/

/-- The activation runs body `B`, is at place `i` of block `k`, has made the calls of the
    world, and has the contents of the cells `V` in their slots. -/
structure At (B : Body) (V : Nat → Prop) (k i : Nat) (w : World) (a : Activation) : Prop where
  body : a.frame.body = B
  block : a.frame.block = k
  pc : a.frame.pc = i
  slots : a.frame.slots.size = B.slots.size
  regs : a.frame.regs.size = B.regs.size
  cells : ∀ c, V c → a.frame.slots[c]? = some (w.cells c)
  calls : a.calls = w.calls

/-- Constants and the first `n` registers have the values they had. -/
def Keeps (n : Nat) (a b : Activation) : Prop := ∀ v : Value, v.Below n → b.frame.operand? v = a.frame.operand? v

section

variable {B : Body} {V : Nat → Prop} {k i n m r s : Nat} {w w' : World} {a b c : Activation} {x : Float} {v : Value}

theorem At.fetches (h : At B V k i w a) {inst : Ir.Inst} (hi : B.inst? k i = some inst) : a.Fetches inst := by
  unfold Fetches
  rw [h.body, h.block, h.pc]
  exact hi

theorem At.write (h : At B V k i w a) (r : Nat) (x : Float) : At B V k (i + 1) w (a.write r x) :=
  ⟨h.body, h.block, congrArg (· + 1) h.pc, h.slots, by rw [← h.regs]; exact Array.size_setIfInBounds, h.cells, h.calls⟩

theorem At.put (h : At B V k i w a) (s : Nat) (x : Float) (hs : s < B.slots.size) :
    At B V k (i + 1) (w.store s x) (a.put s x) := by
  refine ⟨h.body, h.block, congrArg (· + 1) h.pc, by rw [← h.slots]; exact Array.size_setIfInBounds, h.regs,
    fun c hc => ?_, h.calls⟩
  show (a.frame.slots.setIfInBounds s x)[c]? = some (if c = s then x else w.cells c)
  rw [Array.getElem?_setIfInBounds]
  by_cases hcs : c = s
  · subst hcs
    simp [h.slots, hs]
  · rw [if_neg (Ne.symm hcs), if_neg hcs]
    exact h.cells c hc

theorem At.goto (h : At B V k i w a) (k' : Nat) : At B V k' 0 w (a.goto k') :=
  ⟨h.body, rfl, rfl, h.slots, h.regs, h.cells, h.calls⟩

theorem At.record (h : At B V k i w a) (c : Call) :
    At B V k i { w with calls := w.calls ++ [c] } (a.record c) :=
  ⟨h.body, h.block, h.pc, h.slots, h.regs, h.cells, congrArg (· ++ [c]) h.calls⟩

/-- Worlds that differ in no cell of `V` are the same to an activation. -/
theorem At.congr (h : At B V k i w a) (hcells : ∀ c, V c → w'.cells c = w.cells c) (hcalls : w'.calls = w.calls) :
    At B V k i w' a :=
  ⟨h.body, h.block, h.pc, h.slots, h.regs, fun c hc => by rw [hcells c hc]; exact h.cells c hc,
    by rw [hcalls]; exact h.calls⟩

theorem put_slot (hs : s < a.frame.slots.size) : (a.put s x).frame.slots[s]? = some x := by
  show (a.frame.slots.setIfInBounds s x)[s]? = _
  simp [hs]

theorem write_value (hr : r < a.frame.regs.size) : (a.write r x).frame.operand? (.reg r) = some x := by
  show (a.frame.regs.setIfInBounds r x)[r]? = _
  simp [hr]

theorem Keeps.refl (n : Nat) (a : Activation) : Keeps n a a := fun _ _ => rfl

theorem Keeps.trans (h : Keeps n a b) (h' : Keeps m b c) (hnm : n ≤ m) : Keeps n a c := fun v hv => by
  rw [h' v (hv.mono hnm), h v hv]

theorem Keeps.write (h : Keeps n a b) (hr : n ≤ r) (x : Float) : Keeps n a (b.write r x) := fun v hv => by
  rw [← h v hv]
  match v, hv with
  | .const y, _ => rfl
  | .reg q, hq =>
    have hne : r ≠ q := by
      have : q < n := hq
      omega
    show (b.frame.regs.setIfInBounds r x)[q]? = b.frame.regs[q]?
    rw [Array.getElem?_setIfInBounds, if_neg hne]

theorem Keeps.put (h : Keeps n a b) (s : Nat) (x : Float) : Keeps n a (b.put s x) := fun v hv => by
  rw [← h v hv]
  cases v <;> rfl

theorem Keeps.goto (h : Keeps n a b) (k : Nat) : Keeps n a (b.goto k) := fun v hv => by
  rw [← h v hv]
  cases v <;> rfl

theorem Keeps.record (h : Keeps n a b) (c : Call) : Keeps n a (b.record c) := fun v hv => by
  rw [← h v hv]
  cases v <;> rfl

theorem operand?_put : (a.put s x).frame.operand? v = a.frame.operand? v := by cases v <;> rfl

end

/-! ## Branches and loops -/

section

variable {M : Meaning} {B : Body} {V : Nat → Prop} {w : World} {a : Activation} {b c : Builder} {v : Value} {x : Float}

theorem truth_ofBool (t : Bool) : Frame.truth (Frame.ofBool t) = t := by
  cases t <;> decide

theorem within_emit {ty : Ir.Ty} {inst : Nat → Ir.Inst} (he : b.emit ty inst = (v, c)) (hs : b.Stands)
    (hB : c.body.Within B) :
    B.inst? b.current b.here = some (inst b.body.regs.size) ∧ b.body.regs.size < B.regs.size := by
  obtain rfl : (b.emit ty inst).2 = c := congrArg Prod.snd he
  refine ⟨hB.code _ _ _ (Builder.emit_inst hs), ?_⟩
  have := hB.regs
  simp only [Builder.emit_regs] at this
  omega

/-- Testing a value and branching on it. -/
theorem test_steps (hs : b.Stands) (hB : (b.test v).2.body.Within B) {yes no : Nat}
    (hi : B.inst? b.current (b.here + 1) = some (.condBranch (b.test v).1 yes no))
    (ha : At B V b.current b.here w a) (hx : a.frame.operand? v = some x) :
    ∃ a', Steps M 2 a a' ∧ At B V (if Eval.holds x then yes else no) 0 w a' ∧ Keeps b.body.regs.size a a' := by
  have he : b.compare .orderedUnequal v (.const 0) = ((b.test v).1, (b.test v).2) := rfl
  obtain ⟨hc, hr⟩ := within_emit he hs hB
  rw [← ha.regs] at hr
  have h₁ := step_compare (M := M) (ha.fetches hc) hr hx (y := 0) rfl
  have ha₁ := ha.write b.body.regs.size (Frame.ofBool (Frame.compare .orderedUnequal x 0))
  have h₂ := step_condBranch (M := M) (ha₁.fetches hi) (write_value hr)
  rw [truth_ofBool] at h₂
  exact ⟨_, .head h₁ (.one h₂), ha₁.goto _, ((Keeps.refl _ a).write (Nat.le_refl _) _).goto _⟩

theorem fork_steps (hs : b.Stands) (hB : (b.fork v).2.body.Within B) (ha : At B V b.current b.here w a)
    (hx : a.frame.operand? v = some x) :
    ∃ a', Steps M 2 a a' ∧ At B V (if Eval.holds x then (b.fork v).1.1 else (b.fork v).1.2.1) 0 w a' ∧
      Keeps b.body.regs.size a a' := by
  have g : b.Grows (b.test v).2 := (Builder.Grows.refl hs).emit _ _
  have g₁ := (Builder.Grows.refl g.stands).appendThree "if.then" "if.else" "if.end"
  have hi := hB.code _ _ _ (Builder.push_inst g₁.stands)
  have hw : (b.test v).2.body.Within B := (g₁.push _).within.trans hB
  rw [Builder.here_appendThree g.stands] at hi
  refine test_steps hs hw ?_ ha hx
  rw [← Builder.emit_here hs]
  exact hi

theorem testLoop_steps (hs : b.Stands) {yes no : Nat} (hB : (b.testLoop v yes no).body.Within B)
    (ha : At B V b.current b.here w a) (hx : a.frame.operand? v = some x) :
    ∃ a', Steps M 2 a a' ∧ At B V (if Eval.holds x then yes else no) 0 w a' ∧ Keeps b.body.regs.size a a' := by
  have g : b.Grows (b.test v).2 := (Builder.Grows.refl hs).emit _ _
  have hi := hB.code _ _ _ (Builder.push_inst g.stands)
  have hw : (b.test v).2.body.Within B := (Builder.push_grows _ g.stands).within.trans hB
  refine test_steps hs hw ?_ ha hx
  rw [← Builder.emit_here hs]
  exact hi

/-- Storing a value and going to another block. -/
theorem store_branch_steps {s k i target : Nat} (hi : B.inst? k i = some (.store v s))
    (hj : B.inst? k (i + 1) = some (.branch target)) (hs : s < B.slots.size) (ha : At B V k i w a)
    (hx : a.frame.operand? v = some x) : Steps M 2 a ((a.put s x).goto target) := by
  have h₁ := step_store (M := M) (ha.fetches hi) (by rw [ha.slots]; exact hs) hx
  exact .head h₁ (.one (step_branch ((ha.put s x hs).fetches hj)))

theorem join_steps (hs : b.Stands) {s target next : Nat} (hB : (b.join v s target next).body.Within B)
    (hslot : s < B.slots.size) (ha : At B V b.current b.here w a) (hx : a.frame.operand? v = some x) :
    Steps M 2 a ((a.put s x).goto target) := by
  have g : b.Grows (b.store v s) := Builder.push_grows _ hs
  have hi := (Builder.push_grows (.branch target) g.stands).within.code _ _ _ (Builder.push_inst hs)
  have hj := Builder.push_inst (i := .branch target) g.stands
  rw [Builder.store, Builder.push_here hs] at hj
  exact store_branch_steps (hB.code _ _ _ hi) (hB.code _ _ _ hj) hslot ha hx

theorem enterLoop_steps (hs : b.Stands) {s : Nat} (hB : (b.enterLoop v s).2.body.Within B) (hslot : s < B.slots.size)
    (ha : At B V b.current b.here w a) (hx : a.frame.operand? v = some x) :
    Steps M 2 a ((a.put s x).goto (b.enterLoop v s).1.1) := by
  have g : b.Grows (b.store v s) := Builder.push_grows _ hs
  have g₁ := (Builder.Grows.refl g.stands).appendThree "for.test" "for.body" "for.end"
  have hi := hB.code _ _ _ ((g₁.push _).within.code _ _ _ (Builder.push_inst hs))
  have hj := hB.code _ _ _ (Builder.push_inst g₁.stands)
  rw [Builder.here_appendThree g.stands, Builder.store, Builder.push_here hs] at hj
  exact store_branch_steps hi hj hslot ha hx

end

/-! ## The code of a tree -/

/-- A slot of `B` that is not in `V`. -/
def Spare (B : Body) (V : Nat → Prop) (p : Nat) : Prop := p < B.slots.size ∧ ¬V p

/-- The cells of a tree are in `V`, and its places are not. -/
def Tree.Fits (B : Body) (V : Nat → Prop) (t : Tree) : Prop :=
  (∀ c ∈ t.cells, V c) ∧ ∀ p ∈ t.places, Spare B V p

/-- The code from `b` to `c` was run from `a`: it left `x` in `v`. -/
structure Ends (B : Body) (V : Nat → Prop) (b c : Builder) (v : Value) (a : Activation) (x : Float) (w : World)
    (a' : Activation) : Prop where
  ends : At B V c.current c.here w a'
  value : a'.frame.operand? v = some x
  keeps : Keeps b.body.regs.size a a'

/-- Wherever it stands in `B`, the code of a tree follows the evaluation of the tree. -/
def Follows (M : Meaning) (n : Nat) (B : Body) (V : Nat → Prop) (t : Tree) : Prop :=
  ∀ {b c : Builder} {v : Value} {a : Activation} {w : World}, t.emit b = (v, c) → b.Stands → c.body.Within B →
    t.Fits B V → At B V b.current b.here w a → Simulates M n a (Ends B V b c v a) (t.eval M n w)

section

variable {M : Meaning} {n : Nat} {B : Body} {V : Nat → Prop} {t l r : Tree}

theorem At.slot_lt {k i c : Nat} {w : World} {a : Activation} (h : At B V k i w a) (hc : V c) : c < B.slots.size := by
  rw [← h.slots]
  exact (Array.getElem?_eq_some_iff.mp (h.cells c hc)).1

theorem yields_of_emit {b c : Builder} {v : Value} (h : t.emit b = (v, c)) (hs : b.Stands) : Tree.Yields b (v, c) :=
  h ▸ t.emit_yields b hs

theorem grows_of_arguments {ts : List Tree} {b c : Builder} {vs : List Value} (h : Tree.emitArguments ts b = (vs, c))
    (hs : b.Stands) : b.Grows c := by
  have g := (Tree.emitArguments_yields (fun t _ b hb => t.emit_yields b hb) hs : b.Grows (Tree.emitArguments ts b).2 ∧ _).1
  rwa [h] at g

theorem grows_of_members {ts : List Tree} {b b₀ c : Builder} {v last : Value}
    (h : Tree.emitMembers ts last b = (v, c)) (y : Tree.Yields b₀ (last, b)) : b.Grows c := by
  have g := Tree.emitMembers_yields (fun t (_ : t ∈ ts) b hb => t.emit_yields b hb) (b := b) (c := b)
    ⟨.refl y.grows.stands, y.below⟩
  rw [h] at g
  exact g.grows

/-- An instruction with a result, at the end of what was emitted since `b`. -/
theorem Ends.emit {b c d : Builder} {ty : Ir.Ty} {inst : Nat → Ir.Inst} {v : Value} {a a' : Activation} {w : World}
    {x : Float} (he : c.emit ty inst = (v, d)) (hs : c.Stands) (hreg : c.body.regs.size < B.regs.size)
    (hle : b.body.regs.size ≤ c.body.regs.size) (hat : At B V c.current c.here w a') (hk : Keeps b.body.regs.size a a') :
    Ends B V b d v a x w (a'.write c.body.regs.size x) := by
  obtain rfl : (c.emit ty inst).1 = v := congrArg Prod.fst he
  obtain rfl : (c.emit ty inst).2 = d := congrArg Prod.snd he
  refine ⟨?_, write_value (by rw [hat.regs]; exact hreg), hk.write hle x⟩
  rw [Builder.emit_here hs]
  exact hat.write _ _

theorem follows_const (x : Float) : Follows M n B V (.const x) := by
  intro b c v a w he hs hB hfit hat
  simp only [Tree.emit, Prod.mk.injEq] at he
  obtain ⟨rfl, rfl⟩ := he
  simp only [Tree.eval]
  exact .pure ⟨hat, rfl, .refl _ _⟩

theorem follows_read (s : Nat) : Follows M n B V (.read s) := by
  intro b c v a w he hs hB hfit hat
  simp only [Tree.emit] at he
  obtain ⟨hi, hreg⟩ := within_emit he hs hB
  have hx := hat.cells s (hfit.1 s (by simp [Tree.cells]))
  have h := step_load (M := M) (hat.fetches hi) (by rw [hat.regs]; exact hreg) hx
  simp only [Tree.eval]
  exact ⟨1, _, .one h, .emit he hs hreg (Nat.le_refl _) hat (.refl _ a)⟩

/-- Storing the value of a tree in a cell. -/
theorem follows_store (s : Nat) (ih : Follows M n B V t) {b c d : Builder} {v : Value} {a : Activation} {w : World}
    (he : t.emit b = (v, c)) (hs : b.Stands) (hd : d.current = c.current ∧ d.here = c.here) (g : c.Grows d)
    (hB : (d.store v s).body.Within B) (hfit : t.Fits B V) (hV : V s) (hat : At B V b.current b.here w a) :
    Simulates M n a (Ends B V b (d.store v s) v a) ((do
      let x ← t.eval M n
      modify (World.store s x)
      pure x : Eval Float) w) := by
  have y := yields_of_emit he hs
  have hw : d.body.Within B := (Builder.push_grows _ g.stands).within.trans hB
  refine .bind (ih he hs (g.within.trans hw) hfit hat) fun x w₁ a₁ h₁ => ?_
  have hat₁ := h₁.ends
  rw [← hd.1, ← hd.2] at hat₁
  have hslot := hat.slot_lt hV
  have hi := hB.code _ _ _ (Builder.push_inst g.stands)
  have hstep := step_store (M := M) (hat₁.fetches hi) (by rw [hat₁.slots]; exact hslot) h₁.value
  refine ⟨1, _, .one hstep, ?_, ?_, h₁.keeps.put s x⟩
  · rw [Builder.store, Builder.push_here g.stands]
    exact hat₁.put s x hslot
  · rw [operand?_put]
    exact h₁.value

theorem follows_assign (s : Nat) (ih : Follows M n B V t) : Follows M n B V (.assign s t) := by
  intro b c v a w he hs hB hfit hat
  obtain ⟨u, b₁, h₁⟩ : ∃ u b₁, t.emit b = (u, b₁) := ⟨_, _, rfl⟩
  simp only [Tree.emit, h₁, Prod.mk.injEq] at he
  obtain ⟨rfl, rfl⟩ := he
  simp only [Tree.Fits, Tree.cells, Tree.places, List.mem_append, List.mem_singleton, or_imp, forall_and,
    forall_eq] at hfit
  obtain ⟨⟨hcells, hV⟩, hplaces⟩ := hfit
  simp only [Tree.eval]
  exact follows_store s ih h₁ hs ⟨rfl, rfl⟩ (.refl (yields_of_emit h₁ hs).grows.stands) hB
    ⟨hcells, hplaces⟩ hV hat

theorem follows_declare (s : Nat) (name : String) (ih : Follows M n B V t) : Follows M n B V (.declare s name t) := by
  intro b c v a w he hs hB hfit hat
  obtain ⟨u, b₁, h₁⟩ : ∃ u b₁, t.emit b = (u, b₁) := ⟨_, _, rfl⟩
  simp only [Tree.emit, h₁, Prod.mk.injEq] at he
  obtain ⟨rfl, rfl⟩ := he
  simp only [Tree.Fits, Tree.cells, Tree.places, List.mem_append, List.mem_singleton, or_imp, forall_and,
    forall_eq] at hfit
  obtain ⟨⟨hcells, hV⟩, hplaces⟩ := hfit
  have g := (Builder.Grows.refl (yields_of_emit h₁ hs).grows.stands).alloca name
  simp only [Tree.eval]
  exact follows_store s ih h₁ hs ⟨rfl, rfl⟩ g hB ⟨hcells, hplaces⟩ hV hat

/-- Two operands, the second of which leaves the value of the first alone. -/
theorem follows_operands (ihl : Follows M n B V l) (ihr : Follows M n B V r) {b b₁ b₂ : Builder} {v u : Value}
    {a : Activation} {w : World} {f : Float → Float → Eval Float} {Q : Float → World → Activation → Prop}
    (hl : l.emit b = (v, b₁)) (hr : r.emit b₁ = (u, b₂)) (hs : b.Stands) (hB : b₂.body.Within B) (hfl : l.Fits B V)
    (hfr : r.Fits B V) (hat : At B V b.current b.here w a)
    (hf : ∀ x y w' a', At B V b₂.current b₂.here w' a' → a'.frame.operand? v = some x → a'.frame.operand? u = some y →
      Keeps b.body.regs.size a a' → Simulates M n a' Q (f x y w')) :
    Simulates M n a Q ((do
      let x ← l.eval M n
      let y ← r.eval M n
      f x y : Eval Float) w) := by
  have yl := yields_of_emit hl hs
  have yr := yields_of_emit hr yl.grows.stands
  refine .bind (ihl hl hs (yr.grows.within.trans hB) hfl hat) fun x w₁ a₁ h₁ => ?_
  refine .bind (ihr hr yl.grows.stands hB hfr h₁.ends) fun y w₂ a₂ h₂ => ?_
  refine hf x y w₂ a₂ h₂.ends ?_ h₂.value (h₁.keeps.trans h₂.keeps yl.grows.within.regs)
  rw [h₂.keeps v yl.below]
  exact h₁.value

theorem arith_eq (op : Ir.Arith) (x y : Float) : Frame.arith op x y = Tree.apply op x y := by
  cases op <;> rfl

theorem follows_arith (op : Ir.Arith) (ihl : Follows M n B V l) (ihr : Follows M n B V r) :
    Follows M n B V (.arith op l r) := by
  intro b c v a w he hs hB hfit hat
  obtain ⟨v₁, b₁, h₁⟩ : ∃ v₁ b₁, l.emit b = (v₁, b₁) := ⟨_, _, rfl⟩
  obtain ⟨v₂, b₂, h₂⟩ : ∃ v₂ b₂, r.emit b₁ = (v₂, b₂) := ⟨_, _, rfl⟩
  simp only [Tree.emit, h₁, h₂] at he
  simp only [Tree.Fits, Tree.cells, Tree.places, List.mem_append, or_imp, forall_and] at hfit
  obtain ⟨⟨hcl, hcr⟩, hpl, hpr⟩ := hfit
  have y₁ := yields_of_emit h₁ hs
  have y₂ := yields_of_emit h₂ y₁.grows.stands
  have hs₂ := y₂.grows.stands
  obtain rfl : (b₂.arith op v₁ v₂).2 = c := congrArg Prod.snd he
  have hw : b₂.body.Within B := ((Builder.Grows.refl hs₂).emit _ _).within.trans hB
  obtain ⟨hi, hreg⟩ := within_emit he hs₂ hB
  simp only [Tree.eval]
  refine follows_operands ihl ihr h₁ h₂ hs hw ⟨hcl, hpl⟩ ⟨hcr, hpr⟩ hat fun x y w' a' hat' hx hy hk => ?_
  have h := step_arith (M := M) (hat'.fetches hi) (by rw [hat'.regs]; exact hreg) hx hy
  rw [arith_eq] at h
  exact ⟨1, _, .one h, .emit he hs₂ hreg (y₁.grows.trans y₂.grows).within.regs hat' hk⟩

theorem less_eq (x y : Float) :
    Frame.ofBool (Frame.truth (Frame.ofBool (Frame.compare .unorderedLess x y))) = if y ≤ x then 0 else 1 := by
  rw [truth_ofBool]
  unfold Frame.compare Frame.ofBool
  by_cases h : y ≤ x <;> simp [h]

theorem follows_less (ihl : Follows M n B V l) (ihr : Follows M n B V r) : Follows M n B V (.less l r) := by
  intro b c v a w he hs hB hfit hat
  obtain ⟨v₁, b₁, h₁⟩ : ∃ v₁ b₁, l.emit b = (v₁, b₁) := ⟨_, _, rfl⟩
  obtain ⟨v₂, b₂, h₂⟩ : ∃ v₂ b₂, r.emit b₁ = (v₂, b₂) := ⟨_, _, rfl⟩
  obtain ⟨v₃, b₃, h₃⟩ : ∃ v₃ b₃, b₂.compare .unorderedLess v₁ v₂ = (v₃, b₃) := ⟨_, _, rfl⟩
  simp only [Tree.emit, h₁, h₂, h₃] at he
  simp only [Tree.Fits, Tree.cells, Tree.places, List.mem_append, or_imp, forall_and] at hfit
  obtain ⟨⟨hcl, hcr⟩, hpl, hpr⟩ := hfit
  have y₁ := yields_of_emit h₁ hs
  have y₂ := yields_of_emit h₂ y₁.grows.stands
  have hs₂ := y₂.grows.stands
  have y₃ : Tree.Yields b₂ (v₃, b₃) := h₃ ▸ .emit (.refl hs₂) _ _
  have hs₃ := y₃.grows.stands
  have hw₃ : b₃.body.Within B := by
    obtain rfl : (b₃.toDouble v₃).2 = c := congrArg Prod.snd he
    exact ((Builder.Grows.refl hs₃).emit _ _).within.trans hB
  obtain ⟨hi, hreg⟩ := within_emit h₃ hs₂ hw₃
  obtain ⟨hi', hreg'⟩ := within_emit he hs₃ hB
  simp only [Tree.eval]
  refine follows_operands ihl ihr h₁ h₂ hs (y₃.grows.within.trans hw₃) ⟨hcl, hpl⟩ ⟨hcr, hpr⟩ hat
    fun x y w' a' hat' hx hy hk => ?_
  have h := step_compare (M := M) (hat'.fetches hi) (by rw [hat'.regs]; exact hreg) hx hy
  have e := Ends.emit (x := Frame.ofBool (Frame.compare .unorderedLess x y)) h₃ hs₂ hreg
    (y₁.grows.trans y₂.grows).within.regs hat' hk
  have h' := step_toDouble (M := M) (e.ends.fetches hi') (by rw [e.ends.regs]; exact hreg') e.value
  rw [less_eq] at h'
  exact ⟨2, _, .head h (.one h'),
    .emit he hs₃ hreg' ((y₁.grows.trans y₂.grows).trans y₃.grows).within.regs e.ends e.keeps⟩

theorem mapM_operand?_cons {f : Frame} {v : Value} {vs : List Value} {x : Float} {xs : List Float}
    (hx : f.operand? v = some x) (hxs : vs.mapM f.operand? = some xs) :
    (v :: vs).mapM f.operand? = some (x :: xs) := by
  simp [List.mapM_cons, hx, hxs]

theorem follows_arguments {ts : List Tree} (ih : ∀ t ∈ ts, Follows M n B V t) {b c : Builder} {vs : List Value}
    {a : Activation} {w : World} (he : Tree.emitArguments ts b = (vs, c)) (hs : b.Stands) (hB : c.body.Within B)
    (hfit : ∀ t ∈ ts, t.Fits B V) (hat : At B V b.current b.here w a) :
    Simulates M n a (fun xs w' a' => At B V c.current c.here w' a' ∧ vs.mapM a'.frame.operand? = some xs ∧
      Keeps b.body.regs.size a a') (Tree.evalArguments M n ts w) := by
  induction ts generalizing b vs a w with
  | nil =>
    simp only [Tree.emitArguments, Prod.mk.injEq] at he
    obtain ⟨rfl, rfl⟩ := he
    simp only [Tree.evalArguments]
    exact .pure ⟨hat, rfl, .refl _ _⟩
  | cons t ts ihs =>
    obtain ⟨v, b₁, h₁⟩ : ∃ v b₁, t.emit b = (v, b₁) := ⟨_, _, rfl⟩
    obtain ⟨us, b₂, h₂⟩ : ∃ us b₂, Tree.emitArguments ts b₁ = (us, b₂) := ⟨_, _, rfl⟩
    simp only [Tree.emitArguments, h₁, h₂, Prod.mk.injEq] at he
    obtain ⟨rfl, rfl⟩ := he
    have y₁ := yields_of_emit h₁ hs
    have g₂ := grows_of_arguments h₂ y₁.grows.stands
    simp only [Tree.evalArguments]
    refine .bind (ih t List.mem_cons_self h₁ hs (g₂.within.trans hB) (hfit t List.mem_cons_self) hat)
      fun x w₁ a₁ e₁ => ?_
    refine .bind (ihs (fun t ht => ih t (List.mem_cons_of_mem _ ht)) h₂ y₁.grows.stands
      (fun t ht => hfit t (List.mem_cons_of_mem _ ht)) e₁.ends) fun xs w₂ a₂ e₂ => ?_
    obtain ⟨hat₂, hxs, hk⟩ := e₂
    refine .pure ⟨hat₂, mapM_operand?_cons ?_ hxs, e₁.keeps.trans hk y₁.grows.within.regs⟩
    rw [hk v y₁.below]
    exact e₁.value

theorem fits_of_mem {ts : List Tree} (hc : ∀ c ∈ Tree.cellsOf ts, V c) (hp : ∀ p ∈ Tree.placesOf ts, Spare B V p) :
    ∀ t ∈ ts, t.Fits B V := by
  induction ts with
  | nil => intro t ht; cases ht
  | cons u ts ih =>
    simp only [Tree.cellsOf, Tree.placesOf, List.mem_append, or_imp, forall_and] at hc hp
    intro t ht
    rcases List.mem_cons.mp ht with rfl | ht
    · exact ⟨hc.1, hp.1⟩
    · exact ih hc.2 hp.2 t ht

theorem follows_call (callee : String) {ts : List Tree} (ih : ∀ t ∈ ts, Follows M n B V t) :
    Follows M n B V (.call callee ts) := by
  intro b c v a w he hs hB hfit hat
  obtain ⟨vs, b₁, h₁⟩ : ∃ vs b₁, Tree.emitArguments ts b = (vs, b₁) := ⟨_, _, rfl⟩
  simp only [Tree.emit, h₁] at he
  have g := grows_of_arguments h₁ hs
  obtain rfl : (b₁.call callee vs).2 = c := congrArg Prod.snd he
  have hw : b₁.body.Within B := ((Builder.Grows.refl g.stands).emit _ _).within.trans hB
  obtain ⟨hi, hreg⟩ := within_emit he g.stands hB
  simp only [Tree.Fits, Tree.cells, Tree.places] at hfit
  simp only [Tree.eval]
  refine .bind (follows_arguments ih h₁ hs hw (fits_of_mem hfit.1 hfit.2) hat) fun xs w₁ a₁ e₁ => ?_
  obtain ⟨hat₁, hxs, hk⟩ := e₁
  unfold Eval.perform
  rw [← hat₁.calls]
  cases hx : M a₁.calls ⟨callee, xs⟩ with
  | none => exact ⟨0, a₁, .refl _, step_call_halted (hat₁.fetches hi) hxs hx⟩
  | some x =>
    have h := step_call (hat₁.fetches hi) (by rw [hat₁.regs]; exact hreg) hxs hx
    have e := Ends.emit (x := x) he g.stands hreg g.within.regs hat₁ hk
    refine ⟨1, _, .one h, ?_, e.value, e.keeps.record _⟩
    rw [hat₁.calls]
    exact e.ends.record _

theorem follows_members {ts : List Tree} (ih : ∀ t ∈ ts, Follows M n B V t) {b b₀ c : Builder} {v last : Value}
    {a a₀ : Activation} {w : World} {x : Float} (he : Tree.emitMembers ts last b = (v, c)) (g : b₀.Grows b)
    (hB : c.body.Within B) (hfit : ∀ t ∈ ts, t.Fits B V) (hat : Ends B V b₀ b last a₀ x w a) :
    Simulates M n a (Ends B V b₀ c v a₀) (Tree.evalMembers M n ts x w) := by
  induction ts generalizing b last a w x with
  | nil =>
    simp only [Tree.emitMembers, Prod.mk.injEq] at he
    obtain ⟨rfl, rfl⟩ := he
    simp only [Tree.evalMembers]
    exact .pure hat
  | cons t ts ihs =>
    obtain ⟨u, b₁, h₁⟩ : ∃ u b₁, t.emit b = (u, b₁) := ⟨_, _, rfl⟩
    simp only [Tree.emitMembers, h₁] at he
    have y₁ := yields_of_emit h₁ g.stands
    have g₁ := grows_of_members he y₁
    simp only [Tree.evalMembers]
    refine .bind (ih t List.mem_cons_self h₁ g.stands (g₁.within.trans hB) (hfit t List.mem_cons_self) hat.ends)
      fun x₁ w₁ a₁ e₁ => ?_
    refine ihs (fun t ht => ih t (List.mem_cons_of_mem _ ht)) he (g.trans y₁.grows)
      (fun t ht => hfit t (List.mem_cons_of_mem _ ht)) ⟨e₁.ends, e₁.value, ?_⟩
    exact hat.keeps.trans e₁.keeps g.within.regs

theorem follows_seq {ts : List Tree} (ih : ∀ t ∈ ts, Follows M n B V t) : Follows M n B V (.seq ts) := by
  intro b c v a w he hs hB hfit hat
  simp only [Tree.emit] at he
  simp only [Tree.Fits, Tree.cells, Tree.places] at hfit
  simp only [Tree.eval]
  exact follows_members ih he (.refl hs) hB (fits_of_mem hfit.1 hfit.2) ⟨hat, rfl, .refl _ _⟩

/-- A branch of a conditional ends with its value in the place of the result. -/
theorem join_spare {d : Builder} {u : Value} {place target next : Nat} {a : Activation} {w : World} {x : Float}
    (hs : d.Stands) (hB : (d.join u place target next).body.Within B) (hp : Spare B V place)
    (hat : At B V d.current d.here w a) (hx : a.frame.operand? u = some x) :
    ∃ a', Steps M 2 a a' ∧ At B V target 0 w a' ∧ a'.frame.slots[place]? = some x ∧ ∀ m, Keeps m a a' := by
  refine ⟨_, join_steps hs hB hp.1 hat hx, ?_, put_slot (by rw [hat.slots]; exact hp.1), fun m =>
    ((Keeps.refl m a).put place x).goto target⟩
  refine ((hat.put place x hp.1).goto target).congr (fun c hc => ?_) rfl
  have hne : c ≠ place := fun h => hp.2 (h ▸ hc)
  exact (if_neg hne).symm

theorem within_join {d : Builder} {u : Value} {s target next : Nat} (hs : d.Stands)
    (hB : (d.join u s target next).body.Within B) : d.body.Within B :=
  (((Builder.Grows.refl hs).push _).push _).within.trans hB

theorem follows_cond (place : Nat) {y e : Tree} (iht : Follows M n B V t) (ihy : Follows M n B V y)
    (ihe : Follows M n B V e) : Follows M n B V (.cond place t y e) := by
  intro b c v a w he hs hB hfit hat
  obtain ⟨u, b₁, h₁⟩ : ∃ u b₁, t.emit (b.alloca "if.result").2 = (u, b₁) := ⟨_, _, rfl⟩
  obtain ⟨k₁, k₂, k₃, b₂, h₂⟩ : ∃ k₁ k₂ k₃ b₂, b₁.fork u = ((k₁, k₂, k₃), b₂) := ⟨_, _, _, _, rfl⟩
  obtain ⟨p, b₃, h₃⟩ : ∃ p b₃, y.emit b₂ = (p, b₃) := ⟨_, _, rfl⟩
  obtain ⟨q, b₄, h₄⟩ : ∃ q b₄, e.emit (b₃.join p place k₃ k₂) = (q, b₄) := ⟨_, _, rfl⟩
  simp only [Tree.emit, h₁, h₂, h₃, h₄] at he
  simp only [Tree.Fits, Tree.cells, Tree.places, List.mem_append, List.mem_singleton, or_imp, forall_and,
    forall_eq] at hfit
  obtain ⟨⟨⟨hct, hcy⟩, hce⟩, ⟨⟨hplace, hpt⟩, hpy⟩, hpe⟩ := hfit
  -- the stages of the code, each growing from where the conditional started
  have y₁ : Tree.Yields (b.alloca "if.result").2 (u, b₁) := yields_of_emit h₁ hs
  have o₁ := Builder.fork_opens (((Builder.Grows.refl hs).alloca "if.result").trans y₁.grows) u
  simp only [h₂] at o₁
  have y₃ := yields_of_emit h₃ o₁.grows.stands
  have o₂ := o₁.join y₃.grows p place k₃
  have y₄ := yields_of_emit h₄ o₂.grows.stands
  have o₃ := o₂.join y₄.grows q place k₃
  -- and each part of the body
  obtain ⟨hi, hreg⟩ := within_emit he o₃.grows.stands hB
  have w₄ : (b₄.join q place k₃ k₃).body.Within B := by
    obtain rfl : ((b₄.join q place k₃ k₃).load place).2 = c := congrArg Prod.snd he
    exact ((Builder.Grows.refl o₃.grows.stands).emit _ _).within.trans hB
  have w₃ : (b₃.join p place k₃ k₂).body.Within B := y₄.grows.within.trans (within_join y₄.grows.stands w₄)
  have w₂ : b₂.body.Within B := y₃.grows.within.trans (within_join y₃.grows.stands w₃)
  have w₁ : b₁.body.Within B := by
    have g := (Builder.fork_opens (.refl y₁.grows.stands) u).grows
    rw [h₂] at g
    exact g.within.trans w₂
  have hload : ∀ {x : Float} {w' : World} {a' : Activation}, At B V k₃ 0 w' a' → a'.frame.slots[place]? = some x →
      Keeps b.body.regs.size a a' → ∃ k a'', Steps M k a' a'' ∧ Ends B V b c v a x w' a'' := by
    intro x w' a' hat' hx hk
    rw [show k₃ = (b₄.join q place k₃ k₃).current from rfl, ← o₃.here] at hat'
    have h := step_load (M := M) (hat'.fetches hi) (by rw [hat'.regs]; exact hreg) hx
    exact ⟨1, _, .one h, .emit he o₃.grows.stands hreg o₃.grows.within.regs hat' hk⟩
  simp only [Tree.eval]
  refine .bind (iht h₁ hs w₁ ⟨hct, hpt⟩ hat) fun x w₁' a₁ e₁ => ?_
  obtain ⟨a₂, hsteps, hat₂, hk₂⟩ := fork_steps (M := M) y₁.grows.stands (by rw [h₂]; exact w₂) e₁.ends e₁.value
  simp only [h₂] at hat₂
  have hkeeps : Keeps b.body.regs.size a a₂ := Keeps.trans e₁.keeps hk₂ y₁.grows.within.regs
  refine Simulates.after hsteps ?_
  by_cases hx : Eval.holds x = true
  · simp only [if_pos hx] at hat₂ ⊢
    rw [show k₁ = b₂.current from Option.some.inj o₁.current, ← o₁.here] at hat₂
    refine (ihy h₃ o₁.grows.stands (within_join y₃.grows.stands w₃) ⟨hcy, hpy⟩ hat₂).finish fun z w' a₃ e₃ => ?_
    obtain ⟨a₄, hs₄, hat₄, hz, hk₄⟩ := join_spare (M := M) y₃.grows.stands w₃ hplace e₃.ends e₃.value
    have hk := (hkeeps.trans e₃.keeps o₁.grows.within.regs).trans (hk₄ _) (Nat.le_refl _)
    obtain ⟨k, a₅, hs₅, he₅⟩ := hload hat₄ hz hk
    exact ⟨2 + k, a₅, hs₄.trans hs₅, he₅⟩
  · simp only [if_neg hx] at hat₂ ⊢
    rw [show k₂ = (b₃.join p place k₃ k₂).current from rfl, ← o₂.here] at hat₂
    refine (ihe h₄ o₂.grows.stands (within_join y₄.grows.stands w₄) ⟨hce, hpe⟩ hat₂).finish fun z w' a₃ e₃ => ?_
    obtain ⟨a₄, hs₄, hat₄, hz, hk₄⟩ := join_spare (M := M) y₄.grows.stands w₄ hplace e₃.ends e₃.value
    have hk := (hkeeps.trans e₃.keeps o₂.grows.within.regs).trans (hk₄ _) (Nat.le_refl _)
    obtain ⟨k, a₅, hs₅, he₅⟩ := hload hat₄ hz hk
    exact ⟨2 + k, a₅, hs₄.trans hs₅, he₅⟩

theorem follows_loop (s : Nat) (name : String) {start stop body step : Tree} (iha : Follows M n B V start)
    (ihb : Follows M n B V stop) (ihc : Follows M n B V body) (ihd : Follows M n B V step) :
    Follows M n B V (.loop s name start stop body step) := by
  intro b c v a w he hs hB hfit hat
  obtain ⟨u, b₁, h₁⟩ : ∃ u b₁, start.emit (b.alloca name).2 = (u, b₁) := ⟨_, _, rfl⟩
  obtain ⟨k₁, k₂, k₃, b₂, h₂⟩ : ∃ k₁ k₂ k₃ b₂, b₁.enterLoop u s = ((k₁, k₂, k₃), b₂) := ⟨_, _, _, _, rfl⟩
  obtain ⟨p, b₃, h₃⟩ : ∃ p b₃, stop.emit b₂ = (p, b₃) := ⟨_, _, rfl⟩
  obtain ⟨q, b₄, h₄⟩ : ∃ q b₄, body.emit (b₃.testLoop p k₂ k₃) = (q, b₄) := ⟨_, _, rfl⟩
  obtain ⟨r, b₅, h₅⟩ : ∃ r b₅, step.emit b₄ = (r, b₅) := ⟨_, _, rfl⟩
  simp only [Tree.emit, h₁, h₂, h₃, h₄, h₅, Prod.mk.injEq] at he
  obtain ⟨rfl, rfl⟩ := he
  simp only [Tree.Fits, Tree.cells, Tree.places, List.mem_append, List.mem_singleton, or_imp, forall_and,
    forall_eq] at hfit
  obtain ⟨⟨⟨⟨⟨hV, hca⟩, hcb⟩, hcc⟩, hcd⟩, ⟨⟨hpa, hpb⟩, hpc⟩, hpd⟩ := hfit
  -- the stages of the code
  have y₁ : Tree.Yields (b.alloca name).2 (u, b₁) := yields_of_emit h₁ hs
  have o₁ := Builder.enterLoop_opens (((Builder.Grows.refl hs).alloca name).trans y₁.grows) u s
  simp only [h₂] at o₁
  have y₃ := yields_of_emit h₃ o₁.grows.stands
  have o₂ := o₁.testLoop y₃.grows p k₃
  have y₄ := yields_of_emit h₄ o₂.grows.stands
  have y₅ := yields_of_emit h₅ y₄.grows.stands
  have o₃ := o₂.join (y₄.grows.trans y₅.grows) r s k₁
  -- and the parts of the body
  have w₅ : b₅.body.Within B := within_join y₅.grows.stands hB
  have w₄ : b₄.body.Within B := y₅.grows.within.trans w₅
  have w₃ : (b₃.testLoop p k₂ k₃).body.Within B := y₄.grows.within.trans w₄
  have w₃' : b₃.body.Within B := (((Builder.Grows.refl y₃.grows.stands).emit .bool _).push _).within.trans w₃
  have w₂ : b₂.body.Within B := y₃.grows.within.trans w₃'
  have w₁ : b₁.body.Within B := by
    have g := (Builder.enterLoop_opens (.refl y₁.grows.stands) u s).grows
    rw [h₂] at g
    exact g.within.trans w₂
  have hslot := hat.slot_lt hV
  -- by induction on the turns left: from the test to the block after the loop
  have hturns : ∀ m ≤ n, ∀ (a' : Activation) (w' : World), At B V k₁ 0 w' a' → Keeps b.body.regs.size a a' →
      Simulates M m a' (fun (_ : Unit) w'' a'' => At B V k₃ 0 w'' a'' ∧ Keeps b.body.regs.size a a'')
        (Eval.repeatWithin (stop.eval M n) (do
          let _ ← body.eval M n
          let y ← step.eval M n
          modify (World.store s y)) m w') := by
    intro m
    induction m with
    | zero => exact fun _ a' w' _ _ => ⟨0, a', .refl a', Nat.le_refl 0⟩
    | succ m ih =>
      intro hm a' w' hat' hk'
      rw [show k₁ = b₂.current from Option.some.inj o₁.current, ← o₁.here] at hat'
      simp only [Eval.repeatWithin]
      refine .bind ((ihb h₃ o₁.grows.stands w₃' ⟨hcb, hpb⟩ hat').mono hm) fun x w₁' a₁ e₁ => ?_
      obtain ⟨a₂, hsteps, hat₂, hk₂⟩ := testLoop_steps (M := M) y₃.grows.stands w₃ e₁.ends e₁.value
      have hk₂ : Keeps b.body.regs.size a a₂ :=
        (hk'.trans e₁.keeps o₁.grows.within.regs).trans hk₂ (o₁.grows.trans y₃.grows).within.regs
      by_cases hx : Eval.holds x = true
      · simp only [if_pos hx] at hat₂ ⊢
        rw [show k₂ = (b₃.testLoop p k₂ k₃).current from rfl, ← o₂.here] at hat₂
        -- the turn has taken steps, so that one turn less is left for the rest
        refine (Simulates.steps hsteps ?_).mono (by omega : m + 1 ≤ 2 + m)
        refine .bind (Q := fun (_ : Unit) w'' a'' => At B V k₁ 0 w'' a'' ∧ Keeps b.body.regs.size a a'') ?_
          fun _ w'' a'' h => ih (by omega) a'' w'' h.1 h.2
        refine .bind ((ihc h₄ o₂.grows.stands w₄ ⟨hcc, hpc⟩ hat₂).mono (by omega)) fun z w₃ a₃ e₃ => ?_
        refine .bind ((ihd h₅ y₄.grows.stands w₅ ⟨hcd, hpd⟩ e₃.ends).mono (by omega)) fun y w₄ a₄ e₄ => ?_
        have hk₄ := (hk₂.trans e₃.keeps o₂.grows.within.regs).trans e₄.keeps (o₂.grows.trans y₄.grows).within.regs
        exact ⟨2, _, join_steps y₅.grows.stands hB hslot e₄.ends e₄.value, (e₄.ends.put s y hslot).goto k₁,
          (hk₄.put s y).goto k₁⟩
      · simp only [if_neg hx] at hat₂ ⊢
        exact ⟨2, a₂, hsteps, hat₂, hk₂⟩
  simp only [Tree.eval]
  refine .bind (iha h₁ hs w₁ ⟨hca, hpa⟩ hat) fun x w₁' a₁ e₁ => ?_
  have hsteps := enterLoop_steps (M := M) y₁.grows.stands (by rw [h₂]; exact w₂) hslot e₁.ends e₁.value
  rw [h₂] at hsteps
  refine Simulates.after hsteps ?_
  rw [modify_bind_run]
  refine .bind (hturns n (Nat.le_refl n) _ _ ((e₁.ends.put s x hslot).goto k₁) ((e₁.keeps.put s x).goto k₁))
    fun _ w₂' a₂ h => ?_
  refine .pure ⟨?_, rfl, h.2⟩
  rw [o₃.here]
  exact h.1

theorem follows (t : Tree) : Follows M n B V t := by
  induction t using Tree.induction with
  | const x => exact follows_const x
  | read s => exact follows_read s
  | assign s t ih => exact follows_assign s ih
  | declare s name t ih => exact follows_declare s name ih
  | arith op l r ihl ihr => exact follows_arith op ihl ihr
  | less l r ihl ihr => exact follows_less ihl ihr
  | call callee ts ih => exact follows_call callee ih
  | cond place t y e iht ihy ihe => exact follows_cond place iht ihy ihe
  | loop s name start stop body step iha ihb ihc ihd => exact follows_loop s name iha ihb ihc ihd
  | seq ts ih => exact follows_seq ih

end

end Kaleidoscope
