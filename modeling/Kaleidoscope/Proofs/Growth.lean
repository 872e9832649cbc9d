/-
  Kaleidoscope.Proofs.Growth — what emitting code leaves alone.

  Code is only ever added. `Grows b c` says what holds between a builder and what it
  becomes while one expression is emitted: slots, registers, blocks and instructions are
  kept; of the blocks there were, only the current one got longer; and the builder stands
  in that block or in a new one. A register that holds a value is never written again,
  because every instruction gets a new one.

  `emit_grows`: emitting a tree is such a step, and its value is a constant or a register
  there is by then.
-/

import Kaleidoscope.Proofs.Emission

namespace Kaleidoscope

namespace Ir

/-- The instruction at place `i` of block `k`. -/
def Body.inst? (b : Body) (k i : Nat) : Option Inst := (b.blocks[k]?).bind fun block => block.insts[i]?

/-- `b` is part of `c`. -/
structure Body.Within (b c : Body) : Prop where
  slots : b.slots.size ≤ c.slots.size
  regs : b.regs.size ≤ c.regs.size
  code : ∀ k i inst, b.inst? k i = some inst → c.inst? k i = some inst

theorem Body.Within.refl (b : Body) : b.Within b := ⟨Nat.le_refl _, Nat.le_refl _, fun _ _ _ h => h⟩

theorem Body.Within.trans {a b c : Body} (h : a.Within b) (h' : b.Within c) : a.Within c :=
  ⟨Nat.le_trans h.slots h'.slots, Nat.le_trans h.regs h'.regs, fun k i inst hi => h'.code k i inst (h.code k i inst hi)⟩

/-- A constant, or one of the first `n` registers. -/
def Value.Below (n : Nat) : Value → Prop
  | const _ => True
  | param _ => False
  | reg r => r < n

theorem Value.Below.mono {n m : Nat} {v : Value} (h : v.Below n) (hnm : n ≤ m) : v.Below m := by
  cases v with
  | const x => trivial
  | param i => exact h
  | reg r => exact Nat.lt_of_lt_of_le h hnm

namespace Builder

/-- The builder stands in a block. -/
def Stands (b : Builder) : Prop := b.current < b.body.blocks.size

/-- How many instructions the current block has. -/
def here (b : Builder) : Nat := ((b.body.blocks[b.current]?).map fun block => block.insts.size).getD 0

/-- Block `k` has no instruction yet. -/
def Vacant (b : Builder) (k : Nat) : Prop := ∃ label, b.body.blocks[k]? = some { label }

structure Grows (b c : Builder) : Prop where
  within : b.body.Within c.body
  blocks : b.body.blocks.size ≤ c.body.blocks.size
  others : ∀ k < b.body.blocks.size, k ≠ b.current → c.body.blocks[k]? = b.body.blocks[k]?
  current : c.current = b.current ∨ b.body.blocks.size ≤ c.current
  stands : c.Stands

theorem Grows.refl {b : Builder} (h : b.Stands) : Grows b b :=
  ⟨.refl _, Nat.le_refl _, fun _ _ _ => rfl, .inl rfl, h⟩

theorem Grows.ne_current {b c : Builder} (h : Grows b c) {k : Nat} (hk : k < b.body.blocks.size) (hne : k ≠ b.current) :
    k ≠ c.current := by
  rcases h.current with h | h
  · rw [h]; exact hne
  · omega

theorem Grows.trans {a b c : Builder} (h : Grows a b) (h' : Grows b c) : Grows a c := by
  refine ⟨h.within.trans h'.within, Nat.le_trans h.blocks h'.blocks, fun k hk hne => ?_, ?_, h'.stands⟩
  · rw [h'.others k (Nat.lt_of_lt_of_le hk h.blocks) (h.ne_current hk hne), h.others k hk hne]
  · have := h.blocks
    rcases h'.current with e | e
    · rw [e]; exact h.current
    · exact .inr (by omega)

theorem Grows.vacant {b c : Builder} (h : Grows b c) {k : Nat} (hv : b.Vacant k) (hne : k ≠ b.current) :
    c.Vacant k := by
  obtain ⟨label, hl⟩ := hv
  obtain ⟨hk, -⟩ := Array.getElem?_eq_some_iff.mp hl
  exact ⟨label, by rw [h.others k hk hne, hl]⟩

/-! ## The builder's moves -/

@[simp] theorem push_current (i : Inst) (b : Builder) : (b.push i).current = b.current := rfl
@[simp] theorem push_slots (i : Inst) (b : Builder) : (b.push i).body.slots = b.body.slots := rfl
@[simp] theorem push_regs (i : Inst) (b : Builder) : (b.push i).body.regs = b.body.regs := rfl
@[simp] theorem push_size (i : Inst) (b : Builder) : (b.push i).body.blocks.size = b.body.blocks.size :=
  Array.size_modify

theorem push_blocks (i : Inst) (b : Builder) (k : Nat) :
    (b.push i).body.blocks[k]? =
      if b.current = k then (b.body.blocks[k]?).map fun block => { block with insts := block.insts.push i }
      else b.body.blocks[k]? := by
  show (b.body.blocks.modify _ _)[k]? = _
  rw [Array.getElem?_modify]

theorem push_grows (i : Inst) {b : Builder} (h : b.Stands) : Grows b (b.push i) := by
  refine ⟨⟨Nat.le_refl _, Nat.le_refl _, fun k j inst hi => ?_⟩, Nat.le_of_eq (push_size i b).symm,
    fun k _ hne => by rw [push_blocks, if_neg (Ne.symm hne)], .inl rfl, by simpa [Stands] using h⟩
  simp only [Body.inst?, push_blocks] at hi ⊢
  split
  · cases hb : b.body.blocks[k]? with
    | none => simp [hb] at hi
    | some block =>
      simp only [hb, Option.bind_some, Option.map_some] at hi ⊢
      obtain ⟨hj, -⟩ := Array.getElem?_eq_some_iff.mp hi
      rw [Array.getElem?_push_lt hj, ← hi, Array.getElem?_eq_getElem hj]
  · exact hi

theorem push_inst {i : Inst} {b : Builder} (h : b.Stands) : (b.push i).body.inst? b.current b.here = some i := by
  have hb : b.body.blocks[b.current]? = some b.body.blocks[b.current] := Array.getElem?_eq_getElem h
  simp [Body.inst?, push_blocks, here, hb]

theorem push_here {i : Inst} {b : Builder} (h : b.Stands) : (b.push i).here = b.here + 1 := by
  have hb : b.body.blocks[b.current]? = some b.body.blocks[b.current] := Array.getElem?_eq_getElem h
  simp [here, push_blocks, hb]

variable {b c : Builder}

theorem Grows.push (h : Grows b c) (i : Inst) : Grows b (c.push i) := h.trans (push_grows i h.stands)

theorem Grows.alloca (h : Grows b c) (name : String) : Grows b (c.alloca name).2 :=
  h.trans ⟨⟨by simp [Builder.alloca], Nat.le_refl _, fun _ _ _ hi => hi⟩, Nat.le_refl _, fun _ _ _ => rfl, .inl rfl,
    h.stands⟩

theorem Grows.register (h : Grows b c) (ty : Ty) : Grows b { c with body.regs := c.body.regs.push ty } :=
  h.trans ⟨⟨Nat.le_refl _, by simp, fun _ _ _ hi => hi⟩, Nat.le_refl _, fun _ _ _ => rfl, .inl rfl, h.stands⟩

theorem Grows.emit (h : Grows b c) (ty : Ty) (inst : Nat → Inst) : Grows b (c.emit ty inst).2 :=
  (h.register ty).push _

theorem Grows.appendBlock (h : Grows b c) (label : String) : Grows b (c.appendBlock label).2 := by
  have hold : ∀ k < c.body.blocks.size, (c.body.blocks.push { label })[k]? = c.body.blocks[k]? := fun k hk => by
    rw [Array.getElem?_push_lt hk, Array.getElem?_eq_getElem hk]
  refine h.trans ⟨⟨Nat.le_refl _, Nat.le_refl _, fun k i inst hi => ?_⟩, by simp [Builder.appendBlock],
    fun k hk _ => hold k hk, .inl rfl, ?_⟩
  · have hk : k < c.body.blocks.size := by
      rcases Nat.lt_or_ge k c.body.blocks.size with hk | hk
      · exact hk
      · simp [Body.inst?, Array.getElem?_eq_none hk] at hi
    simp only [Body.inst?, Builder.appendBlock, hold k hk]
    exact hi
  · have := h.stands
    simp only [Stands, Builder.appendBlock, Array.size_push] at this ⊢
    omega

theorem Grows.position (h : Grows b c) {k : Nat} (hk : b.body.blocks.size ≤ k) (hlt : k < c.body.blocks.size) :
    Grows b (c.position k) :=
  ⟨h.within, h.blocks, h.others, .inr hk, hlt⟩

theorem Grows.appendThree (h : Grows b c) (x y z : String) : Grows b (c.appendThree x y z).2 :=
  ((h.appendBlock x).appendBlock y).appendBlock z

theorem Vacant.push {k : Nat} (h : b.Vacant k) (hne : k ≠ b.current) (i : Inst) : (b.push i).Vacant k := by
  obtain ⟨label, hl⟩ := h
  exact ⟨label, by rw [push_blocks, if_neg (Ne.symm hne), hl]⟩

theorem Vacant.appendBlock {k : Nat} (h : b.Vacant k) (label : String) : (b.appendBlock label).2.Vacant k := by
  obtain ⟨name, hl⟩ := h
  obtain ⟨hk, -⟩ := Array.getElem?_eq_some_iff.mp hl
  refine ⟨name, ?_⟩
  show (b.body.blocks.push { label })[k]? = _
  rw [Array.getElem?_push_lt hk, ← hl, Array.getElem?_eq_getElem hk]

theorem appendBlock_vacant (label : String) (b : Builder) : (b.appendBlock label).2.Vacant b.body.blocks.size :=
  ⟨label, Array.getElem?_push_size⟩

theorem here_appendBlock (h : b.Stands) (label : String) : (b.appendBlock label).2.here = b.here := by
  show (((b.body.blocks.push { label })[b.current]?).map _).getD 0 = _
  rw [Array.getElem?_push_lt h, here, Array.getElem?_eq_getElem h]

theorem here_appendThree (h : b.Stands) (x y z : String) : (b.appendThree x y z).2.here = b.here := by
  have g₁ := (Grows.refl h).appendBlock x
  have g₂ := g₁.appendBlock y
  show (Builder.appendBlock z (Builder.appendBlock y (Builder.appendBlock x b).2).2).2.here = _
  rw [here_appendBlock g₂.stands, here_appendBlock g₁.stands, here_appendBlock h]

/-! ## Instructions with a result -/

variable {ty : Ty} {inst : Nat → Inst}

@[simp] theorem emit_fst : (b.emit ty inst).1 = .reg b.body.regs.size := rfl

@[simp] theorem emit_regs : (b.emit ty inst).2.body.regs.size = b.body.regs.size + 1 := Array.size_push _

@[simp] theorem emit_current : (b.emit ty inst).2.current = b.current := rfl

theorem emit_inst (h : b.Stands) : (b.emit ty inst).2.body.inst? b.current b.here = some (inst b.body.regs.size) :=
  push_inst (b := { b with body.regs := b.body.regs.push ty }) h

theorem emit_here (h : b.Stands) : (b.emit ty inst).2.here = b.here + 1 :=
  push_here (b := { b with body.regs := b.body.regs.push ty }) h

/-! ## Branches and loops -/

/-- Between `b` and `c`, the blocks `ks` were added, and the builder went to the first of
    them; all of them are empty. -/
structure Opens (b : Builder) (ks : List Nat) (c : Builder) : Prop where
  grows : Grows b c
  current : ks.head? = some c.current
  new : ∀ k ∈ ks, b.body.blocks.size ≤ k
  vacant : ∀ k ∈ ks, c.Vacant k
  distinct : ks.Nodup

theorem Opens.here {k : Nat} {ks : List Nat} (o : Opens b (k :: ks) c) : c.here = 0 := by
  have hk : k = c.current := Option.some.inj o.current
  obtain ⟨label, hl⟩ := o.vacant k List.mem_cons_self
  rw [hk] at hl
  simp [Builder.here, hl]

/-- Once the first block is done, the builder can go to the next. -/
theorem Opens.next {k l : Nat} {ks : List Nat} (o : Opens b (k :: l :: ks) c) {d : Builder} (g : Grows c d) :
    Opens b (l :: ks) (d.position l) := by
  have hk : k = c.current := Option.some.inj o.current
  have hvac : ∀ m ∈ l :: ks, d.Vacant m := fun m hm => by
    refine g.vacant (o.vacant m (List.mem_cons_of_mem _ hm)) fun he => ?_
    rw [he, ← hk] at hm
    exact (List.nodup_cons.mp o.distinct).1 hm
  have hlt : l < d.body.blocks.size := by
    obtain ⟨label, hl⟩ := hvac l List.mem_cons_self
    exact (Array.getElem?_eq_some_iff.mp hl).1
  exact ⟨(o.grows.trans g).position (o.new l (by simp)) hlt, rfl, fun m hm => o.new m (List.mem_cons_of_mem _ hm),
    hvac, (List.nodup_cons.mp o.distinct).2⟩

/-- Three blocks are added, and an instruction ends the current one. -/
theorem appendThree_opens (h : Grows b c) (x y z : String) (i : Inst) :
    Opens b [(c.appendThree x y z).1.1, (c.appendThree x y z).1.2.1, (c.appendThree x y z).1.2.2]
      (((c.appendThree x y z).2.push i).position (c.appendThree x y z).1.1) := by
  have hs := h.stands
  have hn := h.blocks
  simp only [Stands] at hs
  have hfst : (c.appendThree x y z).1 = (c.body.blocks.size, c.body.blocks.size + 1, c.body.blocks.size + 2) := by
    simp [appendThree, Builder.appendBlock]
  have hcur : (c.appendThree x y z).2.current = c.current := rfl
  have hgrows := h.appendThree x y z
  have hsize : (c.appendThree x y z).2.body.blocks.size = c.body.blocks.size + 3 := by
    simp [appendThree, Builder.appendBlock]
  have h₁ : (c.appendThree x y z).2.Vacant (c.appendThree x y z).1.1 :=
    ((appendBlock_vacant x c).appendBlock y).appendBlock z
  have h₂ : (c.appendThree x y z).2.Vacant (c.appendThree x y z).1.2.1 := (appendBlock_vacant y _).appendBlock z
  have h₃ : (c.appendThree x y z).2.Vacant (c.appendThree x y z).1.2.2 := appendBlock_vacant z _
  rw [hfst] at h₁ h₂ h₃ ⊢
  refine ⟨(hgrows.push i).position hn ?_, rfl, ?_, ?_, ?_⟩
  · rw [push_size, hsize]
    omega
  · intro k hk
    simp only [List.mem_cons, List.not_mem_nil, or_false] at hk
    omega
  · have hv : ∀ k, (c.appendThree x y z).2.Vacant k → c.body.blocks.size ≤ k →
        (((c.appendThree x y z).2.push i).position c.body.blocks.size).Vacant k :=
      fun k hk hle => Vacant.push hk (by rw [hcur]; omega) i
    simp only [List.mem_cons, List.not_mem_nil, or_false]
    rintro k (rfl | rfl | rfl)
    · exact hv _ h₁ (by omega)
    · exact hv _ h₂ (by omega)
    · exact hv _ h₃ (by omega)
  · simp

theorem fork_opens (h : Grows b c) (v : Value) :
    Opens b [(c.fork v).1.1, (c.fork v).1.2.1, (c.fork v).1.2.2] (c.fork v).2 :=
  appendThree_opens (h.emit .bool _) "if.then" "if.else" "if.end" _

theorem enterLoop_opens (h : Grows b c) (v : Value) (s : Nat) :
    Opens b [(c.enterLoop v s).1.1, (c.enterLoop v s).1.2.1, (c.enterLoop v s).1.2.2] (c.enterLoop v s).2 :=
  appendThree_opens (h.push _) "for.test" "for.body" "for.end" _

theorem Opens.join {k l : Nat} {ks : List Nat} (o : Opens b (k :: l :: ks) c) {d : Builder} (g : Grows c d) (v : Value)
    (s target : Nat) : Opens b (l :: ks) (d.join v s target l) :=
  o.next ((g.push _).push _)

theorem Opens.testLoop {k l : Nat} {ks : List Nat} (o : Opens b (k :: l :: ks) c) {d : Builder} (g : Grows c d)
    (v : Value) (no : Nat) : Opens b (l :: ks) (d.testLoop v l no) :=
  o.next ((g.emit .bool _).push _)

end Builder

end Ir

/-! ## Emitting a tree -/

open Ir (Builder Value)

namespace Tree

/-- What emitting a value does to a builder. -/
structure Yields (b : Builder) (r : Value × Builder) : Prop where
  grows : b.Grows r.2
  below : r.1.Below r.2.body.regs.size

theorem Yields.emit {b c : Builder} (g : b.Grows c) (ty : Ir.Ty) (inst : Nat → Ir.Inst) : Yields b (c.emit ty inst) :=
  ⟨g.emit ty inst, by simp [Value.Below]⟩

theorem emitMembers_yields {ts : List Tree} (ih : ∀ t ∈ ts, ∀ b : Builder, b.Stands → Yields b (t.emit b))
    {last : Value} {b c : Builder} (y : Yields b (last, c)) : Yields b (emitMembers ts last c) := by
  induction ts generalizing last c with
  | nil => simpa only [emitMembers] using y
  | cons t ts ihs =>
    have yt := ih t List.mem_cons_self c y.grows.stands
    simp only [emitMembers]
    exact ihs (fun t ht => ih t (List.mem_cons_of_mem _ ht)) ⟨y.grows.trans yt.grows, yt.below⟩

theorem emitArguments_yields {ts : List Tree} (ih : ∀ t ∈ ts, ∀ b : Builder, b.Stands → Yields b (t.emit b))
    {b : Builder} (h : b.Stands) :
    b.Grows (emitArguments ts b).2 ∧ ∀ v ∈ (emitArguments ts b).1, v.Below (emitArguments ts b).2.body.regs.size := by
  induction ts generalizing b with
  | nil => simp [emitArguments, Builder.Grows.refl h]
  | cons t ts ihs =>
    have yt := ih t List.mem_cons_self b h
    obtain ⟨g, hv⟩ := ihs (fun t ht => ih t (List.mem_cons_of_mem _ ht)) yt.grows.stands
    simp only [emitArguments]
    refine ⟨yt.grows.trans g, fun v hmem => ?_⟩
    rcases List.mem_cons.mp hmem with rfl | hmem
    · exact yt.below.mono g.within.regs
    · exact hv v hmem

theorem emit_yields (t : Tree) : ∀ b : Builder, b.Stands → Yields b (t.emit b) := by
  induction t using Tree.induction with
  | const x =>
    intro b h
    simp only [emit]
    exact ⟨.refl h, trivial⟩
  | read c =>
    intro b h
    simp only [emit]
    exact .emit (.refl h) _ _
  | assign c t ih =>
    intro b h
    simp only [emit]
    exact ⟨(ih b h).grows.push _, (ih b h).below⟩
  | declare c name t ih =>
    intro b h
    simp only [emit]
    exact ⟨((ih b h).grows.alloca name).push _, (ih b h).below⟩
  | arith op l r ihl ihr =>
    intro b h
    have gl := (ihl b h).grows
    simp only [emit]
    exact .emit (gl.trans (ihr _ gl.stands).grows) _ _
  | less l r ihl ihr =>
    intro b h
    have gl := (ihl b h).grows
    simp only [emit]
    exact .emit ((gl.trans (ihr _ gl.stands).grows).emit _ _) _ _
  | call callee ts ih =>
    intro b h
    simp only [emit]
    exact .emit (emitArguments_yields ih h).1 _ _
  | cond place t y n iht ihy ihn =>
    intro b h
    have gt := ((Builder.Grows.refl h).alloca "if.result").trans (iht (b.alloca "if.result").2 h).grows
    simp only [emit]
    generalize t.emit (b.alloca "if.result").2 = v at gt ⊢
    have o₁ := Builder.fork_opens gt v.1
    generalize v.2.fork v.1 = k at o₁ ⊢
    have o₂ := o₁.join (ihy k.2 o₁.grows.stands).grows (y.emit k.2).1 place k.1.2.2
    generalize (y.emit k.2).2.join (y.emit k.2).1 place k.1.2.2 k.1.2.1 = d at o₂ ⊢
    have o₃ := o₂.join (ihn d o₂.grows.stands).grows (n.emit d).1 place k.1.2.2
    exact .emit o₃.grows _ _
  | loop c name start stop body step iha ihb ihc ihd =>
    intro b h
    have ga := ((Builder.Grows.refl h).alloca name).trans (iha (b.alloca name).2 h).grows
    simp only [emit]
    generalize start.emit (b.alloca name).2 = v at ga ⊢
    have o₁ := Builder.enterLoop_opens ga v.1 c
    generalize v.2.enterLoop v.1 c = k at o₁ ⊢
    have o₂ := o₁.testLoop (ihb k.2 o₁.grows.stands).grows (stop.emit k.2).1 k.1.2.2
    have gc := (ihc _ o₂.grows.stands).grows
    have gd := gc.trans (ihd _ gc.stands).grows
    exact ⟨(o₂.join gd _ c k.1.1).grows, trivial⟩
  | seq ts ih =>
    intro b h
    simp only [emit]
    exact emitMembers_yields ih ⟨.refl h, trivial⟩

end Tree

end Kaleidoscope
