/-
  Kaleidoscope.Proofs.Safety — checked and linked code does not go wrong.

  What the check of a body leaves open, where instructions put their results, is settled by
  how bodies are built: an instruction with a result gets a new register (`Made.dest_lt`).
  Together they make a body in which every instruction finds what it names, and in which
  every instruction that does not leave its block is followed by another (`Body.Safe`).

  A frame is sound if it runs such a body of a loaded unit with everything in range, and a
  machine is if all its frames are (`Machine.Sound`). A call finds a function with a body
  and as many parameters as there are arguments, because the unit was linked: the check
  compares the call with the unit's declaration, linking compares the declaration with the
  function. So a sound machine takes a step to a sound machine, returns, or is refused a
  call for its depth (`step_sound`).

  `execute_safe`: that is all that can happen in a run.
-/

import Kaleidoscope.Engine.Machine
import Kaleidoscope.Proofs.Growth
import Kaleidoscope.Proofs.Symbols

namespace Kaleidoscope

namespace Ir

/-! ## Built bodies -/

/-- The register an instruction writes. -/
def Inst.dest? : Inst → Option Nat
  | load r _ => some r
  | arith r _ _ _ => some r
  | compare r _ _ _ => some r
  | toDouble r _ => some r
  | call r _ _ => some r
  | _ => none

namespace Builder

/-- The builders reached from a new one. -/
inductive Made : Builder → Prop
  | new : Made {}
  | appendBlock {b : Builder} (label : String) : Made b → Made (b.appendBlock label).2
  | position {b : Builder} (block : Nat) : Made b → Made (b.position block)
  | alloca {b : Builder} (name : String) : Made b → Made (b.alloca name).2
  | load {b : Builder} (slot : Nat) : Made b → Made (b.load slot).2
  | store {b : Builder} (v : Value) (slot : Nat) : Made b → Made (b.store v slot)
  | arith {b : Builder} (op : Arith) (lhs rhs : Value) : Made b → Made (b.arith op lhs rhs).2
  | compare {b : Builder} (cmp : Comparison) (lhs rhs : Value) : Made b → Made (b.compare cmp lhs rhs).2
  | toDouble {b : Builder} (v : Value) : Made b → Made (b.toDouble v).2
  | call {b : Builder} (callee : String) (args : List Value) : Made b → Made (b.call callee args).2
  | branch {b : Builder} (target : Nat) : Made b → Made (b.branch target)
  | condBranch {b : Builder} (test : Value) (yes no : Nat) : Made b → Made (b.condBranch test yes no)
  | ret {b : Builder} (v : Value) : Made b → Made (b.ret v)

/-- Every instruction writes a register there is. -/
def DestsExist (b : Builder) : Prop :=
  ∀ k i inst, b.body.inst? k i = some inst → ∀ r ∈ inst.dest?, r < b.body.regs.size

theorem inst?_push {b : Builder} {i inst : Inst} {k j : Nat} (h : (b.push i).body.inst? k j = some inst) :
    b.body.inst? k j = some inst ∨ inst = i := by
  simp only [Body.inst?, push_blocks] at h ⊢
  split at h
  · cases hb : b.body.blocks[k]? with
    | none => simp [hb] at h
    | some block =>
      simp only [hb, Option.map_some, Option.bind_some, Array.getElem?_push] at h ⊢
      split at h
      · exact .inr (Option.some.inj h).symm
      · exact .inl h
  · exact .inl h

theorem DestsExist.push {b : Builder} (h : b.DestsExist) {i : Inst} (hi : ∀ r ∈ i.dest?, r < b.body.regs.size) :
    (b.push i).DestsExist := by
  intro k j inst hinst r hr
  rcases inst?_push hinst with h' | rfl
  · exact h k j inst h' r hr
  · exact hi r hr

theorem DestsExist.emit {b : Builder} (h : b.DestsExist) {ty : Ty} {inst : Nat → Inst}
    (hi : ∀ n, (inst n).dest? = some n) : (b.emit ty inst).2.DestsExist := by
  have h' : ({ b with body.regs := b.body.regs.push ty } : Builder).DestsExist := by
    intro k j i hij r hr
    have := h k j i hij r hr
    simp only [Array.size_push]
    omega
  refine h'.push fun r hr => ?_
  rw [hi] at hr
  cases hr
  simp

theorem inst?_appendBlock {b : Builder} {label : String} {inst : Inst} {k j : Nat}
    (h : (b.appendBlock label).2.body.inst? k j = some inst) : b.body.inst? k j = some inst := by
  simp only [Body.inst?, appendBlock, Array.getElem?_push] at h ⊢
  split at h
  · simp at h
  · exact h

theorem Made.dest_lt {b : Builder} (h : Made b) : b.DestsExist := by
  induction h with
  | new => intro k i inst h; simp [Body.inst?] at h
  | appendBlock label _ ih => exact fun k i inst h => ih k i inst (inst?_appendBlock h)
  | position block _ ih => exact ih
  | alloca name _ ih => exact ih
  | load slot _ ih => exact ih.emit fun _ => rfl
  | store v slot _ ih => exact ih.push (by simp [Inst.dest?])
  | arith op lhs rhs _ ih => exact ih.emit fun _ => rfl
  | compare cmp lhs rhs _ ih => exact ih.emit fun _ => rfl
  | toDouble v _ ih => exact ih.emit fun _ => rfl
  | call callee args _ ih => exact ih.emit fun _ => rfl
  | branch target _ ih => exact ih.push (by simp [Inst.dest?])
  | condBranch test yes no _ ih => exact ih.push (by simp [Inst.dest?])
  | ret v _ ih => exact ih.push (by simp [Inst.dest?])

end Builder

/-! ## What the check establishes -/

/-- Every function of the unit that has a body was built and passes the check. -/
def CompilationUnit.Checked (u : CompilationUnit) : Prop :=
  ∀ f ∈ u.functions, ∀ body, f.body = some body → (∃ b : Builder, b.Made ∧ b.body = body) ∧ u.check f = .ok ()

/-- The instruction finds what it names. -/
structure Inst.Safe (u : CompilationUnit) (arity : Nat) (body : Body) (i : Inst) : Prop where
  check : i.check u arity body = .ok ()
  dest : ∀ r ∈ i.dest?, r < body.regs.size

structure Body.Safe (u : CompilationUnit) (arity : Nat) (body : Body) : Prop where
  entry : 0 < body.blocks.size
  starts : ∀ k < body.blocks.size, ∃ i, body.inst? k 0 = some i
  goesOn : ∀ k n i, body.inst? k n = some i → i.isTerminator = false → ∃ j, body.inst? k (n + 1) = some j
  insts : ∀ k n i, body.inst? k n = some i → i.Safe u arity body

theorem except_bind_ok {ε α β : Type} {x : Except ε α} {f : α → Except ε β} {b : β} (h : x >>= f = .ok b) :
    ∃ a, x = .ok a ∧ f a = .ok b := by
  cases x with
  | error e => cases h
  | ok a => exact ⟨a, rfl, h⟩

theorem forM_ok {ε α : Type} {f : α → Except ε Unit} {l : List α} (h : l.forM f = .ok ()) : ∀ x ∈ l, f x = .ok () := by
  induction l with
  | nil => intro x hx; cases hx
  | cons y l ih =>
    obtain ⟨⟨⟩, hy, hl⟩ := except_bind_ok h
    intro x hx
    rcases List.mem_cons.mp hx with rfl | hx
    · exact hy
    · exact ih hl x hx

theorem Body.inst?_eq_some {body : Body} {k n : Nat} {i : Inst} (h : body.inst? k n = some i) :
    ∃ b, body.blocks[k]? = some b ∧ b.insts[n]? = some i := Option.bind_eq_some_iff.mp h

theorem Body.inst?_of_block {body : Body} {k n : Nat} {b : Block} (hb : body.blocks[k]? = some b)
    (hn : n < b.insts.size) : ∃ i, body.inst? k n = some i :=
  ⟨b.insts[n], by simp [Body.inst?, hb, hn]⟩

theorem Block.check_ok {u : CompilationUnit} {arity : Nat} {body : Body} {b : Block} (h : b.check u arity body = .ok ()) :
    (∃ i, b.insts.toList.getLast? = some i ∧ i.isTerminator = true) ∧
    ∀ i ∈ b.insts.toList, i.check u arity body = .ok () := by
  unfold Block.check at h
  simp only at h
  split at h
  · cases h
  · rename_i hlast
    split at h
    · cases h
    · refine ⟨?_, forM_ok h⟩
      cases hl : b.insts.toList.getLast? with
      | none => simp [hl] at hlast
      | some i => exact ⟨i, rfl, by simpa [hl] using hlast⟩

/-- A built body that passes the check is safe. -/
theorem Body.check_safe {u : CompilationUnit} {arity : Nat} {b : Builder} (hmade : b.Made)
    (h : b.body.check u arity = .ok ()) : b.body.Safe u arity := by
  unfold Body.check at h
  split at h
  · cases h
  · rename_i hne
    have hblocks : ∀ (k : Nat) (block : Block), b.body.blocks[k]? = some block → block.check u arity b.body = .ok () := by
      intro k block hb
      exact forM_ok h block (Array.mem_toList_iff.mpr (Array.mem_of_getElem? hb))
    have hlast : ∀ (k : Nat) (block : Block), b.body.blocks[k]? = some block → 0 < block.insts.size ∧
        ∀ n i, block.insts[n]? = some i → i.isTerminator = false → n + 1 < block.insts.size := by
      intro k block hb
      obtain ⟨⟨i, hi, hterm⟩, -⟩ := Block.check_ok (hblocks k block hb)
      rw [List.getLast?_eq_getElem?, Array.getElem?_toList, Array.length_toList] at hi
      obtain ⟨hlt, -⟩ := Array.getElem?_eq_some_iff.mp hi
      refine ⟨by omega, fun n j hj hnot => ?_⟩
      obtain ⟨hn, -⟩ := Array.getElem?_eq_some_iff.mp hj
      have hne : n ≠ block.insts.size - 1 := fun he => by
        rw [← he, hj] at hi
        cases hi
        rw [hterm] at hnot
        cases hnot
      omega
    refine ⟨?_, fun k hk => ?_, fun k n i hi hnot => ?_, fun k n i hi => ⟨?_, hmade.dest_lt k n i hi⟩⟩
    · simpa [Array.isEmpty, Nat.pos_iff_ne_zero] using hne
    · have hb := Array.getElem?_eq_getElem hk
      exact Body.inst?_of_block hb (hlast k _ hb).1
    · obtain ⟨block, hb, hi⟩ := Body.inst?_eq_some hi
      exact Body.inst?_of_block hb ((hlast k block hb).2 n i hi hnot)
    · obtain ⟨block, hb, hi⟩ := Body.inst?_eq_some hi
      exact (Block.check_ok (hblocks k block hb)).2 i (Array.mem_toList_iff.mpr (Array.mem_of_getElem? hi))

theorem CompilationUnit.Checked.safe {u : CompilationUnit} (h : u.Checked) {f : Function} (hf : f ∈ u.functions)
    {body : Body} (hb : f.body = some body) : body.Safe u f.arity := by
  obtain ⟨⟨b, hmade, rfl⟩, hcheck⟩ := h f hf body hb
  simp only [CompilationUnit.check, hb] at hcheck
  exact Body.check_safe hmade hcheck

end Ir

/-! ## Frames -/

open Ir (Body CompilationUnit Inst Ty Value)

namespace Frame

/-- The arguments, slots and registers of a call, all in range. -/
structure Fits (arity : Nat) (code : Body) (f : Frame) : Prop where
  body : f.body = code
  args : f.args.size = arity
  slots : f.slots.size = code.slots.size
  regs : f.regs.size = code.regs.size

variable {u : CompilationUnit} {arity : Nat} {body : Body} {f : Frame}

theorem Fits.operand (h : f.Fits arity body) {v : Value} {ty : Ty} (hv : v.check arity body ty = .ok ()) :
    ∃ x, f.operand? v = some x := by
  obtain ⟨found, hfound, -⟩ := Ir.except_bind_ok hv
  cases v with
  | const x => exact ⟨x, rfl⟩
  | param i =>
    simp only [Value.type] at hfound
    split at hfound
    · rename_i hi
      rw [← h.args] at hi
      exact ⟨_, Array.getElem?_eq_getElem hi⟩
    · cases hfound
  | reg r =>
    simp only [Value.type] at hfound
    split at hfound
    · rename_i ty' hr
      obtain ⟨hr, -⟩ := Array.getElem?_eq_some_iff.mp hr
      rw [← h.regs] at hr
      exact ⟨_, Array.getElem?_eq_getElem hr⟩
    · cases hfound

theorem Fits.operands (h : f.Fits arity body) {vs : List Value} {ty : Ty}
    (hvs : ∀ v ∈ vs, v.check arity body ty = .ok ()) : ∃ xs, vs.mapM f.operand? = some xs ∧ xs.length = vs.length := by
  induction vs with
  | nil => exact ⟨[], rfl, rfl⟩
  | cons v vs ih =>
    obtain ⟨x, hx⟩ := h.operand (hvs v List.mem_cons_self)
    obtain ⟨xs, hxs, hlen⟩ := ih fun v hv => hvs v (List.mem_cons_of_mem _ hv)
    exact ⟨x :: xs, by simp [List.mapM_cons, hx, hxs], by simp [hlen]⟩

theorem Fits.write (h : f.Fits arity body) {r : Nat} (hr : r < body.regs.size) (x : Float) :
    ∃ g, f.write? r x = some g ∧ g.Fits arity body ∧ g.block = f.block ∧ g.pc = f.pc := by
  have hr : r < f.regs.size := by rw [h.regs]; exact hr
  unfold write?
  rw [dif_pos hr]
  exact ⟨_, rfl, ⟨h.body, h.args, h.slots, by simpa using h.regs⟩, rfl, rfl⟩

theorem Fits.store (h : f.Fits arity body) {s : Nat} (hs : s < body.slots.size) (x : Float) :
    ∃ g, f.store? s x = some g ∧ g.Fits arity body ∧ g.block = f.block ∧ g.pc = f.pc := by
  have hs : s < f.slots.size := by rw [h.slots]; exact hs
  unfold store?
  rw [dif_pos hs]
  exact ⟨_, rfl, ⟨h.body, h.args, by simpa using h.slots, h.regs⟩, rfl, rfl⟩

/-- What a frame may do: go on in its body, call a function of the unit with as many
    arguments as it takes, or return. -/
inductive Proceeds (u : CompilationUnit) (arity : Nat) (body : Body) : Action → Prop
  | next {g : Frame} {i : Inst} : g.Fits arity body → body.inst? g.block g.pc = some i → Proceeds u arity body (.next g)
  | call {g : Frame} {i : Inst} {dest k n : Nat} {callee : String} {vs : List Value} {xs : List Float} {d : Ir.Function} :
      g.Fits arity body → body.inst? g.block g.pc = some i → dest < body.regs.size →
      body.inst? k n = some (.call dest callee vs) → u.find? callee = some d → d.arity = xs.length →
      Proceeds u arity body (.call g dest callee xs)
  | ret (x : Float) : Proceeds u arity body (.ret x)

theorem checkSlot_ok {s : Nat} (h : body.checkSlot s = .ok ()) : s < body.slots.size := by
  unfold Body.checkSlot at h
  split at h
  · assumption
  · cases h

theorem checkBlock_ok {k : Nat} (h : body.checkBlock k = .ok ()) : k < body.blocks.size := by
  unfold Body.checkBlock at h
  split at h
  · assumption
  · cases h

/-- A frame that is at an instruction of a safe body proceeds. -/
theorem Fits.step (hsafe : body.Safe u arity) (h : f.Fits arity body) {i : Inst}
    (hi : body.inst? f.block f.pc = some i) : Proceeds u arity body f.step := by
  have hstep : f.step = (({ f with pc := f.pc + 1 } : Frame).exec? i).getD (.fault (.badIndex f.function)) := by
    obtain ⟨block, hb, hn⟩ := Body.inst?_eq_some hi
    rw [← h.body] at hb
    simp only [Frame.step, hb, hn]
  rw [hstep]
  obtain ⟨hcheck, hdest⟩ := hsafe.insts _ _ _ hi
  have hgoesOn := hsafe.goesOn _ _ _ hi
  have h₁ : ({ f with pc := f.pc + 1 } : Frame).Fits arity body := ⟨h.body, h.args, h.slots, h.regs⟩
  generalize hf₁ : ({ f with pc := f.pc + 1 } : Frame) = f₁ at h₁ ⊢
  have hblock : f₁.block = f.block := by rw [← hf₁]
  have hpc : f₁.pc = f.pc + 1 := by rw [← hf₁]
  -- what is left of an instruction that does not leave the block
  have hon : ∀ {g : Frame}, i.isTerminator = false → g.Fits arity body → g.block = f₁.block → g.pc = f₁.pc →
      ∃ j, body.inst? g.block g.pc = some j := by
    intro g hnot _ hb hp
    rw [hb, hp, hblock, hpc]
    exact hgoesOn hnot
  have hwrite : ∀ {r : Nat} {x : Float}, i.isTerminator = false → i.dest? = some r →
      Proceeds u arity body ((Action.next <$> f₁.write? r x).getD (.fault (.badIndex f.function))) := by
    intro r x hnot hr
    obtain ⟨g, hg, hfits, hb, hp⟩ := h₁.write (hdest r hr) x
    obtain ⟨j, hj⟩ := hon hnot hfits hb hp
    rw [hg]
    exact .next hfits hj
  have hjump : ∀ {k : Nat}, body.checkBlock k = .ok () → Proceeds u arity body (.next (f₁.jump k)) := by
    intro k hk
    obtain ⟨j, hj⟩ := hsafe.starts k (checkBlock_ok hk)
    exact .next ⟨h₁.body, h₁.args, h₁.slots, h₁.regs⟩ hj
  cases i with
  | load r s =>
    have hs : s < f₁.slots.size := by rw [h₁.slots]; exact checkSlot_ok hcheck
    simp only [exec?, Array.getElem?_eq_getElem hs]
    exact hwrite rfl rfl
  | store v s =>
    obtain ⟨⟨⟩, hv, hs⟩ := Ir.except_bind_ok hcheck
    obtain ⟨x, hx⟩ := h₁.operand hv
    obtain ⟨g, hg, hfits, hb, hp⟩ := h₁.store (checkSlot_ok hs) x
    obtain ⟨j, hj⟩ := hon rfl hfits hb hp
    simp only [exec?, hx, Option.bind_eq_bind, Option.bind_some, hg]
    exact .next hfits hj
  | arith r op lhs rhs =>
    obtain ⟨⟨⟩, hl, hr⟩ := Ir.except_bind_ok hcheck
    obtain ⟨x, hx⟩ := h₁.operand hl
    obtain ⟨y, hy⟩ := h₁.operand hr
    simp only [exec?, hx, hy]
    exact hwrite rfl rfl
  | compare r cmp lhs rhs =>
    obtain ⟨⟨⟩, hl, hr⟩ := Ir.except_bind_ok hcheck
    obtain ⟨x, hx⟩ := h₁.operand hl
    obtain ⟨y, hy⟩ := h₁.operand hr
    simp only [exec?, hx, hy]
    exact hwrite rfl rfl
  | toDouble r v =>
    obtain ⟨x, hx⟩ := h₁.operand hcheck
    simp only [exec?, hx]
    exact hwrite rfl rfl
  | call r callee vs =>
    simp only [Inst.check] at hcheck
    split at hcheck
    · cases hcheck
    · rename_i d hd
      split at hcheck
      · rename_i harity
        obtain ⟨xs, hxs, hlen⟩ := h₁.operands (Ir.forM_ok hcheck)
        obtain ⟨j, hj⟩ := hon rfl h₁ rfl rfl
        simp only [exec?, hxs]
        exact .call h₁ hj (hdest r rfl) hi hd (by rw [harity, hlen])
      · cases hcheck
  | branch k => exact hjump hcheck
  | condBranch v t e =>
    obtain ⟨⟨⟩, hv, hrest⟩ := Ir.except_bind_ok hcheck
    obtain ⟨⟨⟩, ht, he⟩ := Ir.except_bind_ok hrest
    obtain ⟨x, hx⟩ := h₁.operand hv
    simp only [exec?, hx]
    cases hx : truth x with
    | true => simpa [hx] using hjump ht
    | false => simpa [hx] using hjump he
  | ret v =>
    obtain ⟨x, hx⟩ := h₁.operand hcheck
    simp only [exec?, hx]
    exact .ret x

end Frame

/-! ## Calls -/

namespace Engine

/-- Loaded code is checked, names resolve to what is loaded, and every unit is linked. -/
structure Ready (e : Engine) : Prop where
  code : ∀ {i : Nat} {l : Loaded}, e.loaded? i = some l → l.unit.Checked
  names : ∀ {n : String} {s : Symbol}, e.symbols.find? n = some (.compiled s) → e.Means n s
  linked : ∀ {i : Nat} {l : Loaded}, e.loaded? i = some l → e.linkBy callees i = .ok ()

theorem mem_callees {u : CompilationUnit} {g : Ir.Function} {body : Body} {k n dest : Nat} {callee : String}
    {vs : List Value} (hg : g ∈ u.functions) (hb : g.body = some body)
    (hi : body.inst? k n = some (.call dest callee vs)) : callee ∈ callees u := by
  obtain ⟨block, hblock, hn⟩ := Body.inst?_eq_some hi
  unfold callees
  rw [List.mem_eraseDups, List.mem_filterMap]
  refine ⟨.call dest callee vs, List.mem_flatMap.mpr ⟨g, hg, ?_⟩, rfl⟩
  simp only [hb]
  exact List.mem_flatMap.mpr ⟨block, Array.mem_toList_iff.mpr (Array.mem_of_getElem? hblock),
    Array.mem_toList_iff.mpr (Array.mem_of_getElem? hn)⟩

/-- A callee resolves to a function with as many parameters as it is declared with. -/
theorem linkCallee_ok {e : Engine} {u : CompilationUnit} {callee : String} {d : Ir.Function}
    (h : e.linkCallee u callee = .ok ()) (hd : u.find? callee = some d) :
    ∃ r, e.symbols.find? callee = some r ∧ e.arity? r = some d.arity := by
  unfold linkCallee at h
  split at h
  · cases h
  · rename_i r hr
    split at h
    · cases h
    · rename_i actual ha
      refine ⟨r, hr, ?_⟩
      by_cases hne : d.arity = actual
      · rw [ha, hne]
      · simp [hd, hne, Option.filter] at h

theorem Ready.callee {e : Engine} (h : e.Ready) {i : Nat} {l : Loaded} (hl : e.loaded? i = some l) {g d : Ir.Function}
    {body : Body} {k n dest : Nat} {callee : String} {vs : List Value} (hg : g ∈ l.unit.functions)
    (hb : g.body = some body) (hi : body.inst? k n = some (.call dest callee vs)) (hd : l.unit.find? callee = some d) :
    ∃ r, e.symbols.find? callee = some r ∧ e.arity? r = some d.arity := by
  have hlink := h.linked hl
  simp only [linkBy, hl] at hlink
  exact linkCallee_ok (Ir.forM_ok hlink callee (mem_callees hg hb hi)) hd

end Engine

/-! ## Machines -/

/-- The frame runs a body of a loaded unit, and is at one of its instructions. -/
def Frame.Sound (e : Engine) (f : Frame) : Prop :=
  ∃ i l g body inst, e.loaded? i = some l ∧ g ∈ l.unit.functions ∧ g.body = some body ∧ f.Fits g.arity body ∧
    body.inst? f.block f.pc = some inst

theorem Frame.Sound.write {e : Engine} {f : Frame} (h : f.Sound e) {r : Nat} (hr : r < f.regs.size) (x : Float) :
    ∃ g, f.write? r x = some g ∧ g.Sound e := by
  obtain ⟨i, l, fn, body, inst, hl, hfn, hb, hfits, hinst⟩ := h
  rw [hfits.regs] at hr
  obtain ⟨g, hg, hgfits, hblock, hpc⟩ := hfits.write hr x
  exact ⟨g, hg, i, l, fn, body, inst, hl, hfn, hb, hgfits, by rw [hblock, hpc]; exact hinst⟩

/-- A loaded function with a body can be called with as many arguments as it takes. -/
theorem Frame.enter_sound {e : Engine} (hr : e.Ready) {i : Nat} {l : Loaded} {g : Ir.Function} {args : List Float}
    (hl : e.loaded? i = some l) (hg : g ∈ l.unit.functions) (hd : g.isDeclaration = false)
    (ha : args.length = g.arity) : ∃ f, Frame.enter g args = .ok f ∧ f.Sound e := by
  cases hb : g.body with
  | none => simp [Ir.Function.isDeclaration, hb] at hd
  | some body =>
    have hsafe := (hr.code hl).safe hg hb
    obtain ⟨inst, hinst⟩ := hsafe.starts 0 hsafe.entry
    simp only [Frame.enter, hb, if_pos ha]
    exact ⟨_, rfl, i, l, g, body, inst, hl, hg, hb, ⟨rfl, by simpa using ha, by simp, by simp⟩, hinst⟩

namespace Machine

structure Sound (e : Engine) (m : Machine) : Prop where
  top : m.top.Sound e
  callers : ∀ c ∈ m.callers, c.1.Sound e ∧ c.2 < c.1.regs.size

/-- What a machine that does not go wrong may do. -/
inductive Advances (e : Engine) : Progress → Prop
  | running {m : Machine} : m.Sound e → Advances e (.running m)
  | returned (x : Float) (calls : Array Invocation) : Advances e (.finished ⟨.ok x, calls⟩)
  | tooDeep (callee : String) (calls : Array Invocation) : Advances e (.finished ⟨.error (.callDepth callee), calls⟩)

variable {e : Engine} {callers : Array (Frame × Nat)} {calls : Array Invocation}

theorem call_sound (hr : e.Ready) {f : Frame} {dest : Nat} {callee : String} {args : List Float} {r : Resolution}
    (hf : f.Sound e) (hdest : dest < f.regs.size) (hcallers : ∀ c ∈ callers, c.1.Sound e ∧ c.2 < c.1.regs.size)
    (hres : e.symbols.find? callee = some r) (harity : e.arity? r = some args.length) :
    Advances e (call e callers calls f dest callee args) := by
  unfold call
  rw [hres]
  cases r with
  | builtin b =>
    have hlen : args.length = b.arity := (Option.some.inj harity).symm
    obtain ⟨g, hg, hsound⟩ := hf.write hdest 0.0
    simp only [Invocation.result?, if_pos hlen, hg]
    exact .running ⟨hsound, hcallers⟩
  | compiled s =>
    simp only
    split
    · exact .tooDeep callee calls
    · obtain ⟨l, g, hl, hg, -, hd⟩ := hr.names hres
      have hfun : e.function? s = some g := by simp only [Engine.function?, hl, Option.bind_some, hg]
      have hlen : args.length = g.arity := by
        simpa [Engine.arity?, hfun] using harity.symm
      obtain ⟨top, htop, hsound⟩ := Frame.enter_sound hr hl (List.mem_of_getElem? hg) hd hlen
      simp only [hfun, htop]
      refine .running ⟨hsound, fun c hc => ?_⟩
      rcases Array.mem_push.mp hc with hc | rfl
      · exact hcallers c hc
      · exact ⟨hf, hdest⟩

theorem ret_sound (hcallers : ∀ c ∈ callers, c.1.Sound e ∧ c.2 < c.1.regs.size) (x : Float) :
    Advances e (ret callers calls x) := by
  unfold ret
  split
  · exact .returned x calls
  · rename_i caller dest hback
    obtain ⟨hsound, hdest⟩ := hcallers (caller, dest) (Array.mem_of_back? hback)
    obtain ⟨g, hg, hsound⟩ := hsound.write hdest x
    simp only [hg]
    refine .running ⟨hsound, fun c hc => hcallers c ?_⟩
    rw [← Array.mem_toList_iff, Array.toList_pop] at hc
    exact Array.mem_toList_iff.mp ((List.dropLast_sublist _).subset hc)

theorem step_sound (hr : e.Ready) {m : Machine} (h : m.Sound e) : Advances e (m.step e) := by
  obtain ⟨top, callers, calls⟩ := m
  obtain ⟨⟨i, l, g, body, inst, hl, hg, hb, hfits, hinst⟩, hcallers⟩ := h
  have hstep := hfits.step ((hr.code hl).safe hg hb) hinst
  simp only [step]
  cases hs : top.step with
  | next f =>
    rw [hs] at hstep
    cases hstep with
    | next hfits' hinst' => exact .running ⟨⟨i, l, g, body, _, hl, hg, hb, hfits', hinst'⟩, hcallers⟩
  | call f dest callee args =>
    rw [hs] at hstep
    cases hstep with
    | call hfits' hinst' hdest hcall hd harity =>
      obtain ⟨r, hres, ha⟩ := hr.callee hl hg hb hcall hd
      rw [harity] at ha
      exact call_sound hr ⟨i, l, g, body, _, hl, hg, hb, hfits', hinst'⟩ (by rw [hfits'.regs]; exact hdest) hcallers hres ha
  | ret x => exact ret_sound hcallers x
  | fault err =>
    rw [hs] at hstep
    cases hstep

/-- A run that ends has returned a value or was refused a call for its depth. -/
theorem run_sound (hr : e.Ready) {n : Nat} {m : Machine} (h : m.Sound e) {ran : Ran} (hrun : run e n m = some ran) :
    (∃ x, ran.result = .ok x) ∨ ∃ callee, ran.result = .error (.callDepth callee) := by
  induction n generalizing m with
  | zero => cases hrun
  | succ n ih =>
    have hstep := step_sound hr h
    simp only [run] at hrun
    cases hs : m.step e with
    | running m' =>
      rw [hs] at hstep hrun
      cases hstep with
      | running hsound => exact ih hsound hrun
    | finished r =>
      rw [hs] at hstep hrun
      cases hrun
      cases hstep with
      | returned x calls => exact .inl ⟨x, rfl⟩
      | tooDeep callee calls => exact .inr ⟨callee, rfl⟩

end Machine

namespace Engine

/-- In an engine into which checked units were loaded and in which every loaded unit links,
    a function that is called with as many arguments as it takes returns, runs for ever, or
    is stopped for the depth of its calls. -/
theorem execute_safe {e : Engine} (hreach : Reached CompilationUnit.Checked e)
    (hlink : ∀ i l, e.loaded? i = some l → e.linkBy callees i = .ok ()) {s : Symbol} {f : Ir.Function}
    (hf : e.function? s = some f) (hdef : f.isDeclaration = false) {args : List Float} (hargs : args.length = f.arity)
    {budget : Nat} {ran : Ran} (hran : e.execute budget f args = some ran) :
    (∃ x, ran.result = .ok x) ∨ ∃ callee, ran.result = .error (.callDepth callee) := by
  have hr : e.Ready := ⟨fun hl => hreach.loaded hl, fun hs => hreach.resolves hs, fun hl => hlink _ _ hl⟩
  obtain ⟨l, hl, hmem⟩ := Option.bind_eq_some_iff.mp hf
  obtain ⟨top, htop, hsound⟩ := Frame.enter_sound hr hl (List.mem_of_getElem? hmem) hdef hargs
  simp only [execute, htop] at hran
  exact Machine.run_sound hr ⟨hsound, fun c hc => by simp at hc⟩ hran

/-! A unit that calls into another one. -/

/-- The body of `g(x)`, which is `x + 1`. -/
def successor : Ir.Builder :=
  let r := (({} : Ir.Builder).appendBlock "entry").2.arith .add (.param 0) (.const 1)
  r.2.ret r.1

/-- The body of `f(x)`, which is `g(x)`. -/
def forwarder : Ir.Builder :=
  let r := (({} : Ir.Builder).appendBlock "entry").2.call "g" [.param 0]
  r.2.ret r.1

def calleeUnit : CompilationUnit where
  name := "callee"
  functions := [{ name := "g", params := ["x"], body := some successor.body }]

def caller : Ir.Function := { name := "f", params := ["x"], body := some forwarder.body }

def callerUnit : CompilationUnit where
  name := "caller"
  functions := [{ name := "g", params := ["x"] }, caller]

def withBoth : Engine where
  units := #[some ⟨calleeUnit, none⟩, some ⟨callerUnit, none⟩]
  symbols := enlist 1 0 callerUnit.functions (enlist 0 0 calleeUnit.functions ({} : Engine).symbols)

theorem withBoth_reached : Reached CompilationUnit.Checked withBoth := by
  have hcallee : calleeUnit.Checked := by
    intro f hf body hb
    simp only [calleeUnit, List.mem_singleton] at hf
    subst hf
    cases hb
    exact ⟨⟨successor, .ret _ (.arith _ _ _ (.appendBlock _ .new)), rfl⟩, rfl⟩
  have hcaller : callerUnit.Checked := by
    intro f hf body hb
    simp only [callerUnit, List.mem_cons, List.not_mem_nil, or_false] at hf
    rcases hf with rfl | rfl
    · cases hb
    · cases hb
      exact ⟨⟨forwarder, .ret _ (.call _ _ (.appendBlock _ .new)), rfl⟩, rfl⟩
  have hadd : ({} : Engine).add calleeUnit none = .ok () {
      units := #[some ⟨calleeUnit, none⟩]
      symbols := enlist 0 0 calleeUnit.functions ({} : Engine).symbols } := rfl
  exact .add (.add .new hcallee hadd) hcaller (t := none) rfl

theorem execute_safe_withBoth : ∃ ran, withBoth.function? ⟨1, 1⟩ = some caller ∧
    withBoth.execute 10 caller [1] = some ran ∧
    ((∃ x, ran.result = .ok x) ∨ ∃ callee, ran.result = .error (.callDepth callee)) := by
  have hlink : ∀ i l, withBoth.loaded? i = some l → withBoth.linkBy callees i = .ok () := by
    intro i l hl
    match i with
    | 0 => rfl
    | 1 => rfl
    | i + 2 => simp [loaded?, withBoth] at hl
  have hsome : (withBoth.execute 10 caller [1]).isSome = true := by decide +kernel
  obtain ⟨ran, hran⟩ := Option.isSome_iff_exists.mp hsome
  exact ⟨ran, rfl, hran, execute_safe withBoth_reached hlink (s := ⟨1, 1⟩) rfl rfl rfl hran⟩

end Engine

end Kaleidoscope
