/-
  Kaleidoscope.Proofs.Layout — the discipline that code is laid out by.

  While a body is built, one block is open and takes the instructions. Some blocks are
  reserved: they are there to be branched to and have no instruction yet. All others are
  closed. For each block, some registers are known: whichever way the block is entered,
  they have been written by then. `Layout.Step` lists what may be done:
  - a slot, or an instruction that goes on, is added;
  - a block is reserved, and it is settled which registers are known there;
  - the open block is closed by a terminator, and a reserved one is opened.
  An instruction may only use what is there (`Layout.Allows`): operands of the right type
  that are constants, parameters or registers written on the way, and branch targets at
  which no register is known that is not written here.

  Each step adds at most one instruction, at the end of the open block (`Layout.Adds`), and
  whatever is asked of all instructions follows from that: `Step.shape` says that blocks
  are open, reserved or closed, and `Adds.sound` that every instruction finds what it
  names, that every register is written by one instruction, of the register's type, and
  that what an instruction reads has been written before it (`Body.Sound`).
-/

import Mathlib.Data.List.Nodup
import Mathlib.Logic.Relation
import Kaleidoscope.Proofs.Safety

namespace Kaleidoscope.Ir

/-! ## What instructions refer to -/

namespace Inst

/-- The values it reads. -/
def operands : Inst → List Value
  | load _ _ => []
  | store v _ => [v]
  | arith _ _ l r => [l, r]
  | compare _ _ l r => [l, r]
  | toDouble _ v => [v]
  | call _ _ args => args
  | branch _ => []
  | condBranch v _ _ => [v]
  | ret v => [v]

/-- The type of each of them. -/
def operandType : Inst → Ty
  | toDouble _ _ => .bool
  | condBranch _ _ _ => .bool
  | _ => .double

/-- The type of its result, if it has one. -/
def resultType : Inst → Ty
  | compare _ _ _ _ => .bool
  | _ => .double

def slot? : Inst → Option Nat
  | load _ s => some s
  | store _ s => some s
  | _ => none

/-- The blocks it may go to. -/
def targets : Inst → List Nat
  | branch k => [k]
  | condBranch _ k l => [k, l]
  | _ => []

/-- Its callee and the number of arguments. -/
def call? : Inst → Option (String × Nat)
  | call _ callee args => some (callee, args.length)
  | _ => none

def Reads (i : Inst) (r : Nat) : Prop := Value.reg r ∈ i.operands

theorem dest?_of_isTerminator {i : Inst} (h : i.isTerminator = true) : i.dest? = none := by
  cases i with
  | branch => rfl
  | condBranch => rfl
  | ret => rfl
  | _ => cases h

end Inst

/-- What code may refer to: so many parameters, so many slots, and functions, each with a
    number of arguments. -/
structure Setting where
  arity : Nat
  slots : Nat
  calls : String → Nat → Prop

/-- The instruction refers to what there is. -/
structure Inst.Fits (s : Setting) (body : Body) (i : Inst) : Prop where
  operands : ∀ v ∈ i.operands, v.type s.arity body = .ok i.operandType
  slot : ∀ c ∈ i.slot?, c < s.slots
  targets : ∀ k ∈ i.targets, k < body.blocks.size
  call : ∀ c ∈ i.call?, s.calls c.1 c.2

/-- Register `r` is written whenever place `n` of block `k` is reached: it is known at the
    start of the block, or an instruction before that place writes it. -/
def Body.Written (known : Nat → Nat → Prop) (body : Body) (k n r : Nat) : Prop :=
  known k r ∨ ∃ m < n, ∃ i, body.inst? k m = some i ∧ i.dest? = some r

/-- Every instruction refers to what there is and reads what is written by then; every
    register is written in one place, by an instruction with a result of its type. -/
structure Body.Sound (s : Setting) (known : Nat → Nat → Prop) (body : Body) : Prop where
  fits : ∀ k n i, body.inst? k n = some i → i.Fits s body
  dests : ∀ k n i r, body.inst? k n = some i → i.dest? = some r → body.regs[r]? = some i.resultType
  made : ∀ r < body.regs.size, ∃ k n i, body.inst? k n = some i ∧ i.dest? = some r
  once : ∀ r k n i k' n' i', body.inst? k n = some i → i.dest? = some r → body.inst? k' n' = some i' →
    i'.dest? = some r → k = k' ∧ n = n'
  reads : ∀ k n i r, body.inst? k n = some i → i.Reads r → body.Written known k n r
  flows : ∀ k n i t r, body.inst? k n = some i → t ∈ i.targets → known t r → body.Written known k n r

def Block.Open (b : Block) : Prop := ∀ i ∈ b.insts.toList, i.isTerminator = false

/-- The last instruction is the only terminator. -/
def Block.Closed (b : Block) : Prop :=
  ∃ init last, b.insts.toList = init ++ [last] ∧ (∀ i ∈ init, i.isTerminator = false) ∧ last.isTerminator = true

theorem Block.Open.push {b : Block} (h : b.Open) {i : Inst} (hi : i.isTerminator = false) :
    Block.Open { b with insts := b.insts.push i } := by
  intro j hj
  rw [Array.toList_push, List.mem_append, List.mem_singleton] at hj
  rcases hj with hj | rfl
  · exact h j hj
  · exact hi

theorem Block.Open.close {b : Block} (h : b.Open) {i : Inst} (hi : i.isTerminator = true) :
    Block.Closed { b with insts := b.insts.push i } :=
  ⟨b.insts.toList, i, Array.toList_push, h, hi⟩

/-! ## Operands as a body grows -/

/-- The registers of `b` are the first of `c`. -/
def Body.RegsWithin (b c : Body) : Prop := ∀ (r : Nat) ty, b.regs[r]? = some ty → c.regs[r]? = some ty

theorem Value.type_reg {arity : Nat} {b : Body} {r : Nat} {ty : Ty} (h : b.regs[r]? = some ty) :
    (Value.reg r).type arity b = .ok ty := by
  simp [Value.type, h]

theorem Value.type_mono {arity : Nat} {b c : Body} (h : b.RegsWithin c) {v : Value} {ty : Ty}
    (hv : v.type arity b = .ok ty) : v.type arity c = .ok ty := by
  cases v with
  | const x => exact hv
  | param i => exact hv
  | reg r =>
    simp only [Value.type] at hv ⊢
    cases hr : b.regs[r]? with
    | none => simp [hr] at hv
    | some ty' =>
      rw [hr] at hv
      rw [h r ty' hr]
      exact hv

theorem Inst.Fits.mono {s : Setting} {b c : Body} {i : Inst} (h : i.Fits s b) (hregs : b.RegsWithin c)
    (hblocks : b.blocks.size ≤ c.blocks.size) : i.Fits s c where
  operands := fun v hv => Value.type_mono hregs (h.operands v hv)
  slot := h.slot
  targets := fun k hk => Nat.lt_of_lt_of_le (h.targets k hk) hblocks
  call := h.call

namespace Builder

theorem inst?_push_cases {b : Builder} {i j : Inst} {k n : Nat} (h : (b.push i).body.inst? k n = some j) :
    b.body.inst? k n = some j ∨ k = b.current ∧ n = b.here ∧ j = i := by
  simp only [Body.inst?, push_blocks] at h ⊢
  split at h
  · rename_i hk
    subst hk
    cases hb : b.body.blocks[b.current]? with
    | none => simp [hb] at h
    | some block =>
      simp only [hb, Option.map_some, Option.bind_some, Array.getElem?_push] at h ⊢
      split at h
      · rename_i hn
        exact .inr ⟨trivial, by simp [here, hb, hn], (Option.some.inj h).symm⟩
      · exact .inl h
  · exact .inl h

end Builder

/-! ## Layouts -/

structure Layout where
  builder : Builder
  /-- The blocks that are there for later. -/
  reserved : List Nat
  /-- Which registers are known in which block. -/
  known : Nat → Nat → Prop

namespace Layout

def body (l : Layout) : Body := l.builder.body

/-- Register `r` is written whenever the end of the open block is reached. -/
def Written (l : Layout) (r : Nat) : Prop := l.body.Written l.known l.builder.current l.builder.here r

/-- The value has type `ty`, and if it is a register, it is written. -/
structure Holds (s : Setting) (l : Layout) (ty : Ty) (v : Value) : Prop where
  type : v.type s.arity l.body = .ok ty
  written : ∀ r, v = .reg r → l.Written r

/-- The instruction may stand at the end of the open block. -/
structure Allows (s : Setting) (l : Layout) (i : Inst) : Prop where
  operands : ∀ v ∈ i.operands, l.Holds s i.operandType v
  slot : ∀ c ∈ i.slot?, c < s.slots
  targets : ∀ k ∈ i.targets, k < l.body.blocks.size ∧ ∀ r, l.known k r → l.Written r
  call : ∀ c ∈ i.call?, s.calls c.1 c.2

inductive Step (s : Setting) : Layout → Layout → Prop
  | alloca {l : Layout} (name : String) : Step s l { l with builder := (l.builder.alloca name).2 }
  | effect {l : Layout} {i : Inst} : i.isTerminator = false → i.dest? = none → l.Allows s i →
      Step s l { l with builder := l.builder.push i }
  | result {l : Layout} {ty : Ty} {inst : Nat → Inst} :
      (∀ r, (inst r).isTerminator = false ∧ (inst r).dest? = some r ∧ (inst r).resultType = ty) →
      l.Allows s (inst l.body.regs.size) → Step s l { l with builder := (l.builder.emit ty inst).2 }
  | reserve {l : Layout} (label : String) (known : Nat → Nat → Prop) :
      (∀ k < l.body.blocks.size, known k = l.known k) →
      Step s l ⟨(l.builder.appendBlock label).2, l.body.blocks.size :: l.reserved, known⟩
  | leave {l : Layout} {i : Inst} {k : Nat} {before after : List Nat} : i.isTerminator = true → l.Allows s i →
      l.reserved = before ++ k :: after →
      Step s l ⟨(l.builder.push i).position k, before ++ after, l.known⟩

/-- The blocks are open, reserved or closed. -/
structure Shape (l : Layout) : Prop where
  current : ∃ b, l.body.blocks[l.builder.current]? = some b ∧ b.Open
  apart : l.builder.current ∉ l.reserved
  distinct : l.reserved.Nodup
  vacant : ∀ k ∈ l.reserved, l.builder.Vacant k
  closed : ∀ (k : Nat) b, l.body.blocks[k]? = some b → k ≠ l.builder.current → k ∉ l.reserved → b.Closed

variable {s : Setting} {l m : Layout}

theorem Shape.stands (h : l.Shape) : l.builder.Stands := by
  obtain ⟨b, hb, -⟩ := h.current
  exact (Array.getElem?_eq_some_iff.mp hb).1

theorem Shape.reserved_lt (h : l.Shape) {k : Nat} (hk : k ∈ l.reserved) : k < l.body.blocks.size := by
  obtain ⟨label, hl⟩ := h.vacant k hk
  exact (Array.getElem?_eq_some_iff.mp hl).1

theorem blocks_push_current (h : l.Shape) (i : Inst) : ∃ b, l.body.blocks[l.builder.current]? = some b ∧ b.Open ∧
    (l.builder.push i).body.blocks[l.builder.current]? = some { b with insts := b.insts.push i } := by
  obtain ⟨b, hb, hopen⟩ := h.current
  refine ⟨b, hb, hopen, ?_⟩
  have hb : l.builder.body.blocks[l.builder.current]? = some b := hb
  rw [Builder.push_blocks, if_pos rfl, hb]
  rfl

theorem blocks_push_other {k : Nat} (i : Inst) (hk : k ≠ l.builder.current) :
    (l.builder.push i).body.blocks[k]? = l.body.blocks[k]? := by
  rw [Builder.push_blocks, if_neg (Ne.symm hk)]
  rfl

/-- An instruction that goes on is added to the open block. -/
theorem Shape.push (h : l.Shape) {i : Inst} (hi : i.isTerminator = false) :
    Shape { l with builder := l.builder.push i } := by
  obtain ⟨b, -, hopen, hpush⟩ := blocks_push_current h i
  refine ⟨⟨_, hpush, hopen.push hi⟩, h.apart, h.distinct, fun k hk => ?_, fun k b hb hk hres => ?_⟩
  · refine (h.vacant k hk).push ?_ i
    rintro rfl
    exact h.apart hk
  · have hk : k ≠ l.builder.current := hk
    exact h.closed k b ((blocks_push_other i hk).symm.trans hb) hk hres

theorem Shape.reserve (h : l.Shape) (label : String) (known : Nat → Nat → Prop) :
    Shape ⟨(l.builder.appendBlock label).2, l.body.blocks.size :: l.reserved, known⟩ := by
  have hstands : l.builder.current < l.body.blocks.size := h.stands
  have hold : ∀ k < l.body.blocks.size, (l.builder.appendBlock label).2.body.blocks[k]? = l.body.blocks[k]? := by
    intro k hk
    show (l.body.blocks.push { label })[k]? = _
    rw [Array.getElem?_push_lt hk, Array.getElem?_eq_getElem hk]
  obtain ⟨b, hb, hopen⟩ := h.current
  refine ⟨⟨b, (hold _ hstands).trans hb, hopen⟩, ?_, ?_, ?_, fun k b hb hk hres => ?_⟩
  · intro hmem
    rcases List.mem_cons.mp hmem with hcur | hmem
    · exact absurd hcur (Nat.ne_of_lt hstands)
    · exact h.apart hmem
  · exact List.nodup_cons.mpr ⟨fun hmem => Nat.lt_irrefl _ (h.reserved_lt hmem), h.distinct⟩
  · intro k hk
    rcases List.mem_cons.mp hk with rfl | hk
    · exact Builder.appendBlock_vacant label l.builder
    · exact (h.vacant k hk).appendBlock label
  · simp only [List.mem_cons, not_or] at hres
    have hlt : k < l.body.blocks.size := by
      obtain ⟨hlt, -⟩ := Array.getElem?_eq_some_iff.mp hb
      have hlt : k < (l.body.blocks.push { label }).size := hlt
      rw [Array.size_push] at hlt
      omega
    exact h.closed k b ((hold k hlt).symm.trans hb) hk hres.2

theorem Shape.leave (h : l.Shape) {i : Inst} (hi : i.isTerminator = true) {k : Nat} {before after : List Nat}
    (hres : l.reserved = before ++ k :: after) :
    Shape ⟨(l.builder.push i).position k, before ++ after, l.known⟩ := by
  have hmem : k ∈ l.reserved := by simp [hres]
  have hsub : ∀ j ∈ before ++ after, j ∈ l.reserved ∧ j ≠ k := by
    have hd := h.distinct
    rw [hres, List.nodup_middle, List.nodup_cons] at hd
    intro j hj
    refine ⟨?_, fun hjk => hd.1 (hjk ▸ hj)⟩
    rw [hres]
    rcases List.mem_append.mp hj with hj | hj
    · exact List.mem_append_left _ hj
    · exact List.mem_append_right _ (List.mem_cons_of_mem _ hj)
  have hne : ∀ j ∈ l.reserved, j ≠ l.builder.current := by
    rintro j hj rfl
    exact h.apart hj
  obtain ⟨b, -, hopen, hpush⟩ := blocks_push_current h i
  refine ⟨?_, fun hk => (hsub k hk).2 rfl, ?_, fun j hj => ?_, fun j b' hb hj hres' => ?_⟩
  · obtain ⟨label, hl⟩ := (h.vacant k hmem).push (hne k hmem) i
    exact ⟨_, hl, fun i hi => nomatch hi⟩
  · have hd := h.distinct
    rw [hres, List.nodup_middle, List.nodup_cons] at hd
    exact hd.2
  · exact (h.vacant j (hsub j hj).1).push (hne j (hsub j hj).1) i
  · by_cases hcur : j = l.builder.current
    · subst hcur
      have hb : (l.builder.push i).body.blocks[l.builder.current]? = some b' := hb
      rw [hpush] at hb
      cases hb
      exact hopen.close hi
    · refine h.closed j b' ((blocks_push_other i hcur).symm.trans hb) hcur fun hmem => hres' ?_
      rw [hres] at hmem
      rcases List.mem_append.mp hmem with hmem | hmem
      · exact List.mem_append_left _ hmem
      · rcases List.mem_cons.mp hmem with rfl | hmem
        · exact absurd rfl hj
        · exact List.mem_append_right _ hmem

theorem Step.shape (h : Step s l m) (hl : l.Shape) : m.Shape := by
  cases h with
  | alloca name => exact ⟨hl.current, hl.apart, hl.distinct, hl.vacant, hl.closed⟩
  | effect hi _ _ => exact hl.push hi
  | @result ty inst hi _ =>
    have hl' : Shape { l with builder := { l.builder with body.regs := l.builder.body.regs.push ty } } :=
      ⟨hl.current, hl.apart, hl.distinct, hl.vacant, hl.closed⟩
    exact hl'.push (hi _).1
  | reserve label known _ => exact hl.reserve label known
  | leave hi _ hres => exact hl.leave hi hres

/-! ## What a step adds -/

/-- `body` is the code of `l` with one more instruction at most, which stands at the end of
    the open block, may stand there, and writes no register but a new one. -/
structure Adds (s : Setting) (l : Layout) (body : Body) (known : Nat → Nat → Prop) : Prop where
  code : ∀ k n i, l.body.inst? k n = some i → body.inst? k n = some i
  regs : l.body.RegsWithin body
  blocks : l.body.blocks.size ≤ body.blocks.size
  known : ∀ k < l.body.blocks.size, known k = l.known k
  new : ∀ k n i, body.inst? k n = some i → l.body.inst? k n = some i ∨
    k = l.builder.current ∧ n = l.builder.here ∧ l.Allows s i ∧
      ∀ r ∈ i.dest?, r = l.body.regs.size ∧ body.regs[r]? = some i.resultType
  made : ∀ r < body.regs.size, r < l.body.regs.size ∨ ∃ k n i, body.inst? k n = some i ∧ i.dest? = some r

theorem Adds.keep {body : Body} {known : Nat → Nat → Prop} (hcode : ∀ k n, body.inst? k n = l.body.inst? k n)
    (hregs : body.regs = l.body.regs) (hblocks : l.body.blocks.size ≤ body.blocks.size)
    (hknown : ∀ k < l.body.blocks.size, known k = l.known k) : l.Adds s body known where
  code := fun k n i hi => (hcode k n).trans hi
  regs := fun r ty hr => by rw [hregs]; exact hr
  blocks := hblocks
  known := hknown
  new := fun k n i hi => .inl ((hcode k n).symm.trans hi)
  made := fun r hr => .inl (by rwa [← hregs])

theorem adds_push {i : Inst} (hl : l.Shape) (hi : l.Allows s i) (hd : i.dest? = none) :
    l.Adds s (l.builder.push i).body l.known where
  code := (Builder.push_grows i hl.stands).within.code
  regs := fun _ _ hr => hr
  blocks := Nat.le_of_eq (Builder.push_size i l.builder).symm
  known := fun _ _ => rfl
  new := fun k n j hj => by
    rcases Builder.inst?_push_cases hj with hj | ⟨hk, hn, rfl⟩
    · exact .inl hj
    · exact .inr ⟨hk, hn, hi, fun r hr => by rw [hd] at hr; cases hr⟩
  made := fun r hr => .inl hr

theorem adds_emit {ty : Ty} {inst : Nat → Inst} (hl : l.Shape) (hi : l.Allows s (inst l.body.regs.size))
    (hd : ∀ r, (inst r).dest? = some r ∧ (inst r).resultType = ty) :
    l.Adds s (l.builder.emit ty inst).2.body l.known where
  code := ((Builder.Grows.refl hl.stands).emit ty inst).within.code
  regs := fun r ty' hr => by
    obtain ⟨hlt, -⟩ := Array.getElem?_eq_some_iff.mp hr
    show (l.body.regs.push ty)[r]? = _
    rw [Array.getElem?_push_lt hlt, ← hr, Array.getElem?_eq_getElem hlt]
  blocks := ((Builder.Grows.refl hl.stands).emit ty inst).blocks
  known := fun _ _ => rfl
  new := fun k n j hj => by
    rcases Builder.inst?_push_cases hj with hj | ⟨hk, hn, rfl⟩
    · exact .inl hj
    · refine .inr ⟨hk, hn, hi, fun r hr => ?_⟩
      have hr : some l.body.regs.size = some r := (hd _).1.symm.trans hr
      cases hr
      refine ⟨rfl, ?_⟩
      show (l.body.regs.push ty)[l.body.regs.size]? = _
      rw [Array.getElem?_push_size]
      exact congrArg some (hd _).2.symm
  made := fun r hr => by
    have hr : r < l.body.regs.size + 1 := by simpa [body] using hr
    rcases Nat.lt_succ_iff_lt_or_eq.mp hr with hr | rfl
    · exact .inl hr
    · exact .inr ⟨_, _, _, Builder.emit_inst hl.stands, (hd _).1⟩

theorem Step.adds (h : Step s l m) (hl : l.Shape) : l.Adds s m.body m.known := by
  cases h with
  | alloca name => exact .keep (fun _ _ => rfl) rfl (Nat.le_refl _) fun _ _ => rfl
  | effect _ hd hi => exact adds_push hl hi hd
  | result hd hi => exact adds_emit hl hi fun r => (hd r).2
  | reserve label known hknown =>
    have hblocks : l.body.blocks.size ≤ (l.builder.appendBlock label).2.body.blocks.size := by
      simp [body, Builder.appendBlock]
    refine .keep (fun k n => ?_) rfl hblocks hknown
    show (l.builder.appendBlock label).2.body.inst? k n = l.body.inst? k n
    cases hi : l.body.inst? k n with
    | some i => exact ((Builder.Grows.refl hl.stands).appendBlock label).within.code k n i hi
    | none =>
      cases hj : (l.builder.appendBlock label).2.body.inst? k n with
      | none => rfl
      | some j =>
        have hj : l.body.inst? k n = some j := Builder.inst?_appendBlock hj
        rw [hi] at hj
        cases hj
  | leave hi hallows _ => exact adds_push hl hallows (Inst.dest?_of_isTerminator hi)

theorem Adds.written {body : Body} {known : Nat → Nat → Prop} (h : l.Adds s body known) {k n r : Nat}
    (hk : k < l.body.blocks.size) (hw : l.body.Written l.known k n r) : body.Written known k n r := by
  rcases hw with hw | ⟨m, hm, i, hi, hd⟩
  · left
    rw [h.known k hk]
    exact hw
  · exact .inr ⟨m, hm, i, h.code k m i hi, hd⟩

theorem block_lt_of_inst? {body : Body} {k n : Nat} {i : Inst} (h : body.inst? k n = some i) :
    k < body.blocks.size := by
  obtain ⟨b, hb, -⟩ := Body.inst?_eq_some h
  exact (Array.getElem?_eq_some_iff.mp hb).1

theorem Allows.fits {i : Inst} (h : l.Allows s i) : i.Fits s l.body where
  operands := fun v hv => (h.operands v hv).type
  slot := h.slot
  targets := fun k hk => (h.targets k hk).1
  call := h.call

theorem Adds.sound {body : Body} {known : Nat → Nat → Prop} (h : l.Adds s body known) (hl : l.Shape)
    (hs : l.body.Sound s l.known) : body.Sound s known := by
  have hnew : ∀ {i : Inst} {r : Nat}, (∀ r ∈ i.dest?, r = l.body.regs.size ∧ body.regs[r]? = some i.resultType) →
      i.dest? = some r → ∀ k n j, l.body.inst? k n = some j → j.dest? ≠ some r := by
    -- a register that an instruction of `l` writes is there already
    intro i r hi hr k n j hj hjr
    obtain ⟨rfl, -⟩ := hi r hr
    obtain ⟨hlt, -⟩ := Array.getElem?_eq_some_iff.mp (hs.dests k n j _ hj hjr)
    exact Nat.lt_irrefl _ hlt
  refine ⟨fun k n i hi => ?_, fun k n i r hi hr => ?_, fun r hr => ?_, fun r k n i k' n' i' hi hr hi' hr' => ?_,
    fun k n i r hi hr => ?_, fun k n i t r hi ht hr => ?_⟩
  · rcases h.new k n i hi with hi | ⟨-, -, hi, -⟩
    · exact (hs.fits k n i hi).mono h.regs h.blocks
    · exact hi.fits.mono h.regs h.blocks
  · rcases h.new k n i hi with hi | ⟨-, -, -, hi⟩
    · exact h.regs _ _ (hs.dests k n i r hi hr)
    · exact (hi r hr).2
  · rcases h.made r hr with hr | hr
    · obtain ⟨k, n, i, hi, hr⟩ := hs.made r hr
      exact ⟨k, n, i, h.code k n i hi, hr⟩
    · exact hr
  · rcases h.new k n i hi with hi | ⟨hk, hn, -, hi⟩
    · rcases h.new k' n' i' hi' with hi' | ⟨-, -, -, hi'⟩
      · exact hs.once r k n i k' n' i' hi hr hi' hr'
      · exact absurd hr (hnew hi' hr' k n i hi)
    · rcases h.new k' n' i' hi' with hi' | ⟨hk', hn', -, -⟩
      · exact absurd hr' (hnew hi hr k' n' i' hi')
      · exact ⟨hk.trans hk'.symm, hn.trans hn'.symm⟩
  · rcases h.new k n i hi with hi | ⟨rfl, rfl, hi, -⟩
    · exact h.written (block_lt_of_inst? hi) (hs.reads k n i r hi hr)
    · exact h.written hl.stands ((hi.operands _ hr).written r rfl)
  · rcases h.new k n i hi with hi | ⟨rfl, rfl, hi, -⟩
    · rw [h.known t ((hs.fits k n i hi).targets t ht)] at hr
      exact h.written (block_lt_of_inst? hi) (hs.flows k n i t r hi ht hr)
    · obtain ⟨hlt, hflow⟩ := hi.targets t ht
      rw [h.known t hlt] at hr
      exact h.written hl.stands (hflow r hr)

/-! ## Sequences of steps -/

def Steps (s : Setting) : Layout → Layout → Prop := Relation.ReflTransGen (Step s)

theorem Steps.shape (h : Steps s l m) (hl : l.Shape) : m.Shape := by
  induction h with
  | refl => exact hl
  | tail _ hstep ih => exact hstep.shape ih

theorem Steps.sound (h : Steps s l m) (hl : l.Shape) (hs : l.body.Sound s l.known) : m.body.Sound s m.known := by
  induction h with
  | refl => exact hs
  | tail hsteps hstep ih =>
    have hshape := Steps.shape hsteps hl
    exact (hstep.adds hshape).sound hshape ih

/-- What a sequence of steps leaves of what there was. -/
theorem Steps.keeps (h : Steps s l m) (hl : l.Shape) : l.body.RegsWithin m.body ∧
    l.body.blocks.size ≤ m.body.blocks.size ∧ ∀ k < l.body.blocks.size, m.known k = l.known k := by
  induction h with
  | refl => exact ⟨fun _ _ hr => hr, Nat.le_refl _, fun _ _ => rfl⟩
  | tail hsteps hstep ih =>
    have hadds := hstep.adds (Steps.shape hsteps hl)
    obtain ⟨hregs, hblocks, hknown⟩ := ih
    refine ⟨fun r ty hr => hadds.regs r ty (hregs r ty hr), Nat.le_trans hblocks hadds.blocks, fun k hk => ?_⟩
    rw [hadds.known k (Nat.lt_of_lt_of_le hk hblocks), hknown k hk]

end Layout

end Kaleidoscope.Ir
