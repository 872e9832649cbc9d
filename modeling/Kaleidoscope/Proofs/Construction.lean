/-
  Kaleidoscope.Proofs.Construction — the code of a tree is laid out by the discipline.

  Emitting a tree is a sequence of layout steps that ends with the same blocks reserved as
  before, with every register still written that was written before, and with the value of
  the tree there as a double (`emit_lays`). In between, a conditional or a loop splits the
  way: it reserves three blocks, in each of which just those registers are known that are
  written at that point, and takes them one after the other (`Splits`). A branch may go to
  any of the three from anywhere in between, because nothing is lost on the way.

  `code_sound`: the body of a function is sound, in its first block nothing is known, and
  all its blocks are closed.
-/

import Kaleidoscope.Proofs.Compilation
import Kaleidoscope.Proofs.Layout

namespace Kaleidoscope

open Ir (Body Builder Inst Layout Setting Ty Value)

namespace Ir.Layout

variable {s : Setting} {l m : Layout} {ty : Ty} {v : Value}

/-! ## Going on -/

/-- The layout with another builder. -/
def on (l : Layout) (b : Builder) : Layout := { l with builder := b }

/-- From `l`, steps lead to `m`, and nothing that was written is lost. -/
structure Leads (s : Setting) (l m : Layout) : Prop where
  steps : Steps s l m
  reserved : m.reserved = l.reserved
  written : ∀ r, l.Written r → m.Written r

theorem Leads.refl (l : Layout) : Leads s l l := ⟨.refl, rfl, fun _ h => h⟩

theorem Leads.trans {n : Layout} (h : Leads s l m) (h' : Leads s m n) : Leads s l n :=
  ⟨h.steps.trans h'.steps, h'.reserved.trans h.reserved, fun r hr => h'.written r (h.written r hr)⟩

theorem Leads.shape (h : Leads s l m) (hl : l.Shape) : m.Shape := h.steps.shape hl

theorem Leads.holds (h : Leads s l m) (hl : l.Shape) (hv : l.Holds s ty v) : m.Holds s ty v :=
  ⟨Value.type_mono (h.steps.keeps hl).1 hv.type, fun r hr => h.written r (hv.written r hr)⟩

theorem holds_const (l : Layout) (x : Float) : l.Holds s .double (.const x) := ⟨rfl, fun _ h => nomatch h⟩

/-- A step within the open block. -/
theorem Step.leads (h : Step s l m) (hl : l.Shape) (hres : m.reserved = l.reserved)
    (hcur : m.builder.current = l.builder.current) (hhere : l.builder.here ≤ m.builder.here) : Leads s l m := by
  refine ⟨.single h, hres, fun r hr => ?_⟩
  have hw := (h.adds hl).written hl.stands hr
  rw [Written, hcur]
  rcases hw with hw | ⟨n, hn, hi⟩
  · exact .inl hw
  · exact .inr ⟨n, Nat.lt_of_lt_of_le hn hhere, hi⟩

theorem leads_alloca (hl : l.Shape) (name : String) : Leads s l (l.on (l.builder.alloca name).2) :=
  (Step.alloca name).leads hl rfl rfl (Nat.le_refl _)

theorem leads_store (hl : l.Shape) (hv : l.Holds s .double v) {c : Nat} (hc : c < s.slots) :
    Leads s l (l.on (l.builder.store v c)) := by
  have hallows : l.Allows s (.store v c) :=
    ⟨by simpa [Inst.operands, Inst.operandType] using hv, by simpa [Inst.slot?] using hc, by simp [Inst.targets],
      by simp [Inst.call?]⟩
  refine (Step.effect rfl rfl hallows).leads hl rfl rfl ?_
  show _ ≤ (l.builder.push _).here
  rw [Builder.push_here hl.stands]
  exact Nat.le_succ _

theorem leads_emit (inst : Nat → Inst) (hl : l.Shape)
    (hinst : ∀ r, (inst r).isTerminator = false ∧ (inst r).dest? = some r ∧ (inst r).resultType = ty)
    (hallows : l.Allows s (inst l.body.regs.size)) :
    Leads s l (l.on (l.builder.emit ty inst).2) ∧ (l.on (l.builder.emit ty inst).2).Holds s ty (l.builder.emit ty inst).1 := by
  have hhere : (l.builder.emit ty inst).2.here = l.builder.here + 1 := Builder.emit_here hl.stands
  refine ⟨(Step.result hinst hallows).leads hl rfl rfl ?_, ?_, fun r hr => ?_⟩
  · show _ ≤ (l.builder.emit ty inst).2.here
    omega
  · exact Value.type_reg Array.getElem?_push_size
  · cases hr
    refine .inr ⟨l.builder.here, ?_, _, Builder.emit_inst hl.stands, (hinst _).2.1⟩
    show _ < (l.builder.emit ty inst).2.here
    omega

/-- An instruction with a result whose operands are there. -/
theorem leads_result (inst : Nat → Inst) (hl : l.Shape)
    (hinst : ∀ r, (inst r).isTerminator = false ∧ (inst r).dest? = some r ∧ (inst r).resultType = ty ∧
      (inst r).targets = [] ∧ (∀ c ∈ (inst r).slot?, c < s.slots) ∧ (∀ c ∈ (inst r).call?, s.calls c.1 c.2) ∧
      ∀ v ∈ (inst r).operands, l.Holds s (inst r).operandType v) :
    Leads s l (l.on (l.builder.emit ty inst).2) ∧ (l.on (l.builder.emit ty inst).2).Holds s ty (l.builder.emit ty inst).1 := by
  refine leads_emit inst hl (fun r => ⟨(hinst r).1, (hinst r).2.1, (hinst r).2.2.1⟩) ?_
  obtain ⟨-, -, -, htargets, hslot, hcall, hoperands⟩ := hinst l.body.regs.size
  exact ⟨hoperands, hslot, by simp [htargets], hcall⟩

theorem leads_load (hl : l.Shape) {c : Nat} (hc : c < s.slots) :
    Leads s l (l.on (l.builder.load c).2) ∧ (l.on (l.builder.load c).2).Holds s .double (l.builder.load c).1 :=
  leads_result (.load · c) hl fun r =>
    ⟨rfl, rfl, rfl, rfl, by simpa [Inst.slot?] using hc, by simp [Inst.call?], by simp [Inst.operands]⟩

/-! ## Splitting the way -/

/-- Since `l`, the blocks `targets` were added, in each of which just `W` is known. Those
    of `ks` are still reserved, to be taken in this order. -/
structure Splits (s : Setting) (l : Layout) (W : Nat → Prop) (targets ks : List Nat) (m : Layout) : Prop where
  steps : Steps s l m
  kept : ∀ r, l.Written r → W r
  reserved : m.reserved = ks.reverse ++ l.reserved
  written : ∀ r, W r → m.Written r
  known : ∀ k ∈ targets, k < m.body.blocks.size ∧ m.known k = W

variable {W : Nat → Prop} {targets ks : List Nat}

theorem Splits.shape (h : Splits s l W targets ks m) (hl : l.Shape) : m.Shape := h.steps.shape hl

theorem Splits.on {n : Layout} (h : Splits s l W targets ks m) (hl : l.Shape) (g : Leads s m n) :
    Splits s l W targets ks n := by
  obtain ⟨-, hblocks, hknown⟩ := g.steps.keeps (h.shape hl)
  refine ⟨h.steps.trans g.steps, h.kept, g.reserved.trans h.reserved, fun r hr => g.written r (h.written r hr), ?_⟩
  intro k hk
  obtain ⟨hlt, hW⟩ := h.known k hk
  exact ⟨Nat.lt_of_lt_of_le hlt hblocks, (hknown k hlt).trans hW⟩

theorem Splits.since {n : Layout} (h : Splits s m W targets ks n) (g : Leads s l m) : Splits s l W targets ks n :=
  ⟨g.steps.trans h.steps, fun r hr => h.kept r (g.written r hr), h.reserved.trans (by rw [g.reserved]), h.written,
    h.known⟩

theorem Splits.leads (h : Splits s l W targets [] m) : Leads s l m :=
  ⟨h.steps, h.reserved, fun r hr => h.written r (h.kept r hr)⟩

theorem slot?_of_isTerminator {i : Inst} (h : i.isTerminator = true) : i.slot? = none ∧ i.call? = none := by
  cases i with
  | branch => exact ⟨rfl, rfl⟩
  | condBranch => exact ⟨rfl, rfl⟩
  | ret => exact ⟨rfl, rfl⟩
  | _ => cases h

/-- The open block ends in a branch to some of the targets, and the next block is taken. -/
theorem Splits.leave {i : Inst} {k : Nat} (h : Splits s l W targets (k :: ks) m) (hk : k ∈ targets)
    (hi : i.isTerminator = true) (hoperands : ∀ v ∈ i.operands, m.Holds s i.operandType v)
    (htargets : ∀ t ∈ i.targets, t ∈ targets) :
    Splits s l W targets ks ⟨(m.builder.push i).position k, ks.reverse ++ l.reserved, m.known⟩ := by
  obtain ⟨hslot, hcall⟩ := slot?_of_isTerminator hi
  have hallows : m.Allows s i := by
    refine ⟨hoperands, by simp [hslot], fun t ht => ?_, by simp [hcall]⟩
    obtain ⟨hlt, hW⟩ := h.known t (htargets t ht)
    refine ⟨hlt, fun r hr => h.written r ?_⟩
    rwa [hW] at hr
  have hres : m.reserved = ks.reverse ++ k :: l.reserved := by simp [h.reserved]
  refine ⟨h.steps.tail (.leave hi hallows hres), h.kept, rfl, fun r hr => .inl ?_, fun t ht => ?_⟩
  · show m.known k r
    rw [(h.known k hk).2]
    exact hr
  · obtain ⟨hlt, hW⟩ := h.known t ht
    refine ⟨?_, hW⟩
    show t < (m.builder.push i).body.blocks.size
    rw [Builder.push_size]
    exact hlt

/-- Three blocks are reserved. -/
theorem splits_reserve (hl : l.Shape) (x y z : String) :
    ∃ m, m.builder = (l.builder.appendThree x y z).2 ∧
      Splits s l l.Written
        [(l.builder.appendThree x y z).1.1, (l.builder.appendThree x y z).1.2.1, (l.builder.appendThree x y z).1.2.2]
        [(l.builder.appendThree x y z).1.1, (l.builder.appendThree x y z).1.2.1, (l.builder.appendThree x y z).1.2.2] m ∧
      ∀ ty v, l.Holds s ty v → m.Holds s ty v := by
  let known : Nat → Nat → Prop := fun k => if k < l.body.blocks.size then l.known k else l.Written
  let l₁ : Layout := ⟨(l.builder.appendBlock x).2, l.body.blocks.size :: l.reserved, known⟩
  let l₂ : Layout := ⟨(l₁.builder.appendBlock y).2, l₁.body.blocks.size :: l₁.reserved, known⟩
  let l₃ : Layout := ⟨(l₂.builder.appendBlock z).2, l₂.body.blocks.size :: l₂.reserved, known⟩
  have h₁ : Step s l l₁ := .reserve x known fun k hk => if_pos hk
  have h₂ : Step s l₁ l₂ := .reserve y known fun _ _ => rfl
  have h₃ : Step s l₂ l₃ := .reserve z known fun _ _ => rfl
  have hsteps : Steps s l l₃ := ((Relation.ReflTransGen.single h₁).tail h₂).tail h₃
  have hwritten : ∀ r, l.Written r → l₃.Written r := by
    intro r hr
    have hcur : l.builder.current < l.body.blocks.size := hl.stands
    have w₁ := (h₁.adds hl).written hcur hr
    have hs₁ := h₁.shape hl
    have w₂ := (h₂.adds hs₁).written hs₁.stands w₁
    have hs₂ := h₂.shape hs₁
    have w₃ := (h₃.adds hs₂).written hs₂.stands w₂
    have hhere : l₃.builder.here = l.builder.here := Builder.here_appendThree hl.stands x y z
    rw [Written, hhere]
    exact w₃
  have hsize₁ : l₁.body.blocks.size = l.body.blocks.size + 1 := Array.size_push _
  have hsize₂ : l₂.body.blocks.size = l₁.body.blocks.size + 1 := Array.size_push _
  have hsize₃ : l₃.body.blocks.size = l₂.body.blocks.size + 1 := Array.size_push _
  have hknown : ∀ k, l.body.blocks.size ≤ k → l₃.known k = l.Written := fun k hk => if_neg (by omega)
  refine ⟨l₃, rfl, ⟨hsteps, fun _ h => h, rfl, hwritten, ?_⟩, fun ty v hv => ?_⟩
  · show ∀ k ∈ [l.body.blocks.size, l₁.body.blocks.size, l₂.body.blocks.size], _
    simp only [List.mem_cons, List.not_mem_nil, or_false]
    rintro k (rfl | rfl | rfl)
    · exact ⟨by omega, hknown _ (Nat.le_refl _)⟩
    · exact ⟨by omega, hknown _ (by omega)⟩
    · exact ⟨by omega, hknown _ (by omega)⟩
  · exact ⟨Value.type_mono (hsteps.keeps hl).1 hv.type, fun r hr => hwritten r (hv.written r hr)⟩

theorem leads_test (hl : l.Shape) (hv : l.Holds s .double v) :
    Leads s l (l.on (l.builder.test v).2) ∧ (l.on (l.builder.test v).2).Holds s .bool (l.builder.test v).1 := by
  refine leads_result (.compare · .orderedUnequal v (.const 0)) hl fun r => ⟨rfl, rfl, rfl, rfl, ?_, ?_, ?_⟩
  · simp [Inst.slot?]
  · simp [Inst.call?]
  · simpa [Inst.operands, Inst.operandType] using ⟨hv, holds_const l 0⟩

theorem fork_splits (hl : l.Shape) (hv : l.Holds s .double v) : ∃ m W, m.builder = (l.builder.fork v).2 ∧
    Splits s l W [(l.builder.fork v).1.1, (l.builder.fork v).1.2.1, (l.builder.fork v).1.2.2]
      [(l.builder.fork v).1.2.1, (l.builder.fork v).1.2.2] m := by
  obtain ⟨g, hc⟩ := leads_test hl hv
  obtain ⟨m, hm, h, hholds⟩ := splits_reserve (s := s) (g.shape hl) "if.then" "if.else" "if.end"
  have h' : Splits s l _ [(l.builder.fork v).1.1, (l.builder.fork v).1.2.1, (l.builder.fork v).1.2.2]
      [(l.builder.fork v).1.1, (l.builder.fork v).1.2.1, (l.builder.fork v).1.2.2] m := h.since g
  have hleave := h'.leave List.mem_cons_self
    (i := .condBranch (l.builder.test v).1 (l.builder.fork v).1.1 (l.builder.fork v).1.2.1) rfl
    (by simpa [Inst.operands, Inst.operandType] using hholds _ _ hc) (by simp [Inst.targets])
  refine ⟨_, _, ?_, hleave⟩
  show (m.builder.push _).position _ = _
  rw [hm]
  rfl

theorem enterLoop_splits (hl : l.Shape) (hv : l.Holds s .double v) {c : Nat} (hc : c < s.slots) :
    ∃ m W, m.builder = (l.builder.enterLoop v c).2 ∧
    Splits s l W [(l.builder.enterLoop v c).1.1, (l.builder.enterLoop v c).1.2.1, (l.builder.enterLoop v c).1.2.2]
      [(l.builder.enterLoop v c).1.2.1, (l.builder.enterLoop v c).1.2.2] m := by
  have g := leads_store hl hv hc
  obtain ⟨m, hm, h, -⟩ := splits_reserve (s := s) (g.shape hl) "for.test" "for.body" "for.end"
  have h' : Splits s l _ [(l.builder.enterLoop v c).1.1, (l.builder.enterLoop v c).1.2.1,
      (l.builder.enterLoop v c).1.2.2]
      [(l.builder.enterLoop v c).1.1, (l.builder.enterLoop v c).1.2.1, (l.builder.enterLoop v c).1.2.2] m :=
    h.since g
  have hleave := h'.leave List.mem_cons_self (i := .branch (l.builder.enterLoop v c).1.1) rfl
    (by simp [Inst.operands]) (by simp [Inst.targets])
  refine ⟨_, _, ?_, hleave⟩
  show (m.builder.push _).position _ = _
  rw [hm]
  rfl

theorem Splits.join {k t c : Nat} (h : Splits s l W targets (k :: ks) m) (hl : l.Shape) (hk : k ∈ targets)
    (hv : m.Holds s .double v) (hc : c < s.slots) (ht : t ∈ targets) :
    ∃ m', m'.builder = m.builder.join v c t k ∧ Splits s l W targets ks m' := by
  have h' := h.on hl (leads_store (h.shape hl) hv hc)
  exact ⟨_, rfl, h'.leave hk (i := .branch t) rfl (by simp [Inst.operands]) (by simpa [Inst.targets] using ht)⟩

theorem Splits.testLoop {k n : Nat} (h : Splits s l W targets (k :: ks) m) (hl : l.Shape) (hk : k ∈ targets)
    (hv : m.Holds s .double v) (hn : n ∈ targets) :
    ∃ m', m'.builder = m.builder.testLoop v k n ∧ Splits s l W targets ks m' := by
  obtain ⟨g, hc⟩ := leads_test (h.shape hl) hv
  refine ⟨_, rfl, (h.on hl g).leave hk (i := .condBranch (m.builder.test v).1 k n) rfl ?_ ?_⟩
  · simpa [Inst.operands, Inst.operandType] using hc
  · simpa [Inst.targets] using ⟨hk, hn⟩

end Ir.Layout

/-! ## Trees -/

namespace Tree

mutual

/-- The calls in a tree: callee and number of arguments. -/
def calls : Tree → List (String × Nat)
  | .const _ => []
  | .read _ => []
  | .assign _ t => calls t
  | .declare _ _ t => calls t
  | .arith _ l r => calls l ++ calls r
  | .less l r => calls l ++ calls r
  | .call callee ts => callsOf ts ++ [(callee, ts.length)]
  | .cond _ t y n => calls t ++ (calls y ++ calls n)
  | .loop _ _ start stop body step => calls start ++ (calls stop ++ (calls body ++ calls step))
  | .seq ts => callsOf ts

def callsOf : List Tree → List (String × Nat)
  | [] => []
  | t :: ts => calls t ++ callsOf ts

end

/-- What a tree names is there: its cells and places are slots, its calls can be made. -/
structure Suits (s : Setting) (t : Tree) : Prop where
  cells : ∀ c ∈ t.cells, c < s.slots
  places : ∀ p ∈ t.places, p < s.slots
  calls : ∀ c ∈ t.calls, s.calls c.1 c.2

variable {s : Setting} {t u : Tree}

theorem Suits.part (h : Suits s t) (hc : u.cells ⊆ t.cells) (hp : u.places ⊆ t.places) (hk : u.calls ⊆ t.calls) :
    Suits s u :=
  ⟨fun c hm => h.cells c (hc hm), fun p hm => h.places p (hp hm), fun k hm => h.calls k (hk hm)⟩

theorem cells_subset_of_mem {ts : List Tree} (h : t ∈ ts) :
    t.cells ⊆ cellsOf ts ∧ t.places ⊆ placesOf ts ∧ t.calls ⊆ callsOf ts := by
  induction ts with
  | nil => cases h
  | cons u ts ih =>
    simp only [cellsOf, placesOf, callsOf]
    rcases List.mem_cons.mp h with rfl | h
    · exact ⟨List.subset_append_left _ _, List.subset_append_left _ _, List.subset_append_left _ _⟩
    · obtain ⟨hc, hp, hk⟩ := ih h
      exact ⟨List.subset_append_of_subset_right _ hc, List.subset_append_of_subset_right _ hp,
        List.subset_append_of_subset_right _ hk⟩

/-- Emitting the tree leads on, to where its value is. -/
def Lays (s : Setting) (t : Tree) : Prop :=
  ∀ {l : Layout}, l.Shape → ∃ v m, t.emit l.builder = (v, m.builder) ∧ l.Leads s m ∧ m.Holds s .double v

theorem lays_arguments {ts : List Tree} (ih : ∀ t ∈ ts, Lays s t) {l : Layout} (hl : l.Shape) :
    ∃ vs m, emitArguments ts l.builder = (vs, m.builder) ∧ l.Leads s m ∧ vs.length = ts.length ∧
      ∀ v ∈ vs, m.Holds s .double v := by
  induction ts generalizing l with
  | nil => exact ⟨[], l, by simp only [emitArguments], .refl l, rfl, fun v hv => nomatch hv⟩
  | cons t ts ihs =>
    obtain ⟨v, m₁, e₁, g₁, h₁⟩ := ih t List.mem_cons_self hl
    have hm₁ := g₁.shape hl
    obtain ⟨vs, m₂, e₂, g₂, hlen, h₂⟩ := ihs (fun t ht => ih t (List.mem_cons_of_mem _ ht)) hm₁
    refine ⟨v :: vs, m₂, by simp only [emitArguments, e₁, e₂], g₁.trans g₂, congrArg (· + 1) hlen, fun w hw => ?_⟩
    rcases List.mem_cons.mp hw with rfl | hw
    · exact g₂.holds hm₁ h₁
    · exact h₂ w hw

theorem lays_members {ts : List Tree} (ih : ∀ t ∈ ts, Lays s t) {last : Value} {l : Layout} (hl : l.Shape)
    (hlast : l.Holds s .double last) :
    ∃ v m, emitMembers ts last l.builder = (v, m.builder) ∧ l.Leads s m ∧ m.Holds s .double v := by
  induction ts generalizing l last with
  | nil => exact ⟨last, l, by simp only [emitMembers], .refl l, hlast⟩
  | cons t ts ihs =>
    obtain ⟨u, m₁, e₁, g₁, h₁⟩ := ih t List.mem_cons_self hl
    obtain ⟨v, m₂, e₂, g₂, h₂⟩ := ihs (fun t ht => ih t (List.mem_cons_of_mem _ ht)) (g₁.shape hl) h₁
    exact ⟨v, m₂, by simp only [emitMembers, e₁, e₂], g₁.trans g₂, h₂⟩

theorem lays_read {c : Nat} (hc : c < s.slots) : Lays s (.read c) := by
  intro l hl
  obtain ⟨g, hv⟩ := Layout.leads_load hl hc
  exact ⟨_, _, by simp only [emit]; rfl, g, hv⟩

theorem lays_assign {c : Nat} (hc : c < s.slots) (ih : Lays s t) : Lays s (.assign c t) := by
  intro l hl
  obtain ⟨v, m, e, g, hv⟩ := ih hl
  have hm := g.shape hl
  have g₁ := Layout.leads_store hm hv hc
  exact ⟨v, _, by simp only [emit, e]; rfl, g.trans g₁, g₁.holds hm hv⟩

theorem lays_declare {c : Nat} (hc : c < s.slots) (name : String) (ih : Lays s t) : Lays s (.declare c name t) := by
  intro l hl
  obtain ⟨v, m, e, g, hv⟩ := ih hl
  have hm := g.shape hl
  have g₁ := Layout.leads_alloca (s := s) hm name
  have hm₁ := g₁.shape hm
  have hv₁ := g₁.holds hm hv
  have g₂ := Layout.leads_store hm₁ hv₁ hc
  exact ⟨v, _, by simp only [emit, e]; rfl, (g.trans g₁).trans g₂, g₂.holds hm₁ hv₁⟩

theorem lays_arith (op : Ir.Arith) (iht : Lays s t) (ihu : Lays s u) : Lays s (.arith op t u) := by
  intro l hl
  obtain ⟨v, m₁, e₁, g₁, hv⟩ := iht hl
  have hm₁ := g₁.shape hl
  obtain ⟨w, m₂, e₂, g₂, hw⟩ := ihu hm₁
  have hoperands : ∀ x ∈ [v, w], m₂.Holds s .double x := by simpa using ⟨g₂.holds hm₁ hv, hw⟩
  obtain ⟨g, h⟩ := Layout.leads_result (.arith · op v w) (g₂.shape hm₁)
    fun r => ⟨rfl, rfl, rfl, rfl, by simp [Inst.slot?], by simp [Inst.call?], hoperands⟩
  exact ⟨_, _, by simp only [emit, e₁, e₂]; rfl, (g₁.trans g₂).trans g, h⟩

theorem lays_less (iht : Lays s t) (ihu : Lays s u) : Lays s (.less t u) := by
  intro l hl
  obtain ⟨v, m₁, e₁, g₁, hv⟩ := iht hl
  have hm₁ := g₁.shape hl
  obtain ⟨w, m₂, e₂, g₂, hw⟩ := ihu hm₁
  have hm₂ := g₂.shape hm₁
  have hoperands : ∀ x ∈ [v, w], m₂.Holds s .double x := by simpa using ⟨g₂.holds hm₁ hv, hw⟩
  obtain ⟨g₃, hc⟩ := Layout.leads_result (.compare · .unorderedLess v w) hm₂
    fun r => ⟨rfl, rfl, rfl, rfl, by simp [Inst.slot?], by simp [Inst.call?], hoperands⟩
  obtain ⟨g₄, h⟩ := Layout.leads_result (.toDouble · _) (g₃.shape hm₂)
    fun r => ⟨rfl, rfl, rfl, rfl, by simp [Inst.slot?], by simp [Inst.call?],
      by simpa [Inst.operands, Inst.operandType] using hc⟩
  exact ⟨_, _, by simp only [emit, e₁, e₂]; rfl, ((g₁.trans g₂).trans g₃).trans g₄, h⟩

theorem lays_call {callee : String} {ts : List Tree} (hc : s.calls callee ts.length) (ih : ∀ t ∈ ts, Lays s t) :
    Lays s (.call callee ts) := by
  intro l hl
  obtain ⟨vs, m, e, g, hlen, hvs⟩ := lays_arguments ih hl
  obtain ⟨g₁, h⟩ := Layout.leads_result (.call · callee vs) (g.shape hl)
    fun r => ⟨rfl, rfl, rfl, rfl, by simp [Inst.slot?], by simpa [Inst.call?, hlen] using hc, hvs⟩
  exact ⟨_, _, by simp only [emit, e]; rfl, g.trans g₁, h⟩

theorem lays_cond {place : Nat} (hp : place < s.slots) {y n : Tree} (iht : Lays s t) (ihy : Lays s y)
    (ihn : Lays s n) : Lays s (.cond place t y n) := by
  intro l hl
  have g₀ := Layout.leads_alloca (s := s) hl "if.result"
  obtain ⟨v, m₁, e₁, g₁, hv⟩ := iht (g₀.shape hl)
  have g₁ := g₀.trans g₁
  have hm₁ := g₁.shape hl
  obtain ⟨m₂, W, b₂, S₂⟩ := Layout.fork_splits hm₁ hv
  obtain ⟨p, m₃, e₃, g₃, hp₃⟩ := ihy (S₂.shape hm₁)
  obtain ⟨m₄, b₄, S₄⟩ := (S₂.on hm₁ g₃).join hm₁ (by simp) hp₃ hp
    (t := (m₁.builder.fork v).1.2.2) (by simp)
  obtain ⟨q, m₅, e₅, g₅, hp₅⟩ := ihn (S₄.shape hm₁)
  obtain ⟨m₆, b₆, S₆⟩ := (S₄.on hm₁ g₅).join hm₁ (by simp) hp₅ hp
    (t := (m₁.builder.fork v).1.2.2) (by simp)
  have g₆ := g₁.trans S₆.leads
  obtain ⟨g₇, h⟩ := Layout.leads_load (g₆.shape hl) hp
  have e₁ : t.emit (l.builder.alloca "if.result").2 = (v, m₁.builder) := e₁
  rw [b₂] at e₃
  rw [b₄] at e₅
  refine ⟨_, _, ?_, g₆.trans g₇, h⟩
  simp only [emit, e₁, e₃, e₅, Layout.on, b₆]

theorem lays_loop {c : Nat} (hc : c < s.slots) (name : String) {start stop body step : Tree} (iha : Lays s start)
    (ihb : Lays s stop) (ihc : Lays s body) (ihd : Lays s step) : Lays s (.loop c name start stop body step) := by
  intro l hl
  have g₀ := Layout.leads_alloca (s := s) hl name
  obtain ⟨v, m₁, e₁, g₁, hv⟩ := iha (g₀.shape hl)
  have g₁ := g₀.trans g₁
  have hm₁ := g₁.shape hl
  obtain ⟨m₂, W, b₂, S₂⟩ := Layout.enterLoop_splits hm₁ hv hc
  obtain ⟨p, m₃, e₃, g₃, hp₃⟩ := ihb (S₂.shape hm₁)
  obtain ⟨m₄, b₄, S₄⟩ := (S₂.on hm₁ g₃).testLoop hm₁ (by simp) hp₃
    (n := (m₁.builder.enterLoop v c).1.2.2) (by simp)
  obtain ⟨q, m₅, e₅, g₅, -⟩ := ihc (S₄.shape hm₁)
  have S₅ := S₄.on hm₁ g₅
  obtain ⟨r, m₆, e₆, g₆, hp₆⟩ := ihd (S₅.shape hm₁)
  obtain ⟨m₇, b₇, S₇⟩ := (S₅.on hm₁ g₆).join hm₁ (by simp) hp₆ hc
    (t := (m₁.builder.enterLoop v c).1.1) (by simp)
  have e₁ : start.emit (l.builder.alloca name).2 = (v, m₁.builder) := e₁
  rw [b₂] at e₃
  rw [b₄] at e₅
  refine ⟨.const 0, m₇, ?_, g₁.trans S₇.leads, Layout.holds_const _ 0⟩
  simp only [emit, e₁, e₃, e₅, e₆, b₇]

theorem lays (t : Tree) (h : Suits s t) : Lays s t := by
  induction t using Tree.induction with
  | const x => exact fun {l} _ => ⟨_, l, by simp only [emit], .refl l, Layout.holds_const l x⟩
  | read c => exact lays_read (h.cells c (by simp [cells]))
  | assign c t ih =>
    refine lays_assign (h.cells c (by simp [cells])) (ih (h.part ?_ ?_ ?_))
    · simp [cells]
    · simp [places]
    · simp [calls]
  | declare c name t ih =>
    refine lays_declare (h.cells c (by simp [cells])) name (ih (h.part ?_ ?_ ?_))
    · simp [cells]
    · simp [places]
    · simp [calls]
  | arith op l r ihl ihr =>
    refine lays_arith op (ihl (h.part ?_ ?_ ?_)) (ihr (h.part ?_ ?_ ?_)) <;> simp [cells, places, calls]
  | less l r ihl ihr =>
    refine lays_less (ihl (h.part ?_ ?_ ?_)) (ihr (h.part ?_ ?_ ?_)) <;> simp [cells, places, calls]
  | call callee ts ih =>
    refine lays_call (h.calls (callee, ts.length) (by simp [calls])) fun t ht => ih t ht ?_
    obtain ⟨hc, hp, hk⟩ := cells_subset_of_mem ht
    refine h.part ?_ ?_ ?_
    · simpa [cells] using hc
    · simpa [places] using hp
    · simpa [calls] using List.subset_append_of_subset_left _ hk
  | cond place t y n iht ihy ihn =>
    refine lays_cond (h.places place (by simp [places])) (iht (h.part ?_ ?_ ?_)) (ihy (h.part ?_ ?_ ?_))
      (ihn (h.part ?_ ?_ ?_)) <;> intro x hx <;> simp [cells, places, calls, hx]
  | loop c name start stop body step iha ihb ihc ihd =>
    refine lays_loop (h.cells c (by simp [cells])) name (iha (h.part ?_ ?_ ?_)) (ihb (h.part ?_ ?_ ?_))
      (ihc (h.part ?_ ?_ ?_)) (ihd (h.part ?_ ?_ ?_)) <;> intro x hx <;> simp [cells, places, calls, hx]
  | seq ts ih =>
    intro l hl
    have ih' : ∀ t ∈ ts, Lays s t := fun t ht => by
      obtain ⟨hc, hp, hk⟩ := cells_subset_of_mem ht
      exact ih t ht (h.part (by simpa [cells] using hc) (by simpa [places] using hp) (by simpa [calls] using hk))
    simpa only [emit] using lays_members ih' hl (Layout.holds_const l 0)

end Tree

/-! ## Functions -/

namespace Ir.Layout

variable {s : Setting} {l : Layout}

/-- Parameter `i` and those after it get their slots. -/
theorem leads_params (i : Nat) (params : List String) (hl : l.Shape) (hslots : l.body.slots.size + params.length ≤ s.slots)
    (harity : i + params.length ≤ s.arity) : Leads s l (l.on (l.builder.enterParams i params)) := by
  induction params generalizing i l with
  | nil => exact .refl l
  | cons param params ih =>
    simp only [List.length_cons] at hslots harity
    have g₁ := leads_alloca (s := s) hl param
    have hv : (l.on (l.builder.alloca param).2).Holds s .double (.param i) :=
      ⟨if_pos (by omega), fun _ h => nomatch h⟩
    have hslot : l.body.slots.size < s.slots := by omega
    have g₂ := leads_store (g₁.shape hl) hv hslot
    have g := g₁.trans g₂
    have hsize : ((l.builder.alloca param).2.store (.param i) l.body.slots.size).body.slots.size =
        l.body.slots.size + 1 := Array.size_push _
    refine g.trans (ih (i + 1) (g.shape hl) ?_ (by omega))
    show ((l.builder.alloca param).2.store (.param i) l.body.slots.size).body.slots.size + _ ≤ _
    omega

/-- One open block without instructions. -/
def start : Layout := ⟨(({} : Builder).appendBlock "entry").2, [], fun _ _ => False⟩

theorem start_shape : start.Shape := by
  refine ⟨⟨_, rfl, fun i hi => (nomatch hi)⟩, List.not_mem_nil, List.nodup_nil, fun k hk => (nomatch hk), ?_⟩
  intro k b hb hk
  have hlt : k < 1 := (Array.getElem?_eq_some_iff.mp hb).1
  exact absurd (Nat.lt_one_iff.mp hlt) hk

theorem start_sound : start.body.Sound s start.known := by
  have hnone : ∀ k n i, start.body.inst? k n ≠ some i := by
    intro k n i hi
    obtain ⟨b, hb, hi⟩ := Body.inst?_eq_some hi
    have hlt : k < 1 := (Array.getElem?_eq_some_iff.mp hb).1
    obtain rfl : k = 0 := by omega
    cases hb
    cases hi
  exact ⟨fun k n i hi => absurd hi (hnone k n i), fun k n i r hi => absurd hi (hnone k n i), fun r hr => (nomatch hr),
    fun r k n i _ _ _ hi => absurd hi (hnone k n i), fun k n i r hi => absurd hi (hnone k n i),
    fun k n i t r hi => absurd hi (hnone k n i)⟩

end Ir.Layout

namespace Tree

/-- The slots of a function: those of the parameters, that of the result and more. -/
theorem length_lt_slots_code (t : Tree) (params : List String) : params.length < (t.code params).slots.size := by
  have hslots := Lowering.slots_enterParams 0 params (({} : Builder).appendBlock "entry").2
  have hs : (({} : Builder).appendBlock "entry").2.Stands := Nat.zero_lt_one
  have g := enterParams_grows 0 params hs
  simp only [Tree.code]
  generalize (({} : Builder).appendBlock "entry").2.enterParams 0 params = b at hslots g ⊢
  have hle := (t.emit_yields (b.alloca "ret").2 g.stands).grows.within.slots
  have hsize : (b.alloca "ret").2.body.slots.size = b.body.slots.size + 1 := Array.size_push _
  have hb : b.body.slots.size = 0 + params.length := hslots
  show params.length < (t.emit (b.alloca "ret").2).2.body.slots.size
  omega

/-- The body of a function is sound, nothing is known where it starts, and all its blocks
    are closed. -/
theorem code_sound {s : Setting} {t : Tree} {params : List String} (harity : params.length = s.arity)
    (hslots : (t.code params).slots.size = s.slots) (h : t.Suits s) :
    ∃ known, (∀ r, ¬ known 0 r) ∧ (t.code params).Sound s known ∧ 0 < (t.code params).blocks.size ∧
      ∀ b ∈ (t.code params).blocks.toList, b.Closed := by
  have hret : params.length < s.slots := hslots ▸ length_lt_slots_code t params
  have g₁ := Layout.leads_params (s := s) 0 params Layout.start_shape
    (by rw [show Layout.start.body.slots.size = 0 from rfl]; omega) (by omega)
  have g₂ := g₁.trans (Layout.leads_alloca (g₁.shape Layout.start_shape) "ret")
  have hl := g₂.shape Layout.start_shape
  obtain ⟨v, m, e, g₃, hv⟩ := t.lays h hl
  have hm := g₃.shape hl
  have g₄ := Layout.leads_store hm hv hret
  obtain ⟨g₅, hu⟩ := Layout.leads_load (g₄.shape hm) hret
  -- all steps up to the return, which closes the last open block
  have g := ((g₂.trans g₃).trans g₄).trans g₅
  generalize hn : (m.on (m.builder.store v params.length)).on
    ((m.on (m.builder.store v params.length)).builder.load params.length).2 = n at g hu
  generalize hu' : ((m.on (m.builder.store v params.length)).builder.load params.length).1 = u at hu
  have hcode : t.code params = (n.builder.ret u).body := by
    have e : t.emit (((({} : Builder).appendBlock "entry").2.enterParams 0 params).alloca "ret").2 = (v, m.builder) := e
    rw [← hn, ← hu']
    simp only [Tree.code, e]
    rfl
  have hshape := g.shape Layout.start_shape
  have hallows : n.Allows s (.ret u) :=
    ⟨by simpa [Inst.operands, Inst.operandType] using hu, by simp [Inst.slot?], by simp [Inst.targets],
      by simp [Inst.call?]⟩
  obtain ⟨-, hblocks, hknown⟩ := g.steps.keeps Layout.start_shape
  have hsound := (Layout.adds_push hshape hallows rfl).sound hshape (g.steps.sound Layout.start_shape Layout.start_sound)
  rw [hcode]
  refine ⟨n.known, fun r hr => ?_, hsound, ?_, fun b hb => ?_⟩
  · rw [hknown 0 Nat.zero_lt_one] at hr
    exact hr
  · show 0 < (n.builder.push _).body.blocks.size
    rw [Builder.push_size]
    exact hblocks
  · obtain ⟨k, hk, hb⟩ := List.mem_iff_getElem.mp hb
    have hb : (n.builder.push (.ret u)).body.blocks[k]? = some b := by
      rw [← hb, ← Array.getElem?_toList]
      exact List.getElem?_eq_getElem hk
    by_cases hcur : k = n.builder.current
    · subst hcur
      obtain ⟨b₀, -, hopen, hpush⟩ := Layout.blocks_push_current hshape (.ret u)
      rw [hpush] at hb
      cases hb
      exact hopen.close rfl
    · refine hshape.closed k b ((Layout.blocks_push_other _ hcur).symm.trans hb) hcur ?_
      rw [g.reserved]
      exact List.not_mem_nil

end Tree

end Kaleidoscope
