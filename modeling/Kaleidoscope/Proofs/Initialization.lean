/-
  Kaleidoscope.Proofs.Initialization — what is in the slots of a call at first.

  A call starts with zero in every slot. A load that no store comes before, on the path that
  was taken, finds it there. `define_initialized` says of the body of every accepted
  definition for which slots that is possible (`Tree.fate`), and that no run depends on what
  the others hold at first: two calls that differ in those slots only stay alike but for
  slots that were not stored in on the way (`Frame.Apart`), which are not loaded, either.

  Not every slot is safe: a variable that is declared in one branch of a conditional is in
  sight after it, and read there also when the other branch was taken
  (`define_initialized_branchDeclared`).
-/

import Kaleidoscope.Proofs.Fate

namespace Kaleidoscope

open Ir (Body Inst Value)

/-! ## Frames with other slots -/

namespace Frame

variable {f g : Frame} {other : Array Float} {D : Nat → Prop}

/-- The action with other slots. -/
def Action.withSlots (other : Array Float) : Action → Action
  | .next f => .next { f with slots := other }
  | .call f dest callee args => .call { f with slots := other } dest callee args
  | .ret x => .ret x
  | .fault err => .fault err

theorem write?_withSlots (f : Frame) (other : Array Float) (r : Nat) (x : Float) :
    ({ f with slots := other } : Frame).write? r x = (f.write? r x).map fun g => { g with slots := other } := by
  unfold write?
  split <;> rfl

theorem operand?_withSlots (f : Frame) (other : Array Float) (v : Value) :
    ({ f with slots := other } : Frame).operand? v = f.operand? v := by
  cases v <;> rfl

theorem next_write?_withSlots (f : Frame) (other : Array Float) (r : Nat) (x : Float) :
    Action.next <$> ({ f with slots := other } : Frame).write? r x =
      (Action.next <$> f.write? r x).map (Action.withSlots other) := by
  rw [write?_withSlots]
  cases f.write? r x <;> rfl

/-- An instruction that does not store does the same over other slots, if what it loads is
    the same. -/
theorem exec?_withSlots (f : Frame) (other : Array Float) {i : Inst}
    (hload : ∀ r s, i = .load r s → other[s]? = f.slots[s]?) (hstore : ∀ v s, i ≠ .store v s) :
    ({ f with slots := other } : Frame).exec? i = (f.exec? i).map (Action.withSlots other) := by
  have hop : ({ f with slots := other } : Frame).operand? = f.operand? := funext (operand?_withSlots f other)
  cases i with
  | load r s =>
    have hs := hload r s rfl
    simp only [exec?, hs]
    cases f.slots[s]? with
    | none => rfl
    | some x => exact next_write?_withSlots f other r x
  | store v s => exact absurd rfl (hstore v s)
  | arith r op lhs rhs =>
    simp only [exec?, hop]
    cases f.operand? lhs with
    | none => rfl
    | some x =>
      cases f.operand? rhs with
      | none => rfl
      | some y => exact next_write?_withSlots f other r _
  | compare r cmp lhs rhs =>
    simp only [exec?, hop]
    cases f.operand? lhs with
    | none => rfl
    | some x =>
      cases f.operand? rhs with
      | none => rfl
      | some y => exact next_write?_withSlots f other r _
  | toDouble r v =>
    simp only [exec?, hop]
    cases f.operand? v with
    | none => rfl
    | some x => exact next_write?_withSlots f other r _
  | call r callee args =>
    simp only [exec?, hop]
    cases args.mapM f.operand? <;> rfl
  | branch target => rfl
  | condBranch test yes no =>
    simp only [exec?, hop]
    cases f.operand? test <;> rfl
  | ret v =>
    simp only [exec?, hop]
    cases f.operand? v <;> rfl

/-- Where other slots differ from those of the frame, nothing was stored on some path to
    where the frame is; `D` are the slots that may. -/
structure Apart (D : Nat → Prop) (f : Frame) (other : Array Float) : Prop where
  size : other.size = f.slots.size
  slots : ∀ c, other[c]? ≠ f.slots[c]? → D c ∧ f.body.Unstored c (f.block, f.pc)

/-- No load of a slot in `D` comes before a store. -/
def Guarded (D : Nat → Prop) (body : Body) : Prop := ∀ c, D c → ∀ p, body.Unstored c p → ¬body.Loads c p

theorem GoesOn.next_mem (h : f.GoesOn g) {i : Inst} (hi : f.body.inst? f.block f.pc = some i) :
    g.body = f.body ∧ (g.block, g.pc) ∈ i.next (f.block, f.pc) := by
  obtain ⟨j, hj, hdoes⟩ := h.does
  cases hi.symm.trans hj
  rw [Body.mem_next]
  cases hdoes with
  | effect hterm _ hbody hblock hpc _ => exact ⟨hbody, .inl ⟨hterm, by rw [hblock, hpc]⟩⟩
  | result hterm _ hw =>
    obtain ⟨_, rfl⟩ := write?_eq_some hw
    exact ⟨rfl, .inl ⟨hterm, rfl⟩⟩
  | jump _ hk => exact ⟨rfl, .inr ⟨_, hk, rfl⟩⟩

theorem GoesOn.slots (h : f.GoesOn g) {i : Inst} (hi : f.body.inst? f.block f.pc = some i)
    (hstore : ∀ v s, i ≠ .store v s) : g.slots = f.slots := by
  -- the instruction does the same over the slots there are
  have hsame : ({ f with pc := f.pc + 1 } : Frame).exec? i =
      (({ f with pc := f.pc + 1 } : Frame).exec? i).map (Action.withSlots f.slots) :=
    exec?_withSlots { f with pc := f.pc + 1 } f.slots (fun _ _ _ => rfl) hstore
  rcases h with h | ⟨f', dest, callee, args, x, h, hw⟩
  · obtain ⟨j, hj, hexec⟩ := step_inst h (by simp)
    cases hi.symm.trans hj
    rw [hexec] at hsame
    have hg : g = { g with slots := f.slots } := Action.next.inj (Option.some.inj hsame)
    rw [hg]
  · obtain ⟨j, hj, hexec⟩ := step_inst h (by simp)
    cases hi.symm.trans hj
    rw [hexec] at hsame
    have hf' : f' = { f' with slots := f.slots } := (Action.call.inj (Option.some.inj hsame)).1
    obtain ⟨_, rfl⟩ := write?_eq_some hw
    show f'.slots = f.slots
    rw [hf']

theorem not_goesOn_of_fault {err : EngineError} (h : f.step = .fault err) : ¬f.GoesOn g := by
  intro hgo
  rcases hgo with hgo | ⟨f', dest, callee, args, x, hgo, -⟩
  · rw [h] at hgo
    cases hgo
  · rw [h] at hgo
    cases hgo

theorem step_store_withSlots {v : Value} {s : Nat} (h : Apart D f other)
    (hi : f.body.inst? f.block f.pc = some (.store v s)) :
    ∃ after, ({ f with slots := other } : Frame).step = f.step.withSlots after ∧ ∀ g, f.GoesOn g → Apart D g after := by
  have hstep := Activation.Fetches.step (a := ⟨f, []⟩) hi
  have hstep' := Activation.Fetches.step (a := ⟨{ f with slots := other }, []⟩) hi
  dsimp only at hstep hstep'
  have hop : ({ f with slots := other, pc := f.pc + 1 } : Frame).operand? v = f.operand? v := by cases v <;> rfl
  have hop' : ({ f with pc := f.pc + 1 } : Frame).operand? v = f.operand? v := by cases v <;> rfl
  simp only [exec?, hop, hop', store?] at hstep hstep'
  cases hv : f.operand? v with
  | none =>
    rw [hv] at hstep hstep'
    exact ⟨other, by rw [hstep, hstep']; rfl, fun g hg => absurd hg (not_goesOn_of_fault hstep)⟩
  | some x =>
    rw [hv] at hstep hstep'
    by_cases hs : s < f.slots.size
    · have hs' : s < other.size := by rw [h.size]; exact hs
      simp only [Option.bind_eq_bind, Option.bind_some, dif_pos hs] at hstep
      simp only [Option.bind_eq_bind, Option.bind_some, dif_pos hs'] at hstep'
      refine ⟨other.set s x hs', by rw [hstep, hstep']; rfl, fun g hg => ?_⟩
      obtain ⟨hbody, hnext⟩ := hg.next_mem hi
      have hslots : g.slots = f.slots.set s x hs := by
        rcases hg with hg | ⟨f', dest, callee, args, y, hg, -⟩
        · rw [hstep] at hg
          cases hg
          rfl
        · rw [hstep] at hg
          cases hg
      refine ⟨by rw [hslots, Array.size_set, Array.size_set, h.size], fun c hc => ?_⟩
      -- the slot that was stored in is the same now
      have hne : s ≠ c := by
        intro heq
        subst heq
        simp [hslots] at hc
      rw [hslots, Array.getElem?_set_ne hs' hne, Array.getElem?_set_ne hs hne] at hc
      obtain ⟨hD, hpath⟩ := h.slots c hc
      refine ⟨hD, ?_⟩
      rw [hbody]
      exact hpath.extend hi (by simp [Ir.Inst.fate, hne]) hnext
    · have hs' : ¬s < other.size := by rw [h.size]; exact hs
      simp only [Option.bind_eq_bind, Option.bind_some, dif_neg hs] at hstep
      simp only [Option.bind_eq_bind, Option.bind_some, dif_neg hs'] at hstep'
      exact ⟨other, by rw [hstep, hstep']; rfl, fun g hg => absurd hg (not_goesOn_of_fault hstep)⟩

theorem step_withSlots (h : Apart D f other) (hD : Guarded D f.body) :
    ∃ after, ({ f with slots := other } : Frame).step = f.step.withSlots after ∧ ∀ g, f.GoesOn g → Apart D g after := by
  cases hi : f.body.inst? f.block f.pc with
  | none =>
    refine ⟨other, ?_, fun g hg => ?_⟩
    · unfold Body.inst? at hi
      simp only [step]
      cases hb : f.body.blocks[f.block]? with
      | none => rfl
      | some block =>
        rw [hb] at hi
        have hnone : block.insts[f.pc]? = none := hi
        simp only [hnone]
        rfl
    · obtain ⟨i, hi', -⟩ := hg.does
      rw [hi] at hi'
      cases hi'
  | some i =>
    by_cases hst : ∃ v s, i = .store v s
    · obtain ⟨v, s, rfl⟩ := hst
      exact step_store_withSlots h hi
    · have hstore : ∀ v s, i ≠ .store v s := fun v s hs => hst ⟨v, s, hs⟩
      have hload : ∀ r s, i = .load r s → other[s]? = f.slots[s]? := by
        intro r s hr
        by_contra hne
        obtain ⟨hs, hpath⟩ := h.slots s hne
        exact hD s hs _ hpath ⟨r, by rw [hi, hr]⟩
      refine ⟨other, ?_, fun g hg => ?_⟩
      · have hstep := Activation.Fetches.step (a := ⟨f, []⟩) hi
        have hstep' := Activation.Fetches.step (a := ⟨{ f with slots := other }, []⟩) hi
        dsimp only at hstep hstep'
        have hexec := exec?_withSlots { f with pc := f.pc + 1 } other hload hstore
        rw [hstep, hstep', hexec]
        cases ({ f with pc := f.pc + 1 } : Frame).exec? i <;> rfl
      · obtain ⟨hbody, hnext⟩ := hg.next_mem hi
        refine ⟨by rw [hg.slots hi hstore, h.size], fun c hc => ?_⟩
        rw [hg.slots hi hstore] at hc
        obtain ⟨hs, hpath⟩ := h.slots c hc
        refine ⟨hs, ?_⟩
        rw [hbody]
        refine hpath.extend hi (fun hf => ?_) hnext
        obtain ⟨v, hv⟩ := Body.fate_eq_stores.mp hf
        exact hstore v c hv

end Frame

namespace Activation

/-- A run does not depend on what is in the slots of `D` at first. -/
theorem runWithin_withSlots (M : Meaning) {D : Nat → Prop} {f : Frame} {other : Array Float} (h : f.Apart D other)
    (hD : Frame.Guarded D f.body) (calls : List Call) (n : Nat) :
    runWithin M n ⟨{ f with slots := other }, calls⟩ = runWithin M n ⟨f, calls⟩ := by
  induction n generalizing f other calls with
  | zero => rfl
  | succ n ih =>
    obtain ⟨after, hstep, hafter⟩ := Frame.step_withSlots h hD
    simp only [runWithin, Activation.step, hstep]
    cases hf : f.step with
    | next g =>
      have hgo : f.GoesOn g := .inl hf
      obtain ⟨i, hi, -⟩ := hgo.does
      exact ih (hafter g hgo) (by rw [(hgo.next_mem hi).1]; exact hD) calls
    | ret x => rfl
    | fault err => rfl
    | call f' dest callee args =>
      simp only [Frame.Action.withSlots]
      cases M calls ⟨callee, args⟩ with
      | none => rfl
      | some x =>
        simp only [Frame.write?_withSlots]
        cases hw : f'.write? dest x with
        | none => rfl
        | some g =>
          have hgo : f.GoesOn g := .inr ⟨f', dest, callee, args, x, hf, hw⟩
          obtain ⟨i, hi, -⟩ := hgo.does
          exact ih (hafter g hgo) (by rw [(hgo.next_mem hi).1]; exact hD) _

end Activation

/-! ## Main statement -/

namespace Lowering

/-- In the body of a function that is accepted, every load of a slot has a store in it before
    it, on every path, exactly if the slot is that of a parameter or the tree of the
    function does not read it before storing there on any way through. What is in the other
    slots at first has no part in what a call of the function comes to. -/
theorem define_initialized {d : Definition} {f : Ir.Function} {s s' : Lowering} (h : define d s = .ok f s') :
    ∃ t body, d.resolve? = some t ∧ f.body = some body ∧
      (∀ c, (∀ past p r, body.Path past p → body.inst? p.1 p.2 = some (.load r c) → ∃ q ∈ past, body.Stores c q) ↔
        c < d.proto.params.length ∨ t.fate c ≠ .reads) ∧
      ∀ M args frame other, Frame.enter f args = .ok frame → other.size = frame.slots.size →
        (∀ c, d.proto.params.length ≤ c → t.fate c = .reads → other[c]? = frame.slots[c]?) →
        ∀ n, Activation.runWithin M n { frame := { frame with slots := other } } = Activation.runWithin M n { frame } := by
  obtain ⟨t, ht, -, rfl⟩ := define_emit h
  have hexposed : ∀ c, (∃ p, (t.code d.proto.params).Unstored c p ∧ (t.code d.proto.params).Loads c p) ↔
      d.proto.params.length ≤ c ∧ t.fate c = .reads := by
    intro c
    rw [← t.exposed_iff d.proto.params c, exists_comm]
    simp only [Body.unstored_iff, exists_and_right]
  refine ⟨t, t.code d.proto.params, ht, rfl, fun c => ⟨fun hstored => ?_, fun hc past p r hpath hload => ?_⟩,
    fun M args frame other hframe hsize hother n => ?_⟩
  · by_contra hc
    obtain ⟨p, ⟨past, hpath, hpast⟩, r, hr⟩ := (hexposed c).mpr (by simpa using hc)
    obtain ⟨q, hq, hstores⟩ := hstored past p r hpath hr
    exact hpast q hq hstores
  · by_contra hnone
    obtain ⟨hle, hreads⟩ := (hexposed c).mp ⟨p, ⟨past, hpath, fun q hq hs => hnone ⟨q, hq, hs⟩⟩, r, hload⟩
    rcases hc with hc | hc
    · omega
    · exact hc hreads
  · let D : Nat → Prop := fun c => ¬(d.proto.params.length ≤ c ∧ t.fate c = .reads)
    obtain ⟨hbody, hblock, hpc⟩ : frame.body = t.code d.proto.params ∧ frame.block = 0 ∧ frame.pc = 0 := by
      simp only [Frame.enter] at hframe
      split at hframe
      · cases hframe
        exact ⟨rfl, rfl, rfl⟩
      · cases hframe
    have hguarded : Frame.Guarded D frame.body := by
      intro c hc p hpath hload
      rw [hbody] at hpath hload
      exact hc ((hexposed c).mp ⟨p, hpath, hload⟩)
    refine Activation.runWithin_withSlots M ⟨hsize, fun c hc => ⟨fun hx => hc (hother c hx.1 hx.2), ?_⟩⟩ hguarded [] n
    rw [hblock, hpc]
    exact ⟨[], .start, fun q hq => by cases hq⟩

/-- `def f(c) { if c then var x = 5; x; }` -/
def branchDeclared : Definition where
  proto := .function "f" ["c"]
  body := .block [.cond (.ref "c") (.var "x" (some (.number 5))) none, .ref "x"]

/-- What `f(0)` returns, if the slots are `slots` at first. -/
def zeroCall (f : Ir.Function) (slots : Array Float) : Option (Float × List Call) :=
  match Frame.enter f [0] with
  | .ok frame => Activation.runWithin (fun _ _ => none) 20 { frame := { frame with slots } }
  | .error _ => none

/-- Of the slots, only that of the variable is loaded on a path without a store; and what it
    holds at first is what `f(0)` returns. -/
theorem define_initialized_branchDeclared :
    ∃ f s' body, define branchDeclared { unit := { name := "unit" } } = .ok f s' ∧ f.body = some body ∧
      (∀ c, (∀ past p r, body.Path past p → body.inst? p.1 p.2 = some (.load r c) → ∃ q ∈ past, body.Stores c q) ↔
        c ≠ 3) ∧
      zeroCall f #[0, 0, 0, 0] = some (0, []) ∧ zeroCall f #[0, 0, 0, 7] = some (7, []) := by
  have hruns : ((define branchDeclared).run' { unit := { name := "unit" } }).map
      (fun f => (zeroCall f #[0, 0, 0, 0], zeroCall f #[0, 0, 0, 7])) = some (some (0, []), some (7, [])) := by
    decide +kernel
  cases h : define branchDeclared { unit := { name := "unit" } } with
  | error e s' =>
    delta EStateM.run' EStateM.run at hruns
    rw [h] at hruns
    cases hruns
  | ok f s' =>
    delta EStateM.run' EStateM.run at hruns
    rw [h] at hruns
    obtain ⟨hzero, hseven⟩ := Prod.mk.inj (Option.some.inj hruns)
    obtain ⟨t, body, ht, hbody, hstored, -⟩ := define_initialized h
    have htree : branchDeclared.resolve? =
        some (.seq [.cond 2 (.read 0) (.declare 3 "x" (.const 5)) (.const 0), .read 3]) := rfl
    cases htree.symm.trans ht
    refine ⟨f, s', body, rfl, hbody, fun c => (hstored c).trans ?_, hzero, hseven⟩
    by_cases hx : c = 3
    · subst hx
      decide
    · by_cases hparam : c = 0
      · subst hparam
        decide
      · have hx' : 3 ≠ c := Ne.symm hx
        have hparam' : 0 ≠ c := Ne.symm hparam
        simp only [Tree.fate, Tree.fateAll, Tree.storing, hx', hparam', if_false, Fate.andThen_passes,
          Fate.passes_andThen, Fate.either]
        split <;> simp [hx]

end Lowering

end Kaleidoscope
