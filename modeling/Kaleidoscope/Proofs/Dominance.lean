/-
  Kaleidoscope.Proofs.Dominance — registers are written once, and before they are read.

  Sound code says of each block which registers are known there, and a branch only goes to
  blocks at which no more is known than is written by then. So along any path from the
  first block, whatever is known or was written in the block has been written on the path
  (`Body.Path.written`).

  A call of a function takes such a path. Its frame is followed from the start of the call,
  with a record of what each instruction has left in its register (`Frame.Recorded`); calls
  in between may return anything. Every frame that runs in a machine has a record
  (`Machine.Reached.recorded`).

  `define_single_assignment`: in the body of a function that is accepted, every register is
  written by one instruction, which comes before any that reads the register, on every
  path; and when the machine reads a register, it holds what was recorded for it.
-/

import Kaleidoscope.Proofs.Construction

namespace Kaleidoscope

open Ir (Body Inst Setting Value)

namespace Ir.Body

/-! ## Paths -/

/-- The instruction at place `p.2` of block `p.1` writes register `r`. -/
def Defines (body : Body) (r : Nat) (p : Nat × Nat) : Prop :=
  ∃ i, body.inst? p.1 p.2 = some i ∧ i.dest? = some r

/-- Control may come from the start of the first block to a place, over the places in the
    list. -/
inductive Path (body : Body) : List (Nat × Nat) → Nat × Nat → Prop
  | start : Path body [] (0, 0)
  | next {past : List (Nat × Nat)} {k n : Nat} {i : Inst} : Path body past (k, n) → body.inst? k n = some i →
      i.isTerminator = false → Path body (past ++ [(k, n)]) (k, n + 1)
  | jump {past : List (Nat × Nat)} {k n t : Nat} {i : Inst} : Path body past (k, n) → body.inst? k n = some i →
      t ∈ i.targets → Path body (past ++ [(k, n)]) (t, 0)

variable {s : Setting} {known : Nat → Nat → Prop} {body : Body} {past : List (Nat × Nat)} {p : Nat × Nat} {r : Nat}

theorem Path.written (h : body.Path past p) (hs : body.Sound s known) (hstart : ∀ r, ¬ known 0 r)
    (hw : body.Written known p.1 p.2 r) : ∃ q ∈ past, body.Defines r q := by
  induction h generalizing r with
  | start =>
    rcases hw with hw | ⟨m, hm, -⟩
    · exact absurd hw (hstart r)
    · exact absurd hm (Nat.not_lt_zero m)
  | @next past k n i _ hi _ ih =>
    have hcases : body.Written known k n r ∨ i.dest? = some r := by
      rcases hw with hw | ⟨m, hm, j, hj, hd⟩
      · exact .inl (.inl hw)
      · rcases Nat.lt_succ_iff_lt_or_eq.mp hm with hm | rfl
        · exact .inl (.inr ⟨m, hm, j, hj, hd⟩)
        · cases hi.symm.trans hj
          exact .inr hd
    rcases hcases with hw | hd
    · obtain ⟨q, hq, hdef⟩ := ih hw
      exact ⟨q, List.mem_append_left _ hq, hdef⟩
    · exact ⟨(k, n), by simp, i, hi, hd⟩
  | @jump past k n t i _ hi ht ih =>
    have hw : known t r := by
      rcases hw with hw | ⟨m, hm, -⟩
      · exact hw
      · exact absurd hm (Nat.not_lt_zero m)
    obtain ⟨q, hq, hdef⟩ := ih (hs.flows k n i t r hi ht hw)
    exact ⟨q, List.mem_append_left _ hq, hdef⟩

end Ir.Body

/-! ## Calls of a function -/

namespace Frame

/-- The call goes on as `g` after one instruction, whatever a call in between returns. -/
def GoesOn (f g : Frame) : Prop :=
  f.step = .next g ∨ ∃ f' dest callee args x, f.step = .call f' dest callee args ∧ f'.write? dest x = some g

/-- The record after one more instruction: the content of the register it writes. -/
def record (f g : Frame) (w : Nat → Option Float) : Nat → Option Float := fun r =>
  if (f.body.inst? f.block f.pc).bind Inst.dest? = some r then g.regs[r]? else w r

/-- A call of a function has come to `f`, and `w` records what was last written to each
    register in this call. -/
inductive Recorded : (Nat → Option Float) → Frame → Prop
  | enter {fn : Ir.Function} {args : List Float} {f : Frame} : Frame.enter fn args = .ok f → Recorded (fun _ => none) f
  | goesOn {w : Nat → Option Float} {f g : Frame} : Recorded w f → f.GoesOn g → Recorded (f.record g w) g

/-- What an instruction does to the frame at it. -/
inductive Does (f : Frame) : Inst → Frame → Prop
  | effect {i : Inst} {g : Frame} : i.isTerminator = false → i.dest? = none → g.body = f.body → g.block = f.block →
      g.pc = f.pc + 1 → g.regs = f.regs → Does f i g
  | result {i : Inst} {g : Frame} {r : Nat} {x : Float} : i.isTerminator = false → i.dest? = some r →
      ({ f with pc := f.pc + 1 } : Frame).write? r x = some g → Does f i g
  | jump {i : Inst} {k : Nat} : i.isTerminator = true → k ∈ i.targets → Does f i (f.jump k)

variable {f g : Frame}

theorem write?_eq_some {r : Nat} {x : Float} (h : f.write? r x = some g) :
    ∃ hr : r < f.regs.size, g = { f with regs := f.regs.set r x hr } := by
  unfold write? at h
  split at h
  · rename_i hr
    exact ⟨hr, (Option.some.inj h).symm⟩
  · cases h

theorem step_inst {a : Action} (h : f.step = a) (ha : ∀ e, a ≠ .fault e) :
    ∃ i, f.body.inst? f.block f.pc = some i ∧ ({ f with pc := f.pc + 1 } : Frame).exec? i = some a := by
  unfold step at h
  split at h
  · exact absurd h.symm (ha _)
  · rename_i b hb
    split at h
    · exact absurd h.symm (ha _)
    · rename_i i hi
      refine ⟨i, by simp [Body.inst?, hb, hi], ?_⟩
      cases he : ({ f with pc := f.pc + 1 } : Frame).exec? i with
      | none =>
        rw [he] at h
        exact absurd h.symm (ha _)
      | some a' =>
        rw [he] at h
        exact congrArg some h

theorem next_injective {o : Option Frame} (h : Action.next <$> o = some (.next g)) : o = some g := by
  obtain ⟨g', rfl, hg⟩ := Option.map_eq_some_iff.mp h
  cases hg
  rfl

/-- An instruction after which the frame goes on at once. -/
theorem exec?_next {i : Inst} (h : ({ f with pc := f.pc + 1 } : Frame).exec? i = some (.next g)) : Does f i g := by
  cases i with
  | load r s =>
    obtain ⟨x, -, hw⟩ := Option.bind_eq_some_iff.mp h
    exact .result rfl rfl (next_injective hw)
  | store v s =>
    obtain ⟨x, -, hw⟩ := Option.bind_eq_some_iff.mp h
    have hw := next_injective hw
    unfold store? at hw
    split at hw
    · cases hw
      exact .effect rfl rfl rfl rfl rfl rfl
    · cases hw
  | arith r op lhs rhs =>
    obtain ⟨x, -, h⟩ := Option.bind_eq_some_iff.mp h
    obtain ⟨y, -, hw⟩ := Option.bind_eq_some_iff.mp h
    exact .result rfl rfl (next_injective hw)
  | compare r cmp lhs rhs =>
    obtain ⟨x, -, h⟩ := Option.bind_eq_some_iff.mp h
    obtain ⟨y, -, hw⟩ := Option.bind_eq_some_iff.mp h
    exact .result rfl rfl (next_injective hw)
  | toDouble r v =>
    obtain ⟨x, -, hw⟩ := Option.bind_eq_some_iff.mp h
    exact .result rfl rfl (next_injective hw)
  | call r callee vs =>
    obtain ⟨xs, -, hc⟩ := Option.bind_eq_some_iff.mp h
    cases hc
  | branch k =>
    cases h
    exact .jump rfl (by simp [Inst.targets])
  | condBranch v t e =>
    obtain ⟨x, -, hj⟩ := Option.bind_eq_some_iff.mp h
    cases hj
    refine .jump rfl ?_
    simp only [Inst.targets, List.mem_cons, List.not_mem_nil, or_false]
    split
    · exact .inl rfl
    · exact .inr rfl
  | ret v =>
    obtain ⟨x, -, hr⟩ := Option.bind_eq_some_iff.mp h
    cases hr

theorem exec?_call {i : Inst} {f' : Frame} {dest : Nat} {callee : String} {args : List Float} {x : Float}
    (h : ({ f with pc := f.pc + 1 } : Frame).exec? i = some (.call f' dest callee args))
    (hw : f'.write? dest x = some g) : Does f i g := by
  cases i with
  | call r callee vs =>
    obtain ⟨xs, -, hc⟩ := Option.bind_eq_some_iff.mp h
    cases hc
    exact .result rfl rfl hw
  | _ => simp [exec?, Option.bind_eq_some_iff] at h

theorem GoesOn.does (h : f.GoesOn g) : ∃ i, f.body.inst? f.block f.pc = some i ∧ Does f i g := by
  rcases h with h | ⟨f', dest, callee, args, x, h, hw⟩
  · obtain ⟨i, hi, he⟩ := step_inst h (by simp)
    exact ⟨i, hi, exec?_next he⟩
  · obtain ⟨i, hi, he⟩ := step_inst h (by simp)
    exact ⟨i, hi, exec?_call he hw⟩

theorem Does.path {i : Inst} (h : Does f i g) (hi : f.body.inst? f.block f.pc = some i) {past : List (Nat × Nat)}
    (hp : f.body.Path past (f.block, f.pc)) :
    g.body = f.body ∧ f.body.Path (past ++ [(f.block, f.pc)]) (g.block, g.pc) := by
  cases h with
  | effect hterm _ hbody hblock hpc _ =>
    rw [hblock, hpc]
    exact ⟨hbody, .next hp hi hterm⟩
  | result hterm _ hw =>
    obtain ⟨_, rfl⟩ := write?_eq_some hw
    exact ⟨rfl, .next hp hi hterm⟩
  | jump _ hk => exact ⟨rfl, .jump hp hi hk⟩

/-- The register that the instruction writes has a content; the others keep theirs. -/
theorem Does.regs {i : Inst} (h : Does f i g) :
    (∀ r, i.dest? = some r → ∃ x, g.regs[r]? = some x) ∧ ∀ r, i.dest? ≠ some r → g.regs[r]? = f.regs[r]? := by
  cases h with
  | effect _ hd _ _ _ hregs =>
    rw [hd, hregs]
    exact ⟨fun r hr => (nomatch hr), fun r _ => rfl⟩
  | @result _ r x _ hd hw =>
    obtain ⟨hlt, rfl⟩ := write?_eq_some hw
    rw [hd]
    refine ⟨fun q hq => ?_, fun q hq => Array.getElem?_set_ne hlt fun heq => hq (congrArg some heq)⟩
    cases hq
    exact ⟨x, by simp⟩
  | jump hterm _ =>
    rw [Inst.dest?_of_isTerminator hterm]
    exact ⟨fun r hr => (nomatch hr), fun r _ => rfl⟩

/-- A call takes a path through the body, and the registers written on it hold what was
    recorded. -/
theorem Recorded.path {w : Nat → Option Float} (h : Recorded w f) :
    ∃ past, f.body.Path past (f.block, f.pc) ∧
      (∀ q ∈ past, ∀ r, f.body.Defines r q → ∃ x, w r = some x) ∧ ∀ r x, w r = some x → f.regs[r]? = some x := by
  induction h with
  | enter h =>
    unfold Frame.enter at h
    split at h
    · cases h
    · split at h
      · cases h
        exact ⟨[], .start, fun q hq => (nomatch hq), fun r x hx => nomatch hx⟩
      · cases h
  | @goesOn w f g _ hgo ih =>
    obtain ⟨past, hpath, hpast, hregs⟩ := ih
    obtain ⟨i, hi, hdoes⟩ := hgo.does
    obtain ⟨hbody, hpath'⟩ := hdoes.path hi hpath
    obtain ⟨hwritten, hkept⟩ := hdoes.regs
    have hrecord : ∀ r, f.record g w r = if i.dest? = some r then g.regs[r]? else w r := by
      intro r
      simp only [record, hi, Option.bind_some]
    rw [hbody]
    refine ⟨past ++ [(f.block, f.pc)], hpath', fun q hq r hr => ?_, fun r x hx => ?_⟩
    · rw [hrecord]
      split
      · rename_i hd
        exact hwritten r hd
      · rename_i hd
        rcases List.mem_append.mp hq with hq | hq
        · exact hpast q hq r hr
        · cases List.mem_singleton.mp hq
          obtain ⟨j, hj, hd'⟩ := hr
          cases hi.symm.trans hj
          exact absurd hd' hd
    · rw [hrecord] at hx
      split at hx
      · exact hx
      · rename_i hd
        rw [hkept r hd]
        exact hregs r x hx

end Frame

/-! ## Machines -/

namespace Machine

/-- The machines that are passed through when a function is executed. -/
inductive Reached (e : Engine) : Machine → Prop
  | start {fn : Ir.Function} {args : List Float} {top : Frame} : Frame.enter fn args = .ok top → Reached e { top }
  | step {m m' : Machine} : Reached e m → m.step e = .running m' → Reached e m'

/-- A frame that waits for the result of a call, with the register it goes to. -/
def Waits (c : Frame × Nat) : Prop := ∃ w f callee args, Frame.Recorded w f ∧ f.step = .call c.1 c.2 callee args

/-- All frames have a record. -/
structure Recorded (m : Machine) : Prop where
  top : ∃ w, m.top.Recorded w
  callers : ∀ c ∈ m.callers, Waits c

variable {e : Engine} {callers : Array (Frame × Nat)} {calls : Array Invocation}

theorem Waits.answered {f g : Frame} {dest : Nat} {x : Float} (h : Waits (f, dest)) (hw : f.write? dest x = some g) :
    ∃ w, g.Recorded w := by
  obtain ⟨w, f₀, callee, args, hrec, hstep⟩ := h
  exact ⟨_, .goesOn hrec (.inr ⟨f, dest, callee, args, x, hstep, hw⟩)⟩

theorem call_recorded {m : Machine} {f : Frame} {dest : Nat} {callee : String} {args : List Float}
    (h : call e callers calls f dest callee args = .running m) (hf : Waits (f, dest)) (hcallers : ∀ c ∈ callers, Waits c) :
    m.Recorded := by
  unfold call at h
  split at h
  · cases h
  · split at h
    · cases h
    · simp only at h
      split at h
      · cases h
      · rename_i hw
        cases h
        exact ⟨hf.answered hw, hcallers⟩
  · split at h
    · cases h
    · split at h
      · cases h
      · split at h
        · cases h
        · rename_i htop
          cases h
          refine ⟨⟨_, .enter htop⟩, fun c hc => ?_⟩
          rcases Array.mem_push.mp hc with hc | rfl
          · exact hcallers c hc
          · exact hf

theorem ret_recorded {m : Machine} {x : Float} (h : ret callers calls x = .running m)
    (hcallers : ∀ c ∈ callers, Waits c) : m.Recorded := by
  unfold ret at h
  split at h
  · cases h
  · rename_i caller dest hback
    simp only at h
    split at h
    · cases h
    · rename_i hw
      cases h
      refine ⟨(hcallers _ (Array.mem_of_back? hback)).answered hw, fun c hc => hcallers c ?_⟩
      rw [← Array.mem_toList_iff, Array.toList_pop] at hc
      exact Array.mem_toList_iff.mp ((List.dropLast_sublist _).subset hc)

theorem Reached.recorded {m : Machine} (h : Reached e m) : m.Recorded := by
  induction h with
  | start h => exact ⟨⟨_, .enter h⟩, fun c hc => by simp at hc⟩
  | @step m m' _ hstep ih =>
    obtain ⟨top, callers, calls⟩ := m
    obtain ⟨⟨w, htop⟩, hcallers⟩ := ih
    simp only [Machine.step] at hstep
    cases hs : top.step with
    | next f =>
      rw [hs] at hstep
      cases hstep
      exact ⟨⟨_, .goesOn htop (.inl hs)⟩, hcallers⟩
    | call f dest callee args =>
      rw [hs] at hstep
      exact call_recorded hstep ⟨w, top, callee, args, htop, hs⟩ hcallers
    | ret x =>
      rw [hs] at hstep
      exact ret_recorded hstep hcallers
    | fault err =>
      rw [hs] at hstep
      cases hstep

end Machine

namespace Lowering

/-- In the body of a function that is accepted, every register is written by one
    instruction, with a result of the register's type; on every path to an instruction that
    reads a register, it has been written before; and a running frame that is about to read
    a register finds what was last written to it in this call. -/
theorem define_single_assignment {d : Definition} {f : Ir.Function} {s s' : Lowering} (h : define d s = .ok f s') :
    ∃ body, f.body = some body ∧
      (∀ r < body.regs.size, ∃! p, body.Defines r p) ∧
      (∀ k n i r, body.inst? k n = some i → i.dest? = some r → body.regs[r]? = some i.resultType) ∧
      (∀ past p i r, body.Path past p → body.inst? p.1 p.2 = some i → i.Reads r → ∃ q ∈ past, body.Defines r q) ∧
      ∀ e m, Machine.Reached e m → m.top.body = body → (∃ w, m.top.Recorded w) ∧
        ∀ w, m.top.Recorded w → ∀ i r, body.inst? m.top.block m.top.pc = some i → i.Reads r →
          ∃ x, w r = some x ∧ m.top.operand? (.reg r) = some x := by
  obtain ⟨t, -, hsep, rfl⟩ := define_emit h
  generalize hbody : t.code d.proto.params = body at hsep ⊢
  have hsuits : t.Suits ⟨d.proto.params.length, body.slots.size, fun _ _ => True⟩ :=
    ⟨fun c hc => (hsep.cells c hc).1, hsep.places, fun _ _ => trivial⟩
  obtain ⟨known, hstart, hsound, -, -⟩ := Tree.code_sound rfl (by rw [hbody]) hsuits
  rw [hbody] at hsound
  have hpath : ∀ past p i r, body.Path past p → body.inst? p.1 p.2 = some i → i.Reads r →
      ∃ q ∈ past, body.Defines r q :=
    fun past p i r hp hi hr => hp.written hsound hstart (hsound.reads p.1 p.2 i r hi hr)
  refine ⟨body, rfl, fun r hr => ?_, hsound.dests, hpath, fun e m hm hm' => ⟨hm.recorded.top, ?_⟩⟩
  · obtain ⟨k, n, i, hi, hd⟩ := hsound.made r hr
    refine ⟨(k, n), ⟨i, hi, hd⟩, ?_⟩
    rintro ⟨k', n'⟩ ⟨i', hi', hd'⟩
    obtain ⟨hk, hn⟩ := hsound.once r k' n' i' k n i hi' hd' hi hd
    rw [hk, hn]
  · intro w hrec i r hi hr
    obtain ⟨past, hp, hpast, hregs⟩ := hrec.path
    rw [hm'] at hp hpast
    obtain ⟨q, hq, hdef⟩ := hpath past _ i r hp hi hr
    obtain ⟨x, hx⟩ := hpast q hq r hdef
    exact ⟨x, hx, hregs r x hx⟩

/-- In a loop around a conditional, each of the 19 registers has its instruction. -/
theorem define_single_assignment_loopWithCall : ∃ f s' body, define loopWithCall withCallee = .ok f s' ∧
    f.body = some body ∧ body.regs.size = 19 ∧ ∀ r < 19, ∃! p, body.Defines r p := by
  have hok : ((define loopWithCall).run' withCallee).map (fun f => f.body.map (·.regs.size)) = some (some 19) := by
    decide +kernel
  cases h : define loopWithCall withCallee with
  | error e s' =>
    delta EStateM.run' EStateM.run at hok
    rw [h] at hok
    cases hok
  | ok f s' =>
    delta EStateM.run' EStateM.run at hok
    rw [h] at hok
    obtain ⟨body, hbody, hone, -⟩ := define_single_assignment h
    have hsize : body.regs.size = 19 := by simpa [hbody] using hok
    exact ⟨f, s', body, rfl, hbody, hsize, hsize ▸ hone⟩

end Lowering

end Kaleidoscope
