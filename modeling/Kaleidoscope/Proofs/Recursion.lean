/-
  Kaleidoscope.Proofs.Recursion — the machine's stack against plain recursion.

  `Engine.evaluate` runs a function without a stack: one body at a time, in slots and
  registers of its own, a call of a compiled function being answered by running that
  function one level deeper. A call that is made at depth `callLimit` is refused before the
  callee is looked at. What a call comes to is a `Ran` of its own, whose calls of builtins
  are put after those that the caller has made.

  The machine keeps the frames that wait in an array instead. `Machine.settle` is how it goes
  on when the running frame has come to an end: with the caller on top, which gets the
  result, or not at all. `call_cases` says once what a call does, in both.
  - `runBody_comes`, `evaluate_follows`: where recursion comes to an end, the machine comes
    there too, over any callers and after any calls; by induction on the fuel and, in one
    body, on its steps.
  - `recurs_of_run`: a machine that stops has come to the end of its running frame first, and
    recursion to the same; by induction on the steps that the machine takes, since those of
    a callee and those of the rest of the caller are fewer.
  - `open_or_returned`: while a call is open, the stack begins with the frame that made it.

  `execute_iff_evaluate` puts them together.
-/

import Kaleidoscope.Engine.Machine
import Kaleidoscope.Proofs.Dominance
import Mathlib.Logic.Relation

namespace Kaleidoscope

/-! ## Recursive evaluation -/

/-- The run with the calls of builtins that were made before it. -/
def Ran.after (calls : Array Invocation) (ran : Ran) : Ran := ⟨ran.result, calls ++ ran.calls⟩

theorem Ran.after_empty : Ran.after #[] = id := by
  funext ran
  simp only [Ran.after, Array.empty_append, id]

/-- Runs a body to its end; `answer` is asked for the result of each call. -/
def Frame.runBody (answer : String → List Float → Option Ran) : Nat → Frame → Option Ran
  | 0, _ => none
  | n + 1, f =>
    match f.step with
    | .next f => f.runBody answer n
    | .ret x => some ⟨.ok x, #[]⟩
    | .fault err => some ⟨.error err, #[]⟩
    | .call f dest callee args =>
      match answer callee args with
      | none => none
      | some ⟨.error err, calls⟩ => some ⟨.error err, calls⟩
      | some ⟨.ok x, calls⟩ =>
        match f.write? dest x with
        | none => some ⟨.error (.badIndex f.function), calls⟩
        | some f => (f.runBody answer n).map (Ran.after calls)

namespace Engine

/-- Answers a call that is made with `depth` calls open; `evaluate` runs what is called. -/
def answer (e : Engine) (depth : Nat) (evaluate : Ir.Function → List Float → Option Ran) (callee : String)
    (args : List Float) : Option Ran :=
  match e.symbols.find? callee with
  | none => some ⟨.error (.unresolved callee), #[]⟩
  | some (.builtin b) =>
    match Invocation.result? ⟨b, args⟩ with
    | none => some ⟨.error (.builtinArity callee args.length), #[]⟩
    | some x => some ⟨.ok x, #[⟨b, args⟩]⟩
  | some (.compiled s) =>
    if callLimit ≤ depth then some ⟨.error (.callDepth callee), #[]⟩
    else
      match e.function? s with
      | none => some ⟨.error .stale, #[]⟩
      | some g => evaluate g args

/-- Calls `f` by recursion, as the `depth`-th call that is open. The fuel bounds the levels
    of recursion and the steps of each body. -/
def evaluate (e : Engine) : Nat → Nat → Ir.Function → List Float → Option Ran
  | 0, _, _, _ => none
  | fuel + 1, depth, f, args =>
    match Frame.enter f args with
    | .error err => some ⟨.error err, #[]⟩
    | .ok top => top.runBody (e.answer depth (e.evaluate fuel (depth + 1))) fuel

end Engine

namespace Machine

variable {e : Engine} {m m' : Machine} {f top : Frame} {dest : Nat} {callee : String} {args : List Float}
  {callers : Array (Frame × Nat)} {calls : Array Invocation} {r ran : Ran}

/-! ## Where the machine goes on -/

def Progress.run (e : Engine) (n : Nat) : Progress → Option Ran
  | .running m => Machine.run e n m
  | .finished r => some r

theorem run_succ (e : Engine) (n : Nat) (m : Machine) : run e (n + 1) m = (m.step e).run e n := by
  rw [Machine.run]
  cases m.step e <;> rfl

/-- The running frame has ended like this; its callers are still there. -/
def settle (callers : Array (Frame × Nat)) (calls : Array Invocation) : Ran → Progress
  | ⟨.error err, more⟩ => .stop err (calls ++ more)
  | ⟨.ok x, more⟩ => ret callers (calls ++ more) x

theorem settle_after (callers : Array (Frame × Nat)) (calls more : Array Invocation) (ran : Ran) :
    settle callers calls (ran.after more) = settle callers (calls ++ more) ran := by
  obtain ⟨result, own⟩ := ran
  cases result with
  | error err => simp only [Ran.after, settle, Array.append_assoc]
  | ok x => simp only [Ran.after, settle, Array.append_assoc]

theorem settle_error (callers : Array (Frame × Nat)) (calls : Array Invocation) (err : EngineError) :
    settle callers calls ⟨.error err, #[]⟩ = .stop err calls := by
  simp only [settle, Array.append_empty]

theorem settle_start (ran : Ran) : settle #[] #[] ran = .finished ran := by
  obtain ⟨result, own⟩ := ran
  cases result with
  | error err => simp only [settle, Progress.stop, Array.empty_append]
  | ok x => simp only [settle, ret, Array.back?_empty, Array.empty_append]

/-- A result goes to the caller on top. -/
theorem settle_push (callers : Array (Frame × Nat)) (calls more : Array Invocation) (f : Frame) (dest : Nat) (x : Float) :
    settle (callers.push (f, dest)) calls ⟨.ok x, more⟩ =
      ((f.write? dest x).map fun top => .running ⟨top, callers, calls ++ more⟩).getD
        (.stop (.badIndex f.function) (calls ++ more)) := by
  simp only [settle, ret, Array.back?_push, Array.pop_push]
  cases f.write? dest x <;> rfl

/-- A call is answered at once, or it starts a function and is answered by what that one
    comes to. -/
theorem call_cases (e : Engine) (callers : Array (Frame × Nat)) (calls : Array Invocation) (f : Frame) (dest : Nat)
    (callee : String) (args : List Float) :
    (∃ ran, call e callers calls f dest callee args = settle (callers.push (f, dest)) calls ran ∧
      ∀ evaluate, e.answer (callers.size + 1) evaluate callee args = some ran) ∨
    ∃ g, (∀ evaluate, e.answer (callers.size + 1) evaluate callee args = evaluate g args) ∧
      call e callers calls f dest callee args =
        match Frame.enter g args with
        | .error err => settle (callers.push (f, dest)) calls ⟨.error err, #[]⟩
        | .ok top => .running ⟨top, callers.push (f, dest), calls⟩ := by
  unfold call Engine.answer
  cases e.symbols.find? callee with
  | none => exact .inl ⟨_, (settle_error _ calls _).symm, fun _ => rfl⟩
  | some resolution =>
    cases resolution with
    | builtin b =>
      dsimp only
      cases Invocation.result? ⟨b, args⟩ with
      | none => exact .inl ⟨_, (settle_error _ calls _).symm, fun _ => rfl⟩
      | some x =>
        refine .inl ⟨_, ?_, fun _ => rfl⟩
        dsimp only
        rw [settle_push, Array.push_eq_append]
        cases f.write? dest x <;> rfl
    | compiled s =>
      by_cases hdepth : callLimit ≤ callers.size + 1
      · simp only [if_pos hdepth]
        exact .inl ⟨_, (settle_error _ calls _).symm, fun _ => rfl⟩
      · simp only [if_neg hdepth]
        cases e.function? s with
        | none => exact .inl ⟨_, (settle_error _ calls _).symm, fun _ => rfl⟩
        | some g =>
          refine .inr ⟨g, fun _ => rfl, ?_⟩
          dsimp only
          cases Frame.enter g args with
          | error err => exact (settle_error _ calls _).symm
          | ok top => rfl

/-! ## From recursion to the machine -/

/-- From `p` the machine comes to `q`, whatever number of steps it has left there. -/
def Progress.Comes (e : Engine) (p q : Progress) : Prop := ∃ j, ∀ k, p.run e (j + k) = q.run e k

theorem Progress.Comes.refl (p : Progress) : p.Comes e p := ⟨0, fun k => by rw [Nat.zero_add]⟩

theorem Progress.Comes.trans {p q s : Progress} (h : p.Comes e q) (h' : q.Comes e s) : p.Comes e s := by
  obtain ⟨j, hj⟩ := h
  obtain ⟨i, hi⟩ := h'
  refine ⟨j + i, fun k => ?_⟩
  rw [Nat.add_assoc, hj, hi]

theorem comes_step (m : Machine) : (Progress.running m).Comes e (m.step e) := by
  refine ⟨1, fun k => ?_⟩
  rw [Nat.add_comm]
  exact run_succ e k m

/-- What `evaluate` finds for a function, the machine comes to when the function is entered
    as the `depth`-th call. -/
def Follows (e : Engine) (depth : Nat) (evaluate : Ir.Function → List Float → Option Ran) : Prop :=
  ∀ g args ran, evaluate g args = some ran →
    (∀ err, Frame.enter g args = .error err → ran = ⟨.error err, #[]⟩) ∧
    ∀ top, Frame.enter g args = .ok top → ∀ callers calls, callers.size + 1 = depth →
      (Progress.running ⟨top, callers, calls⟩).Comes e (settle callers calls ran)

variable {evaluate : Ir.Function → List Float → Option Ran}

theorem call_comes (hev : Follows e (callers.size + 2) evaluate)
    (h : e.answer (callers.size + 1) evaluate callee args = some ran) :
    (call e callers calls f dest callee args).Comes e (settle (callers.push (f, dest)) calls ran) := by
  rcases call_cases e callers calls f dest callee args with ⟨ran', hcall, hanswer⟩ | ⟨g, hanswer, hcall⟩
  · rw [hanswer evaluate] at h
    cases h
    rw [hcall]
    exact .refl _
  · rw [hanswer evaluate] at h
    rw [hcall]
    obtain ⟨hrefused, hentered⟩ := hev g args ran h
    cases henter : Frame.enter g args with
    | error err =>
      rw [hrefused err henter]
      exact .refl _
    | ok top => exact hentered top henter _ calls (by rw [Array.size_push])

theorem runBody_comes (hev : Follows e (callers.size + 2) evaluate) {n : Nat}
    (h : top.runBody (e.answer (callers.size + 1) evaluate) n = some ran) :
    (Progress.running ⟨top, callers, calls⟩).Comes e (settle callers calls ran) := by
  induction n generalizing top calls ran with
  | zero => cases h
  | succ n ih =>
    refine (comes_step _).trans ?_
    rw [Frame.runBody] at h
    rw [Machine.step]
    cases hstep : top.step with
    | next f =>
      rw [hstep] at h
      exact ih h
    | ret x =>
      rw [hstep] at h
      cases h
      simp only [settle, Array.append_empty]
      exact .refl _
    | fault err =>
      rw [hstep] at h
      cases h
      rw [settle_error]
      exact .refl _
    | call f dest callee args =>
      simp only [hstep] at h
      cases hanswer : e.answer (callers.size + 1) evaluate callee args with
      | none => simp [hanswer] at h
      | some answered =>
        simp only [hanswer] at h
        refine (call_comes hev hanswer).trans ?_
        obtain ⟨result, more⟩ := answered
        cases result with
        | error err =>
          cases h
          exact .refl _
        | ok x =>
          rw [settle_push]
          simp only at h
          cases hwrite : f.write? dest x with
          | none =>
            rw [hwrite] at h
            cases h
            exact .refl _
          | some f' =>
            rw [hwrite] at h
            obtain ⟨rest, hrest, rfl⟩ := Option.map_eq_some_iff.mp h
            rw [settle_after]
            exact ih hrest

theorem evaluate_follows (e : Engine) (fuel depth : Nat) : Follows e depth (e.evaluate fuel depth) := by
  induction fuel generalizing depth with
  | zero =>
    intro g args ran h
    cases h
  | succ fuel ih =>
    intro g args ran h
    rw [Engine.evaluate] at h
    refine ⟨fun err henter => ?_, fun top henter callers calls hdepth => ?_⟩
    · rw [henter] at h
      exact (Option.some.inj h).symm
    · subst hdepth
      rw [henter] at h
      exact runBody_comes (ih _) h

/-! ## From the machine to recursion -/

/-- Within `n` steps the running frame comes to an end, from which the machine stops with
    `r`, and recursion with as much fuel comes to the same end. -/
def Recurs (e : Engine) (n : Nat) (m : Machine) (r : Ran) : Prop :=
  ∃ ran k, k < n ∧ (settle m.callers m.calls ran).run e k = some r ∧ ∀ fuel steps, n ≤ fuel → n ≤ steps →
    m.top.runBody (e.answer (m.callers.size + 1) (e.evaluate fuel (m.callers.size + 2))) steps = some ran

/-- The next step is the frame's last. -/
theorem Recurs.last {n k : Nat} (hk : k ≤ n) (h : (settle m.callers m.calls ran).run e k = some r)
    (hbody : ∀ fuel steps, n < fuel →
      m.top.runBody (e.answer (m.callers.size + 1) (e.evaluate fuel (m.callers.size + 2))) (steps + 1) = some ran) :
    Recurs e (n + 1) m r := by
  refine ⟨ran, k, Nat.lt_succ_of_le hk, h, fun fuel steps hfuel hsteps => ?_⟩
  obtain ⟨steps, rfl⟩ := Nat.exists_eq_add_of_le' (Nat.le_trans (Nat.succ_pos n) hsteps)
  exact hbody fuel steps hfuel

/-- After the next step and the calls of builtins made in it, the frame goes on as `f`. -/
theorem Recurs.goesOn {n k : Nat} (hk : k ≤ n) {more : Array Invocation}
    (h : Recurs e k ⟨f, m.callers, m.calls ++ more⟩ r)
    (hbody : ∀ fuel steps, n < fuel →
      m.top.runBody (e.answer (m.callers.size + 1) (e.evaluate fuel (m.callers.size + 2))) (steps + 1) =
        (f.runBody (e.answer (m.callers.size + 1) (e.evaluate fuel (m.callers.size + 2))) steps).map (Ran.after more)) :
    Recurs e (n + 1) m r := by
  obtain ⟨ran, j, hj, hrest, hran⟩ := h
  refine ⟨ran.after more, j, by omega, by rwa [settle_after], fun fuel steps hfuel hsteps => ?_⟩
  obtain ⟨steps, rfl⟩ := Nat.exists_eq_add_of_le' (Nat.le_trans (Nat.succ_pos n) hsteps)
  rw [hbody fuel steps hfuel, hran fuel steps (by omega) (by omega)]
  rfl

theorem answer_of_call {n : Nat} (ih : ∀ m, run e n m = some r → Recurs e n m r)
    (h : (call e callers calls f dest callee args).run e n = some r) :
    ∃ ran k, k ≤ n ∧ (settle (callers.push (f, dest)) calls ran).run e k = some r ∧ ∀ fuel, n < fuel →
      e.answer (callers.size + 1) (e.evaluate fuel (callers.size + 2)) callee args = some ran := by
  rcases call_cases e callers calls f dest callee args with ⟨ran, hcall, hanswer⟩ | ⟨g, hanswer, hcall⟩
  · rw [hcall] at h
    exact ⟨ran, n, Nat.le_refl n, h, fun fuel _ => hanswer _⟩
  · rw [hcall] at h
    cases henter : Frame.enter g args with
    | error err =>
      rw [henter] at h
      refine ⟨_, n, Nat.le_refl n, h, fun fuel hfuel => ?_⟩
      obtain ⟨fuel, rfl⟩ := Nat.exists_eq_add_of_le' (Nat.zero_lt_of_lt hfuel)
      rw [hanswer, Engine.evaluate, henter]
    | ok top =>
      rw [henter] at h
      obtain ⟨ran, k, hk, hrest, hbody⟩ := ih _ h
      refine ⟨ran, k, Nat.le_of_lt hk, hrest, fun fuel hfuel => ?_⟩
      obtain ⟨fuel, rfl⟩ := Nat.exists_eq_add_of_le' (Nat.zero_lt_of_lt hfuel)
      rw [Array.size_push] at hbody
      rw [hanswer, Engine.evaluate, henter]
      exact hbody fuel fuel (by omega) (by omega)

theorem recurs_of_run {n : Nat} (h : run e n m = some r) : Recurs e n m r := by
  induction n using Nat.strongRecOn generalizing m with
  | ind n ih =>
    cases n with
    | zero => cases h
    | succ n =>
      obtain ⟨top, callers, calls⟩ := m
      rw [run_succ, Machine.step] at h
      cases hstep : top.step with
      | next f =>
        rw [hstep] at h
        have hrest : Recurs e n ⟨f, callers, calls ++ #[]⟩ r := by
          rw [Array.append_empty]
          exact ih n (Nat.lt_succ_self n) h
        refine .goesOn (Nat.le_refl n) hrest fun fuel steps _ => ?_
        rw [Frame.runBody, hstep, Ran.after_empty, Option.map_id_fun, id]
      | ret x =>
        rw [hstep] at h
        have hend : (settle callers calls ⟨.ok x, #[]⟩).run e n = some r := by
          rwa [settle, Array.append_empty]
        refine .last (Nat.le_refl n) hend fun fuel steps _ => ?_
        rw [Frame.runBody, hstep]
      | fault err =>
        rw [hstep] at h
        have hend : (settle callers calls ⟨.error err, #[]⟩).run e n = some r := by
          rwa [settle_error]
        refine .last (Nat.le_refl n) hend fun fuel steps _ => ?_
        rw [Frame.runBody, hstep]
      | call f dest callee args =>
        rw [hstep] at h
        obtain ⟨⟨result, more⟩, k, hk, hrest, hanswer⟩ := answer_of_call (fun m => ih n (Nat.lt_succ_self n)) h
        cases result with
        | error err =>
          have hend : (settle callers calls ⟨.error err, more⟩).run e k = some r := hrest
          refine .last hk hend fun fuel steps hfuel => ?_
          simp only [Frame.runBody, hstep, hanswer fuel hfuel]
        | ok x =>
          rw [settle_push] at hrest
          cases hwrite : f.write? dest x with
          | none =>
            rw [hwrite] at hrest
            have hend : (settle callers calls ⟨.error (.badIndex f.function), more⟩).run e k = some r := hrest
            refine .last hk hend fun fuel steps hfuel => ?_
            simp only [Frame.runBody, hstep, hanswer fuel hfuel, hwrite]
          | some f' =>
            rw [hwrite] at hrest
            refine .goesOn hk (ih k (Nat.lt_succ_of_le hk) hrest) fun fuel steps hfuel => ?_
            simp only [Frame.runBody, hstep, hanswer fuel hfuel, hwrite]

/-! ## While a call is open -/

/-- One step of a run that goes on. -/
def Goes (e : Engine) (m m' : Machine) : Prop := m.step e = .running m'

/-- The call that `f` made from over `callers` is open: `f` waits as it was. -/
def Open (callers : Array (Frame × Nat)) (f : Frame) (dest : Nat) (m : Machine) : Prop :=
  ∃ inner, m.callers = callers.push (f, dest) ++ inner

/-- The call has just returned: `f` runs, over the same callers, with the result in its
    register. -/
def Returned (callers : Array (Frame × Nat)) (f : Frame) (dest : Nat) (m : Machine) : Prop :=
  m.callers = callers ∧ ∃ x, f.write? dest x = some m.top

theorem returned_of_settle (h : settle (callers.push (f, dest)) calls ran = .running m) : Returned callers f dest m := by
  obtain ⟨result, more⟩ := ran
  cases result with
  | error err => cases h
  | ok x =>
    rw [settle_push] at h
    cases hwrite : f.write? dest x with
    | none =>
      rw [hwrite] at h
      cases h
    | some top =>
      rw [hwrite] at h
      cases h
      exact ⟨rfl, x, hwrite⟩

theorem call_running (h : call e callers calls f dest callee args = .running m) :
    m.callers = callers.push (f, dest) ∨ Returned callers f dest m := by
  rcases call_cases e callers calls f dest callee args with ⟨ran, hcall, -⟩ | ⟨g, -, hcall⟩
  · rw [hcall] at h
    exact .inr (returned_of_settle h)
  · rw [hcall] at h
    cases henter : Frame.enter g args with
    | error err =>
      rw [henter] at h
      cases h
    | ok top =>
      rw [henter] at h
      cases h
      exact .inl rfl

theorem ret_running {x : Float} (h : ret (callers.push (f, dest)) calls x = .running m) : Returned callers f dest m := by
  have hsettle : settle (callers.push (f, dest)) calls ⟨.ok x, #[]⟩ = .running m := by
    rwa [settle, Array.append_empty]
  exact returned_of_settle hsettle

/-- The call stays open, or it returns. -/
theorem Open.goes (h : Open callers f dest m) (hstep : Goes e m m') :
    Open callers f dest m' ∨ Returned callers f dest m' := by
  obtain ⟨top, stack, calls⟩ := m
  obtain ⟨inner, rfl⟩ : ∃ inner, stack = callers.push (f, dest) ++ inner := h
  rw [Goes, Machine.step] at hstep
  cases htop : top.step with
  | next g =>
    rw [htop] at hstep
    cases hstep
    exact .inl ⟨inner, rfl⟩
  | fault err =>
    rw [htop] at hstep
    cases hstep
  | call g dest' callee args =>
    rw [htop] at hstep
    rcases call_running hstep with hpush | ⟨hsame, -⟩
    · refine .inl ⟨inner.push (g, dest'), ?_⟩
      rw [hpush, Array.push_append]
    · exact .inl ⟨inner, hsame⟩
  | ret x =>
    rw [htop] at hstep
    by_cases hempty : inner = #[]
    · subst hempty
      rw [Array.append_empty] at hstep
      exact .inr (ret_running hstep)
    · obtain ⟨inner', c, rfl⟩ := Array.exists_push_of_ne_empty hempty
      obtain ⟨g, dest'⟩ := c
      rw [Array.append_push] at hstep
      exact .inl ⟨inner', (ret_running hstep).1⟩

open Relation (TransGen ReflTransGen)

theorem open_or_returned (hcall : m.top.step = .call f dest callee args) (h : TransGen (Goes e) m m') :
    Open m.callers f dest m' ∨
    ∃ back, Returned m.callers f dest back ∧ TransGen (Goes e) m back ∧ ReflTransGen (Goes e) back m' := by
  induction h with
  | @single m' hstep =>
    have hgoes : Goes e m m' := hstep
    obtain ⟨top, callers, calls⟩ := m
    rw [Goes, Machine.step, hcall] at hstep
    rcases call_running hstep with hpush | hback
    · exact .inl ⟨#[], by rw [hpush, Array.append_empty]⟩
    · exact .inr ⟨m', hback, .single hgoes, .refl⟩
  | @tail b c hb hstep ih =>
    rcases ih with hopen | ⟨back, hback, hto, hfrom⟩
    · rcases hopen.goes hstep with hopen | hback
      · exact .inl hopen
      · exact .inr ⟨c, hback, hb.tail hstep, .refl⟩
    · exact .inr ⟨back, hback, hto, hfrom.tail hstep⟩

end Machine

theorem Frame.step_call {f caller : Frame} {dest : Nat} {callee : String} {args : List Float}
    (h : f.step = .call caller dest callee args) : caller = { f with pc := f.pc + 1 } := by
  obtain ⟨i, -, hexec⟩ := step_inst h (by simp)
  cases i with
  | call r callee vs =>
    obtain ⟨xs, -, hcall⟩ := Option.bind_eq_some_iff.mp hexec
    cases hcall
    rfl
  | _ => simp [exec?, Option.bind_eq_some_iff] at hexec

namespace Engine

open Machine (Goes Open Returned)
open Relation (TransGen ReflTransGen)

theorem evaluate_of_execute {e : Engine} {f : Ir.Function} {args : List Float} {ran : Ran} {budget : Nat}
    (h : e.execute budget f args = some ran) : e.evaluate (budget + 1) 1 f args = some ran := by
  rw [execute] at h
  rw [evaluate]
  cases henter : Frame.enter f args with
  | error err =>
    rw [henter] at h
    exact h
  | ok top =>
    rw [henter] at h
    obtain ⟨ran', k, -, hend, hbody⟩ := Machine.recurs_of_run h
    rw [Machine.settle_start] at hend
    cases hend
    exact hbody budget budget (Nat.le_refl _) (Nat.le_refl _)

theorem execute_of_evaluate {e : Engine} {f : Ir.Function} {args : List Float} {ran : Ran} {fuel : Nat}
    (h : e.evaluate fuel 1 f args = some ran) : ∃ budget, e.execute budget f args = some ran := by
  obtain ⟨hrefused, hentered⟩ := Machine.evaluate_follows e fuel 1 f args ran h
  unfold execute
  cases henter : Frame.enter f args with
  | error err => exact ⟨0, by rw [hrefused err henter]⟩
  | ok top =>
    obtain ⟨j, hj⟩ := hentered top henter #[] #[] rfl
    refine ⟨j, ?_⟩
    have hrun := hj 0
    rwa [Machine.settle_start] at hrun

/-- Whatever is loaded, a function that is executed on the machine's stack ends with a value
    or an error exactly if it does by recursion, and with the same calls of builtins in the
    same order. A frame that calls waits, one instruction further on, until the call returns,
    and goes on as it was but for the register that the result goes to. -/
theorem execute_iff_evaluate (e : Engine) (f : Ir.Function) (args : List Float) :
    (∀ ran, (∃ budget, e.execute budget f args = some ran) ↔ ∃ fuel, e.evaluate fuel 1 f args = some ran) ∧
    ∀ (m m' : Machine) (caller : Frame) (dest : Nat) (callee : String) (xs : List Float),
      m.top.step = .call caller dest callee xs → TransGen (Goes e) m m' →
      caller = { m.top with pc := m.top.pc + 1 } ∧
      (Open m.callers caller dest m' ∨
        ∃ back, Returned m.callers caller dest back ∧ TransGen (Goes e) m back ∧ ReflTransGen (Goes e) back m') := by
  refine ⟨fun ran => ⟨fun h => ?_, fun h => ?_⟩, fun m m' caller dest callee xs hcall hruns => ?_⟩
  · obtain ⟨budget, h⟩ := h
    exact ⟨budget + 1, evaluate_of_execute h⟩
  · obtain ⟨fuel, h⟩ := h
    exact execute_of_evaluate h
  · exact ⟨Frame.step_call hcall, Machine.open_or_returned hcall hruns⟩

/-! A function calls another twice, which writes its argument. -/

/-- `def tick(x) { putchard(x); x }` -/
def tick : Ir.Function where
  name := "tick"
  params := ["x"]
  body := some {
    regs := #[.double]
    blocks := #[{ label := "entry", insts := #[.call 0 "putchard" [.param 0], .ret (.param 0)] }] }

def twiceBody : Ir.Body where
  regs := #[.double, .double]
  blocks := #[{ label := "entry", insts := #[.call 0 "tick" [.param 0], .call 1 "tick" [.reg 0], .ret (.reg 1)] }]

/-- `def twice(x) tick(tick(x))` -/
def twice : Ir.Function := { name := "twice", params := ["x"], body := some twiceBody }

def withTwice : Engine where
  units := #[some ⟨{ name := "ticks", functions := [tick, twice] }, none⟩]
  symbols := enlist 0 0 [tick, twice] ({} : Engine).symbols

/-- In `twice(65)`, before the first call. -/
def inTwice : Frame := { function := "twice", body := twiceBody, args := #[65], slots := #[], regs := #[0, 0] }

/-- `twice(65)` when the first call has returned. -/
def backInTwice : Machine where
  top := { inTwice with pc := 1, regs := #[65, 0] }
  calls := #[⟨.putchard, [65]⟩]

theorem execute_iff_evaluate_twice :
    (∃ budget, withTwice.execute budget twice [65] = some ⟨.ok 65, #[⟨.putchard, [65]⟩, ⟨.putchard, [65]⟩]⟩) ∧
    TransGen (Goes withTwice) { top := inTwice } backInTwice ∧
    ∃ back, Returned #[] { inTwice with pc := 1 } 0 back ∧ ReflTransGen (Goes withTwice) back backInTwice := by
  obtain ⟨hends, hcall⟩ := execute_iff_evaluate withTwice twice [65]
  have hevaluate : ((withTwice.evaluate 4 1 twice [65]).map fun ran => (ran.result, ran.calls)) =
      some (.ok 65, #[⟨.putchard, [65]⟩, ⟨.putchard, [65]⟩]) := by decide +kernel
  have hruns : TransGen (Goes withTwice) { top := inTwice } backInTwice := .head rfl (.head rfl (.single rfl))
  refine ⟨(hends _).mpr ⟨4, ?_⟩, hruns, ?_⟩
  · obtain ⟨ran, hran, hparts⟩ := Option.map_eq_some_iff.mp hevaluate
    rw [hran, ← (Prod.mk.inj hparts).1, ← (Prod.mk.inj hparts).2]
  · obtain ⟨-, hopen | ⟨back, hback, -, hfrom⟩⟩ := hcall _ _ { inTwice with pc := 1 } 0 "tick" [65] rfl hruns
    · -- nothing waits in the end
      obtain ⟨inner, hinner⟩ := hopen
      have hsize : 0 = 1 + inner.size := by simpa [backInTwice] using congrArg Array.size hinner
      omega
    · exact ⟨back, hback, hfrom⟩

end Engine

end Kaleidoscope
