/-
  Kaleidoscope.Proofs.Compilation — compiled functions do what definitions mean.

  A call starts with the parameters being stored in their slots, after which the slots are
  what the cells of a starting evaluation are; then the code of the tree follows the
  evaluation, and the result is returned through a slot of its own.

  `define_returns_iff`: a function that was accepted returns, under any meaning of the
  functions it calls, exactly what its definition evaluates to, after the same calls.
-/

import Kaleidoscope.Proofs.Simulation

namespace Kaleidoscope

open Ir (Body Builder Value)
open Activation

variable {M : Meaning} {B : Body} {V : Nat → Prop} {args : List Float}

/-! ## The parameters -/

theorem enterParams_grows (i : Nat) (params : List String) {b : Builder} (hs : b.Stands) :
    b.Grows (b.enterParams i params) := by
  induction params generalizing i b with
  | nil => exact .refl hs
  | cons param params ih =>
    have g := ((Builder.Grows.refl hs).alloca param).push (.store (.param i) b.body.slots.size)
    exact g.trans (ih (i + 1) g.stands)

/-- Parameter `i` and those after it are stored; the cells before are the arguments. -/
theorem enterParams_steps (i : Nat) (params : List String) {b : Builder} {a : Activation} {w : World} (hs : b.Stands)
    (hat : At B V b.current b.here w a) (hB : (b.enterParams i params).body.Within B) (hslots : b.body.slots.size = i)
    (hlen : i + params.length = args.length) (hargs : a.frame.args = args.toArray)
    (hcells : ∀ c, w.cells c = if c < i then args.getD c 0 else 0) (hcalls : w.calls = []) :
    ∃ k a', Steps M k a a' ∧
      At B V (b.enterParams i params).current (b.enterParams i params).here (World.ofArgs args) a' := by
  induction params generalizing i b a w with
  | nil =>
    refine ⟨0, a, .refl a, hat.congr (fun c _ => ?_) hcalls.symm⟩
    rw [hcells c]
    simp only [List.length_nil, Nat.add_zero] at hlen
    split
    · rfl
    · rename_i hc
      show args.getD c 0 = 0
      rw [List.getD_eq_getElem?_getD, List.getElem?_eq_none (by omega)]
      rfl
  | cons param params ih =>
    simp only [List.length_cons] at hlen
    have g₁ := (Builder.Grows.refl hs).alloca param
    have g := g₁.push (.store (.param i) b.body.slots.size)
    have hw := (enterParams_grows (i + 1) params g.stands).within.trans hB
    have hslot : b.body.slots.size < B.slots.size := by
      have := hw.slots
      simp only [Builder.push_slots, Builder.alloca, Array.size_push] at this
      omega
    have hi : i < args.length := by omega
    have hx : a.frame.operand? (.param i) = some (args.getD i 0) := by
      show a.frame.args[i]? = _
      rw [hargs, List.getElem?_toArray, List.getD_eq_getElem?_getD, List.getElem?_eq_getElem hi]
      rfl
    have hstep := step_store (M := M) (hat.fetches (hw.code _ _ _ (Builder.push_inst g₁.stands)))
      (by rw [hat.slots]; exact hslot) hx
    have hat₁ := hat.put _ (args.getD i 0) hslot
    rw [← Builder.push_here (i := .store (.param i) b.body.slots.size) hs] at hat₁
    have hcells₁ : ∀ c, (w.store b.body.slots.size (args.getD i 0)).cells c =
        if c < i + 1 then args.getD c 0 else 0 := by
      intro c
      show (if c = b.body.slots.size then args.getD i 0 else w.cells c) = _
      rw [hcells c, hslots]
      by_cases hc : c = i
      · subst hc
        simp
      · have : c < i ↔ c < i + 1 := by omega
        simp only [if_neg hc, this]
    obtain ⟨k, a', hk, ha'⟩ := ih (i + 1) g.stands hat₁ hB (by simp [Builder.alloca, hslots]) (by omega) hargs hcells₁
      hcalls
    exact ⟨k + 1, a', .head hstep hk, ha'⟩

/-! ## The whole body -/

/-- The activation in which the code of a tree is called. -/
theorem enter_at {params : List String} {name : String} {frame : Frame}
    (h : Frame.enter { name, params, body := some B } args = .ok frame) (hV : ∀ c, V c → c < B.slots.size) :
    At B V 0 0 { cells := fun _ => 0 } { frame } ∧ frame.args = args.toArray := by
  simp only [Frame.enter] at h
  split at h
  · cases h
    exact ⟨⟨rfl, rfl, rfl, Array.size_replicate, Array.size_replicate, fun c hc => by simp [hV c hc], rfl⟩, rfl⟩
  · cases h

/-- The body of a function follows the evaluation of its tree. -/
theorem code_simulates {params : List String} {name : String} {t : Tree} {frame : Frame} (n : Nat)
    (hsep : t.Separate (t.code params).slots.size) (hlen : args.length = params.length)
    (h : Frame.enter { name, params, body := some (t.code params) } args = .ok frame) :
    Simulates M n { frame } (fun x w a => a.step M = .returned x w.calls) (t.eval M n (World.ofArgs args)) := by
  obtain ⟨b₁, h₁⟩ : ∃ b₁, (({} : Builder).appendBlock "entry").2.enterParams 0 params = b₁ := ⟨_, rfl⟩
  obtain ⟨v, b₂, h₂⟩ : ∃ v b₂, t.emit (b₁.alloca "ret").2 = (v, b₂) := ⟨_, _, rfl⟩
  obtain ⟨u, b₃, h₃⟩ : ∃ u b₃, (b₂.store v params.length).load params.length = (u, b₃) := ⟨_, _, rfl⟩
  have hcode : (b₃.ret u).body = t.code params := by
    simp only [Tree.code, h₁, h₂, h₃]
  rw [← hcode] at hsep h
  -- the stages of the code, which all grow to the whole body
  have hs₀ : (({} : Builder).appendBlock "entry").2.Stands := Nat.zero_lt_one
  have g₁ := enterParams_grows 0 params hs₀
  rw [h₁] at g₁
  have g₁' := (Builder.Grows.refl g₁.stands).alloca "ret"
  have y₂ := yields_of_emit h₂ g₁'.stands
  have g₂ := Builder.push_grows (.store v params.length) y₂.grows.stands
  have g₃ : (b₂.store v params.length).Grows b₃ := by
    have g := (Builder.Grows.refl g₂.stands).emit .double (.load · params.length)
    obtain rfl : ((b₂.store v params.length).load params.length).2 = b₃ := congrArg Prod.snd h₃
    exact g
  have g₄ := Builder.push_grows (.ret u) g₃.stands
  have w₃ : b₃.body.Within (b₃.ret u).body := g₄.within
  have w₂ : (b₂.store v params.length).body.Within (b₃.ret u).body := g₃.within.trans w₃
  have w₁ : b₂.body.Within (b₃.ret u).body := g₂.within.trans w₂
  have w₁' : (b₁.alloca "ret").2.body.Within (b₃.ret u).body := y₂.grows.within.trans w₁
  have w₀ : b₁.body.Within (b₃.ret u).body := g₁'.within.trans w₁'
  have hret : params.length < (b₃.ret u).body.slots.size := by
    have hslots := Lowering.slots_enterParams 0 params (({} : Builder).appendBlock "entry").2
    rw [h₁] at hslots
    have := w₁'.slots
    simp only [Builder.alloca, Array.size_push, hslots] at this
    omega
  -- the cells are the slots that are no places
  let V : Nat → Prop := fun c => c < (b₃.ret u).body.slots.size ∧ c ∉ t.places
  obtain ⟨hat, hargs⟩ := enter_at (V := V) h fun c hc => hc.1
  obtain ⟨k, a₁, hk, hat₁⟩ := enterParams_steps (M := M) 0 params hs₀ hat (by rw [h₁]; exact w₀) rfl (by omega) hargs
    (fun c => by simp) rfl
  rw [h₁] at hat₁
  refine Simulates.after hk ?_
  have hfit : t.Fits (b₃.ret u).body V := ⟨hsep.cells, fun p hp => ⟨hsep.places p hp, fun hV => hV.2 hp⟩⟩
  refine (follows t h₂ g₁'.stands w₁ hfit hat₁).finish fun x w a₂ e₂ => ?_
  have hstore := step_store (M := M) (e₂.ends.fetches (w₂.code _ _ _ (Builder.push_inst y₂.grows.stands)))
    (by rw [e₂.ends.slots]; exact hret) e₂.value
  have hat₃ := e₂.ends.put params.length x hret
  have hslot : (a₂.put params.length x).frame.slots[params.length]? = some x :=
    put_slot (by rw [e₂.ends.slots]; exact hret)
  rw [← Builder.push_here (i := .store v params.length) y₂.grows.stands] at hat₃
  obtain ⟨hi, hreg⟩ := within_emit h₃ g₂.stands w₃
  have hload := step_load (M := M) (hat₃.fetches hi) (by rw [hat₃.regs]; exact hreg) hslot
  have e₃ := Ends.emit (x := x) h₃ g₂.stands hreg (Nat.le_refl _) hat₃ (.refl _ _)
  refine ⟨2, _, .head hstore (.one hload), ?_⟩
  rw [step_ret (e₃.ends.fetches (Builder.push_inst g₃.stands)) e₃.value, e₃.ends.calls]
  rfl

namespace Lowering

/-- Under any meaning of the functions it calls, a function that was accepted returns a
    value exactly if its definition evaluates to that value, making the same calls. -/
theorem define_returns_iff {d : Definition} {f : Ir.Function} {s s' : Lowering} (h : define d s = .ok f s')
    (hlen : args.length = d.proto.arity) (M : Meaning) (x : Float) (calls : List Call) :
    f.Returns M args x calls ↔ d.Evaluates M args x calls := by
  obtain ⟨t, ht, hsep, rfl⟩ := define_emit h
  have henter : ∃ frame, Frame.enter
      { name := d.proto.name, params := d.proto.params, body := some (t.code d.proto.params) } args = .ok frame := by
    simp only [Frame.enter]
    exact ⟨_, if_pos hlen⟩
  obtain ⟨frame, hframe⟩ := henter
  have hsim := fun n => code_simulates (M := M) n hsep hlen hframe
  constructor
  · rintro ⟨frame', n, hframe', hrun⟩
    obtain rfl : frame = frame' := Except.ok.inj (hframe.symm.trans hframe')
    -- a loop that is given as many turns as the run has steps does not run out of them
    have hn := hsim n
    match he : t.eval M n (World.ofArgs args), hn with
    | .ok y w, ⟨k, a, hk, hret⟩ =>
      have hrun' : runWithin M (k + 1) { frame } = some (y, w.calls) := by
        rw [runWithin_steps hk, runWithin, hret]
      have := runWithin_add hrun (k + 1)
      rw [Nat.add_comm n, runWithin_add hrun' n] at this
      cases this
      exact ⟨n, by simp only [Definition.evaluateWithin, ht, he]⟩
    | .error .noResult w, ⟨k, a, hk, hhalt⟩ =>
      have hlt := steps_lt hk hrun
      obtain ⟨m, rfl⟩ := Nat.exists_eq_add_of_lt hlt
      rw [Nat.add_assoc, runWithin_steps hk, runWithin, hhalt] at hrun
      cases hrun
    | .error .outOfTurns w, ⟨k, a, hk, hle⟩ =>
      have hlt := steps_lt hk hrun
      omega
  · rintro ⟨n, he⟩
    have hn := hsim n
    simp only [Definition.evaluateWithin, ht] at he
    split at he
    · rename_i y w hy
      cases he
      rw [hy] at hn
      obtain ⟨k, a, hk, hret⟩ := hn
      refine ⟨frame, k + 1, hframe, ?_⟩
      rw [runWithin_steps hk, runWithin, hret]
    · cases he

/-- `def f(n) { var s; for i = 0, i < n in s = s + (if i < 1 then g(n) else i); s }` -/
def loopWithCall : Definition where
  proto := .function "f" ["n"]
  body := .block [.var "s" none,
    .loop "i" (.number 0) (.binary "<" (.ref "i") (.ref "n")) (some (.binary "+" (.ref "i") (.number 1)))
      (.binary "=" (.ref "s") (.binary "+" (.ref "s")
        (.cond (.binary "<" (.ref "i") (.number 1)) (.call "g" [.ref "n"]) (some (.ref "i"))))),
    .ref "s"]

/-- A unit in which `g` is declared. -/
def withCallee : Lowering := { unit := { name := "unit", functions := [{ name := "g", params := ["x"] }] } }

/-- With `g` returning its argument, `f(3)` returns `3 + 1 + 2` after one call. -/
theorem define_returns_iff_loopWithCall : ∃ f s', define loopWithCall withCallee = .ok f s' ∧
    f.Returns (fun _ c => c.args.head?) [3] 6 [⟨"g", [3]⟩] := by
  have hok : ((define loopWithCall).run' withCallee).isSome := by decide +kernel
  cases h : define loopWithCall withCallee with
  | error e s' =>
    delta EStateM.run' EStateM.run at hok
    rw [h] at hok
    cases hok
  | ok f s' =>
    refine ⟨f, s', rfl, (define_returns_iff h rfl _ _ _).mpr ⟨4, ?_⟩⟩
    decide +kernel

end Lowering

end Kaleidoscope
