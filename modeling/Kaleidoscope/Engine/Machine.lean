/-
  Kaleidoscope.Engine.Machine — running compiled functions.

  The machine has the running frame and, under it, the frames that wait for a result,
  each with the register it goes to. A call of a builtin is recorded and answered at
  once; a call of a compiled function is refused when `callLimit` calls are open, before
  anything else is asked of it. Runs are given a number of steps they may take; `none`
  says that it was not enough.
-/

import Kaleidoscope.Engine.Frame

namespace Kaleidoscope

structure Machine where
  top : Frame
  /-- The innermost caller is last. -/
  callers : Array (Frame × Nat) := #[]
  /-- The calls of builtins so far. -/
  calls : Array Invocation := #[]

/-- What a finished run leaves. -/
structure Ran where
  result : Except EngineError Float
  calls : Array Invocation := #[]

namespace Machine

inductive Progress where
  | running (m : Machine)
  | finished (r : Ran)

def Progress.stop (err : EngineError) (calls : Array Invocation) : Progress := .finished ⟨.error err, calls⟩

/-- The running frame, to go on as `f`, calls `callee`. -/
def call (e : Engine) (callers : Array (Frame × Nat)) (calls : Array Invocation) (f : Frame) (dest : Nat)
    (callee : String) (args : List Float) : Progress :=
  match e.symbols.find? callee with
  | none => .stop (.unresolved callee) calls
  | some (.builtin b) =>
    match Invocation.result? ⟨b, args⟩ with
    | none => .stop (.builtinArity callee args.length) calls
    | some x =>
      let calls := calls.push ⟨b, args⟩
      match f.write? dest x with
      | none => .stop (.badIndex f.function) calls
      | some f => .running ⟨f, callers, calls⟩
  | some (.compiled s) =>
    if callLimit ≤ callers.size + 1 then .stop (.callDepth callee) calls
    else
      match e.function? s with
      | none => .stop .stale calls
      | some g =>
        match Frame.enter g args with
        | .error err => .stop err calls
        | .ok top => .running ⟨top, callers.push (f, dest), calls⟩

/-- The running frame returns `x`. -/
def ret (callers : Array (Frame × Nat)) (calls : Array Invocation) (x : Float) : Progress :=
  match callers.back? with
  | none => .finished ⟨.ok x, calls⟩
  | some (caller, dest) =>
    let callers := callers.pop
    match caller.write? dest x with
    | none => .stop (.badIndex caller.function) calls
    | some top => .running ⟨top, callers, calls⟩

def step (e : Engine) : Machine → Progress
  | ⟨top, callers, calls⟩ =>
    match top.step with
    | .next f => .running ⟨f, callers, calls⟩
    | .call f dest callee args => call e callers calls f dest callee args
    | .ret x => ret callers calls x
    | .fault err => .stop err calls

def run (e : Engine) : Nat → Machine → Option Ran
  | 0, _ => none
  | n + 1, m =>
    match m.step e with
    | .running m => run e n m
    | .finished r => some r

end Machine

namespace Engine

def execute (e : Engine) (budget : Nat) (f : Ir.Function) (args : List Float) : Option Ran :=
  match Frame.enter f args with
  | .error err => some ⟨.error err, #[]⟩
  | .ok top => Machine.run e budget { top }

/-- Calls the function a symbol means with `args`. -/
def invoke (e : Engine) (budget : Nat) (s : Symbol) (args : List Float) : Option Ran :=
  match e.function? s with
  | none => some ⟨.error .stale, #[]⟩
  | some f => e.execute budget f args

/-- Looks a function up and calls it. -/
def run (e : Engine) (budget : Nat) (name : String) (args : List Float) : Option Ran :=
  match e.lookup name with
  | .error err => some ⟨.error err, #[]⟩
  | .ok s => e.invoke budget s args

end Engine

end Kaleidoscope
