/-
  Kaleidoscope.Engine.Basic — loaded units and their names.

  One table resolves names for all units: to a builtin, or to a function by the number
  of its unit and its place there. A unit's number is never given again, so a symbol
  means one function for ever, or none once its unit is gone. A compiled function takes
  precedence over a builtin of its name, which comes back when the function goes.
  Units loaded under a tracker are released together.

  A name is looked up together with the callees of its unit: each must resolve, to a
  function with as many parameters as the unit declares it with.
-/

import Kaleidoscope.Bindings
import Kaleidoscope.Builtin
import Kaleidoscope.Ir.Basic

namespace Kaleidoscope

/-- How many calls may be open at once. -/
def callLimit : Nat := 100000

inductive EngineError where
  | duplicate (name : String)
  | notFound (name : String)
  | notCompiled (name : String)
  | stale
  | unresolvedCallee (name : String)
  | declaredArity (name : String) (actual declared : Nat)
  | noBody (name : String)
  | callArity (name : String) (found wanted : Nat)
  | builtinArity (name : String) (found : Nat)
  | noTerminator (name : String)
  | callDepth (callee : String)
  | unresolved (callee : String)
  | badIndex (name : String)
  deriving DecidableEq, Repr

def EngineError.message : EngineError → String
  | duplicate name => s!"duplicate definition of symbol '{name}'"
  | notFound name => s!"symbol '{name}' not found"
  | notCompiled name => s!"'{name}' is a runtime builtin, not a compiled function"
  | stale => "stale symbol"
  | unresolvedCallee name => s!"unresolved external symbol '{name}'"
  | declaredArity name actual declared =>
    s!"symbol '{name}' takes {actual} arguments but was declared with {declared}"
  | noBody name => s!"'{name}' has no body"
  | callArity name found wanted => s!"'{name}' called with {found} arguments, expected {wanted}"
  | builtinArity name found => s!"'{name}' called with {found} arguments"
  | noTerminator name => s!"block without terminator in '{name}'"
  | callDepth callee => s!"call depth limit of {callLimit} exceeded in '{callee}'"
  | unresolved callee => s!"unresolved symbol '{callee}'"
  | badIndex name => s!"index out of range in '{name}'"

/-- A compiled function: the number of its unit and its place there. -/
structure Symbol where
  unit : Nat
  index : Nat
  deriving DecidableEq, Repr

inductive Resolution where
  | builtin (b : Builtin)
  | compiled (s : Symbol)
  deriving DecidableEq, Repr

structure Tracker where
  id : Nat
  deriving DecidableEq, Repr

structure Loaded where
  unit : Ir.CompilationUnit
  tracker : Option Tracker
  deriving DecidableEq, Repr

structure Engine where
  /-- By number; a released unit leaves its place empty. -/
  units : Array (Option Loaded) := #[]
  symbols : Bindings Resolution := Builtin.all.map fun b => (b.name, .builtin b)
  /-- How many trackers were created. -/
  trackers : Nat := 0
  deriving DecidableEq, Repr

namespace Engine

/-- A change keeps the engine it came to also when it fails. -/
abbrev Change (α : Type) := EStateM EngineError Engine α

/-! ## What is loaded -/

def loaded? (e : Engine) (unit : Nat) : Option Loaded := (e.units[unit]?).join

def function? (e : Engine) (s : Symbol) : Option Ir.Function :=
  (e.loaded? s.unit).bind fun l => l.unit.functions[s.index]?

/-- Whether a compiled function has this name. -/
def isDefined (e : Engine) (name : String) : Bool :=
  match e.symbols.find? name with
  | some (.compiled _) => true
  | _ => false

def symbolCount (e : Engine) : Nat :=
  e.symbols.countP fun p => match p.2 with
    | .compiled _ => true
    | .builtin _ => false

def unitCount (e : Engine) : Nat := e.units.countP Option.isSome

/-! ## Loading and releasing -/

def newTracker (e : Engine) : Tracker × Engine := (⟨e.trackers + 1⟩, { e with trackers := e.trackers + 1 })

/-- Resolves the defined functions of unit `unit`, the first of `fs` being at place `i`. -/
def enlist (unit : Nat) : Nat → List Ir.Function → Bindings Resolution → Bindings Resolution
  | _, [], symbols => symbols
  | i, f :: fs, symbols =>
    enlist unit (i + 1) fs (if f.isDeclaration then symbols else symbols.insert f.name (.compiled ⟨unit, i⟩))

/-- A compiled function needs a name that no other has. -/
def checkName (f : Ir.Function) : Change Unit := do
  if !f.isDeclaration && (← get).isDefined f.name then throw (.duplicate f.name)

def add (u : Ir.CompilationUnit) (tracker : Option Tracker) : Change Unit := do
  u.functions.forM checkName
  modify fun e => { e with
    symbols := enlist e.units.size 0 u.functions e.symbols
    units := e.units.push (some ⟨u, tracker⟩) }

/-- Takes a name from unit `unit` back, if it resolves there. -/
def disown (unit : Nat) (symbols : Bindings Resolution) (name : String) : Bindings Resolution :=
  match symbols.find? name with
  | some (.compiled s) =>
    if s.unit = unit then symbols.restore name ((Builtin.ofName? name).map .builtin) else symbols
  | _ => symbols

def ownedBy (t : Tracker) (l : Option Loaded) : Bool := l.any fun l => l.tracker = some t

/-- The names of the units of `t` are taken back, the first of `units` having the
    number `i`. -/
def disownUnits (t : Tracker) : Nat → List (Option Loaded) → Bindings Resolution → Bindings Resolution
  | _, [], symbols => symbols
  | i, l :: units, symbols =>
    let names := if ownedBy t l then (l.map fun l => l.unit.functions.map Ir.Function.name).getD [] else []
    disownUnits t (i + 1) units (names.foldl (disown i) symbols)

def release (e : Engine) (t : Tracker) : Engine :=
  { e with
    units := e.units.map fun l => if ownedBy t l then none else l
    symbols := disownUnits t 0 e.units.toList e.symbols }

/-! ## Linking -/

/-- What a unit's bodies call, each name once, in the order of the first calls. -/
def callees (u : Ir.CompilationUnit) : List String :=
  let insts := u.functions.flatMap fun f => match f.body with
    | some body => body.blocks.toList.flatMap fun b => b.insts.toList
    | none => []
  (insts.filterMap fun i => match i with
    | .call _ callee _ => some callee
    | _ => none).eraseDups

def arity? (e : Engine) : Resolution → Option Nat
  | .builtin b => some b.arity
  | .compiled s => (e.function? s).map Ir.Function.arity

def linkCallee (e : Engine) (u : Ir.CompilationUnit) (callee : String) : Except EngineError Unit :=
  match e.symbols.find? callee with
  | none => .error (.unresolvedCallee callee)
  | some r =>
    match e.arity? r with
    | none => .error .stale
    | some actual =>
      match ((u.find? callee).map Ir.Function.arity).filter (· ≠ actual) with
      | some declared => .error (.declaredArity callee actual declared)
      | none => .ok ()

/-- Links a unit, its callees being taken in the order given; the first that fails is
    reported. -/
def linkBy (order : Ir.CompilationUnit → List String) (e : Engine) (unit : Nat) : Except EngineError Unit :=
  match e.loaded? unit with
  | none => .error .stale
  | some l => (order l.unit).forM (e.linkCallee l.unit)

def lookupBy (order : Ir.CompilationUnit → List String) (e : Engine) (name : String) : Except EngineError Symbol :=
  match e.symbols.find? name with
  | some (.compiled s) => do
    linkBy order e s.unit
    pure s
  | some (.builtin _) => .error (.notCompiled name)
  | none => .error (.notFound name)

def lookup (e : Engine) (name : String) : Except EngineError Symbol := e.lookupBy callees name

end Engine

end Kaleidoscope
