/-
  Kaleidoscope.Registry — the functions a session has seen.

  Compilation units come and go; the registry outlives them, so that a later unit can
  declare and call an earlier function. A prototype is stored under its own name.
-/

import Kaleidoscope.Bindings
import Kaleidoscope.Prototype

namespace Kaleidoscope

structure Registration where
  proto : Prototype
  /-- A body of this name was compiled. -/
  defined : Bool
  deriving DecidableEq, Repr

abbrev Registry := Bindings Registration

namespace Registry

def proto? (r : Registry) (name : String) : Option Prototype := (r.find? name).map (·.proto)

def isDefined (r : Registry) (name : String) : Bool := ((r.find? name).map (·.defined)).getD false

/-- Stores a prototype as declared, over whatever had its name. -/
def register (r : Registry) (p : Prototype) : Registry := r.insert p.name ⟨p, false⟩

def markDefined (r : Registry) (name : String) : Registry :=
  match r.find? name with
  | some entry => r.insert name { entry with defined := true }
  | none => r

end Registry

end Kaleidoscope
