/-
  Kaleidoscope.Session.Transcript — a session run to its end, and what it shows.

  Turns are taken until the text is over or one is fatal. In between, the builtins write
  and each turn is reported; a transcript keeps both in order. Values are reported with
  six decimal places.
-/

import Kaleidoscope.Session.Basic
import Kaleidoscope.Ir.Text
import Kaleidoscope.Decimal.Fixed

namespace Kaleidoscope

/-- What is said of a turn; functions are shown if `showIr`. -/
def Outcome.report (showIr : Bool) : Outcome → String
  | defined f => if showIr then f.text else ""
  | declared f => s!"Read extern:\n{f.text}\n"
  | evaluated f x => (if showIr then f.text else "") ++ s!"Evaluated to {Decimal.fixed 6 x}\n"
  | skipped => ""
  | failed e => e.diagnostic.line

inductive Event where
  /-- The builtins a turn called. -/
  | calls (is : Array Invocation)
  | report (text : String)

namespace Event

/-- What builtins wrote. -/
def written : Event → List UInt8
  | calls is => is.toList.flatMap Invocation.output
  | report _ => []

def reported : Event → String
  | calls _ => ""
  | report text => text

/-- Both on one channel. -/
def output (e : Event) : List UInt8 := e.written ++ e.reported.toUTF8.toList

end Event

structure Transcript (σ : Type := Parser) where
  events : List Event := []
  /-- The failure that ended the session, if one did. -/
  fatal : Option EngineError := none
  /-- The session at the end. -/
  session : Session σ

namespace Transcript

variable {σ : Type}

def cons (e : Event) (t : Transcript σ) : Transcript σ := { t with events := e :: t.events }

def written (t : Transcript σ) : List UInt8 := t.events.flatMap Event.written

def reported (t : Transcript σ) : String := String.join (t.events.map Event.reported)

end Transcript

namespace Session

variable {σ : Type} [TokenSource σ]

def runWithin (showIr : Bool) (budget : Nat) : Nat → Session σ → Option (Transcript σ)
  | 0, s => some { session := s }
  | n + 1, s =>
    match s.next budget with
    | none => none
    | some ⟨.over, _, s⟩ => some { session := s }
    | some ⟨.fatal e, calls, s⟩ => some { events := [.calls calls], fatal := some e, session := s }
    | some ⟨.done o, calls, s⟩ =>
      (runWithin showIr budget n s).map fun t => (t.cons (.report (o.report showIr))).cons (.calls calls)

/-- Every turn passes a token at least, so there are no more turns than tokens. -/
def run (showIr : Bool) (budget : Nat) (s : Session σ) : Option (Transcript σ) :=
  runWithin showIr budget (TokenSource.size s.parser + 1) s

end Session

end Kaleidoscope
