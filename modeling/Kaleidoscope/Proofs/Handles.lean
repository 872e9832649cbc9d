/-
  Kaleidoscope.Proofs.Handles — what a symbol means after it was handed out.

  A symbol is kept by whoever looked it up, while units come and go and its name may come
  to stand for another function. `Request` is what may be asked of the engine meanwhile:
  the operations that change it, and look-ups and calls, which leave it as it is. A unit's
  number is never given again and its functions never change, so a unit that was there when
  the symbol was handed out is there unchanged until its tracker is released, and its number
  stands for nothing from then on (`loaded?_serveAll`).

  `invoke_lookup` says so of calls: a symbol that was looked up calls the function which its
  name had at that moment, for as long as no request releases the unit of that function, and
  is stale afterwards. What the name resolves to in the meantime plays no part.
-/

import Kaleidoscope.Engine.Machine
import Kaleidoscope.Proofs.Calls
import Kaleidoscope.Proofs.Mirror

namespace Kaleidoscope.Engine

/-! ## Requests -/

inductive Request where
  | change (op : Operation)
  | lookup (name : String)
  | invoke (budget : Nat) (s : Symbol) (args : List Float)
  | run (budget : Nat) (name : String) (args : List Float)

/-- The engine after a request. -/
def serve (e : Engine) : Request → Engine
  | .change op => e.perform op
  | .lookup _ | .invoke .. | .run .. => e

def serveAll (e : Engine) (requests : List Request) : Engine := requests.foldl serve e

def Request.operation? : Request → Option Operation
  | .change op => some op
  | .lookup _ | .invoke .. | .run .. => none

theorem serveAll_eq (e : Engine) (requests : List Request) :
    e.serveAll requests = e.performAll (requests.filterMap Request.operation?) := by
  induction requests generalizing e with
  | nil => rfl
  | cons request requests ih =>
    cases request with
    | change op => exact ih (e.perform op)
    | lookup name => exact ih e
    | invoke budget s args => exact ih e
    | run budget name args => exact ih e

theorem reached_serveAll (requests : List Request) : (serveAll {} requests).Reached fun _ => True := by
  rw [serveAll_eq]
  exact Reached.new.performAll fun _ _ _ => trivial

/-! ## A unit under its number -/

/-- The tracker of the unit is released by one of the requests. -/
def Releases (requests : List Request) (l : Loaded) : Prop := ∃ t, .change (.release t) ∈ requests ∧ l.tracker = some t

theorem any_releases_iff (requests : List Request) (l : Loaded) :
    ((requests.filterMap Request.operation?).any (·.releases (some l))) = true ↔ Releases requests l := by
  rw [List.any_eq_true]
  constructor
  · intro hany
    obtain ⟨op, hmem, hop⟩ := hany
    obtain ⟨request, hrequest, hchange⟩ := List.mem_filterMap.mp hmem
    cases request with
    | change op' =>
      cases hchange
      cases op with
      | newTracker => cases hop
      | add u t => cases hop
      | release t => exact ⟨t, hrequest, by simpa [Operation.releases, ownedBy] using hop⟩
    | lookup name => cases hchange
    | invoke budget s args => cases hchange
    | run budget name args => cases hchange
  · intro hreleased
    obtain ⟨t, hmem, ht⟩ := hreleased
    refine ⟨.release t, List.mem_filterMap.mpr ⟨_, hmem, rfl⟩, ?_⟩
    simp [Operation.releases, ownedBy, ht]

variable {e : Engine} {i : Nat} {l : Loaded}

/-- The unit stays until it is released, and nothing takes its number afterwards. -/
theorem loaded?_serveAll (hl : e.loaded? i = some l) (requests : List Request) :
    (¬Releases requests l → (e.serveAll requests).loaded? i = some l) ∧
    (Releases requests l → (e.serveAll requests).loaded? i = none) := by
  rw [serveAll_eq, loaded?_performAll_eq (lt_size_of_loaded? hl), hl]
  refine ⟨fun hkept => if_neg ?_, fun hreleased => if_pos ?_⟩
  · rwa [any_releases_iff]
  · rwa [any_releases_iff]

/-! ## Calling by a symbol -/

theorem invoke_of_loaded? {s : Symbol} {f : Ir.Function} (hl : e.loaded? s.unit = some l)
    (hf : l.unit.functions[s.index]? = some f) (budget : Nat) (args : List Float) :
    e.invoke budget s args = e.execute budget f args := by
  unfold invoke function?
  simp only [hl, Option.bind_some, hf]

theorem invoke_of_released {s : Symbol} (hl : e.loaded? s.unit = none) (budget : Nat) (args : List Float) :
    e.invoke budget s args = some ⟨.error .stale, #[]⟩ := by
  unfold invoke function?
  simp only [hl, Option.bind_none]

/-- A symbol that was looked up after any requests to a new engine means a function that is
    loaded then, under the name that was asked for, with a body. Whatever is asked of the
    engine later: if the unit of the function is not released, it is still there, and the
    symbol calls exactly that function; if it is, the symbol is stale. -/
theorem invoke_lookup (before : List Request) (name : String) (s : Symbol)
    (h : (serveAll {} before).lookup name = .ok s) :
    let e := serveAll {} before
    ∃ l f, e.loaded? s.unit = some l ∧ l.unit.functions[s.index]? = some f ∧ f.name = name ∧ f.isDeclaration = false ∧
      e.symbols.find? name = some (.compiled s) ∧
      ∀ later : List Request, let e' := e.serveAll later
        (¬Releases later l → e'.loaded? s.unit = some l ∧
          ∀ budget args, e'.invoke budget s args = e'.execute budget f args) ∧
        (Releases later l → e'.loaded? s.unit = none ∧
          ∀ budget args, e'.invoke budget s args = some ⟨.error .stale, #[]⟩) := by
  intro e
  have hfind : e.symbols.find? name = some (.compiled s) := lookup_ok h
  obtain ⟨l, f, hl, hf, hname, hbody⟩ := (reached_serveAll before).resolves hfind
  refine ⟨l, f, hl, hf, hname, hbody, hfind, fun later => ?_⟩
  obtain ⟨hstays, hgoes⟩ := loaded?_serveAll hl later
  refine ⟨fun hkept => ⟨hstays hkept, ?_⟩, fun hreleased => ⟨hgoes hreleased, ?_⟩⟩
  · exact invoke_of_loaded? (hstays hkept) hf
  · exact invoke_of_released (hgoes hreleased)

/-! A function is looked up; a unit with another of its name is refused, and loaded once the
first one is released. -/

def firstUnit : Ir.CompilationUnit := { name := "a", functions := [zeroFunction "k"] }

/-- Another function of the same name, in the second place of its unit. -/
def secondUnit : Ir.CompilationUnit :=
  { name := "b", functions := [zeroFunction "j",
      { name := "k", params := ["x"],
        body := some { blocks := #[{ label := "entry", insts := #[.ret (.param 0)] }] } }] }

def loadsFirst : List Request := [.change .newTracker, .change (.add firstUnit (some ⟨1⟩)), .lookup "k"]

def replacesIt : List Request :=
  [.change (.add secondUnit none), .invoke 1 ⟨0, 0⟩ [], .change (.release ⟨1⟩), .change (.add secondUnit none), .run 1 "k" []]

theorem invoke_lookup_replaced :
    (serveAll {} loadsFirst).lookup "k" = .ok ⟨0, 0⟩ ∧
    (serveAll (serveAll {} loadsFirst) replacesIt).lookup "k" = .ok ⟨1, 1⟩ ∧
    (∀ budget args, (serveAll (serveAll {} loadsFirst) (replacesIt.take 2)).invoke budget ⟨0, 0⟩ args =
      (serveAll (serveAll {} loadsFirst) (replacesIt.take 2)).execute budget (zeroFunction "k") args) ∧
    ∀ budget args, (serveAll (serveAll {} loadsFirst) replacesIt).invoke budget ⟨0, 0⟩ args =
      some ⟨.error .stale, #[]⟩ := by
  have hlookup : (serveAll {} loadsFirst).lookup "k" = .ok ⟨0, 0⟩ := by decide +kernel
  have hagain : (serveAll (serveAll {} loadsFirst) replacesIt).lookup "k" = .ok ⟨1, 1⟩ := by decide +kernel
  obtain ⟨l, f, hl, hf, -, -, -, hlater⟩ := invoke_lookup loadsFirst "k" ⟨0, 0⟩ hlookup
  have hunit : (serveAll {} loadsFirst).loaded? 0 = some ⟨firstUnit, some ⟨1⟩⟩ := by rfl
  cases hunit.symm.trans hl
  cases hf
  refine ⟨hlookup, hagain, ((hlater (replacesIt.take 2)).1 ?_).2, ((hlater replacesIt).2 ?_).2⟩
  · intro hreleased
    obtain ⟨t, hmem, -⟩ := hreleased
    simp [replacesIt] at hmem
  · exact ⟨⟨1⟩, by simp [replacesIt], rfl⟩

end Kaleidoscope.Engine
