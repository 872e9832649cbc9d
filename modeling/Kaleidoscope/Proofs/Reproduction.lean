/-
  Kaleidoscope.Proofs.Reproduction — a definition is compiled to the same code everywhere.

  While a function is lowered, the unit and the registry are asked for every name that is
  called, and the builder, the variables in sight and the open blocks are changed at every
  step. An earlier definition may have left anything in all of them, in particular one that
  failed half-way. None of it gets into the code: what the unit and the registry say of a
  name decides only whether lowering goes on, and the rest is cleared before the first
  instruction. So the function can be told from the definition alone (`Definition.function?`).
  - `define_function?`: a definition that is accepted gives that function.
  - `define_reproducible`: two states that accept a definition have the same function in
    their units afterwards.
-/

import Kaleidoscope.Proofs.Acceptance

namespace Kaleidoscope

/-- The function that a definition is compiled to wherever it is accepted. -/
def Definition.function? (d : Definition) : Option Ir.Function :=
  d.resolve?.map fun t => { name := d.proto.name, params := d.proto.params, body := some (t.code d.proto.params) }

namespace Lowering

variable {d : Definition} {s t s' t' : Lowering} {f g : Ir.Function}

theorem define_function? (h : define d s = .ok f s') : d.function? = some f := by
  obtain ⟨tree, htree, -, hf⟩ := define_emit h
  rw [Definition.function?, htree, hf]
  rfl

theorem Defines.find?_unit (h : Defines d s f s') : s'.unit.find? d.proto.name = some f := by
  obtain ⟨u, -, hunit⟩ := h.unit
  rw [hunit, Ir.CompilationUnit.find?_put, if_pos h.name]

/-- Whatever two states hold, if both accept a definition, they compile it to the same
    function, with the name and the parameters of the definition, and have it in their
    units. -/
theorem define_reproducible (hs : define d s = .ok f s') (ht : define d t = .ok g t') :
    f = g ∧ f.name = d.proto.name ∧ f.params = d.proto.params ∧
    s'.unit.find? d.proto.name = some f ∧ t'.unit.find? d.proto.name = some f := by
  have hsame : f = g := Option.some.inj ((define_function? hs).symm.trans (define_function? ht))
  subst hsame
  have hf := define_ok hs
  exact ⟨rfl, hf.name, hf.params, hf.find?_unit, (define_ok ht).find?_unit⟩

/-! A definition in a new session, where the function it calls has just been declared, and
after one that failed inside a block, in another unit, with the function known from the
registry by other parameter names. -/

/-- `def f(x) { var y = g(x); for i = y; i < x; i + 1 { y = i; }; y; }` -/
def callsInBlock : Definition where
  proto := .function "f" ["x"]
  body := .block [.var "y" (some (.call "g" [.ref "x"])),
    .loop "i" (.ref "y") (.binary "<" (.ref "i") (.ref "x")) (some (.binary "+" (.ref "i") (.number 1)))
      (.block [.binary "=" (.ref "y") (.ref "i")]), .ref "y"]

def justDeclared : Lowering where
  unit := { name := "first", functions := [{ name := "g", params := ["a"] }] }
  registry := [("g", ⟨.function "g" ["a"], false⟩)]

/-- `def h(x y) { var x = y; var z = x; w; }` was given up. -/
def givenUp : Lowering :=
  left (define ⟨.function "h" ["x", "y"], .block [.var "x" (some (.ref "y")), .var "z" (some (.ref "x")), .ref "w"]⟩
    { unit := { name := "second" }, registry := [("g", ⟨.function "g" ["b"], true⟩)], ops := [] })

theorem define_reproducible_afterFailure :
    givenUp.builder.body.slots = #["x", "y", "ret", "x", "z"] ∧ givenUp.locals = [("x", 0), ("y", 1)] ∧
    ∃ f s' t', define callsInBlock justDeclared = .ok f s' ∧ define callsInBlock givenUp = .ok f t' ∧
      s'.unit.find? "f" = some f ∧ t'.unit.find? "f" = some f := by
  obtain ⟨f, hf⟩ := Option.isSome_iff_exists.mp (by decide +kernel : ((define callsInBlock).run' justDeclared).isSome = true)
  obtain ⟨g, hg⟩ := Option.isSome_iff_exists.mp (by decide +kernel : ((define callsInBlock).run' givenUp).isSome = true)
  obtain ⟨s', hs⟩ := run'_eq_some_iff.mp hf
  obtain ⟨t', ht⟩ := run'_eq_some_iff.mp hg
  obtain ⟨rfl, -, -, hsunit, htunit⟩ := define_reproducible hs ht
  exact ⟨by decide +kernel, by decide +kernel, f, s', t', hs, ht, hsunit, htunit⟩

end Lowering

end Kaleidoscope
