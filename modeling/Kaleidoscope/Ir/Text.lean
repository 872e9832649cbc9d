/-
  Kaleidoscope.Ir.Text — units and functions as text.

  A name is written as it is if it consists of ASCII letters, digits, `_` and `.`, and
  otherwise between quotes. Constants are written with the fewest digits that read
  back. Slots are listed at the head of the first block.
-/

import Kaleidoscope.Ir.Basic
import Kaleidoscope.Decimal.Shortest

namespace Kaleidoscope.Ir

def symbol (name : String) : String :=
  if name.toList.all (fun c => c.isAlphanum || c == '_' || c == '.') then name else s!"\"{name}\""

def Value.text (params : List String) : Value → String
  | const x => Decimal.scientific x
  | param i => "%" ++ symbol ((params[i]?).getD "")
  | reg r => s!"%{r}"

def Arith.text : Arith → String
  | add => "fadd"
  | sub => "fsub"
  | mul => "fmul"

def Comparison.text : Comparison → String
  | unorderedLess => "ult"
  | orderedUnequal => "one"

def Body.slotText (body : Body) (s : Nat) : String :=
  "%" ++ symbol ((body.slots[s]?).getD "") ++ s!".{s}"

def Body.blockText (body : Body) (b : Nat) : String :=
  ((body.blocks[b]?).map Block.label).getD "" ++ toString b

def Inst.text (params : List String) (body : Body) : Inst → String
  | load r s => s!"%{r} = load double, double* {body.slotText s}"
  | store v s => s!"store double {v.text params}, double* {body.slotText s}"
  | arith r op l rhs => s!"%{r} = {op.text} double {l.text params}, {rhs.text params}"
  | compare r cmp l rhs => s!"%{r} = fcmp {cmp.text} double {l.text params}, {rhs.text params}"
  | toDouble r v => s!"%{r} = uitofp i1 {v.text params} to double"
  | call r callee args =>
    let args := args.map fun a => "double " ++ a.text params
    s!"%{r} = call double @{symbol callee}(" ++ String.intercalate ", " args ++ ")"
  | branch b => s!"br label %{body.blockText b}"
  | condBranch v t e => s!"br i1 {v.text params}, label %{body.blockText t}, label %{body.blockText e}"
  | ret v => s!"ret double {v.text params}"

def lines (ls : List String) : String := String.join (ls.map (· ++ "\n"))

/-- The lines of block `i`, which is headed by its label. -/
def Body.blockLines (params : List String) (body : Body) (i : Nat) (b : Block) : List String :=
  let slots := if i = 0 then (List.range body.slots.size).map fun s => s!"  {body.slotText s} = alloca double"
    else []
  (body.blockText i ++ ":") :: slots ++ b.insts.toList.map fun inst => "  " ++ inst.text params body

namespace Function

/-- A blank line stands between blocks. -/
def bodyLines (f : Function) (body : Body) : List String :=
  [""].intercalate (body.blocks.toList.mapIdx (body.blockLines f.params))

def text (f : Function) : String :=
  let params := String.intercalate ", " (f.params.map fun p => "double %" ++ symbol p)
  let header := s!"double @{symbol f.name}({params})"
  match f.body with
  | none => lines ["declare " ++ header]
  | some body => lines (("define " ++ header ++ " \x7b") :: f.bodyLines body ++ ["\x7d"])

end Function

def CompilationUnit.text (u : CompilationUnit) : String :=
  s!"; ModuleID = '{u.name}'\n" ++ String.join (u.functions.map fun f => "\n" ++ f.text)

end Kaleidoscope.Ir
