/-
  Kaleidoscope.Lowering.Expression — code for expressions.

  Operands are lowered from left to right, each to the value that holds its result. A
  variable is a slot; `=` stores to it and has the value stored. A conditional keeps its
  result in a slot of its own, which both branches store to. A loop tests, runs its body
  and stores the step to its variable; it has the value zero, like a block without
  members and whatever is left out (an initial value, an `else` branch, a step).
-/

import Kaleidoscope.Lowering.Basic

namespace Kaleidoscope.Lowering

open Ir (Builder Value Arith Comparison)

def zero : Value := .const 0

/-- A value as the condition of a branch: true if comparable to zero and different. -/
def condition (v : Value) : Lower Value := build (Builder.compare .orderedUnequal v zero)

/-- The code of an operator on two values. -/
def combine (op : String) (l r : Value) : Lower Value := do
  match op with
  | "+" => build (Builder.arith .add l r)
  | "-" => build (Builder.arith .sub l r)
  | "*" => build (Builder.arith .mul l r)
  | "<" => do
    let less ← build (Builder.compare .unorderedLess l r)
    build (Builder.toDouble less)
  | _ => do
    match ← resolve? (Prototype.binaryName op) with
    | some _ => build (Builder.call (Prototype.binaryName op) [l, r])
    | none => throw (.unknownBinary op)

mutual

def lower : Expr → Lower Value
  | .number x => pure (.const x)
  | .ref name => do
    let slot ← slotOf name
    build (Builder.load slot)
  | .var name init => do
    let v ← lowerOption init
    let slot ← build (Builder.alloca name)
    emit (Builder.store v slot)
    modify (introduce name slot)
    pure v
  | .unary op operand => do
    let v ← lower operand
    match ← resolve? (Prototype.unaryName op) with
    | some _ => build (Builder.call (Prototype.unaryName op) [v])
    | none => throw (.unknownUnary op)
  | .binary op lhs rhs => do
    if op = "=" then
      match lhs with
      | .ref name => do
        let v ← lower rhs
        let slot ← slotOf name
        emit (Builder.store v slot)
        pure v
      | _ => throw .assignmentTarget
    else
      let l ← lower lhs
      let r ← lower rhs
      combine op l r
  | .call callee args => do
    match ← resolve? callee with
    | none => throw (.unknownFunction callee)
    | some arity =>
      if arity = args.length then
        let vs ← lowerArguments args
        build (Builder.call callee vs)
      else throw (.argumentCount callee arity args.length)
  | .cond test yes no => do
    let result ← build (Builder.alloca "if.result")
    let t ← lower test
    let c ← condition t
    let thenBlock ← build (Builder.appendBlock "if.then")
    let elseBlock ← build (Builder.appendBlock "if.else")
    let endBlock ← build (Builder.appendBlock "if.end")
    emit (Builder.condBranch c thenBlock elseBlock)
    emit (Builder.position thenBlock)
    let y ← lower yes
    emit (Builder.store y result)
    emit (Builder.branch endBlock)
    emit (Builder.position elseBlock)
    let n ← lowerOption no
    emit (Builder.store n result)
    emit (Builder.branch endBlock)
    emit (Builder.position endBlock)
    build (Builder.load result)
  | .loop name start stop step body => do
    let slot ← build (Builder.alloca name)
    let s ← lower start
    emit (Builder.store s slot)
    let testBlock ← build (Builder.appendBlock "for.test")
    let bodyBlock ← build (Builder.appendBlock "for.body")
    let endBlock ← build (Builder.appendBlock "for.end")
    emit (Builder.branch testBlock)
    let hidden := (← get).locals.find? name
    modify (bind name slot)
    ensuring
      (do
        emit (Builder.position testBlock)
        let t ← lower stop
        let c ← condition t
        emit (Builder.condBranch c bodyBlock endBlock)
        emit (Builder.position bodyBlock)
        let _ ← lower body
        let next ← lowerOption step
        emit (Builder.store next slot)
        emit (Builder.branch testBlock)
        emit (Builder.position endBlock))
      (restore name hidden)
    pure zero
  | .block members => do
    modify openScope
    ensuring (lowerMembers members zero) closeScope

def lowerOption : Option Expr → Lower Value
  | none => pure zero
  | some e => lower e

def lowerArguments : List Expr → Lower (List Value)
  | [] => pure []
  | e :: es => do
    let v ← lower e
    let vs ← lowerArguments es
    pure (v :: vs)

/-- The value of the last member; `last` if there is none. -/
def lowerMembers : List Expr → Value → Lower Value
  | [], last => pure last
  | e :: es, _ => do
    let v ← lower e
    lowerMembers es v

end

end Kaleidoscope.Lowering
