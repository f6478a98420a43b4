import FactoryLint.Arena.Basic
import FactoryLint.Php.Visit

namespace FactoryLint.Php

abbrev Lowering := StateM Arena

namespace Lowering

def push (shape : Shape) (span : Span) : Lowering NodeId :=
  fun a => a.pushSource shape (some span)

end Lowering

open Lowering (push)

mutual

/-- A node is added after its children. Parentheses add no node, and of a closure only the values of
its own statements are kept. -/
def Expr.lower : Expr → Lowering NodeId
  | .array span elements => do push (.arrayLiteral (← lowerElements elements)) span
  | .call span callee arguments => do
    let arguments ← lowerExprs arguments
    match callee with
    | .name _ name => push (.functionCall (some name) arguments) span
    | callee =>
      let callee ← callee.lower
      push (.other (callee :: arguments)) span
  | .methodCall span object name arguments => do
    let object ← object.lower
    let arguments ← lowerExprs arguments
    push (.methodCall object name arguments) span
  | .property span object name => do
    let object ← object.lower
    push (.property object name) span
  | .operation span form => do push (.other (← form.lower)) span
  | .closure span body => do push (.other (← lowerBody body)) span
  | .parenthesized _ inner => inner.lower
  | .variable span name => push (.variable name) span
  | .literal span text => push (.literal text) span
  | .name span _ => push (.other []) span
  | .template span => push (.interpolated []) span
  | .other span => push (.other []) span

def lowerExprs : List Expr → Lowering (List NodeId)
  | [] => return []
  | e :: es => do
    let id ← e.lower
    let ids ← lowerExprs es
    return id :: ids

def lowerElements : List Element → Lowering (List NodeId)
  | [] => return []
  | .pair key value :: es => do
    let k ← key.lower
    let v ← value.lower
    let id ← push (.arrayItem (some k) v) (key.span.through value.span)
    let ids ← lowerElements es
    return id :: ids
  | .item value :: es => do
    let v ← value.lower
    let id ← push (.arrayItem none v) value.span
    let ids ← lowerElements es
    return id :: ids
  | .spread span value :: es => do
    let v ← value.lower
    let w ← push (.other [v]) span
    let id ← push (.arrayItem none w) span
    let ids ← lowerElements es
    return id :: ids

def Operation.lower : Operation → Lowering (List NodeId)
  | .unary operand => return [← operand.lower]
  | .binary lhs rhs => return [← lhs.lower, ← rhs.lower]
  | .conditional condition none otherwise => return [← condition.lower, ← otherwise.lower]
  | .conditional condition (some chosen) otherwise =>
    return [← condition.lower, ← chosen.lower, ← otherwise.lower]
  | .assignment target value => return [← target.lower, ← value.lower]
  | .index array offset => return [← array.lower, ← offset.lower]
  | .matching subject arms => return (← subject.lower) :: (← lowerArms arms)
  | .arrowFunction body => return [← body.lower]
  | .nullSafeProperty object => return [← object.lower]
  | .nullSafeCall object arguments => return (← object.lower) :: (← lowerExprs arguments)
  | .staticCall arguments => lowerExprs arguments
  | .instantiation none => return []
  | .instantiation (some arguments) => lowerExprs arguments

def lowerArms : List Arm → Lowering (List NodeId)
  | [] => return []
  | .case conditions result :: arms => do
    let ids ← lowerExprs conditions
    let id ← result.lower
    let ids' ← lowerArms arms
    return ids ++ id :: ids'
  | .default result :: arms => do
    let id ← result.lower
    let ids ← lowerArms arms
    return id :: ids

/-- The values of statements that stand directly in a body or in a block of it. -/
def lowerBody : List Stmt → Lowering (List NodeId)
  | [] => return []
  | .ret _ (some e) :: ss => do
    let id ← e.lower
    let ids ← lowerBody ss
    return id :: ids
  | .expression _ e :: ss => do
    let id ← e.lower
    let ids ← lowerBody ss
    return id :: ids
  | .block _ body :: ss => do
    let ids ← lowerBody body
    let ids' ← lowerBody ss
    return ids ++ ids'
  | _ :: ss => lowerBody ss

end

def Visited.array? : Visited → Option Expr
  | .expr (.array span elements) => some (.array span elements)
  | _ => none

def Program.arrays (program : Program) : List Expr :=
  (program.visits fun _ => true).filterMap (·.array?)

/-- Every array literal of a program as a node of one arena. A literal inside another is there
twice, once as a part and once on its own. -/
def Program.lower (program : Program) : List NodeId × Arena :=
  (lowerExprs program.arrays).run .empty

end FactoryLint.Php
