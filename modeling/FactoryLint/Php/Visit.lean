import FactoryLint.Php.Program

namespace FactoryLint.Php

/-- A stop of a walk. A walk goes through statements and expressions from the outside to the inside
and in source order; at each of them it is decided whether what lies inside is walked through. -/
inductive Visited
  | stmt (s : Stmt)
  | expr (e : Expr)

namespace Visited

def span : Visited → Span
  | .stmt s => s.span
  | .expr e => e.span

def lead (enter : Visited → Bool) (v : Visited) (inside : List Visited) : List Visited :=
  v :: if enter v then inside else []

end Visited

open Visited

variable (enter : Visited → Bool)

mutual

def Expr.inside : Expr → List Visited
  | .array _ elements => elementVisits elements
  | .call _ callee arguments =>
    lead enter (.expr callee) callee.inside ++ exprVisits arguments
  | .methodCall _ object _ arguments =>
    lead enter (.expr object) object.inside ++ exprVisits arguments
  | .property _ object _ => lead enter (.expr object) object.inside
  | .operation _ form => form.inside
  | .closure _ body => stmtVisits body
  | .parenthesized _ inner => lead enter (.expr inner) inner.inside
  | .variable _ _ => []
  | .literal _ _ => []
  | .name _ _ => []
  | .template _ => []
  | .other _ => []

def exprVisits : List Expr → List Visited
  | [] => []
  | e :: es => lead enter (.expr e) e.inside ++ exprVisits es

def elementVisits : List Element → List Visited
  | [] => []
  | .pair key value :: es =>
    lead enter (.expr key) key.inside ++ lead enter (.expr value) value.inside ++
      elementVisits es
  | .item value :: es => lead enter (.expr value) value.inside ++ elementVisits es
  | .spread _ value :: es => lead enter (.expr value) value.inside ++ elementVisits es

/-- The class of a static call and that of a new object are not walked into. -/
def Operation.inside : Operation → List Visited
  | .unary operand => lead enter (.expr operand) operand.inside
  | .binary lhs rhs =>
    lead enter (.expr lhs) lhs.inside ++ lead enter (.expr rhs) rhs.inside
  | .conditional condition none otherwise =>
    lead enter (.expr condition) condition.inside ++
      lead enter (.expr otherwise) otherwise.inside
  | .conditional condition (some chosen) otherwise =>
    lead enter (.expr condition) condition.inside ++ lead enter (.expr chosen) chosen.inside ++
      lead enter (.expr otherwise) otherwise.inside
  | .assignment target value =>
    lead enter (.expr target) target.inside ++ lead enter (.expr value) value.inside
  | .index array offset =>
    lead enter (.expr array) array.inside ++ lead enter (.expr offset) offset.inside
  | .matching subject arms => lead enter (.expr subject) subject.inside ++ armVisits arms
  | .arrowFunction body => lead enter (.expr body) body.inside
  | .nullSafeProperty object => lead enter (.expr object) object.inside
  | .nullSafeCall object arguments =>
    lead enter (.expr object) object.inside ++ exprVisits arguments
  | .staticCall arguments => exprVisits arguments
  | .instantiation none => []
  | .instantiation (some arguments) => exprVisits arguments

def armVisits : List Arm → List Visited
  | [] => []
  | .case conditions result :: arms =>
    exprVisits conditions ++ lead enter (.expr result) result.inside ++ armVisits arms
  | .default result :: arms => lead enter (.expr result) result.inside ++ armVisits arms

def Stmt.inside : Stmt → List Visited
  | .expression _ e => lead enter (.expr e) e.inside
  | .block _ body => stmtVisits body
  | .ret _ none => []
  | .ret _ (some e) => lead enter (.expr e) e.inside
  | .control _ form => form.inside
  | .classDecl _ _ _ members => memberVisits members
  | .namespaceDecl _ body => stmtVisits body
  | .useDecl _ => []
  | .other _ => []

def stmtVisits : List Stmt → List Visited
  | [] => []
  | s :: ss => lead enter (.stmt s) s.inside ++ stmtVisits ss

/-- What a loop over a collection assigns to is not walked into, and neither is what the cases of a
choice are compared with. -/
def Control.inside : Control → List Visited
  | .branch condition body elseIfs none =>
    lead enter (.expr condition) condition.inside ++ body.inside ++ elseIfVisits elseIfs
  | .branch condition body elseIfs (some otherwise) =>
    lead enter (.expr condition) condition.inside ++ body.inside ++ elseIfVisits elseIfs ++
      otherwise.inside
  | .forEach collection body =>
    lead enter (.expr collection) collection.inside ++ body.inside
  | .forLoop first conditions next body =>
    exprVisits first ++ exprVisits conditions ++ exprVisits next ++ body.inside
  | .whileLoop condition body => lead enter (.expr condition) condition.inside ++ body.inside
  | .doWhile body condition =>
    lead enter (.stmt body) body.inside ++ lead enter (.expr condition) condition.inside
  | .choice subject cases => lead enter (.expr subject) subject.inside ++ blockVisits cases
  | .attempt body handlers none => stmtVisits body ++ blockVisits handlers
  | .attempt body handlers (some last) =>
    stmtVisits body ++ blockVisits handlers ++ stmtVisits last
  | .print values => exprVisits values
  | .function body => stmtVisits body
  | .traitBody members => memberVisits members

def Body.inside : Body → List Visited
  | .statement s => lead enter (.stmt s) s.inside
  | .delimited body => stmtVisits body

def elseIfVisits : List ElseIf → List Visited
  | [] => []
  | .mk condition body :: elseIfs =>
    lead enter (.expr condition) condition.inside ++ body.inside ++ elseIfVisits elseIfs

def blockVisits : List (List Stmt) → List Visited
  | [] => []
  | body :: blocks => stmtVisits body ++ blockVisits blocks

def memberVisits : List Member → List Visited
  | [] => []
  | .method body :: members => stmtVisits body ++ memberVisits members
  | .other :: members => memberVisits members

end

def Program.visits (program : Program) : List Visited :=
  stmtVisits enter program

end FactoryLint.Php
