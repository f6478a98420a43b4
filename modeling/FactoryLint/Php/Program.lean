import FactoryLint.Text.Span

namespace FactoryLint.Php

mutual

/-- Expressions, as far as array literals and the ways to them can be seen. A member name is missing
if it is only known at run time. -/
inductive Expr
  | array (span : Span) (elements : List Element)
  | call (span : Span) (callee : Expr) (arguments : List Expr)
  | methodCall (span : Span) (object : Expr) (name : Option String) (arguments : List Expr)
  | property (span : Span) (object : Expr) (name : Option String)
  | operation (span : Span) (form : Operation)
  | closure (span : Span) (body : List Stmt)
  | parenthesized (span : Span) (inner : Expr)
  -- A variable with a plain name, given without sigil.
  | variable (span : Span) (name : String)
  | literal (span : Span) (text : String)
  -- The name of a constant or function.
  | name (span : Span) (text : String)
  | template (span : Span)
  | other (span : Span)

inductive Element
  | pair (key value : Expr)
  | item (value : Expr)
  | spread (span : Span) (value : Expr)

/-- Expressions of which nothing but the operands is told apart. -/
inductive Operation
  -- An operator in front of its operand, or a cast.
  | unary (operand : Expr)
  | binary (lhs rhs : Expr)
  | conditional (condition : Expr) (chosen : Option Expr) (otherwise : Expr)
  | assignment (target value : Expr)
  | index (array offset : Expr)
  | matching (subject : Expr) (arms : List Arm)
  | arrowFunction (body : Expr)
  | nullSafeProperty (object : Expr)
  | nullSafeCall (object : Expr) (arguments : List Expr)
  | staticCall (arguments : List Expr)
  | instantiation (arguments : Option (List Expr))

inductive Arm
  | case (conditions : List Expr) (result : Expr)
  | default (result : Expr)

inductive Stmt
  | expression (span : Span) (expr : Expr)
  | block (span : Span) (body : List Stmt)
  | ret (span : Span) (value : Option Expr)
  | control (span : Span) (form : Control)
  | classDecl (span : Span) (name : String) (parent : Option String) (members : List Member)
  | namespaceDecl (span : Span) (body : List Stmt)
  | useDecl (span : Span)
  | other (span : Span)

/-- Statements of which nothing but the expressions and statements in them is told apart. -/
inductive Control
  | branch (condition : Expr) (body : Body) (elseIfs : List ElseIf) (otherwise : Option Body)
  | forEach (collection : Expr) (body : Body)
  | forLoop (first conditions next : List Expr) (body : Body)
  | whileLoop (condition : Expr) (body : Body)
  | doWhile (body : Stmt) (condition : Expr)
  | choice (subject : Expr) (cases : List (List Stmt))
  | attempt (body : List Stmt) (handlers : List (List Stmt)) (last : Option (List Stmt))
  | print (values : List Expr)
  | function (body : List Stmt)
  | traitBody (members : List Member)

/-- One statement, or statements between a colon and a closing word. -/
inductive Body
  | statement (s : Stmt)
  | delimited (body : List Stmt)

inductive ElseIf
  | mk (condition : Expr) (body : Body)

inductive Member
  | method (body : List Stmt)
  -- A method without a body, or no method.
  | other

end

abbrev Program := List Stmt

def Expr.span : Expr → Span
  | .array span _ | .call span _ _ | .methodCall span _ _ _ | .property span _ _
  | .operation span _ | .closure span _ | .parenthesized span _ | .variable span _
  | .literal span _ | .name span _ | .template span | .other span => span

def Element.span : Element → Span
  | .pair key value => key.span.through value.span
  | .item value => value.span
  | .spread span _ => span

def Stmt.span : Stmt → Span
  | .expression span _ | .block span _ | .ret span _ | .control span _
  | .classDecl span _ _ _ | .namespaceDecl span _ | .useDecl span | .other span => span

end FactoryLint.Php
