import FactoryLint.Php.Parser.Name
import FactoryLint.Php.Program

namespace FactoryLint.Php

/-- Parsers for expressions and statements nested one level deeper. An expression is given the
least binding power that its operators may have. -/
structure Nested where
  expr : Nat → Parser Expr
  stmt : Parser Stmt

namespace Parser

variable (d : Nested)

/-- Arguments of a call. A lone `...` makes the call a reference to what it calls. -/
structure Arguments where
  values : List Expr
  isReference : Bool
  span : Span

def argument : Parser Expr := do
  if (← symbol? "...").isSome then d.expr 0
  else if ← ahead fun ts => first isWord ts && second (·.isSymbol ":") ts then
    let _ ← token
    let _ ← token
    d.expr 0
  else d.expr 0

def arguments : Parser Arguments := do
  let start ← symbol "("
  if ← ahead fun ts => first (·.isSymbol "...") ts && second (·.isSymbol ")") ts then
    let _ ← token
    return ⟨[], true, start.through (← symbol ")")⟩
  else
    let (values, stop) ← commaListUpTo ")" (argument d)
    return ⟨values, false, start.through stop⟩

def arguments? : Parser (Option Arguments) := do
  if ← atSymbol "(" then return some (← arguments d) else return none

def element? : Parser (Option Element) := do
  if ← atSymbol "," then return none
  else
    match ← symbol? "..." with
    | some dots =>
      let value ← d.expr 0
      return some (.spread (dots.through value.span) value)
    | none =>
      let value ← d.expr 0
      if (← symbol? "=>").isSome then return some (.pair value (← d.expr 0))
      else return some (.item value)

/-- The entries of an array literal up to its closing symbol. Entries left out have none, but
their comma. -/
def elements (close : String) : Parser (List Element × Span) := do
  let notClosed := fun ts => !first (·.isSymbol close) ts
  let entries ← many notClosed do
    let entry ← element? d
    if (← symbol? ",").isNone && !(← atSymbol close) then failure
    return entry
  return (entries.filterMap id, ← symbol close)

def attributeEntry : Parser Unit := do
  let _ ← className
  let _ ← arguments? d

def attributeGroup : Parser Span := do
  let start ← symbol "#["
  let (_, stop) ← commaListUpTo "]" (attributeEntry d)
  return start.through stop

def attributes : Parser (List Span) :=
  many (first (·.isSymbol "#[")) (attributeGroup d)

def block : Parser (List Stmt × Span) := do
  let start ← symbol "\x7b"
  let body ← many (fun ts => !first (·.isSymbol "\x7d") ts) d.stmt
  return (body, start.through (← symbol "\x7d"))

/-- The end of a statement. A tag that ends the code belongs to it, and so does the tag that
begins it again, if the two touch. -/
def terminator : Parser Span := do
  let t ← tokenIf fun t => t.isSymbol ";" || t.kind == .closeTag
  if t.kind == .closeTag then
    match ← tokenIf? (·.kind == .openTag) with
    | some tag => return t.span.through tag.span
    | none => return t.span
  else return t.span

def modifiers : List String :=
  ["public", "protected", "private", "static", "abstract", "final", "readonly"]

def isModifier (t : Token) : Bool :=
  isWord t && modifiers.contains t.lowered

def modifier : Parser Token := do
  let t ← tokenIf isModifier
  if ← ahead fun ts => first (·.isSymbol "(") ts && second (·.isKeyword "set") ts &&
      third (·.isSymbol ")") ts then
    let _ ← token
    let _ ← token
    let _ ← token
    return t
  else return t

def someModifiers : Parser (List Token) :=
  many (first isModifier) modifier

def initializer? : Parser (Option Expr) := do
  if (← symbol? "=").isSome then return some (← d.expr 0) else return none

def hookWith (parameters : Parser Unit) : Parser Unit := do
  let _ ← attributes d
  let _ ← someModifiers
  let _ ← symbol? "&"
  let _ ← tokenIf isWord
  if ← atSymbol "(" then parameters
  if (← symbol? "=>").isSome then
    let _ ← d.expr 0
    let _ ← symbol ";"
  else if (← symbol? ";").isSome then return
  else
    let _ ← block d

def hooksWith (parameters : Parser Unit) : Parser Unit := do
  let _ ← symbol "\x7b"
  let _ ← many (fun ts => !first (·.isSymbol "\x7d") ts) (hookWith d parameters)
  let _ ← symbol "\x7d"

def parameterWith (hooks : Parser Unit) : Parser Unit := do
  let _ ← attributes d
  let _ ← someModifiers
  let untyped := fun ts => first (fun t => t.kind == .variable || t.isSymbol "...") ts ||
    atParameterAmpersand ts
  if !(← ahead untyped) then typeHint
  let _ ← symbol? "&"
  let _ ← symbol? "..."
  let _ ← tokenIf (·.kind == .variable)
  let _ ← initializer? d
  if ← atSymbol "\x7b" then hooks

def parametersWith (hooks : Parser Unit) : Parser Unit := do
  let _ ← symbol "("
  let _ ← commaListUpTo ")" (parameterWith d hooks)

def plainParameters : Parser Unit :=
  parametersWith d failure

def hooks : Parser Unit :=
  hooksWith d (plainParameters d)

def parameters : Parser Unit :=
  parametersWith d (hooks d)

end Parser

end FactoryLint.Php
