import FactoryLint.Php.Parser.Member

namespace FactoryLint.Php

namespace Power

def included : Nat := 1
def printed : Nat := 5
def yielded : Nat := 6
def delegated : Nat := 7
def assignment : Nat := 8
def conditional : Nat := 9
def negation : Nat := 23
def unary : Nat := 25
def cloned : Nat := 27

/-- The power of a binary operator and the power it asks of its right operand. Most operators
group to the left. -/
def binary? (t : Token) : Option (Nat × Nat) :=
  if t.kind == .name then
    match t.lowered with
    | "or" => some (2, 3)
    | "xor" => some (3, 4)
    | "and" => some (4, 5)
    | "instanceof" => some (24, 25)
    | _ => none
  else if t.kind == .symbol then
    match t.text with
    | "??" => some (10, 10)
    | "||" => some (11, 12)
    | "&&" => some (12, 13)
    | "|" => some (13, 14)
    | "^" => some (14, 15)
    | "&" => some (15, 16)
    | "==" | "!=" | "===" | "!==" | "<>" | "<=>" => some (16, 17)
    | "<" | "<=" | ">" | ">=" => some (17, 18)
    | "|>" => some (18, 19)
    | "." => some (19, 20)
    | "<<" | ">>" => some (20, 21)
    | "+" | "-" => some (21, 22)
    | "*" | "/" | "%" => some (22, 23)
    | "**" => some (26, 26)
    | _ => none
  else none

end Power

namespace Parser

variable (d : Nested)

def holes (close : TokenKind) : Parser Span := do
  let _ ← many (first fun t => t.kind != close) do
    let t ← token
    if t.kind == .holeOpen then
      let _ ← d.expr 0
      let _ ← symbol "\x7d"
    else if t.kind != .templateText && t.kind != .documentText then failure
  return (← tokenIf (·.kind == close)).span

/-- A variable whose name is computed: further sigils before a plain variable, or an expression in
braces. The first sigil has been read. -/
def computedVariable : Parser Span := do
  let _ ← many (first (·.isSymbol "$")) token
  match ← tokenIf? (·.kind == .variable) with
  | some t => return t.span
  | none =>
    let _ ← symbol "\x7b"
    let _ ← d.expr 0
    symbol "\x7d"

def selector : Parser (Option String × Span) := do
  let t ← token
  if isWord t then return (some t.text, t.span)
  else if t.kind == .variable then return (none, t.span)
  else if t.isSymbol "$" then return (none, t.span.through (← computedVariable d))
  else if t.isSymbol "\x7b" then
    let _ ← d.expr 0
    return (none, t.span.through (← symbol "\x7d"))
  else failure

def accessor? (e : Expr) : Parser (Option Expr) := do
  if (← symbol? "[").isSome then
    match ← symbol? "]" with
    | some stop => return some (.other (e.span.through stop))
    | none =>
      let i ← d.expr 0
      return some (.operation (e.span.through (← symbol "]")) (.index e i))
  else if (← symbol? "->").isSome then
    let (name, stop) ← selector d
    match ← arguments? d with
    | none => return some (.property (e.span.through stop) e name)
    | some as =>
      let span := e.span.through as.span
      return some (if as.isReference then .other span else .methodCall span e name as.values)
  else if (← symbol? "?->").isSome then
    let (_, stop) ← selector d
    match ← arguments? d with
    | none => return some (.operation (e.span.through stop) (.nullSafeProperty e))
    | some as =>
      let span := e.span.through as.span
      return some
        (if as.isReference then .other span else .operation span (.nullSafeCall e as.values))
  else if (← symbol? "::").isSome then
    let (_, stop) ← selector d
    match ← arguments? d with
    | none => return some (.other (e.span.through stop))
    | some as =>
      let span := e.span.through as.span
      return some
        (if as.isReference then .other span else .operation span (.staticCall as.values))
  else if ← atSymbol "(" then
    let as ← arguments d
    let span := e.span.through as.span
    return some (if as.isReference then .other span else .call span e as.values)
  else
    match ← tokenIf? fun t => t.isSymbol "++" || t.isSymbol "--" with
    | some t => return some (.other (e.span.through t.span))
    | none => return none

def closureFrom (start : Span) : Parser Expr := do
  let _ ← symbol? "&"
  parameters d
  if (← keyword? "use").isSome then
    let _ ← symbol "("
    let _ ← commaListUpTo ")" do
      let _ ← symbol? "&"
      tokenIf (·.kind == .variable)
  resultType
  let (body, stop) ← block d
  return .closure (start.through stop) body

def arrowFrom (start : Span) : Parser Expr := do
  let _ ← symbol? "&"
  parameters d
  resultType
  let _ ← symbol "=>"
  let body ← d.expr 0
  return .operation (start.through body.span) (.arrowFunction body)

def functionFrom (start : Option Span) : Parser Expr := do
  let modifier ← keyword? "static"
  let start := start.or modifier
  match ← keyword? "function" with
  | some span => closureFrom d (start.getD span)
  | none =>
    let span ← keyword "fn"
    arrowFrom d (start.getD span)

def matchArm : Parser Arm := do
  let isDefault := fun ts => first (·.isKeyword "default") ts &&
    second (fun t => t.isSymbol "=>" || t.isSymbol ",") ts
  if ← ahead isDefault then
    let _ ← token
    let _ ← symbol? ","
    let _ ← symbol "=>"
    return .default (← d.expr 0)
  else
    let (conditions, _) ← commaListUpTo "=>" (d.expr 0)
    if conditions.isEmpty then failure
    return .case conditions (← d.expr 0)

def matchFrom (start : Span) : Parser Expr := do
  let subject ← parenthesized (d.expr 0)
  let _ ← symbol "\x7b"
  let (arms, stop) ← commaListUpTo "\x7d" (matchArm d)
  return .operation (start.through stop) (.matching subject arms)

def classReferenceStep? (span : Span) : Parser (Option Span) := do
  if (← symbol? "[").isSome then
    let _ ← d.expr 0
    return some (span.through (← symbol "]"))
  else
    match ← tokenIf? fun t => t.isSymbol "->" || t.isSymbol "?->" || t.isSymbol "::" with
    | some _ => return some (span.through (← selector d).2)
    | none => return none

def classReference : Parser Span := do
  if ← atSymbol "(" then
    let start ← symbol "("
    let _ ← d.expr 0
    return start.through (← symbol ")")
  else
    let t ← token
    if isClassName t || t.isKeyword "static" then
      if ← ahead fun ts => first (·.isSymbol "::") ts && second (·.kind == .variable) ts then
        iterate (classReferenceStep? d) t.span
      else return t.span
    else if t.kind == .variable then iterate (classReferenceStep? d) t.span
    else if t.isSymbol "$" then
      iterate (classReferenceStep? d) (t.span.through (← computedVariable d))
    else failure

/-- The rest of a new object after its keyword. An anonymous class is not walked into. -/
def instantiationFrom (start : Span) : Parser Expr := do
  let _ ← attributes d
  let anonymous := fun ts => first (·.isKeyword "class") ts ||
    first isModifier ts && second (fun t => t.isKeyword "class" || isModifier t) ts
  if ← ahead anonymous then
    let _ ← someModifiers
    let _ ← keyword "class"
    let _ ← arguments? d
    let _ ← parent?
    interfaces
    return .other (start.through (← members d).2)
  else
    let reference ← classReference d
    match ← arguments? d with
    | none => return .operation (start.through reference) (.instantiation none)
    | some as => return .operation (start.through as.span) (.instantiation (some as.values))

def yieldFrom (start : Span) : Parser Expr := do
  let ends := fun t : Token => t.kind == .closeTag ||
    [";", ")", "]", ",", "\x7d"].any t.isSymbol
  if (← keyword? "from").isSome then
    return .other (start.through (← d.expr Power.delegated).span)
  else if ← ahead fun ts => ts.isEmpty || first ends ts then return .other start
  else
    let value ← d.expr Power.yielded
    if (← symbol? "=>").isSome then
      return .other (start.through (← d.expr Power.yielded).span)
    else return .other (start.through value.span)

def inspectionFrom (start : Span) : Parser Expr := do
  let _ ← symbol "("
  let (values, stop) ← commaListUpTo ")" (d.expr 0)
  if values.isEmpty then failure
  return .other (start.through stop)

def wordExpr (t : Token) : Parser Expr := do
  match t.lowered with
  | "new" => instantiationFrom d t.span
  | "clone" => return .other (t.span.through (← d.expr Power.cloned).span)
  | "print" => return .other (t.span.through (← d.expr Power.printed).span)
  | "throw" => return .other (t.span.through (← d.expr 0).span)
  | "include" | "include_once" | "require" | "require_once" =>
    return .other (t.span.through (← d.expr Power.included).span)
  | "yield" => yieldFrom d t.span
  | "isset" | "empty" | "eval" => inspectionFrom d t.span
  | "exit" | "die" =>
    match ← arguments? d with
    | none => return .other t.span
    | some as => return .other (t.span.through as.span)
  | "true" | "false" | "null" => return .literal t.span t.text
  | "self" | "parent" | "static" => return .other t.span
  | "array" =>
    let _ ← symbol "("
    let (entries, stop) ← elements d ")"
    return .array (t.span.through stop) entries
  | "list" =>
    let _ ← symbol "("
    let (_, stop) ← elements d ")"
    return .other (t.span.through stop)
  | "match" => matchFrom d t.span
  | word =>
    if reserved.contains word then failure else return .name t.span t.text

def unary (start : Span) (power : Nat) : Parser Expr := do
  let e ← d.expr power
  return .operation (start.through e.span) (.unary e)

def symbolExpr (t : Token) : Parser Expr := do
  match t.text with
  | "!" => unary d t.span Power.negation
  | "-" | "+" | "~" | "@" | "&" | "++" | "--" => unary d t.span Power.unary
  | "(" =>
    let e ← d.expr 0
    return .parenthesized (t.span.through (← symbol ")")) e
  | "[" =>
    let (entries, stop) ← elements d "]"
    return .array (t.span.through stop) entries
  | "$" => return .other (t.span.through (← computedVariable d))
  | _ => failure

def atFunction (ts : List Token) : Bool :=
  first (fun t => t.isKeyword "fn" || t.isKeyword "function") ts ||
    first (·.isKeyword "static") ts &&
      second (fun t => t.isKeyword "fn" || t.isKeyword "function") ts

def operand : Parser Expr := do
  if ← atSymbol "#[" then
    let groups ← attributes d
    functionFrom d groups.head?
  else if ← ahead atFunction then functionFrom d none
  else
    let t ← token
    match t.kind with
    | .variable => return .variable t.span (.ofList (t.text.toList.drop 1))
    | .number | .string => return .literal t.span t.text
    | .qualifiedName | .absoluteName => return .name t.span t.text
    | .name => wordExpr d t
    | .cast => unary d t.span Power.unary
    | .templateOpen => return .template (t.span.through (← holes d .templateClose))
    | .heredocOpen =>
      let _ ← holes d .documentClose
      return .template t.span
    | .nowdocOpen =>
      let _ ← holes d .documentClose
      return .literal t.span t.text
    | .symbol => symbolExpr d t
    | _ => failure

def assignments : List String :=
  ["=", "+=", "-=", "*=", "/=", ".=", "%=", "**=", "&=", "|=", "^=", "<<=", ">>=", "??="]

def isAssignment (t : Token) : Bool :=
  t.kind == .symbol && assignments.contains t.text

/-- An operand with its accessors, and with the assignment that it is the target of. -/
def assigned : Parser Expr := do
  let target ← iterate (accessor? d) (← operand d)
  if (← tokenIf? isAssignment).isSome then
    let value ← d.expr Power.assignment
    return .operation (target.span.through value.span) (.assignment target value)
  else return target

def conditionalFrom (condition : Expr) : Parser Expr := do
  let chosen ← do
    if (← symbol? ":").isSome then pure none
    else
      let chosen ← d.expr 0
      let _ ← symbol ":"
      pure (some chosen)
  let otherwise ← d.expr (Power.conditional + 1)
  return .operation (condition.span.through otherwise.span)
    (.conditional condition chosen otherwise)

/-- A step from an expression to what an operator of at least the given power makes of it. -/
def operator? (power : Nat) (left : Expr) : Parser (Option Expr) := do
  match ← get with
  | [] => return none
  | t :: ts =>
    if t.isSymbol "?" then
      if power ≤ Power.conditional then
        set ts
        return some (← conditionalFrom d left)
      else return none
    else
      match Power.binary? t with
      | none => return none
      | some (own, wanted) =>
        if power ≤ own then
          set ts
          let right ← d.expr wanted
          return some (.operation (left.span.through right.span) (.binary left right))
        else return none

def expr (power : Nat) : Parser Expr := do
  iterate (operator? d power) (← assigned d)

end Parser

end FactoryLint.Php
