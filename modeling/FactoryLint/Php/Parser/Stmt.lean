import FactoryLint.Php.Parser.Expr

namespace FactoryLint.Php.Parser

variable (d : Nested)

def stmtsUntil (words : List String) : Parser (List Stmt) :=
  many (fun ts => !ts.isEmpty && !first (fun t => words.any t.isKeyword) ts) d.stmt

def loopBody (closing : String) : Parser (Body × Span) := do
  if (← symbol? ":").isSome then
    let body ← stmtsUntil d [closing]
    let _ ← keyword closing
    return (.delimited body, ← terminator)
  else
    let s ← d.stmt
    return (.statement s, s.span)

structure Branches where
  elseIfs : List ElseIf
  otherwise : Option Body
  stop : Span

def plainBranches (stop : Span) : Parser Branches := do
  let clauses ← many (first (·.isKeyword "elseif")) do
    let _ ← token
    let condition ← parenthesized (d.expr 0)
    let s ← d.stmt
    return (condition, s)
  let elseIfs := clauses.map fun (condition, s) => .mk condition (.statement s)
  let stop := (clauses.getLast?.map (·.2.span)).getD stop
  if ← ahead fun ts => first (·.isKeyword "else") ts && !second (·.isSymbol ":") ts then
    let _ ← token
    let s ← d.stmt
    return ⟨elseIfs, some (.statement s), s.span⟩
  else return ⟨elseIfs, none, stop⟩

def colonBranches : Parser (List Stmt × Branches) := do
  let words := ["elseif", "else", "endif"]
  let body ← stmtsUntil d words
  let elseIfs ← many (first (·.isKeyword "elseif")) do
    let _ ← token
    let condition ← parenthesized (d.expr 0)
    let _ ← symbol ":"
    return .mk condition (.delimited (← stmtsUntil d words))
  let otherwise ← do
    if (← keyword? "else").isSome then
      let _ ← symbol ":"
      pure (some (.delimited (← stmtsUntil d ["endif"])))
    else pure none
  let _ ← keyword "endif"
  return (body, ⟨elseIfs, otherwise, ← terminator⟩)

def branchFrom (start : Span) : Parser Stmt := do
  let condition ← parenthesized (d.expr 0)
  if (← symbol? ":").isSome then
    let (body, rest) ← colonBranches d
    return .control (start.through rest.stop)
      (.branch condition (.delimited body) rest.elseIfs rest.otherwise)
  else
    let s ← d.stmt
    let rest ← plainBranches d s.span
    return .control (start.through rest.stop)
      (.branch condition (.statement s) rest.elseIfs rest.otherwise)

def whileFrom (start : Span) : Parser Stmt := do
  let condition ← parenthesized (d.expr 0)
  let (body, stop) ← loopBody d "endwhile"
  return .control (start.through stop) (.whileLoop condition body)

def doFrom (start : Span) : Parser Stmt := do
  let s ← d.stmt
  let _ ← keyword "while"
  let condition ← parenthesized (d.expr 0)
  return .control (start.through (← terminator)) (.doWhile s condition)

def foreachFrom (start : Span) : Parser Stmt := do
  let collection ← parenthesized do
    let e ← d.expr 0
    let _ ← keyword "as"
    let _ ← d.expr 0
    if (← symbol? "=>").isSome then
      let _ ← d.expr 0
    return e
  let (body, stop) ← loopBody d "endforeach"
  return .control (start.through stop) (.forEach collection body)

def forFrom (start : Span) : Parser Stmt := do
  let _ ← symbol "("
  let (first, _) ← commaListUpTo ";" (d.expr 0)
  let (conditions, _) ← commaListUpTo ";" (d.expr 0)
  let (next, _) ← commaListUpTo ")" (d.expr 0)
  let (body, stop) ← loopBody d "endfor"
  return .control (start.through stop) (.forLoop first conditions next body)

def switchCase (closing : Token → Bool) : Parser (List Stmt) := do
  if (← keyword? "default").isNone then
    let _ ← keyword "case"
    let _ ← d.expr 0
  let _ ← tokenIf fun t => t.isSymbol ":" || t.isSymbol ";"
  many (fun ts => !ts.isEmpty &&
    !first (fun t => t.isKeyword "case" || t.isKeyword "default" || closing t) ts) d.stmt

def switchFrom (start : Span) : Parser Stmt := do
  let subject ← parenthesized (d.expr 0)
  if (← symbol? ":").isSome then
    let closing := fun t : Token => t.isKeyword "endswitch"
    let cases ← many (fun ts => !first closing ts) (switchCase d closing)
    let _ ← keyword "endswitch"
    let stop ← terminator
    return .control (start.through stop) (.choice subject cases)
  else
    let closing := fun t : Token => t.isSymbol "\x7d"
    let _ ← symbol "\x7b"
    let cases ← many (fun ts => !first closing ts) (switchCase d closing)
    let stop ← symbol "\x7d"
    return .control (start.through stop) (.choice subject cases)

def catchClause : Parser (List Stmt × Span) := do
  let _ ← keyword "catch"
  parenthesized do
    typeHint
    let _ ← tokenIf? (·.kind == .variable)
  block d

/-- At least one handler or a last block follows what is attempted. -/
def tryFrom (start : Span) : Parser Stmt := do
  let (body, _) ← block d
  let handlers ← many (first (·.isKeyword "catch")) (catchClause d)
  let last ← do
    if (← keyword? "finally").isSome then pure (some (← block d)) else pure none
  match (handlers ++ last.toList).getLast? with
  | none => failure
  | some (_, stop) =>
    return .control (start.through stop) (.attempt body (handlers.map (·.1)) (last.map (·.1)))

def declareFrom (start : Span) : Parser Stmt := do
  let _ ← symbol "("
  let _ ← commaListUpTo ")" (constantEntry d)
  if ← ahead (first fun t => t.isSymbol ";" || t.kind == .closeTag) then
    return .other (start.through (← terminator))
  else
    let (_, stop) ← loopBody d "enddeclare"
    return .other (start.through stop)

/-- A namespace in braces, or one that lasts up to the next or the end of the source. -/
def namespaceFrom (start : Span) : Parser Stmt := do
  let _ ← tokenIf? fun t => isFreeWord t || t.kind == .qualifiedName
  if ← atSymbol "\x7b" then
    let (body, stop) ← block d
    return .namespaceDecl (start.through stop) body
  else
    let stop ← terminator
    let body ← stmtsUntil d ["namespace"]
    let stop := (body.getLast?.map (·.span)).getD stop
    return .namespaceDecl (start.through stop) body

def importAlias : Parser Unit := do
  if (← keyword? "as").isSome then
    let _ ← tokenIf isFreeWord

def importKind : Parser Unit := do
  if ← ahead fun ts => first (fun t => t.isKeyword "function" || t.isKeyword "const") ts &&
      second isAnyName ts then
    let _ ← token

def importEntry : Parser Unit := do
  importKind
  let _ ← className
  importAlias

/-- Imports: a list of names, or a group of names after what they have in common. -/
def useFrom (start : Span) : Parser Stmt := do
  importKind
  let _ ← className
  if (← symbol? "\\").isSome then
    let _ ← symbol "\x7b"
    let _ ← commaListUpTo "\x7d" importEntry
  else
    importAlias
    let _ ← many (first (·.isSymbol ",")) do
      let _ ← token
      let _ ← className
      importAlias
  return .useDecl (start.through (← terminator))

def functionDeclFrom (start : Span) : Parser Stmt := do
  let _ ← keyword "function"
  let _ ← symbol? "&"
  let _ ← tokenIf isFreeWord
  parameters d
  resultType
  let (body, stop) ← block d
  return .control (start.through stop) (.function body)

def classFrom (start : Span) : Parser Stmt := do
  let _ ← keyword "class"
  let name ← tokenIf isFreeWord
  let parent ← parent?
  interfaces
  let (members, stop) ← members d
  return .classDecl (start.through stop) name.text (parent.map (·.text)) members

def traitFrom (start : Span) : Parser Stmt := do
  let _ ← keyword "trait"
  let _ ← tokenIf isFreeWord
  let (members, stop) ← members d
  return .control (start.through stop) (.traitBody members)

def interfaceFrom (start : Span) : Parser Stmt := do
  let _ ← keyword "interface"
  let _ ← tokenIf isFreeWord
  let _ ← parent?
  let (_, stop) ← members d
  return .other (start.through stop)

def enumFrom (start : Span) : Parser Stmt := do
  let _ ← keyword "enum"
  let _ ← tokenIf isFreeWord
  resultType
  interfaces
  let (_, stop) ← members d
  return .other (start.through stop)

def isClassModifier (t : Token) : Bool :=
  t.isKeyword "abstract" || t.isKeyword "final" || t.isKeyword "readonly"

def atDeclaration (ts : List Token) : Bool :=
  first (fun t => t.isKeyword "class" || t.isKeyword "trait" || t.isKeyword "interface") ts ||
    first isClassModifier ts && second (fun t => isClassModifier t || t.isKeyword "class") ts ||
    first (·.isKeyword "enum") ts && second isFreeWord ts ||
    first (·.isKeyword "function") ts &&
      (second isWord ts || second (·.isSymbol "&") ts && third isWord ts)

def declaration (start : Option Span) : Parser Stmt := do
  let modifiers ← many (first isClassModifier) token
  match ← get with
  | [] => failure
  | t :: _ =>
    let start := (start.or (modifiers.head?.map (·.span))).getD t.span
    if t.isKeyword "class" then classFrom d start
    else if !modifiers.isEmpty then failure
    else if t.isKeyword "trait" then traitFrom d start
    else if t.isKeyword "interface" then interfaceFrom d start
    else if t.isKeyword "enum" then enumFrom d start
    else functionDeclFrom d start

def expressionStmt : Parser Stmt := do
  let e ← d.expr 0
  return .expression (e.span.through (← terminator)) e

def simpleFrom? (t : Token) : Option (Parser Unit) :=
  match t.lowered with
  | "const" => some do
    let _ ← commaList (constantEntry d)
  | "global" => some do
    let _ ← commaList (d.expr Power.cloned)
  | "static" => some do
    let _ ← commaList (propertyEntry d)
  | "unset" => some do
    let _ ← symbol "("
    let _ ← commaListUpTo ")" (d.expr 0)
  | "break" | "continue" => some do
    if !(← ahead (first fun t => t.isSymbol ";" || t.kind == .closeTag)) then
      let _ ← d.expr 0
  | "goto" => some do
    let _ ← tokenIf isFreeWord
  | "__halt_compiler" => some do
    let _ ← symbol "("
    let _ ← symbol ")"
  | _ => none

def wordStmt? (t : Token) : Option (Parser Stmt) :=
  match t.lowered with
  | "if" => some (branchFrom d t.span)
  | "while" => some (whileFrom d t.span)
  | "do" => some (doFrom d t.span)
  | "for" => some (forFrom d t.span)
  | "foreach" => some (foreachFrom d t.span)
  | "switch" => some (switchFrom d t.span)
  | "try" => some (tryFrom d t.span)
  | "declare" => some (declareFrom d t.span)
  | "namespace" => some (namespaceFrom d t.span)
  | "use" => some (useFrom t.span)
  | "echo" => some do
    let values ← commaList (d.expr 0)
    return .control (t.span.through (← terminator)) (.print values)
  | "return" => some do
    if ← ahead (first fun t => t.isSymbol ";" || t.kind == .closeTag) then
      return .ret (t.span.through (← terminator)) none
    else
      let value ← d.expr 0
      return .ret (t.span.through (← terminator)) (some value)
  | _ => (simpleFrom? d t).map fun p => do
    p
    return .other (t.span.through (← terminator))

/-- A word that begins an expression here, though statements begin with it too. -/
def beginsExpression (t : Token) (ts : List Token) : Bool :=
  t.isKeyword "static" && !first (·.kind == .variable) ts

def stmt : Parser Stmt := do
  let ts ← get
  if atDeclaration ts then declaration d none
  else
    match ts with
    | [] => failure
    | t :: rest =>
      match t.kind with
      | .inlineText | .openTag | .closeTag =>
        set rest
        return .other t.span
      | .echoTag =>
        set rest
        let _ ← commaList (d.expr 0)
        return .other (t.span.through (← terminator))
      | .name =>
        if first (·.isSymbol ":") rest && isFreeWord t then
          set (rest.drop 1)
          return .other (t.span.through ((rest.head?.map (·.span)).getD t.span))
        else
          match if beginsExpression t rest then none else wordStmt? d t with
          | some p =>
            set rest
            p
          | none => expressionStmt d
      | .symbol =>
        if t.text == "\x7b" then
          let (body, span) ← block d
          return .block span body
        else if t.text == ";" then
          set rest
          return .other t.span
        else if t.text == "#[" then
          let groups ← attributes d
          if ← ahead atDeclaration then declaration d groups.head?
          else
            set ts
            expressionStmt d
        else expressionStmt d
      | _ => expressionStmt d

end FactoryLint.Php.Parser
