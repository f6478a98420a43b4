import FactoryLint.Php.Parser.Nested

namespace FactoryLint.Php.Parser

variable (d : Nested)

def traitUse : Parser Unit := do
  let _ ← keyword "use"
  let _ ← commaList className
  if (← symbol? "\x7b").isSome then
    let _ ← many (fun ts => !first (fun t => t.isSymbol "\x7d" || t.isSymbol "\x7b") ts) token
    let _ ← symbol "\x7d"
  else
    let _ ← terminator

def constantEntry : Parser Unit := do
  let _ ← tokenIf isWord
  let _ ← symbol "="
  let _ ← d.expr 0

def classConstants : Parser Unit := do
  let _ ← keyword "const"
  if !(← ahead (second (·.isSymbol "="))) then typeHint
  let _ ← commaList (constantEntry d)
  let _ ← terminator

def enumCase : Parser Unit := do
  let _ ← keyword "case"
  let _ ← tokenIf isWord
  let _ ← initializer? d
  let _ ← terminator

def method : Parser Member := do
  let _ ← keyword "function"
  let _ ← symbol? "&"
  let _ ← tokenIf isWord
  parameters d
  resultType
  if ← atSymbol "\x7b" then return .method (← block d).1
  else
    let _ ← terminator
    return .other

def propertyEntry : Parser Unit := do
  let _ ← tokenIf (·.kind == .variable)
  let _ ← initializer? d

def properties : Parser Unit := do
  if !(← ahead (first (·.kind == .variable))) then typeHint
  let _ ← commaList (propertyEntry d)
  if ← atSymbol "\x7b" then hooks d
  else
    let _ ← terminator

/-- One member; a property needs a modifier. -/
def member : Parser Member := do
  if ← atKeyword "use" then
    traitUse
    return .other
  else
    let _ ← attributes d
    let modifiers ← someModifiers
    if ← atKeyword "function" then method d
    else if ← atKeyword "const" then
      classConstants d
      return .other
    else if ← atKeyword "case" then
      enumCase d
      return .other
    else if (← keyword? "var").isSome || !modifiers.isEmpty then
      properties d
      return .other
    else failure

def members : Parser (List Member × Span) := do
  let start ← symbol "\x7b"
  let members ← many (fun ts => !first (·.isSymbol "\x7d") ts) (member d)
  return (members, start.through (← symbol "\x7d"))

/-- What a class extends; of several names only the first one is its parent. -/
def parent? : Parser (Option Token) := do
  if (← keyword? "extends").isSome then
    return (← commaList className).head?
  else return none

def interfaces : Parser Unit := do
  if (← keyword? "implements").isSome then
    let _ ← commaList className

end FactoryLint.Php.Parser
