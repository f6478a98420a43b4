import FactoryLint.Php.Parser.Basic

namespace FactoryLint.Php.Parser

def reserved : List String :=
  ["__halt_compiler", "abstract", "and", "array", "as", "break", "callable", "case", "catch",
    "class", "clone", "const", "continue", "declare", "default", "die", "do", "echo", "else",
    "elseif", "empty", "enddeclare", "endfor", "endforeach", "endif", "endswitch", "endwhile",
    "eval", "exit", "extends", "final", "finally", "fn", "for", "foreach", "function", "global",
    "goto", "if", "implements", "include", "include_once", "instanceof", "insteadof", "interface",
    "isset", "list", "match", "namespace", "new", "or", "print", "private", "protected", "public",
    "require", "require_once", "return", "static", "switch", "throw", "trait", "try", "unset",
    "use", "var", "while", "xor", "yield"]

def isWord (t : Token) : Bool :=
  t.kind == .name

def isFreeWord (t : Token) : Bool :=
  isWord t && !reserved.contains t.lowered

def isAnyName (t : Token) : Bool :=
  t.kind == .name || t.kind == .qualifiedName || t.kind == .absoluteName

def isClassName (t : Token) : Bool :=
  isFreeWord t || t.kind == .qualifiedName || t.kind == .absoluteName

def className : Parser Token :=
  tokenIf isClassName

/-- An ampersand that stands before a parameter and not between two types. -/
def atParameterAmpersand (ts : List Token) : Bool :=
  first (·.isSymbol "&") ts &&
    (second (fun t => t.kind == .variable || t.isSymbol "..." || t.isSymbol "&") ts)

def atTypeOperator (ts : List Token) : Bool :=
  first (·.isSymbol "|") ts || first (·.isSymbol "&") ts && !atParameterAmpersand ts

def joinedTypes (p : Parser Unit) : Parser Unit := do
  p
  let _ ← many atTypeOperator (do let _ ← token; p)

def simpleType : Parser Unit := do
  let _ ← tokenIf isAnyName

def typeHint : Parser Unit := do
  let _ ← symbol? "?"
  joinedTypes do
    if ← atSymbol "(" then parenthesized (joinedTypes simpleType) else simpleType

def resultType : Parser Unit := do
  if (← symbol? ":").isSome then typeHint

end FactoryLint.Php.Parser
