namespace FactoryLint.Php.Lexeme

def isNameStart (c : Char) : Bool :=
  c.isAlpha || c == '_' || 0x80 ≤ c.toNat

def isNamePart (c : Char) : Bool :=
  isNameStart c || c.isDigit

def isBlank (c : Char) : Bool :=
  c == ' ' || c == '\t' || c == '\n' || c == '\r' || c == '\x0b' || c == '\x0c'

def segment : List Char → Nat
  | [] => 0
  | c :: cs => if isNameStart c then 1 + (cs.takeWhile isNamePart).length else 0

def moreSegments : Nat → List Char → Nat
  | 0, _ => 0
  | bound + 1, '\\' :: cs =>
    match segment cs with
    | 0 => 0
    | n + 1 => n + 2 + moreSegments bound (cs.drop (n + 1))
  | _ + 1, _ => 0

def startsWith (word : String) (cs : List Char) : Bool :=
  word.toList.isPrefixOf cs

def lineComment : List Char → Nat
  | [] => 0
  | '?' :: '>' :: _ => 0
  | c :: cs => if c == '\n' || c == '\r' then 0 else 1 + lineComment cs

def blockComment? : List Char → Option Nat
  | [] => none
  | '*' :: '/' :: _ => some 2
  | _ :: cs => (blockComment? cs).map (· + 1)

def singleQuoted? : List Char → Option Nat
  | [] => none
  | '\'' :: _ => some 1
  | '\\' :: _ :: cs => (singleQuoted? cs).map (· + 2)
  | _ :: cs => (singleQuoted? cs).map (· + 1)

/-- A dollar sign here begins a hole, or a brace that a dollar sign follows. -/
def opensHole : List Char → Bool
  | '{' :: '$' :: _ => true
  | '$' :: '{' :: _ => true
  | '$' :: c :: _ => isNameStart c
  | _ => false

inductive DoubleQuoted
  | plain (length : Nat)
  | template
  | unclosed
  deriving DecidableEq, Repr

namespace DoubleQuoted

def longer (n : Nat) : DoubleQuoted → DoubleQuoted
  | .plain length => .plain (length + n)
  | r => r

end DoubleQuoted

def doubleQuoted : List Char → DoubleQuoted
  | [] => .unclosed
  | '"' :: _ => .plain 1
  | '\\' :: _ :: cs => (doubleQuoted cs).longer 2
  | c :: cs => if opensHole (c :: cs) then .template else (doubleQuoted cs).longer 1

/-- The text of a string up to its last quote or to the next braced hole. A plain variable counts
as text. -/
def templateText (quote : Char) : List Char → Nat
  | [] => 0
  | '{' :: '$' :: _ => 0
  | '$' :: '{' :: _ => 0
  | '\\' :: _ :: cs => 2 + templateText quote cs
  | c :: cs => if c == quote then 0 else 1 + templateText quote cs

def closingLabel? (label : List Char) (cs : List Char) : Option Nat :=
  let indent := (cs.takeWhile fun c => c == ' ' || c == '\t').length
  let rest := cs.drop indent
  if label.isPrefixOf rest && !(rest.drop label.length).head?.any isNamePart then
    some (indent + label.length)
  else none

def documentText (holes : Bool) (label : List Char) : List Char → Nat × Bool
  | [] => (0, false)
  | '\n' :: cs =>
    if (closingLabel? label cs).isSome then (1, true) else longer 1 (documentText holes label cs)
  | '\\' :: c :: cs =>
    if holes && c != '\n' then longer 2 (documentText holes label cs)
    else longer 1 (documentText holes label (c :: cs))
  | '{' :: '$' :: cs =>
    if holes then (0, false) else longer 1 (documentText holes label ('$' :: cs))
  | '$' :: '{' :: cs =>
    if holes then (0, false) else longer 1 (documentText holes label ('{' :: cs))
  | _ :: cs => longer 1 (documentText holes label cs)
where
  longer (n : Nat) (r : Nat × Bool) : Nat × Bool :=
    (r.1 + n, r.2)

def lineEnd? : List Char → Option Nat
  | '\r' :: '\n' :: _ => some 2
  | '\n' :: _ => some 1
  | '\r' :: _ => some 1
  | _ => none

/-- The first line of a heredoc or nowdoc after the three angle brackets: its length with the
line end, the label, and whether there are holes in what follows. -/
def documentOpen? (cs : List Char) : Option (Nat × List Char × Bool) :=
  let indent := (cs.takeWhile fun c => c == ' ' || c == '\t').length
  let rest := cs.drop indent
  let (quote, body) : Option Char × List Char := match rest with
    | '"' :: body => (some '"', body)
    | '\'' :: body => (some '\'', body)
    | _ => (none, rest)
  match segment body with
  | 0 => none
  | n + 1 =>
    let label := body.take (n + 1)
    let after := body.drop (n + 1)
    match quote with
    | none => (lineEnd? after).map fun e => (indent + label.length + e, label, true)
    | some q =>
      if after.head? == some q then
        (lineEnd? (after.drop 1)).map fun e => (indent + label.length + 2 + e, label, q == '"')
      else none

def digits (isDigit : Char → Bool) (cs : List Char) : Nat :=
  (cs.takeWhile fun c => isDigit c || c == '_').length

def isHexDigit (c : Char) : Bool :=
  c.isDigit || ('a' ≤ c.toLower && c.toLower ≤ 'f')

def exponent : List Char → Nat
  | 'e' :: cs | 'E' :: cs =>
    match cs with
    | '+' :: d :: cs | '-' :: d :: cs => if d.isDigit then 3 + digits Char.isDigit cs else 0
    | d :: cs => if d.isDigit then 2 + digits Char.isDigit cs else 0
    | [] => 0
  | _ => 0

def decimal (cs : List Char) : Nat :=
  let whole := digits Char.isDigit cs
  let afterWhole := cs.drop whole
  let fraction := match afterWhole with
    | '.' :: '.' :: _ => 0
    | '.' :: rest => 1 + digits Char.isDigit rest
    | _ => 0
  whole + fraction + exponent (afterWhole.drop fraction)

def number (cs : List Char) : Nat :=
  match cs with
  | '0' :: 'x' :: d :: rest | '0' :: 'X' :: d :: rest =>
    if isHexDigit d then 3 + digits isHexDigit rest else decimal cs
  | '0' :: 'b' :: d :: rest | '0' :: 'B' :: d :: rest =>
    if d.isDigit then 3 + digits Char.isDigit rest else decimal cs
  | '0' :: 'o' :: d :: rest | '0' :: 'O' :: d :: rest =>
    if d.isDigit then 3 + digits Char.isDigit rest else decimal cs
  | _ => decimal cs

def castTypes : List String :=
  ["int", "integer", "bool", "boolean", "float", "double", "real", "string", "binary", "array",
    "object", "unset", "void"]

def cast? (cs : List Char) : Option Nat :=
  let isGap := fun c => c == ' ' || c == '\t'
  let indent := (cs.takeWhile isGap).length
  let word := (cs.drop indent).takeWhile isNamePart
  let after := cs.drop (indent + word.length)
  let gap := (after.takeWhile isGap).length
  if castTypes.contains (String.ofList (word.map Char.toLower)) &&
      (after.drop gap).head? == some ')' then
    some (indent + word.length + gap + 1)
  else none

/-- All operators and punctuation, longer ones before those they begin with. -/
def symbols : List String :=
  ["<<=", ">>=", "**=", "...", "<=>", "===", "!==", "??=", "?->",
    "=>", "->", "::", "==", "!=", "<>", "<=", ">=", "&&", "||", "??", "++", "--", "+=", "-=",
    "*=", "/=", ".=", "%=", "&=", "|=", "^=", "<<", ">>", "**", "#[", "|>",
    ";", ",", ".", "(", ")", "[", "]", "\x7b", "\x7d", "=", "<", ">", "+", "-", "*", "/", "%",
    "&", "|", "^", "~", "!", "?", ":", "@", "$", "\\"]

def symbol? (cs : List Char) : Option String :=
  symbols.find? (startsWith · cs)

end FactoryLint.Php.Lexeme
