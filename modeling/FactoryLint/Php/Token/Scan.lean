import FactoryLint.Php.Token
import FactoryLint.Php.Token.Lexeme
import FactoryLint.Text.Bytes

namespace FactoryLint.Php

inductive Mode
  | text
  | code
  | template (quote : Char)
  /-- A heredoc, or a nowdoc if it has no holes. `fresh` says that a line starts here. -/
  | document (label : List Char) (holes fresh : Bool)
  | halting (left : Nat)
  deriving DecidableEq, Repr

namespace Mode

/-- What is scanned next: `length` characters, which make a token of kind `kind` if it is given,
and the modes that hold after it. -/
structure Found where
  kind : Option TokenKind
  length : Nat
  modes : List Mode

def nextText (outer : List Mode) (cs : List Char) : Option Found :=
  match cs with
  | '<' :: '?' :: rest =>
    if Lexeme.startsWith "php" (rest.take 3 |>.map Char.toLower) then
      some ⟨some .openTag, 5, .code :: outer⟩
    else if Lexeme.startsWith "=" rest then some ⟨some .echoTag, 3, .code :: outer⟩
    else some ⟨some .openTag, 2, .code :: outer⟩
  | _ => some ⟨some .inlineText, upToTag cs, .text :: outer⟩
where
  upToTag : List Char → Nat
    | [] => 0
    | '<' :: '?' :: _ => 0
    | _ :: cs => 1 + upToTag cs

def nextDoubleQuoted (outer : List Mode) (before : Nat) (cs : List Char) : Option Found :=
  match Lexeme.doubleQuoted cs with
  | .plain length => some ⟨some .string, before + 1 + length, .code :: outer⟩
  | .template => some ⟨some .templateOpen, before + 1, .template '"' :: .code :: outer⟩
  | .unclosed => none

def nextSingleQuoted (outer : List Mode) (before : Nat) (cs : List Char) : Option Found :=
  (Lexeme.singleQuoted? cs).map fun n => ⟨some .string, before + 1 + n, .code :: outer⟩

/-- Operators and punctuation. A brace opens a part that its partner closes. -/
def nextSymbol (outer : List Mode) (cs : List Char) : Option Found :=
  match Lexeme.symbol? cs with
  | none => none
  | some "\x7b" => some ⟨some .symbol, 1, .code :: .code :: outer⟩
  | some "\x7d" =>
    some ⟨some .symbol, 1, if outer.isEmpty then [.code] else outer⟩
  | some s => some ⟨some .symbol, s.length, .code :: outer⟩

def nextName (outer : List Mode) (cs : List Char) : Option Found :=
  let first := Lexeme.segment cs
  match Lexeme.moreSegments cs.length (cs.drop first) with
  | 0 =>
    if (cs.take first).map Char.toLower = "__halt_compiler".toList then
      some ⟨some .name, first, .halting 3 :: outer⟩
    else some ⟨some .name, first, .code :: outer⟩
  | more => some ⟨some .qualifiedName, first + more, .code :: outer⟩

def nextDocument (outer : List Mode) (cs : List Char) : Option Found :=
  match Lexeme.documentOpen? cs with
  | some (length, label, holes) =>
    some ⟨some (if holes then .heredocOpen else .nowdocOpen), 3 + length,
      .document label holes true :: .code :: outer⟩
  | none => nextSymbol outer ('<' :: '<' :: '<' :: cs)

def nextCode (outer : List Mode) (cs : List Char) : Option Found :=
  let code := .code :: outer
  match cs with
  | [] => none
  | '?' :: '>' :: _ => some ⟨some .closeTag, 2, .text :: outer⟩
  | '#' :: '[' :: _ => some ⟨some .symbol, 2, code⟩
  | '#' :: rest => some ⟨none, 1 + Lexeme.lineComment rest, code⟩
  | '/' :: '/' :: rest => some ⟨none, 2 + Lexeme.lineComment rest, code⟩
  | '/' :: '*' :: rest => (Lexeme.blockComment? rest).map fun n => ⟨none, 2 + n, code⟩
  | '\'' :: rest => nextSingleQuoted outer 0 rest
  | '"' :: rest => nextDoubleQuoted outer 0 rest
  | '\x60' :: _ => some ⟨some .templateOpen, 1, .template '\x60' :: code⟩
  | 'b' :: '\'' :: rest | 'B' :: '\'' :: rest => nextSingleQuoted outer 1 rest
  | 'b' :: '"' :: rest | 'B' :: '"' :: rest => nextDoubleQuoted outer 1 rest
  | '<' :: '<' :: '<' :: rest => nextDocument outer rest
  | '(' :: rest =>
    match Lexeme.cast? rest with
    | some n => some ⟨some .cast, 1 + n, code⟩
    | none => some ⟨some .symbol, 1, code⟩
  | '$' :: rest =>
    match Lexeme.segment rest with
    | 0 => some ⟨some .symbol, 1, code⟩
    | n => some ⟨some .variable, 1 + n, code⟩
  | '\\' :: rest =>
    match Lexeme.segment rest with
    | 0 => some ⟨some .symbol, 1, code⟩
    | n =>
      let more := Lexeme.moreSegments rest.length (rest.drop n)
      some ⟨some .absoluteName, 1 + n + more, code⟩
  | '.' :: d :: _ =>
    if d.isDigit then some ⟨some .number, Lexeme.number cs, code⟩ else nextSymbol outer cs
  | c :: _ =>
    if Lexeme.isBlank c then some ⟨none, (cs.takeWhile Lexeme.isBlank).length, code⟩
    else if c.isDigit then some ⟨some .number, Lexeme.number cs, code⟩
    else if Lexeme.isNameStart c then nextName outer cs
    else nextSymbol outer cs

def nextTemplate (quote : Char) (outer : List Mode) (cs : List Char) : Option Found :=
  let template := .template quote :: outer
  match cs with
  | '{' :: '$' :: _ => some ⟨some .holeOpen, 1, .code :: template⟩
  | '$' :: '{' :: _ => some ⟨some .holeOpen, 2, .code :: template⟩
  | c :: _ =>
    if c == quote then some ⟨some .templateClose, 1, outer⟩
    else some ⟨some .templateText, Lexeme.templateText quote cs, template⟩
  | [] => none

def nextInDocument (label : List Char) (holes fresh : Bool) (outer : List Mode)
    (cs : List Char) : Option Found :=
  match if fresh then Lexeme.closingLabel? label cs else none with
  | some n => some ⟨some .documentClose, n, outer⟩
  | none =>
    match Lexeme.documentText holes label cs with
    | (0, _) =>
      let document := .document label holes false :: outer
      match cs with
      | '{' :: _ => some ⟨some .holeOpen, 1, .code :: document⟩
      | '$' :: _ => some ⟨some .holeOpen, 2, .code :: document⟩
      | _ => none
    | (n, ends) => some ⟨some .documentText, n, .document label holes ends :: outer⟩

def nextHalting (left : Nat) (outer : List Mode) (cs : List Char) : Option Found :=
  match left with
  | 0 => some ⟨some .inlineText, cs.length, .text :: outer⟩
  | left + 1 =>
    (nextCode outer cs).map fun found =>
      { found with modes := .halting (if found.kind.isSome then left else left + 1) :: outer }

def next (modes : List Mode) (cs : List Char) : Option Found :=
  match modes with
  | [] => none
  | .text :: outer => nextText outer cs
  | .code :: outer => nextCode outer cs
  | .template quote :: outer => nextTemplate quote outer cs
  | .document label holes fresh :: outer => nextInDocument label holes fresh outer cs
  | .halting left :: outer => nextHalting left outer cs

def mayEnd : List Mode → Bool
  | .text :: _ => true
  | .code :: _ => true
  | .halting _ :: _ => true
  | _ => false

end Mode

namespace Token

def scanFrom : Nat → List Mode → Nat → List Char → Option (List Token)
  | _, modes, _, [] => if Mode.mayEnd modes then some [] else none
  | 0, _, _, _ :: _ => none
  | bound + 1, modes, offset, c :: cs => do
    let found ← Mode.next modes (c :: cs)
    let lexeme := (c :: cs).take found.length
    let stop := offset + Text.byteLength lexeme
    let rest ← scanFrom bound found.modes stop ((c :: cs).drop found.length)
    match found.kind with
    | none => return rest
    | some kind => return ⟨kind, ⟨offset, stop⟩, .ofList lexeme⟩ :: rest

def scan? (source : String) : Option (List Token) :=
  scanFrom source.toList.length [.text] 0 source.toList

end Token

end FactoryLint.Php
