import FactoryLint.Toml.Scalar

namespace FactoryLint.Toml

open Text (Reader)
open Text.Reader
open Scalar

/-- Keys have at most so many parts, and values are nested in at most so many brackets. -/
def nestingLimit : Nat :=
  79

def comment : Reader Unit := do
  if ← accept? '#' then
    let _ ← takeWhile isText

def restOfLine : Reader Unit := do
  gap
  comment
  if !(← lineEnd?) && !(← atEnd) then failure

def blanks : Reader Unit := do
  let _ ← collect do
    let start ← get
    gap
    comment
    if ← lineEnd? then return some ()
    else if (← takenSince start).isEmpty then return none
    else return some ()

def isKeyChar (c : Char) : Bool :=
  c.isAlphanum || c == '_' || c == '-'

def keyPart : Reader String := do
  match ← peek with
  | some '"' => lineString '"'
  | some '\'' => lineString '\''
  | _ =>
    let cs ← takeWhile isKeyChar
    if cs.isEmpty then failure
    return .ofList cs

def key : Reader Key := do
  gap
  let first ← keyPart
  gap
  let more ← collect do
    if !(← accept? '.') then return none
    gap
    let part ← keyPart
    gap
    return some part
  let parts := first :: more
  if nestingLimit < parts.length then failure
  match parts.getLast? with
  | none => failure
  | some name => return ⟨parts.dropLast, name⟩

/-- Items of an array, which may go over several lines. A comma may follow the last one. -/
def items (value : Reader Toml) : Reader (List Toml) := do
  blanks
  let values ← collect do
    if ← ahead (· == ']') then return none
    let v ← value
    blanks
    if !(← accept? ',') && !(← ahead (· == ']')) then failure
    blanks
    return some v
  expect ']'
  return values

def pair (value : Reader Toml) : Reader (Key × Toml) := do
  let k ← key
  expect '='
  gap
  return (k, ← value)

def pairs (value : Reader Toml) : Reader (List (Key × Toml)) := do
  gap
  if ← accept? '\x7d' then return []
  let first ← pair value
  gap
  let more ← collect do
    if !(← accept? ',') then return none
    let p ← pair value
    gap
    return some p
  expect '\x7d'
  return first :: more

def valueWithin : Nat → Reader Toml
  | 0 => scalar
  | depth + 1 => do
    match ← peek with
    | some '[' =>
      expect '['
      return .array (← items (valueWithin depth))
    | some '\x7b' =>
      expect '\x7b'
      match insertAll? [] (← pairs (valueWithin depth)) with
      | some entries => return .table .braces entries
      | none => failure
    | _ => scalar

def value : Reader Toml :=
  valueWithin nestingLimit

structure Section where
  key : Key
  isRepeated : Bool
  pairs : List (Key × Toml)

def pairLines : Reader (List (Key × Toml)) := do
  blanks
  collect do
    if (← atEnd) || (← ahead (· == '[')) then return none
    let p ← pair value
    restOfLine
    blanks
    return some p

/-- The name of a table in brackets, doubled for tables with a repeated header. -/
def header : Reader (Key × Bool) := do
  expect '['
  let isRepeated ← accept? '['
  let k ← key
  expect ']'
  if isRepeated then expect ']'
  restOfLine
  return (k, isRepeated)

def section? : Reader (Option Section) := do
  if ← atEnd then return none
  let (key, isRepeated) ← header
  return some ⟨key, isRepeated, ← pairLines⟩

def addSection? (entries : Entries) (s : Section) : Option Entries :=
  if s.isRepeated then addRepeated? entries s.key s.pairs else addTable? entries s.key s.pairs

def parse? (text : String) : Option Entries := do
  let cs := match text.toList with
    | '\ufeff' :: cs => cs
    | cs => cs
  let (pairs, sections) ← readAll? (do return (← pairLines, ← collect section?)) cs
  sections.foldlM addSection? (← insertAll? [] pairs)

end FactoryLint.Toml
