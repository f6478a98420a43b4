import FactoryLint.Yaml.Scalar
import FactoryLint.Yaml.Value

namespace FactoryLint.Yaml

open Text (Reader Cursor)
open Text.Reader
open Scalar

def comment? : Reader Bool := do
  if ← ahead (· == '#') then
    let _ ← takeWhile fun _ => true
    return true
  else return false

def flowGap : Reader Unit := do
  let _ ← collect do
    let gap ← takeWhile isGap
    if (← comment?) || (← accept? '\n') || !gap.isEmpty then return some ()
    else return none
  if ← atMarker then failure

def crossedLine (start : Cursor) : Reader Bool := do
  return (← takenSince start).contains '\n'

/-- Entries up to the symbol `close`, separated by commas, with an optional comma after the last
one. -/
def flowEntries {α : Type} (close : Char) (entry : Reader α) : Reader (List α) := do
  flowGap
  let entries ← collect do
    if ← ahead (· == close) then return none
    let x ← entry
    flowGap
    if !(← accept? ',') && !(← ahead (· == close)) then failure
    flowGap
    return some x
  expect close
  return entries

/-- The value of an entry inside of brackets whose key began at `start`. A key and its colon stand
on one line. -/
def flowValue? (node : Reader Yaml) (start : Cursor) : Reader (Option Yaml) := do
  flowGap
  if !(← accept? ':') then return none
  if ← crossedLine start then failure
  flowGap
  if ← ahead fun c => [',', ']', '\x7d'].contains c then return some absent
  else return some (← node)

def flowPair (node : Reader Yaml) : Reader (Yaml × Yaml) := do
  let start ← get
  let key ← node
  return (key, (← flowValue? node start).getD absent)

def flowItem (node : Reader Yaml) : Reader Yaml := do
  let start ← get
  let item ← node
  match ← flowValue? node start with
  | some value => return .mapping [(item, value)]
  | none => return item

/-- A scalar, or a list or mapping in brackets, nested in less than `depth` others. Further lines
of a plain scalar have no tab left of column `indent`. -/
def flowNode (indent : Nat) (inFlow : Bool) : Nat → Reader Yaml
  | 0 => failure
  | depth + 1 => do
    let inner := flowNode indent true depth
    match ← peek with
    | some '[' =>
      expect '['
      return .list (← flowEntries ']' (flowItem inner))
    | some '\x7b' =>
      expect '\x7b'
      return .mapping (← flowEntries '\x7d' (flowPair inner))
    | some '"' => return .scalar (← doubleQuoted) false
    | some '\'' => return .scalar (← singleQuoted) false
    | _ => return .scalar (← plain inFlow indent) true

end FactoryLint.Yaml
