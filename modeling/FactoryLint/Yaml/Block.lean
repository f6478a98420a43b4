import FactoryLint.Yaml.Flow

namespace FactoryLint.Yaml

open Text (Reader Cursor)
open Text.Reader
open Scalar

/-- Gaps, comments and line ends outside of brackets; whether a line has ended. A tab is no
indentation: it is part of a gap on the first line only, and there only where `tabs` says so. -/
def blockGap (tabs : Bool) : Reader Bool := do
  let _ ← takeWhile fun c => c == ' ' || (tabs && c == '\t')
  let _ ← comment?
  let ends ← collect do
    if ← accept? '\n' then
      let _ ← takeWhile (· == ' ')
      let _ ← comment?
      return some ()
    else return none
  return !ends.isEmpty

def continuesFrom (least : Nat) : Reader Bool := do
  return !(← atEnd) && !(← atMarker) && least ≤ (← column)

def endOfLine : Reader Unit := do
  if !(← blockGap true) && !(← atEnd) then failure

def inlineNode (indent : Nat) : Reader Yaml := do
  flowNode indent false ((← rest).length + 1)

def inlineLine (indent : Nat) : Reader Yaml := do
  let node ← inlineNode indent
  endOfLine
  return node

def blockKey : Reader Yaml := do
  let start ← get
  let key ← inlineNode 0
  let _ ← takeWhile isGap
  expect ':'
  if !endsWord (← rest) || (← crossedLine start) then failure
  return key

def atBlockKey : Reader Bool := do
  let start ← get
  let key ← attempt? blockKey
  set start
  return key.isSome

def atBullet : Reader Bool := do
  match ← rest with
  | '-' :: cs => return endsWord cs
  | _ => return false

/-- The items of a list at column `c`, given the reader for what begins at a column or right of
it. -/
def blockItems (node : Nat → Reader Yaml) (c : Nat) : Reader Yaml := do
  let items ← collect do
    if (← column) == c && (← atBullet) then
      expect '-'
      let _ ← blockGap false
      return some (← node (c + 1))
    else return none
  return .list items

/-- The value of a key at column `c`. On the line of its key it has to be a scalar or stand in
brackets. A list below may begin at the column of the key. -/
def blockValue (node : Nat → Reader Yaml) (c : Nat) : Reader Yaml := do
  if ← blockGap true then
    if (← column) == c && (← atBullet) then blockItems node c
    else node (c + 1)
  else if ← atEnd then return absent
  else inlineLine (c + 1)

def blockEntries (node : Nat → Reader Yaml) (c : Nat) : Reader Yaml := do
  let entries ← collect do
    if (← column) == c && (← continuesFrom c) then
      let key ← blockKey
      return some (key, ← blockValue node c)
    else return none
  return .mapping entries

def blockNode : Nat → Nat → Reader Yaml
  | 0, _ => failure
  | depth + 1, least => do
    if !(← continuesFrom least) then return absent
    let c ← column
    let node ←
      if ← atBullet then blockItems (blockNode depth) c
      else if ← atBlockKey then blockEntries (blockNode depth) c
      else inlineLine least
    if ← continuesFrom least then failure
    return node

end FactoryLint.Yaml
