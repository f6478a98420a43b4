import FactoryLint.Yaml.Block

namespace FactoryLint.Yaml

open Text (Reader)
open Text.Reader
open Scalar

def isAllowed (c : Char) : Bool :=
  c == '\t' || c == '\n' || c == '\r' || c == '\u0085' ||
    (' ' ≤ c && c ≤ '~') || ('\u00a0' ≤ c && c != '\ufffe' && c != '\uffff')

def lineFeeds : List Char → List Char
  | [] => []
  | '\r' :: '\n' :: cs => '\n' :: lineFeeds cs
  | c :: cs => (if c == '\r' || c == '\u0085' then '\n' else c) :: lineFeeds cs

def endMarkers : Reader Unit := do
  let _ ← collect do
    if (← atMarker) && (← acceptWord? "...") then
      endOfLine
      return some ()
    else return none

def document : Reader Yaml := do
  let _ ← blockGap false
  let depth := (← rest).length + 1
  if !(← atMarker) then
    let node ← blockNode depth 0
    endMarkers
    return node
  if !(← acceptWord? "---") then failure
  let node ← if (← blockGap true) || (← atEnd) then blockNode depth 0 else inlineLine 0
  endMarkers
  return node

def parse? (text : String) : Option Yaml :=
  let cs := match text.toList with
    | '\ufeff' :: cs => cs
    | cs => cs
  if cs.all isAllowed then readAll? document (lineFeeds cs) else none

end FactoryLint.Yaml
