import FactoryLint.Text.Reader

namespace FactoryLint.Yaml.Scalar

open Text (Reader)
open Text.Reader

def isGap (c : Char) : Bool :=
  c == ' ' || c == '\t'

def endsWord (cs : List Char) : Bool :=
  match cs with
  | [] => true
  | c :: _ => isGap c || c == '\n'

def atMarker : Reader Bool := do
  if (← column) != 0 then return false
  let cs ← rest
  return (("---".toList.isPrefixOf cs || "...".toList.isPrefixOf cs) && endsWord (cs.drop 3))

def lineEnds : Reader Nat := do
  let ends ← collect do
    let start ← get
    let _ ← takeWhile isGap
    if ← accept? '\n' then return some ()
    else
      set start
      return none
  return ends.length

/-- What the end of a line and so many line ends in all count for. -/
def folded (ends : Nat) : List Char :=
  if ends ≤ 1 then [' '] else List.replicate (ends - 1) '\n'

def dropGapRight (cs : List Char) : List Char :=
  (cs.reverse.dropWhile isGap).reverse

def quotedEnds : Reader Nat := do
  let ends ← lineEnds
  if ← atMarker then failure
  let _ ← takeWhile isGap
  return ends

def singlePiece? : Reader (Option (List Char)) := do
  match ← rest with
  | '\'' :: '\'' :: _ =>
    let _ ← next
    let _ ← next
    return some ['\'']
  | '\'' :: _ => return none
  | [] => failure
  | _ =>
    let line ← takeWhile (· != '\'')
    if ← ahead (· == '\n') then return some (dropGapRight line ++ folded (← quotedEnds))
    else return some line

def singleQuoted : Reader String := do
  expect '\''
  let pieces ← collect singlePiece?
  expect '\''
  return .ofList pieces.flatten

def escaped : Reader (List Char) := do
  match ← next with
  | '0' => return ['\x00']
  | 'a' => return ['\x07']
  | 'b' => return ['\x08']
  | 't' | '\t' => return ['\t']
  | 'n' => return ['\n']
  | 'v' => return ['\x0b']
  | 'f' => return ['\x0c']
  | 'r' => return ['\r']
  | 'e' => return ['\x1b']
  | ' ' => return [' ']
  | '"' => return ['"']
  | '/' => return ['/']
  | '\\' => return ['\\']
  | 'N' => return ['\u0085']
  | '_' => return ['\u00a0']
  | 'L' => return ['\u2028']
  | 'P' => return ['\u2029']
  | 'x' => return [← codePoint 2]
  | 'u' => return [← codePoint 4]
  | 'U' => return [← codePoint 8]
  | '\n' => return List.replicate (← quotedEnds) '\n'
  | _ => failure

def doublePiece? : Reader (Option (List Char)) := do
  match ← rest with
  | '"' :: _ => return none
  | '\\' :: _ =>
    let _ ← next
    return some (← escaped)
  | [] => failure
  | _ =>
    let line ← takeWhile fun c => c != '"' && c != '\\'
    if ← ahead (· == '\n') then return some (dropGapRight line ++ folded (← quotedEnds))
    else return some line

def doubleQuoted : Reader String := do
  expect '"'
  let pieces ← collect doublePiece?
  expect '"'
  return .ofList pieces.flatten

def isFlowSymbol (c : Char) : Bool :=
  [',', '[', ']', '\x7b', '\x7d'].contains c

def beginsPlain (inFlow : Bool) : List Char → Bool
  | [] => false
  | c :: cs =>
    if c == '-' then !endsWord cs
    else if c == '?' || c == ':' then !inFlow && !endsWord cs
    else !(isGap c || c == '\n' || isFlowSymbol c ||
      ['#', '&', '*', '!', '|', '>', '\'', '"', '%', '@', '\x60'].contains c)

def endsKey (inFlow : Bool) (cs : List Char) : Bool :=
  endsWord cs || (inFlow && cs.head?.any fun c => isFlowSymbol c || c == '?')

/-- The length of a plain scalar within its line. The second argument says that a gap stands
before. -/
def plainLength (inFlow : Bool) : Bool → List Char → Nat
  | _, [] => 0
  | gap, c :: cs =>
    if c == '\n' || (inFlow && isFlowSymbol c) || (gap && c == '#') then 0
    else if c == ':' && endsKey inFlow cs then 0
    else 1 + plainLength inFlow (isGap c) cs

/-- The part of a plain scalar on one line, without the gap after it. Inside of brackets, a gap has
to follow the colon after a plain key. -/
def plainLine (inFlow : Bool) : Reader (List Char) := do
  let cs ← rest
  let length := plainLength inFlow false cs
  match cs.drop length with
  | ':' :: after => if !endsWord after then failure
  | _ => pure ()
  let line := dropGapRight (cs.take length)
  set (⟨cs.drop line.length, (← column) + line.length⟩ : Text.Cursor)
  return line

def margin (indent : Nat) : Reader Unit := do
  let gap ← takeWhile isGap
  if (gap.take indent).contains '\t' then failure

def marginBelow (indent : Nat) : Reader Nat := do
  let _ ← takeWhile isGap
  let ends ← collect do
    if ← accept? '\n' then
      margin indent
      return some ()
    else return none
  return ends.length

/-- A further line of a plain scalar, with the line ends before it. Outside of brackets it begins
at column `indent` or right of it. -/
def plainContinuation? (inFlow : Bool) (indent : Nat) : Reader (Option (List Char)) := do
  let start ← get
  let ends ← marginBelow indent
  let cs ← rest
  let inside := 0 < ends && (inFlow || indent ≤ (← column)) && !(← atMarker)
  if inside && cs.head? != some '#' && 0 < plainLength inFlow true cs then
    return some (folded ends ++ (← plainLine inFlow))
  else
    set start
    return none

def plain (inFlow : Bool) (indent : Nat) : Reader String := do
  if !beginsPlain inFlow (← rest) then failure
  let first ← plainLine inFlow
  let more ← collect (plainContinuation? inFlow indent)
  return .ofList (first ++ more.flatten)

end FactoryLint.Yaml.Scalar
