import FactoryLint.Text.Reader
import FactoryLint.Text.Split
import FactoryLint.Toml.Value

namespace FactoryLint.Toml.Scalar

open Text (Reader)
open Text.Reader

def isGap (c : Char) : Bool :=
  c == ' ' || c == '\t'

def isText (c : Char) : Bool :=
  c == '\t' || (' ' ≤ c && c != '\x7f')

def gap : Reader Unit := do
  let _ ← takeWhile isGap

def lineEnd? : Reader Bool := do
  if ← accept? '\n' then return true
  match ← rest with
  | '\r' :: '\n' :: _ =>
    let _ ← next
    let _ ← next
    return true
  | _ => return false

def escaped : Reader Char := do
  match ← next with
  | 'b' => return '\x08'
  | 't' => return '\t'
  | 'n' => return '\n'
  | 'f' => return '\x0c'
  | 'r' => return '\r'
  | '"' => return '"'
  | '\\' => return '\\'
  | 'u' => codePoint 4
  | 'U' => codePoint 8
  | _ => failure

def run (quote : Char) : Reader (List Char) := do
  let cs ← takeWhile fun c => isText c && c != quote && (quote == '\'' || c != '\\')
  if cs.isEmpty then failure
  return cs

def linePiece? (quote : Char) : Reader (Option (List Char)) := do
  if ← ahead (· == quote) then return none
  if quote == '"' && (← accept? '\\') then return some [← escaped]
  return some (← run quote)

def lineString (quote : Char) : Reader String := do
  expect quote
  let pieces ← collect (linePiece? quote)
  expect quote
  return .ofList pieces.flatten

def blankLines : Reader Unit := do
  let _ ← collect do
    let gap ← takeWhile isGap
    if (← lineEnd?) || !gap.isEmpty then return some () else return none

/-- What follows a backslash in a string over several lines. At the end of a line it stands for
nothing, together with all blanks up to the next character. -/
def longEscaped : Reader (List Char) := do
  let start ← get
  gap
  if ← lineEnd? then
    blankLines
    return []
  else
    set start
    return [← escaped]

def longPiece? (quote : Char) : Reader (Option (List Char)) := do
  let quotes := (← rest).takeWhile (· == quote)
  if 3 ≤ quotes.length then return none
  if !quotes.isEmpty then return some (← takeWhile (· == quote))
  if ← lineEnd? then return some ['\n']
  if quote == '"' && (← accept? '\\') then return some (← longEscaped)
  return some (← run quote)

/-- A string over several lines, between three quotes. A line end right after the first three
does not count, and up to two more quotes may stand before the last three. -/
def longString (quote : Char) : Reader String := do
  let marks : String := .ofList [quote, quote, quote]
  if !(← acceptWord? marks) then failure
  let _ ← lineEnd?
  let pieces ← collect (longPiece? quote)
  let quotes := (← rest).takeWhile (· == quote)
  let last := quotes.take (min quotes.length 5 - 3)
  let _ ← acceptWord? (.ofList last)
  if !(← acceptWord? marks) then failure
  return .ofList (pieces.flatten ++ last)

def string (quote : Char) : Reader String := do
  if ← atWord (.ofList [quote, quote, quote]) then longString quote else lineString quote

def digits (p : Char → Bool) : Reader (List Char) := do
  let cs ← takeWhile fun c => p c || c == '_'
  if (Text.splitAt '_' cs).any List.isEmpty then failure
  return cs.filter (· != '_')

def decimal (cs : List Char) : Nat :=
  cs.foldl (fun n c => n * 10 + (c.toNat - '0'.toNat)) 0

def sign : Reader Bool := do
  if ← accept? '+' then return false
  accept? '-'

def integer (n : Int) : Reader Toml := do
  if n < -(Nat.pow 2 63) || Nat.pow 2 63 ≤ n then failure
  return .integer n

def based (word : String) (base : Nat) (isDigit : Char → Bool) : Reader Toml := do
  if !(← acceptWord? word) then failure
  let cs ← digits isDigit
  integer (cs.foldl (fun n c => n * base + ((Text.hexValue? [c]).getD 0)) 0 : Nat)

def isHexDigit (c : Char) : Bool :=
  (Text.hexValue? [c]).isSome

def isOctalDigit (c : Char) : Bool :=
  '0' ≤ c && c ≤ '7'

def isBinaryDigit (c : Char) : Bool :=
  c == '0' || c == '1'

/-- The number `n * 10 ^ e` is nearer to `2 ^ 1024` than to any binary fraction with 53 digits
below it. -/
def overflows (n : Nat) (e : Int) : Bool :=
  let size := (toString n).length + e
  if n == 0 || size < 300 then false
  else if 310 < size then true
  else
    let limit := Nat.pow 2 1024 - Nat.pow 2 970
    if 0 ≤ e then limit ≤ n * Nat.pow 10 e.toNat else limit * Nat.pow 10 (-e).toNat ≤ n

def signed (negative : Bool) (n : Nat) : Int :=
  if negative then -n else n

def exponent? : Reader (Option Int) := do
  if ← ahead fun c => c == 'e' || c == 'E' then
    let _ ← next
    let negative ← sign
    return some (signed negative (decimal (← digits Char.isDigit)))
  else return none

/-- An integer or a number with a fraction or an exponent. A positive number must not be too
large. -/
def number : Reader Toml := do
  let start ← get
  let negative ← sign
  let whole ← digits Char.isDigit
  if whole.head? == some '0' && 1 < whole.length then failure
  let fraction ← if ← accept? '.' then digits Char.isDigit else pure []
  let exponent ← exponent?
  if fraction.isEmpty && exponent.isNone then
    integer (signed negative (decimal whole))
  else
    let scale := exponent.getD 0 - fraction.length
    if !negative && overflows (decimal (whole ++ fraction)) scale then failure
    return .float (.ofList (← takenSince start))

def special : Reader Toml := do
  let start ← get
  let _ ← sign
  if !(← acceptWord? "inf") then
    if !(← acceptWord? "nan") then failure
  return .float (.ofList (← takenSince start))

def fixed (count : Nat) : Reader Nat := do
  let cs := (← rest).take count
  if cs.length < count || !cs.all Char.isDigit then failure
  let _ ← acceptWord? (.ofList cs)
  return decimal cs

def fixedIn (count low high : Nat) : Reader Nat := do
  let n ← fixed count
  if n < low || high < n then failure
  return n

def daysIn (year month : Nat) : Nat :=
  if month == 2 then
    if year % 4 == 0 && (year % 100 != 0 || year % 400 == 0) then 29 else 28
  else if [4, 6, 9, 11].contains month then 30
  else 31

def date : Reader Unit := do
  let year ← fixed 4
  expect '-'
  let month ← fixedIn 2 1 12
  expect '-'
  let _ ← fixedIn 2 1 (daysIn year month)

def time : Reader Unit := do
  let _ ← fixedIn 2 0 23
  expect ':'
  let _ ← fixedIn 2 0 59
  expect ':'
  let _ ← fixedIn 2 0 60
  if ← accept? '.' then
    if (← takeWhile Char.isDigit).isEmpty then failure

def offset : Reader Unit := do
  if ← ahead fun c => c == '+' || c == '-' then
    let _ ← sign
    let _ ← fixedIn 2 0 23
    expect ':'
    let _ ← fixedIn 2 0 59
  else if ← ahead fun c => c == 'Z' || c == 'z' then
    let _ ← next

def timeOfDate : Reader Unit := do
  if !(← ahead fun c => c == 'T' || c == 't' || c == ' ') then failure
  let _ ← next
  time
  offset

def datetime : Reader Toml := do
  let start ← get
  (do date; let _ ← attempt? timeOfDate) <|> time
  return .datetime (.ofList (← takenSince start))

def scalar : Reader Toml := do
  match ← peek with
  | some '"' => return .string (← string '"')
  | some '\'' => return .string (← string '\'')
  | some 't' => if ← acceptWord? "true" then return .boolean true else failure
  | some 'f' => if ← acceptWord? "false" then return .boolean false else failure
  | _ =>
    datetime <|> special <|> based "0x" 16 isHexDigit <|> based "0o" 8 isOctalDigit <|>
      based "0b" 2 isBinaryDigit <|> number

end FactoryLint.Toml.Scalar
