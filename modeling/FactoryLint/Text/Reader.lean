namespace FactoryLint.Text

/-- What is left of a text, and the column at which it begins, counted from 0. -/
structure Cursor where
  rest : List Char
  column : Nat

abbrev Reader := StateT Cursor Option

namespace Reader

variable {α : Type}

def rest : Reader (List Char) := do
  return (← get).rest

def column : Reader Nat := do
  return (← get).column

def peek : Reader (Option Char) := do
  return (← rest).head?

def next : Reader Char := do
  match ← get with
  | ⟨[], _⟩ => failure
  | ⟨c :: cs, column⟩ =>
    set (⟨cs, if c == '\n' then 0 else column + 1⟩ : Cursor)
    return c

def ahead (p : Char → Bool) : Reader Bool := do
  return (← rest).head?.any p

def atEnd : Reader Bool := do
  return (← rest).isEmpty

def takeWhile (p : Char → Bool) : Reader (List Char) := do
  let ⟨cs, column⟩ ← get
  let taken := cs.takeWhile fun c => p c && c != '\n'
  set (⟨cs.drop taken.length, column + taken.length⟩ : Cursor)
  return taken

def accept? (c : Char) : Reader Bool := do
  if (← peek) == some c then
    let _ ← next
    return true
  else return false

def expect (c : Char) : Reader Unit := do
  if !(← accept? c) then failure

def atWord (word : String) : Reader Bool := do
  return word.toList.isPrefixOf (← rest)

def acceptWord? (word : String) : Reader Bool := do
  if ← atWord word then
    let ⟨cs, column⟩ ← get
    set (⟨cs.drop word.length, column + word.length⟩ : Cursor)
    return true
  else return false

def takenSince (start : Cursor) : Reader (List Char) := do
  return start.rest.take (start.rest.length - (← rest).length)

/-- Try a reader, and take nothing if it fails. -/
def attempt? (r : Reader α) : Reader (Option α) := do
  match r.run (← get) with
  | none => return none
  | some (x, c) =>
    set c
    return some x

/-- Read items as long as there are any, in at most `bound` rounds. -/
def collectUpTo (item? : Reader (Option α)) : Nat → Reader (List α)
  | 0 => return []
  | bound + 1 => do
    match ← item? with
    | none => return []
    | some x => return x :: (← collectUpTo item? bound)

/-- Read items as long as there are any. Each takes a character. -/
def collect (item? : Reader (Option α)) : Reader (List α) := do
  collectUpTo item? ((← rest).length + 1)

def readAll? (r : Reader α) (cs : List Char) : Option α :=
  match r.run ⟨cs, 0⟩ with
  | some (x, ⟨[], _⟩) => some x
  | _ => none

end Reader

def char? (code : Nat) : Option Char :=
  if code.isValidChar then some (.ofNat code) else none

def hexValue? (digits : List Char) : Option Nat :=
  digits.foldl (fun n c => do
    let n ← n
    if c.isDigit then some (n * 16 + (c.toNat - '0'.toNat))
    else if 'a' ≤ c.toLower && c.toLower ≤ 'f' then
      some (n * 16 + (c.toLower.toNat - 'a'.toNat + 10))
    else none) (some 0)

namespace Reader

def codePoint (digits : Nat) : Reader Char := do
  let ⟨cs, column⟩ ← get
  let taken := cs.take digits
  if taken.length < digits then failure
  set (⟨cs.drop digits, column + digits⟩ : Cursor)
  match (hexValue? taken).bind char? with
  | some c => return c
  | none => failure

end Reader

end FactoryLint.Text
