import FactoryLint.Php.Token

namespace FactoryLint.Php

/-- A parser gives a result and the tokens that it left. -/
abbrev Parser := StateT (List Token) Option

namespace Parser

variable {α β : Type}

def ahead (p : List Token → Bool) : Parser Bool := do
  return p (← get)

def token : Parser Token := do
  match ← get with
  | [] => failure
  | t :: ts => set ts; return t

def tokenIf (p : Token → Bool) : Parser Token := do
  let t ← token
  if p t then return t else failure

def tokenIf? (p : Token → Bool) : Parser (Option Token) := do
  match ← get with
  | [] => return none
  | t :: ts => if p t then set ts; return some t else return none

def symbol (text : String) : Parser Span := do
  return (← tokenIf (·.isSymbol text)).span

def symbol? (text : String) : Parser (Option Span) := do
  return (← tokenIf? (·.isSymbol text)).map (·.span)

def keyword (word : String) : Parser Span := do
  return (← tokenIf (·.isKeyword word)).span

def keyword? (word : String) : Parser (Option Span) := do
  return (← tokenIf? (·.isKeyword word)).map (·.span)

def first (p : Token → Bool) (ts : List Token) : Bool :=
  ts.head?.any p

def second (p : Token → Bool) (ts : List Token) : Bool :=
  first p (ts.drop 1)

def third (p : Token → Bool) (ts : List Token) : Bool :=
  first p (ts.drop 2)

def atSymbol (text : String) : Parser Bool :=
  ahead (first (·.isSymbol text))

def atKeyword (word : String) : Parser Bool :=
  ahead (first (·.isKeyword word))

def manyUpTo (more : List Token → Bool) (p : Parser α) : Nat → Parser (List α)
  | 0 => return []
  | bound + 1 => do
    if ← ahead more then
      let x ← p
      return x :: (← manyUpTo more p bound)
    else return []

/-- Parse as long as `more` holds of what is ahead. Each round takes a token, so there are no
more rounds than tokens. -/
def many (more : List Token → Bool) (p : Parser α) : Parser (List α) := do
  manyUpTo more p (← get).length

def iterateUpTo (step : α → Parser (Option α)) : Nat → α → Parser α
  | 0, x => return x
  | bound + 1, x => do
    match ← step x with
    | none => return x
    | some y => iterateUpTo step bound y

def iterate (step : α → Parser (Option α)) (x : α) : Parser α := do
  iterateUpTo step (← get).length x

def commaList (p : Parser α) : Parser (List α) := do
  let x ← p
  let xs ← many (first (·.isSymbol ",")) (do let _ ← symbol ","; p)
  return x :: xs

/-- Any number up to the symbol `close`, separated by commas, with an optional comma after the
last one. The span is that of `close`. -/
def commaListUpTo (close : String) (p : Parser α) : Parser (List α × Span) := do
  let notClosed := fun ts => !first (·.isSymbol close) ts
  let xs ← many notClosed do
    let x ← p
    if (← symbol? ",").isNone && !(← atSymbol close) then failure
    return x
  return (xs, ← symbol close)

def parenthesized (p : Parser α) : Parser α := do
  let _ ← symbol "("
  let x ← p
  let _ ← symbol ")"
  return x

end Parser

end FactoryLint.Php
