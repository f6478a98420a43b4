import FactoryLint.Text.Bytes

namespace FactoryLint.Text

/-- A place in a text as an editor shows it. Both numbers count from 1, columns in characters. -/
structure Position where
  line : Nat
  column : Nat
  deriving DecidableEq, Repr

namespace Position

def first : Position := ⟨1, 1⟩

def advance (p : Position) (c : Char) : Position :=
  if c = '\n' then ⟨p.line + 1, 1⟩ else ⟨p.line, p.column + 1⟩

/-- Read `offset` bytes onwards from `p`. An offset inside a character counts as the one after
it, and one past the end as the end. -/
def after (p : Position) : Nat → List Char → Position
  | 0, _ => p
  | _ + 1, [] => p
  | n + 1, c :: cs => (p.advance c).after (n + 1 - c.utf8Size) cs

def ofOffset (source : String) (offset : Nat) : Position :=
  first.after offset source.toList

end Position

end FactoryLint.Text
