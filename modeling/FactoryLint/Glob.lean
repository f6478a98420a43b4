import FactoryLint.Text.Split

namespace FactoryLint

structure CharClass where
  ranges : List (Char × Char)
  negated : Bool
  deriving DecidableEq, Repr

namespace CharClass

def contains (k : CharClass) (c : Char) : Bool :=
  k.ranges.any (fun (low, high) => low ≤ c && c ≤ high) != k.negated

def rangesOf : List Char → List (Char × Char)
  | low :: '-' :: high :: cs => (low, high) :: rangesOf cs
  | c :: cs => (c, c) :: rangesOf cs
  | [] => []

/-- The class that follows an opening bracket, and what comes after its closing one. A closing
bracket in first place is a character of the class. -/
def ofBrackets? (cs : List Char) : Option (CharClass × List Char) := do
  let (negated, cs) := match cs with
    | '!' :: cs => (true, cs)
    | cs => (false, cs)
  match cs with
  | [] => none
  | c :: cs =>
    let (inside, after) ← Text.breakAt? [']'] cs
    return (⟨rangesOf (c :: inside), negated⟩, after)

end CharClass

namespace Glob

inductive Piece
  | char (c : Char)
  | anyChar
  | oneOf (chars : CharClass)
  | anyText
  /-- Any number of components, each with the slash after it, or all that is left. -/
  | components
  deriving DecidableEq, Repr

/-- The pieces of a pattern of at most `bound` characters. `atStart` says that a component begins
here; only there may `**` stand, and the component has to end after it. -/
def piecesUpTo : Nat → Bool → List Char → Option (List Piece)
  | _, _, [] => some []
  | 0, _, _ :: _ => none
  | bound + 1, atStart, '*' :: '*' :: cs =>
    match atStart, cs with
    | true, [] => some [.components]
    | true, '/' :: cs => (piecesUpTo bound true cs).map (.components :: ·)
    | _, _ => none
  | bound + 1, _, '*' :: cs => (piecesUpTo bound false cs).map (.anyText :: ·)
  | bound + 1, _, '?' :: cs => (piecesUpTo bound false cs).map (.anyChar :: ·)
  | bound + 1, _, '[' :: cs => do
    let (chars, cs) ← CharClass.ofBrackets? cs
    return .oneOf chars :: (← piecesUpTo bound false cs)
  | bound + 1, _, c :: cs => (piecesUpTo bound (c = '/') cs).map (.char c :: ·)

def suffixes : List Char → List (List Char)
  | [] => [[]]
  | c :: cs => (c :: cs) :: suffixes cs

def componentSuffixes : List Char → List (List Char)
  | [] => []
  | c :: cs => if c = '/' then cs :: componentSuffixes cs else componentSuffixes cs

def acceptsFrom : List Piece → List Char → Bool
  | [], cs => cs.isEmpty
  | .anyText :: ps, cs => (suffixes cs).any (acceptsFrom ps)
  | .components :: ps, cs => (cs :: [] :: componentSuffixes cs).any (acceptsFrom ps)
  | _ :: _, [] => false
  | .char x :: ps, c :: cs => x = c && acceptsFrom ps cs
  | .anyChar :: ps, _ :: cs => acceptsFrom ps cs
  | .oneOf chars :: ps, c :: cs => chars.contains c && acceptsFrom ps cs

end Glob

structure Glob where
  pieces : List Glob.Piece
  deriving DecidableEq, Repr

namespace Glob

def parse? (pattern : List Char) : Option Glob :=
  (piecesUpTo pattern.length true pattern).map (⟨·⟩)

def accepts (g : Glob) (text : List Char) : Bool :=
  acceptsFrom g.pieces text

end Glob

end FactoryLint
