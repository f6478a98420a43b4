import FactoryLint.Text.Position

namespace FactoryLint

/-- Put `replacement` in the place of `span`; `message` says why. -/
structure Edit where
  span : Span
  replacement : String
  message : String
  deriving DecidableEq, Repr

namespace Edit

def position (e : Edit) (source : String) : Text.Position :=
  .ofOffset source e.span.start

end Edit

inductive EditError
  | outOfBounds (span : Span) (length : Nat)
  /-- The edit that starts at `start` ends after the start of another. -/
  | overlap (start : Nat)
  | offBoundary (span : Span)
  deriving DecidableEq, Repr

namespace EditError

def message : EditError → String
  | .outOfBounds span length =>
    s!"Edit span {span.start}..{span.stop} out of bounds for source length {length}"
  | .overlap start => s!"Overlapping edits detected at offset {start}"
  | .offBoundary span => s!"Edit span {span.start}..{span.stop} splits a character"

end EditError

end FactoryLint
