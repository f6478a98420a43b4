import FactoryLint.Edit.Basic

namespace FactoryLint.Edit

/-- Later edits first; edits with one start keep their order. -/
def backToFront (edits : List Edit) : List Edit :=
  edits.mergeSort fun a b => b.span.start ≤ a.span.start

/-- The first fault of a list that is ordered back to front. `next` is the start of the edit
before, up to which this one may reach. -/
def firstFault (length : Nat) : Option Nat → List Edit → Option EditError
  | _, [] => none
  | next, e :: es =>
    if length < e.span.stop ∨ e.span.stop < e.span.start then
      some (.outOfBounds e.span length)
    else if next.any (· < e.span.stop) then
      some (.overlap e.span.start)
    else
      firstFault length (some e.span.start) es

def spliceAll (cs : List Char) : List Edit → Except EditError (List Char)
  | [] => .ok cs
  | e :: es =>
    match Text.replace? cs e.span e.replacement.toList with
    | some cs' => spliceAll cs' es
    | none => .error (.offBoundary e.span)

def apply (source : String) (edits : List Edit) : Except EditError String :=
  let ordered := backToFront edits
  match firstFault (Text.byteLength source.toList) none ordered with
  | some fault => .error fault
  | none => (spliceAll source.toList ordered).map String.ofList

end FactoryLint.Edit
