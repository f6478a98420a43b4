import FactoryLint.Edit.Basic

namespace FactoryLint.Edit

def Same (a b : Edit) : Prop :=
  a.span = b.span ∧ a.replacement = b.replacement

instance (a b : Edit) : Decidable (a.Same b) :=
  inferInstanceAs (Decidable (_ ∧ _))

def precedes (a b : Edit) : Bool :=
  a.span.start < b.span.start ||
    a.span.start == b.span.start &&
      (a.span.stop < b.span.stop ||
        a.span.stop == b.span.stop && a.replacement ≤ b.replacement)

/-- Of neighbours that do the same, keep the first. `last` is the edit kept before. -/
def dropRepeated (last : Option Edit) : List Edit → List Edit
  | [] => []
  | e :: es =>
    if last.any (·.Same e) then dropRepeated last es
    else e :: dropRepeated (some e) es

/-- Sort the edits and keep, of those that do the same, the one that came first. -/
def canonical (edits : List Edit) : List Edit :=
  dropRepeated none (edits.mergeSort precedes)

end FactoryLint.Edit
