import FactoryLint.Classes.Ancestry
import FactoryLint.Classes.Hierarchy

namespace FactoryLint

/-- The declarations of one file in front of the project's hierarchy. -/
structure Scope where
  hierarchy : Hierarchy
  declarations : List Declaration

structure ClassContext where
  name : String
  ancestors : List String
  deriving DecidableEq, Repr

namespace ClassContext

def IsSubclassOf (c : ClassContext) (ancestor : String) : Prop :=
  ∃ a ∈ c.ancestors, ClassName.key a = ClassName.key ancestor

instance (c : ClassContext) (ancestor : String) : Decidable (c.IsSubclassOf ancestor) :=
  inferInstanceAs (Decidable (∃ a ∈ c.ancestors, _))

end ClassContext

namespace Scope

def shorter (d d' : Declaration) : Declaration :=
  if d'.span.length < d.span.length then d' else d

/-- The shortest declaration around a span. Declarations around one place are nested, so it is
the innermost. -/
def enclosing? (s : Scope) (span : Span) : Option Declaration :=
  match s.declarations.filter fun d => span.Inside d.span with
  | [] => none
  | d :: ds => some (ds.foldl shorter d)

/-- The parent of a class, taken from the first declaration of that name in the file or else
from the project. -/
def parent? (s : Scope) (name : String) : Option (Option String) :=
  match s.declarations.find? fun d => ClassName.key d.name = ClassName.key name with
  | some d => some d.parent
  | none => s.hierarchy.parent? name

def ancestors (s : Scope) (d : Declaration) : List String :=
  Ancestry.chain s.parent? (s.declarations.length + s.hierarchy.size) d.name d.parent

def context? (s : Scope) (span : Span) : Option ClassContext :=
  (s.enclosing? span).map fun d => ⟨d.name, s.ancestors d⟩

end Scope

end FactoryLint
