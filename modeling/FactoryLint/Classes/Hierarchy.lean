import FactoryLint.Classes.Name
import FactoryLint.Text.Span
import Std.Data.HashMap

namespace FactoryLint

structure Declaration where
  name : String
  parent : Option String
  span : Span
  deriving DecidableEq, Repr, Inhabited

structure Hierarchy where
  parents : Std.HashMap String (Option String)

namespace Hierarchy

def empty : Hierarchy := ⟨∅⟩

instance : Inhabited Hierarchy := ⟨empty⟩

def register (h : Hierarchy) (d : Declaration) : Hierarchy :=
  ⟨h.parents.insert (ClassName.key d.name) d.parent⟩

/-- Add classes in order, so that the last declaration of a name wins. -/
def extend (h : Hierarchy) (ds : List Declaration) : Hierarchy :=
  ds.foldl register h

def ofDeclarations (ds : List Declaration) : Hierarchy :=
  empty.extend ds

/-- The classes of both, where `h'` wins on names that both know. -/
def merge (h h' : Hierarchy) : Hierarchy :=
  ⟨h.parents.insertMany h'.parents.toList⟩

def contains (h : Hierarchy) (name : String) : Bool :=
  h.parents.contains (ClassName.key name)

def size (h : Hierarchy) : Nat :=
  h.parents.size

def isEmpty (h : Hierarchy) : Bool :=
  h.parents.isEmpty

/-- The parent of a known class, `some none` if it has none; `none` if the class is unknown. -/
def parent? (h : Hierarchy) (name : String) : Option (Option String) :=
  h.parents[ClassName.key name]?

end Hierarchy

end FactoryLint
