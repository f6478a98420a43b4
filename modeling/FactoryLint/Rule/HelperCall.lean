import FactoryLint.Edit.Canonical
import FactoryLint.Php.Declarations
import FactoryLint.Php.Lowering
import FactoryLint.Rewrite.Apply
import FactoryLint.Rewrite.Emit

namespace FactoryLint.Rule

inductive Stop
  | imports
  | splice (error : EditError)
  deriving DecidableEq, Repr

namespace HelperCall

def message (s : Settings) : String :=
  "Replace $" ++ s.selfReference ++ "->" ++ s.memberName ++ " with " ++ s.helperFunction ++ "()"

def rewriteRoot (s : Settings) (scope : Scope) (source : String) (a : Arena) (root : NodeId) :
    Except EditError (List Edit × Arena) :=
  match Rewrite.apply s scope.context? a root with
  | (.unchanged, a) => .ok ([], a)
  | (.changed _, a) => (Rewrite.edits a root source (message s)).map fun edits => (edits, a)

def rewriteRoots (s : Settings) (scope : Scope) (source : String) :
    Arena → List NodeId → Except EditError (List Edit)
  | _, [] => .ok []
  | a, root :: roots => do
    let (edits, a) ← rewriteRoot s scope source a root
    let more ← rewriteRoots s scope source a roots
    return edits ++ more

/-- The edits that the rule suggests. A literal is looked into if the class around it descends
from the base class, as the program and the project's hierarchy have it. -/
def check (s : Settings) (h : Hierarchy) (source : String) (program : Php.Program) :
    Except Stop (List Edit) :=
  match program.declarations? source with
  | none => .error .imports
  | some [] => .ok []
  | some declarations =>
    let (roots, a) := program.lower
    ((rewriteRoots s ⟨h, declarations⟩ source a roots).map Edit.canonical).mapError .splice

end HelperCall

end FactoryLint.Rule
