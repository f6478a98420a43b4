import FactoryLint.Arena.Walk
import FactoryLint.Classes.Scope
import FactoryLint.Rewrite.Site

namespace FactoryLint.Rewrite

inductive Outcome
  | unchanged
  | changed (replacements : Nat)
  deriving DecidableEq, Repr

def perform (a : Arena) (count : Nat) : Option (Replacement × Arena) → Arena × Nat
  | none => (a, count)
  | some (r, a') =>
    match a'.replaceChild? r.parent r.old r.new with
    | some a'' => (a'', count + 1)
    | none => (a', count)

/-- Visit one node. Nodes that were built and strings are not entered. -/
def visit (s : Settings) : Arena.Step Nat := fun id a count =>
  match a.node? id with
  | none => (.skip, a, count)
  | some n =>
    if n.isBuilt then (.skip, a, count)
    else
      match n.shape with
      | .interpolated _ => (.skip, a, count)
      | .methodCall .. => (.enter, perform a count (matchCall s a id))
      | .property .. => (.enter, perform a count (matchProperty s a id))
      | _ => (.enter, a, count)

/-- The walk of the items of an array literal. Without a cycle no path is longer than the arena,
and the nodes that are added have no children. -/
def rewriteItems (s : Settings) (a : Arena) (items : List NodeId) : Option (Arena × Nat) :=
  Arena.walk (visit s) (a.size + 1) items a 0

/-- Rewrite under `root` if it is an array literal and `context`, the class around it, descends from
the base class. -/
def applyIn (s : Settings) (context : Option ClassContext) (a : Arena) (root : NodeId) :
    Outcome × Arena :=
  match a.shape? root with
  | some (.arrayLiteral items) =>
    if context.any (·.IsSubclassOf s.baseClass) then
      match rewriteItems s a items with
      | some (a, count + 1) => (.changed (count + 1), a)
      | some (a, 0) => (.unchanged, a)
      | none => (.unchanged, a)
    else (.unchanged, a)
  | _ => (.unchanged, a)

def apply (s : Settings) (context? : Span → Option ClassContext) (a : Arena) (root : NodeId) :
    Outcome × Arena :=
  applyIn s ((a.span? root).bind context?) a root

end FactoryLint.Rewrite
