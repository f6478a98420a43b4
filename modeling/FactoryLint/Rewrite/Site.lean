import FactoryLint.Arena.Basic
import FactoryLint.Settings.Basic

namespace FactoryLint.Rewrite

/-- A child of a node, and the node that is to take its place. -/
structure Replacement where
  parent : NodeId
  old : NodeId
  new : NodeId
  deriving DecidableEq, Repr

def isMember (s : Settings) (a : Arena) (id : NodeId) : Bool :=
  match a.shape? id with
  | some (.property object (some name)) =>
    SameName name s.memberName && a.shape? object == some (.variable s.selfReference)
  | _ => false

def offer (s : Settings) (a : Arena) (parent object : NodeId) : Option (Replacement × Arena) :=
  if isMember s a object then
    let (new, a) := a.pushBuilt (.call s.helperFunction [])
    some (⟨parent, object, new⟩, a)
  else none

def matchProperty (s : Settings) (a : Arena) (id : NodeId) : Option (Replacement × Arena) :=
  match a.shape? id with
  | some (.property object _) => offer s a id object
  | _ => none

def matchCall (s : Settings) (a : Arena) (id : NodeId) : Option (Replacement × Arena) :=
  match a.shape? id with
  | some (.methodCall object name _) =>
    if name.any (s.Excludes ·) then none else offer s a id object
  | _ => none

end FactoryLint.Rewrite
