import FactoryLint.Text.Split

namespace FactoryLint

inductive Path.Component
  | root
  | here
  | up
  | name (text : List Char)
  deriving DecidableEq, Repr

namespace Path

/-- The components of a path. Empty ones count for nothing, and `.` only in first place. -/
def components (path : List Char) : List Component :=
  let parts := Text.splitAt '/' path
  let named := parts.filter fun part => !part.isEmpty && part != ['.']
  let start := match parts with
    | [] :: _ :: _ => [Component.root]
    | ['.'] :: _ => [.here]
    | _ => []
  start ++ named.map fun part => if part == ['.', '.'] then .up else .name part

def fileName? (path : List Char) : Option (List Char) :=
  match (components path).getLast? with
  | some (.name text) => some text
  | _ => none

/-- What follows the last dot of a file name. A dot in first place does not count. -/
def extension? (path : List Char) : Option (List Char) := do
  let name ← fileName? path
  match ← Text.beforeLast? '.' name with
  | [] => none
  | _ :: _ => some (Text.afterLast '.' name)

def join (directory name : List Char) : List Char :=
  match directory.getLast? with
  | none => name
  | some '/' => directory ++ name
  | some _ => directory ++ '/' :: name

def Component.precedes : Component → Component → Bool
  | .name a, .name b => a < b
  | .root, c => c != .root
  | .here, c => c != .root && c != .here
  | .up, .name _ => true
  | _, _ => false

/-- Paths are ordered component by component, one before those that go on below it. -/
def upTo : List Component → List Component → Bool
  | [], _ => true
  | _ :: _, [] => false
  | x :: xs, y :: ys => x.precedes y || (x == y && upTo xs ys)

def sortOn {α : Type} (path : α → String) (xs : List α) : List α :=
  xs.mergeSort fun a b => upTo (components (path a).toList) (components (path b).toList)

end Path

end FactoryLint
