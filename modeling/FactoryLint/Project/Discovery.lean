import FactoryLint.Project.Config
import FactoryLint.Project.FileTree

namespace FactoryLint

namespace Workspace

def sourcesBelow (config : ProjectConfig) (path : String) (t : FileTree) : List String :=
  let found := (t.paths path.toList).filter fun p => Path.extension? p = some "php".toList
  (found.map String.ofList).filter (!config.excludes ·)

/-- The files that a path names: a file by itself, whatever its name is, or the sources below a
directory. -/
def sourcesAt? (w : Workspace) (config : ProjectConfig) (path : String) : Option (List String) :=
  match w.find path with
  | .ok (.file _) => some [path]
  | .ok (.directory entries) => some (sourcesBelow config path (.directory entries))
  | .error _ => none

/-- The files that some paths name, in order. A file may be named more than once. -/
def sources (w : Workspace) (config : ProjectConfig) (paths : List String) : List String :=
  (paths.filterMap (w.sourcesAt? config)).flatten

def missing (w : Workspace) (paths : List String) : List String :=
  paths.filter fun path => (w.find path).toOption.isNone

end Workspace

namespace ProjectConfig

def fileName : String :=
  ".helperize.toml"

inductive LoadError
  | unreadable (path : String) (error : FileError)
  | malformed (path : String)
  deriving DecidableEq, Repr

namespace LoadError

def message : LoadError → String
  | .unreadable path error => "Failed to read " ++ path ++ ": " ++ error.message
  | .malformed path => "Failed to parse " ++ path

end LoadError

def load (w : Workspace) (path : String) : Except LoadError ProjectConfig :=
  match w.read path with
  | .error e => .error (.unreadable path e)
  | .ok text =>
    match parse? text with
    | none => .error (.malformed path)
    | some config => .ok config

def fileIn? (tree : FileTree) (directory : List String) : Option String :=
  let path := directory ++ [fileName]
  if (tree.at? path).isSome then some ("/" ++ "/".intercalate path) else none

/-- The configuration file in a directory or else in the nearest one around it. The names of the
directory are given last name first. -/
def nearest? (tree : FileTree) : List String → Option String
  | [] => fileIn? tree []
  | name :: outer =>
    match fileIn? tree (name :: outer).reverse with
    | some path => some path
    | none => nearest? tree outer

def search (w : Workspace) : Except LoadError ProjectConfig :=
  match nearest? w.tree w.current.reverse with
  | some path => load w path
  | none => .ok standard

end ProjectConfig

end FactoryLint
