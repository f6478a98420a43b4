import FactoryLint.Path

namespace FactoryLint

inductive FileTree
  | file (content : ByteArray)
  | directory (entries : List (String × FileTree))

inductive FileError
  | notFound
  | notDirectory
  | isDirectory
  | notText
  deriving DecidableEq, Repr

namespace FileError

def message : FileError → String
  | .notFound => "No such file or directory (os error 2)"
  | .notDirectory => "Not a directory (os error 20)"
  | .isDirectory => "Is a directory (os error 21)"
  | .notText => "stream did not contain valid UTF-8"

end FileError

namespace FileTree

def entries : FileTree → List (String × FileTree)
  | .file _ => []
  | .directory entries => entries

def at? (tree : FileTree) (names : List String) : Option FileTree :=
  names.foldlM (fun t name => t.entries.lookup name) tree

def put (name : String) (t : FileTree) : List (String × FileTree) → List (String × FileTree)
  | [] => [(name, t)]
  | (n, s) :: entries => if n = name then (name, t) :: entries else (n, s) :: put name t entries

def insert (tree : FileTree) : List String → FileTree → FileTree
  | [], t => t
  | name :: names, t =>
    let inner := (tree.entries.lookup name).getD (.directory [])
    .directory (put name (inner.insert names t) tree.entries)

mutual

/-- The path of everything in a tree that has itself a path, from the top down. -/
def paths (path : List Char) : FileTree → List (List Char)
  | .file _ => [path]
  | .directory entries => path :: pathsBelow path entries

def pathsBelow (path : List Char) : List (String × FileTree) → List (List Char)
  | [] => []
  | (name, t) :: entries => paths (Path.join path name.toList) t ++ pathsBelow path entries

end

end FileTree

/-- A tree of files and the directory in it that paths start from. -/
structure Workspace where
  tree : FileTree
  current : List String

namespace Workspace

def follow (w : Workspace) (names : List String) (part : List Char) :
    Except FileError (List String) :=
  match w.tree.at? names with
  | none => .error .notFound
  | some (.file _) => .error .notDirectory
  | some (.directory _) =>
    if part = [] ∨ part = ['.'] then .ok names
    else if part = ['.', '.'] then .ok names.dropLast
    else
      let names := names ++ [.ofList part]
      if (w.tree.at? names).isSome then .ok names else .error .notFound

def locate (w : Workspace) (path : String) : Except FileError (List String) :=
  match Text.splitAt '/' path.toList with
  | [[]] => .error .notFound
  | [] :: parts => parts.foldlM w.follow []
  | parts => parts.foldlM w.follow w.current

def find (w : Workspace) (path : String) : Except FileError FileTree := do
  match w.tree.at? (← w.locate path) with
  | some t => return t
  | none => throw .notFound

def read (w : Workspace) (path : String) : Except FileError String := do
  match ← w.find path with
  | .directory _ => throw .isDirectory
  | .file content =>
    match String.fromUTF8? content with
    | some text => return text
    | none => throw .notText

def write (w : Workspace) (path text : String) : Workspace :=
  match w.locate path with
  | .ok names => { w with tree := w.tree.insert names (.file text.toUTF8) }
  | .error _ => w

end Workspace

end FactoryLint
