import FactoryLint.CommandLine.Run

namespace FactoryLint

def namesFromRoot (path : String) : List String :=
  ((Text.splitAt '/' path.toList).filter (!·.isEmpty)).map .ofList

def pathFromRoot (names : List String) : String :=
  "/" ++ "/".intercalate names

/-- A file on the disk. Files that no argument names and that are no sources are left empty. -/
def readFile (path : String) (isNamed : Bool) : IO FileTree := do
  if isNamed || Path.extension? path.toList == some "php".toList then
    return .file (← IO.FS.readBinFile path)
  else return .file .empty

partial def readTree (path : String) (isNamed : Bool) : IO (Option FileTree) := do
  try
    let place ← IO.FS.realPath path
    if ← place.isDir then
      let entries ← (← place.readDir).toList.filterMapM fun e => do
        let isLink := (← e.path.symlinkMetadata).type == .symlink
        if isLink && (← e.path.isDir) then return none
        let t ← readTree (path ++ "/" ++ e.fileName) false
        return t.map fun t => (e.fileName, t)
      return some (.directory entries)
    else return some (← readFile path isNamed)
  catch _ => return none

def isDirectory (path : String) : IO Bool := do
  try return ← (← IO.FS.realPath path).isDir
  catch _ => return false

def readPath (current : List String) (tree : FileTree) (path : String) : IO FileTree := do
  let mut tree := tree
  let (start, parts) := match Text.splitAt '/' path.toList with
    | [] :: parts => ([], parts)
    | parts => (current, parts)
  let mut names := start
  for part in parts do
    if part == ['.', '.'] then names := names.dropLast
    else if !part.isEmpty && part != ['.'] then names := names ++ [.ofList part]
    if (tree.at? names).isNone && (← isDirectory (pathFromRoot names)) then
      tree := tree.insert names (.directory [])
  match ← readTree (pathFromRoot names) true with
  | some t => return tree.insert names t
  | none => return tree

/-- The workspace as far as a run with these options looks at it. Files come after directories, so
that those named are not left empty. -/
def readWorkspace (current : List String) (o : CommandLine.Options) : IO Workspace := do
  let configs := (List.range (current.length + 1)).map fun n =>
    pathFromRoot (current.take n ++ [ProjectConfig.fileName])
  let paths := o.paths ++ o.valuesOf .config
  let directories ← paths.filterM isDirectory
  let files ← paths.filterM fun path => return !(← isDirectory path)
  let start := (FileTree.directory []).insert current (.directory [])
  let tree ← (directories ++ files ++ configs).foldlM (readPath current) start
  return ⟨tree, current⟩

end FactoryLint

open FactoryLint in
def main (arguments : List String) : IO UInt32 := do
  let current := namesFromRoot (← IO.currentDir).toString
  let options := match CommandLine.Request.ofArguments arguments with
    | .ok (.run o) => o
    | _ => .empty
  let outcome := CommandLine.run (← readWorkspace current options) arguments
  for (path, text) in outcome.writes do
    IO.FS.writeFile path text
  IO.print outcome.printed.output
  for line in outcome.printed.warnings do
    IO.eprintln line
  -- a program that has been aborted leaves no code of its own; shells show this one
  return (outcome.exitCode.getD 134).toUInt32
