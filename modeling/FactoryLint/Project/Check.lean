import FactoryLint.Edit.Apply
import FactoryLint.Php.Parser.Program
import FactoryLint.Project.FileTree
import FactoryLint.Report.File
import FactoryLint.Rule.Registry

namespace FactoryLint

inductive SourceError
  | unreadable (error : FileError)
  | malformed
  | conflict (error : EditError)
  deriving DecidableEq, Repr

namespace SourceError

def message (path : String) : SourceError → String
  | .unreadable error => "Failed to read file: " ++ path ++ ": " ++ error.message
  | .malformed => "Parse error, skipping"
  | .conflict error => "Failed to apply edits to " ++ path ++ ": " ++ error.message

end SourceError

inductive FileOutcome
  | failed (error : SourceError)
  | unchanged
  | changed (old new : String) (findings : List Finding)

structure Source where
  text : String
  program : Php.Program

namespace Source

def load (w : Workspace) (path : String) : Except SourceError Source :=
  match w.read path with
  | .error e => .error (.unreadable e)
  | .ok text =>
    match Php.Program.parse? text with
    | none => .error .malformed
    | some program => .ok ⟨text, program⟩

def extendBy? (h : Hierarchy) : Except SourceError Source → Option Hierarchy
  | .ok s => (s.program.declarations? s.text).map h.extend
  | .error _ => some h

/-- The classes of all files. Of two with one name, the later one counts; files with an error add
nothing. -/
def index? (sources : List (Except SourceError Source)) : Option Hierarchy :=
  sources.foldlM extendBy? .empty

def edits (rules : List Rule) (h : Hierarchy) (s : Source) :
    Except Rule.Stop (List (String × Edit)) :=
  rules.foldlM (fun found rule => do
    let edits ← rule.check h s.text s.program
    return found ++ (Edit.canonical edits).map fun e => (rule.name, e)) []

def findingOf (text : String) : String × Edit → Finding
  | (rule, e) =>
    let at_ := e.position text
    ⟨rule, at_.line, at_.column, e.message⟩

def check (rules : List Rule) (h : Hierarchy) (s : Source) : Except Rule.Stop FileOutcome :=
  match s.edits rules h with
  | .error stop => .error stop
  | .ok [] => .ok .unchanged
  | .ok found =>
    match Edit.apply s.text (found.map (·.2)) with
    | .ok new => .ok (.changed s.text new (found.map (findingOf s.text)))
    | .error (.offBoundary span) => .error (.splice (.offBoundary span))
    | .error e => .ok (.failed (.conflict e))

def outcome (rules : List Rule) (h : Hierarchy) :
    Except SourceError Source → Except Rule.Stop FileOutcome
  | .ok s => s.check rules h
  | .error e => .ok (.failed e)

end Source

end FactoryLint
