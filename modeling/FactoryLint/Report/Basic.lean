import FactoryLint.Diff.Unified
import FactoryLint.Report.File

namespace FactoryLint

/-- What a run prints: its output, and the lines of warnings and errors beside it. -/
structure Printed where
  output : String
  warnings : List String
  deriving DecidableEq, Repr

namespace Printed

def nothing : Printed := ⟨"", []⟩

def print (p : Printed) (text : String) : Printed :=
  { p with output := p.output ++ text }

def printLine (p : Printed) (text : String) : Printed :=
  p.print (text ++ "\n")

def warn (p : Printed) (text : String) : Printed :=
  { p with warnings := p.warnings ++ [text] }

end Printed

structure Report where
  form : Form
  isVerbose : Bool
  files : List FileReport
  summary : Summary
  printed : Printed

namespace Report

def start (form : Form) (isVerbose : Bool) (classes : Nat) (printed : Printed) : Report :=
  ⟨form, isVerbose, [], ⟨0, 0, 0, 0, classes⟩, printed⟩

def printLines (r : Report) (lines : List String) : Report :=
  if r.form = .text then { r with printed := lines.foldl Printed.printLine r.printed } else r

def countFile (r : Report) : Report :=
  { r with summary := { r.summary with filesProcessed := r.summary.filesProcessed + 1 } }

def addFile (r : Report) (file : FileReport) : Report :=
  { r with files := r.files ++ [file] }

def keep (r : Report) (path : String) : Report :=
  let r := if r.isVerbose then r.printLines [path ++ ": No changes needed"] else r
  r.addFile ⟨path, [], none⟩

def unchanged (r : Report) (path : String) : Report :=
  r.countFile.keep path

def countEdits (r : Report) (edits : Nat) : Report :=
  { r with summary :=
    { r.summary with
      filesWithChanges := r.summary.filesWithChanges + 1
      totalEdits := r.summary.totalEdits + edits } }

/-- The changed lines of a text, indented. -/
def changedLines (old new : String) : List String :=
  (Diff.align (Text.lines old.toList) (Text.lines new.toList)).filterMap fun
    | .kept _ => none
    | .removed line => some ("  - " ++ .ofList line)
    | .added line => some ("  + " ++ .ofList line)

def pending (r : Report) (path : String) (findings : List Finding) (old new : String) : Report :=
  let r := r.countFile
  if findings.isEmpty then r.keep path
  else
    let r := r.countEdits findings.length
    let r := match r.form with
      | .text =>
        r.printLines ([path] ++ changedLines old new ++ [""] ++ findings.map Finding.text ++ [""])
      | .diff => { r with printed := r.printed.print (Diff.unified path old new) }
      | .json => r
    r.addFile ⟨path, findings, none⟩

def fixed (r : Report) (path : String) (findings : List Finding) : Report :=
  let r := r.countFile
  if findings.isEmpty then r.keep path
  else
    let r := r.countEdits findings.length
    let r := r.printLines
      [path, "  OK Applied " ++ toString findings.length ++ " change(s)", ""]
    r.addFile ⟨path, findings, none⟩

def failed (r : Report) (path error : String) : Report :=
  let r := r.countFile
  let r := { r with summary := { r.summary with errors := r.summary.errors + 1 } }
  let r :=
    if r.form = .text then
      { r with printed := r.printed.warn ("Warning: " ++ path ++ " - " ++ error) }
    else r
  r.addFile ⟨path, [], some error⟩

def json (r : Report) (version : String) : Text.Json :=
  .object
    [ ("version", .string version), ("summary", r.summary.json),
      ("files", .array (r.files.map FileReport.json)) ]

/-- What has been printed when the report is done. After a check, the reader is told how to make
the changes. -/
def finish (r : Report) (version : String) (isCheck : Bool) : Printed :=
  match r.form with
  | .text =>
    let hint :=
      if isCheck && 0 < r.summary.totalEdits then ["", "Run with --fix to apply changes"] else []
    (r.summary.lines ++ hint).foldl Printed.printLine r.printed
  | .json => r.printed.printLine ((r.json version).render 0)
  | .diff => r.printed

end Report

end FactoryLint
