import FactoryLint.Text.Json
import FactoryLint.Text.Split

namespace FactoryLint

inductive Form
  | text
  | json
  | diff
  deriving DecidableEq, Repr

def Form.ofName? (name : String) : Option Form :=
  match String.ofList (Text.lower name.toList) with
  | "text" => some .text
  | "json" => some .json
  | "diff" => some .diff
  | _ => none

structure Finding where
  rule : String
  line : Nat
  column : Nat
  message : String
  deriving DecidableEq, Repr

def Finding.text (f : Finding) : String :=
  "  -> " ++ toString f.line ++ ":" ++ toString f.column ++ " " ++ f.message

def Finding.json (f : Finding) : Text.Json :=
  .object
    [ ("rule", .string f.rule), ("line", .number f.line), ("column", .number f.column),
      ("message", .string f.message) ]

structure FileReport where
  path : String
  findings : List Finding
  error : Option String
  deriving DecidableEq, Repr

/-- A file in a report for programs. Only what there is to say is said. -/
def FileReport.json (f : FileReport) : Text.Json :=
  .object <| [("path", .string f.path)] ++
    (if f.findings.isEmpty then [] else [("edits", .array (f.findings.map Finding.json))]) ++
    (f.error.map fun e => ("error", .string e)).toList

structure Summary where
  filesProcessed : Nat
  filesWithChanges : Nat
  totalEdits : Nat
  errors : Nat
  classesIndexed : Nat
  deriving DecidableEq, Repr

def Summary.lines (s : Summary) : List String :=
  [ "", "Summary",
    "  Files processed: " ++ toString s.filesProcessed,
    "  Classes indexed: " ++ toString s.classesIndexed,
    "  Files with changes: " ++ toString s.filesWithChanges,
    "  Total edits: " ++ toString s.totalEdits ] ++
  if 0 < s.errors then ["  Errors: " ++ toString s.errors] else []

def Summary.json (s : Summary) : Text.Json :=
  .object
    [ ("files_processed", .number s.filesProcessed),
      ("files_with_changes", .number s.filesWithChanges), ("total_edits", .number s.totalEdits),
      ("errors", .number s.errors), ("classes_indexed", .number s.classesIndexed) ]

end FactoryLint
