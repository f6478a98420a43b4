import FactoryLint.CommandLine.Run
import FactoryLint.Proofs.Report.Append
import Mathlib.Algebra.GroupWithZero.Nat

namespace FactoryLint

namespace FileOutcome

def isFailed : FileOutcome → Bool
  | failed _ => true
  | _ => false

def isChanged : FileOutcome → Bool
  | changed .. => true
  | _ => false

def findings : FileOutcome → List Finding
  | changed _ _ findings => findings
  | _ => []

def fileReport (path : String) : FileOutcome → FileReport
  | failed e => ⟨path, [], some (e.message path)⟩
  | unchanged => ⟨path, [], none⟩
  | changed _ _ findings => ⟨path, findings, none⟩

/-- What is printed for one file. A report for programs is printed at the end. -/
def told (fixes : Bool) (form : Form) (isVerbose : Bool) (path : String) : FileOutcome → Printed
  | failed e =>
    if form = .text then ⟨"", ["Warning: " ++ path ++ " - " ++ e.message path]⟩ else .nothing
  | unchanged =>
    if form = .text ∧ isVerbose then .ofLines [path ++ ": No changes needed"] else .nothing
  | changed old new findings =>
    match form with
    | .text =>
      if fixes then
        .ofLines [path, "  OK Applied " ++ toString findings.length ++ " change(s)", ""]
      else
        .ofLines ([path] ++ Report.changedLines old new ++ [""] ++ findings.map Finding.text ++
          [""])
    | .diff => if fixes then .nothing else ⟨Diff.unified path old new, []⟩
    | .json => .nothing

def addTo (fixes : Bool) (r : Report) (path : String) : FileOutcome → Report
  | failed e => r.failed path (e.message path)
  | unchanged => r.unchanged path
  | changed old new findings =>
    if fixes then r.fixed path findings else r.pending path findings old new

def writes (fixes : Bool) (path : String) : FileOutcome → List (String × String)
  | changed _ new _ => if fixes then [(path, new)] else []
  | _ => []

variable (fixes : Bool) (path : String) (o : FileOutcome) (form : Form) (isVerbose : Bool)

theorem reportFile_eq (r : Report) (ws : List (String × String)) :
    CommandLine.reportFile fixes (r, ws) (path, o) =
      (o.addTo fixes r path, ws ++ o.writes fixes path) := by
  cases o with
  | failed e => simp [CommandLine.reportFile, addTo, writes]
  | unchanged => simp [CommandLine.reportFile, addTo, writes]
  | changed old new findings => cases fixes <;> simp [CommandLine.reportFile, addTo, writes]

end FileOutcome

def Summary.ofOutcomes (classes : Nat) (outcomes : List FileOutcome) : Summary where
  filesProcessed := outcomes.length
  filesWithChanges := outcomes.countP (·.isChanged)
  totalEdits := (outcomes.map (·.findings.length)).sum
  errors := outcomes.countP (·.isFailed)
  classesIndexed := classes

namespace FileOutcome

def HasFindings : FileOutcome → Prop
  | changed _ _ findings => findings ≠ []
  | _ => True

theorem addTo_eq (fixes : Bool) (r : Report) (path : String) (o : FileOutcome)
    (ho : o.HasFindings) : o.addTo fixes r path =
      ⟨r.form, r.isVerbose, r.files ++ [o.fileReport path], r.summary.add (.ofOutcomes 0 [o]),
        r.printed.append (o.told fixes r.form r.isVerbose path)⟩ := by
  obtain ⟨form, isVerbose, files, summary, printed⟩ := r
  cases o with
  | failed e =>
    cases form <;>
      simp [addTo, Report.failed, Report.countFile, Report.addFile, Printed.warn_eq, Summary.add,
        Summary.ofOutcomes, told, fileReport, isFailed, isChanged, findings]
  | unchanged =>
    cases isVerbose <;>
      simp [addTo, Report.unchanged, Report.keep, Report.countFile, Report.addFile,
        Report.printLines_eq, Summary.add, Summary.ofOutcomes, told, fileReport, isFailed,
        isChanged, findings]
  | changed old new found =>
    obtain ⟨first, more, rfl⟩ := List.exists_cons_of_ne_nil ho
    cases fixes with
    | true =>
      cases form <;>
        simp [addTo, Report.fixed, Report.countEdits, Report.countFile, Report.addFile,
          Report.printLines_eq, Summary.add, Summary.ofOutcomes, told, fileReport, isFailed,
          isChanged, findings]
    | false =>
      cases form <;>
        simp [addTo, Report.pending, Report.countEdits, Report.countFile, Report.addFile,
          Report.printLines_eq, Printed.print_eq, Summary.add, Summary.ofOutcomes, told, fileReport,
          isFailed, isChanged, findings]

end FileOutcome

namespace Report

/-- A report on files with these outcomes, in this order. -/
def ofOutcomes (fixes : Bool) (r : Report) (files : List (String × FileOutcome)) : Report :=
  files.foldl (fun r file => file.2.addTo fixes r file.1) r

theorem ofOutcomes_eq (fixes : Bool) (r : Report) (files : List (String × FileOutcome))
    (h : ∀ file ∈ files, file.2.HasFindings) : r.ofOutcomes fixes files =
      ⟨r.form, r.isVerbose, r.files ++ files.map fun file => file.2.fileReport file.1,
        r.summary.add (.ofOutcomes 0 (files.map (·.2))),
        r.printed.append (.all (files.map fun file =>
          file.2.told fixes r.form r.isVerbose file.1))⟩ := by
  induction files generalizing r with
  | nil =>
    have hsummary : r.summary.add (.ofOutcomes 0 []) = r.summary := rfl
    rw [List.map_nil, List.map_nil, List.map_nil, List.append_nil, hsummary, Printed.all,
      List.foldr_nil, Printed.append_nothing]
    rfl
  | cons file files ih =>
    obtain ⟨hfile, hrest⟩ := List.forall_mem_cons.mp h
    have hstep : r.ofOutcomes fixes (file :: files) =
        (file.2.addTo fixes r file.1).ofOutcomes fixes files := rfl
    have hsummary : ∀ os : List FileOutcome, (r.summary.add (.ofOutcomes 0 [file.2])).add
        (.ofOutcomes 0 os) = r.summary.add (.ofOutcomes 0 (file.2 :: os)) := by
      intro os
      simp [Summary.add, Summary.ofOutcomes, List.countP_cons]
      omega
    rw [hstep, ih _ hrest, FileOutcome.addTo_eq fixes r file.1 file.2 hfile]
    dsimp only
    rw [hsummary, Printed.append_assoc, List.append_assoc]
    rfl

/-- What a report closes with. -/
def closing (fixes : Bool) (form : Form) (s : Summary) (files : List FileReport) : Printed :=
  match form with
  | .text =>
    .ofLines (s.lines ++
      if fixes = false ∧ 0 < s.totalEdits then ["", "Run with --fix to apply changes"] else [])
  | .json =>
    .ofLines [(Text.Json.object
      [ ("version", .string CommandLine.version), ("summary", s.json),
        ("files", .array (files.map FileReport.json)) ]).render 0]
  | .diff => .nothing

theorem finish_eq (fixes : Bool) (r : Report) : r.finish CommandLine.version (!fixes) =
    r.printed.append (closing fixes r.form r.summary r.files) := by
  obtain ⟨form, isVerbose, files, summary, printed⟩ := r
  cases form with
  | text =>
    refine (Printed.foldl_printLine printed _).trans ?_
    simp [closing]
  | json => exact Printed.foldl_printLine printed [_]
  | diff => exact (Printed.append_nothing printed).symm

end Report

theorem CommandLine.foldl_reportFile (fixes : Bool) (r : Report) (ws : List (String × String))
    (files : List (String × FileOutcome)) : files.foldl (reportFile fixes) (r, ws) =
      (r.ofOutcomes fixes files, ws ++ files.flatMap fun file => file.2.writes fixes file.1) := by
  induction files generalizing r ws with
  | nil => rw [List.flatMap_nil, List.append_nil]; rfl
  | cons file files ih =>
    rw [List.foldl_cons, FileOutcome.reportFile_eq, ih, List.flatMap_cons, List.append_assoc]
    rfl

end FactoryLint
