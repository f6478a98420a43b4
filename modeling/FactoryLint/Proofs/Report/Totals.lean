import FactoryLint.CommandLine.Run
import FactoryLint.Proofs.Report.Append
import Mathlib.Algebra.GroupWithZero.Nat

namespace FactoryLint

def FileReport.totals (f : FileReport) : Summary where
  filesProcessed := 1
  filesWithChanges := if f.findings = [] then 0 else 1
  totalEdits := f.findings.length
  errors := if f.error.isSome then 1 else 0
  classesIndexed := 0

namespace Report

/-- What a report may be told about a file. -/
inductive Call
  | pending (path : String) (findings : List Finding) (old new : String)
  | fixed (path : String) (findings : List Finding)
  | unchanged (path : String)
  | failed (path error : String)

def Call.run (r : Report) : Call → Report
  | pending path findings old new => r.pending path findings old new
  | fixed path findings => r.fixed path findings
  | unchanged path => r.unchanged path
  | failed path error => r.failed path error

def Call.file : Call → FileReport
  | pending path findings _ _ => ⟨path, findings, none⟩
  | fixed path findings => ⟨path, findings, none⟩
  | unchanged path => ⟨path, [], none⟩
  | failed path error => ⟨path, [], some error⟩

/-- The report after some calls. -/
def runAll (r : Report) (calls : List Call) : Report :=
  calls.foldl Call.run r

/-- The totals of a report are those of the files that it lists, and no file stands there both with
edits and with an error. -/
structure IsCounted (r : Report) : Prop where
  filesProcessed : r.summary.filesProcessed = r.files.length
  filesWithChanges : r.summary.filesWithChanges = r.files.countP (·.findings ≠ [])
  totalEdits : r.summary.totalEdits = (r.files.map (·.findings.length)).sum
  errors : r.summary.errors = r.files.countP (·.error.isSome)
  exclusive : ∀ f ∈ r.files, f.findings = [] ∨ f.error = none

variable (r : Report)

@[simp] theorem printLines_files (lines : List String) : (r.printLines lines).files = r.files := by
  rw [printLines]
  split_ifs <;> rfl

@[simp] theorem printLines_summary (lines : List String) :
    (r.printLines lines).summary = r.summary := by
  rw [printLines]
  split_ifs <;> rfl

/-- Just this file has been added to the list, and just this file has been counted. -/
structure Adds (s : Report) (f : FileReport) : Prop where
  files : s.files = r.files ++ [f]
  summary : s.summary = r.summary.add f.totals

variable {r}

theorem keep_adds (path : String) : r.Adds (r.countFile.keep path) ⟨path, [], none⟩ := by
  by_cases h : r.isVerbose
  · constructor <;> simp [keep, countFile, addFile, h, FileReport.totals, Summary.add]
  · constructor <;> simp [keep, countFile, addFile, h, FileReport.totals, Summary.add]

theorem countEdits_adds {s : Report} {findings : List Finding} (path : String)
    (h : findings ≠ []) (hfiles : s.files = r.files)
    (hsummary : s.summary = (r.countFile.countEdits findings.length).summary) :
    r.Adds (s.addFile ⟨path, findings, none⟩) ⟨path, findings, none⟩ where
  files := by rw [addFile, hfiles]
  summary := by
    rw [addFile, hsummary]
    simp [countEdits, countFile, FileReport.totals, Summary.add, h]

theorem pending_adds (path : String) (findings : List Finding) (old new : String) :
    r.Adds (r.pending path findings old new) ⟨path, findings, none⟩ := by
  cases findings with
  | nil => exact keep_adds path
  | cons first more =>
    obtain ⟨form, isVerbose, files, summary, printed⟩ := r
    cases form with
    | text =>
      exact countEdits_adds path (List.cons_ne_nil _ _) (printLines_files _ _)
        (printLines_summary _ _)
    | json => exact countEdits_adds path (List.cons_ne_nil _ _) rfl rfl
    | diff => exact countEdits_adds path (List.cons_ne_nil _ _) rfl rfl

theorem fixed_adds (path : String) (findings : List Finding) :
    r.Adds (r.fixed path findings) ⟨path, findings, none⟩ := by
  cases findings with
  | nil => exact keep_adds path
  | cons first more =>
    exact countEdits_adds path (List.cons_ne_nil _ _) (printLines_files _ _)
      (printLines_summary _ _)

theorem failed_adds (path error : String) :
    r.Adds (r.failed path error) ⟨path, [], some error⟩ := by
  obtain ⟨form, isVerbose, files, summary, printed⟩ := r
  cases form <;> exact ⟨rfl, rfl⟩

theorem Call.run_adds (c : Call) : r.Adds (c.run r) c.file := by
  cases c with
  | pending path findings old new => exact pending_adds path findings old new
  | fixed path findings => exact fixed_adds path findings
  | unchanged path => exact keep_adds path
  | failed path error => exact failed_adds path error

theorem Call.file_exclusive (c : Call) : c.file.findings = [] ∨ c.file.error = none := by
  cases c with
  | pending path findings old new => exact Or.inr rfl
  | fixed path findings => exact Or.inr rfl
  | unchanged path => exact Or.inr rfl
  | failed path error => exact Or.inl rfl

theorem IsCounted.adds {s : Report} {f : FileReport} (hr : r.IsCounted) (h : r.Adds s f)
    (hf : f.findings = [] ∨ f.error = none) : s.IsCounted where
  filesProcessed := by
    rw [h.files, h.summary, Summary.add, List.length_append, ← hr.filesProcessed]
    rfl
  filesWithChanges := by
    rw [h.files, h.summary, Summary.add, List.countP_append, ← hr.filesWithChanges]
    by_cases hfindings : f.findings = [] <;> simp [FileReport.totals, hfindings]
  totalEdits := by
    rw [h.files, h.summary, Summary.add, List.map_append, List.sum_append, ← hr.totalEdits]
    simp [FileReport.totals]
  errors := by
    rw [h.files, h.summary, Summary.add, List.countP_append, ← hr.errors]
    by_cases herror : f.error.isSome <;> simp [FileReport.totals, herror]
  exclusive := by
    intro g hg
    rw [h.files, List.mem_append, List.mem_singleton] at hg
    cases hg with
    | inl hg => exact hr.exclusive g hg
    | inr hg => exact hg ▸ hf

theorem runAll_files (calls : List Call) :
    (r.runAll calls).files = r.files ++ calls.map Call.file := by
  induction calls generalizing r with
  | nil => exact (List.append_nil _).symm
  | cons c calls ih =>
    have hstep : r.runAll (c :: calls) = (c.run r).runAll calls := rfl
    rw [hstep, ih, c.run_adds.files, List.map_cons, List.append_assoc, List.singleton_append]

theorem IsCounted.runAll (hr : r.IsCounted) (calls : List Call) : (r.runAll calls).IsCounted := by
  induction calls generalizing r with
  | nil => exact hr
  | cons c calls ih => exact ih (hr.adds c.run_adds c.file_exclusive)

theorem start_isCounted (form : Form) (isVerbose : Bool) (classes : Nat) (printed : Printed) :
    (start form isVerbose classes printed).IsCounted where
  filesProcessed := rfl
  filesWithChanges := rfl
  totalEdits := rfl
  errors := rfl
  exclusive := by simp [start]

end Report

def Text.Json.field? (name : String) : Text.Json → Option Text.Json
  | .object fields => fields.lookup name
  | _ => none

def Text.Json.listedFiles (report : Text.Json) : List Text.Json :=
  match report.field? "files" with
  | some (.array files) => files
  | _ => []

def Text.Json.lists (report : Text.Json) (name : String) : Bool :=
  report.listedFiles.any fun file => (file.field? name).isSome

/-- The exit code that the list of files gives. -/
def Text.Json.exitCode (fixes : Bool) (report : Text.Json) : Nat :=
  if report.lists "error" then 1
  else if !fixes && report.lists "edits" then 2
  else 0

namespace FileReport

variable (f : FileReport)

theorem field?_path : f.json.field? "path" = some (.string f.path) := by
  simp [json, Text.Json.field?]

theorem field?_edits : (f.json.field? "edits").isSome ↔ f.findings ≠ [] := by
  obtain ⟨path, findings, error⟩ := f
  cases findings <;> cases error <;> simp [json, Text.Json.field?, List.lookup_cons]

theorem field?_error : (f.json.field? "error").isSome ↔ f.error.isSome := by
  obtain ⟨path, findings, error⟩ := f
  cases findings <;> cases error <;> simp [json, Text.Json.field?, List.lookup_cons]

end FileReport

namespace Report

variable {r : Report}

theorem listedFiles_json (version : String) :
    (r.json version).listedFiles = r.files.map FileReport.json := by
  simp [json, Text.Json.listedFiles, Text.Json.field?, List.lookup_cons]

theorem any_listedFiles (version name : String) : ((r.json version).lists name = true) ↔
    ∃ f ∈ r.files, (f.json.field? name).isSome := by
  rw [Text.Json.lists, listedFiles_json, List.any_map, List.any_eq_true]
  rfl

theorem IsCounted.errors_pos (hr : r.IsCounted) (version : String) :
    0 < r.summary.errors ↔ (r.json version).lists "error" := by
  rw [hr.errors, List.countP_pos_iff, any_listedFiles]
  simp only [FileReport.field?_error]

theorem IsCounted.filesWithChanges_pos (hr : r.IsCounted) (version : String) :
    0 < r.summary.filesWithChanges ↔ (r.json version).lists "edits" := by
  rw [hr.filesWithChanges, List.countP_pos_iff, any_listedFiles]
  simp only [FileReport.field?_edits, decide_eq_true_eq]

theorem IsCounted.exitCode_eq (hr : r.IsCounted) (fixes : Bool) (version : String) :
    CommandLine.exitCode fixes r.summary = (r.json version).exitCode fixes := by
  simp only [CommandLine.exitCode, Text.Json.exitCode, hr.errors_pos version,
    hr.filesWithChanges_pos version, Bool.decide_eq_true]

/-- Whatever a report is told, it lists just that, in the order in which it is told. At every moment
its totals are those of the list, and the exit code is the one that the list gives. -/
theorem totals_match (form : Form) (isVerbose : Bool) (classes : Nat) (printed : Printed)
    (calls : List Call) :
    ((start form isVerbose classes printed).runAll calls).files = calls.map Call.file ∧
    ((start form isVerbose classes printed).runAll calls).IsCounted ∧
    ∀ version : String,
      (((start form isVerbose classes printed).runAll calls).json version).listedFiles.map
          (·.field? "path") = calls.map (fun c => some (.string c.file.path)) ∧
      ∀ fixes : Bool,
        CommandLine.exitCode fixes ((start form isVerbose classes printed).runAll calls).summary =
          (((start form isVerbose classes printed).runAll calls).json version).exitCode fixes := by
  have hcounted := (start_isCounted form isVerbose classes printed).runAll calls
  have hfiles : ((start form isVerbose classes printed).runAll calls).files =
      calls.map Call.file := runAll_files calls
  refine ⟨hfiles, hcounted, fun version => ⟨?_, fun fixes => hcounted.exitCode_eq fixes version⟩⟩
  rw [listedFiles_json, hfiles, List.map_map, List.map_map]
  exact List.map_congr_left fun c _ => c.file.field?_path

example : ((start .json false 0 .nothing).runAll
    [.pending "A.php" [⟨"faker_helper", 3, 23, ""⟩, ⟨"faker_helper", 4, 23, ""⟩] "a" "b",
      .unchanged "B.php", .failed "C.php" "Parse error, skipping"]).summary = ⟨3, 1, 2, 1, 0⟩ :=
  rfl

end Report

end FactoryLint
