import FactoryLint.CommandLine.Options
import FactoryLint.Project.Check
import FactoryLint.Project.Discovery
import FactoryLint.Report.Basic

namespace FactoryLint.CommandLine

def programName : String :=
  "helperize"

def version : String :=
  "0.1.0"

inductive RunError
  | config (error : ProjectConfig.LoadError)
  | settings (error : SettingsError)
  | unknownForm (name : String)
  deriving DecidableEq, Repr

namespace RunError

def message : RunError → String
  | .config error => error.message
  | .settings error => "Invalid rewrite configuration: " ++ error.message
  | .unknownForm name =>
    "Invalid output format '" ++ name ++ "'. Valid options: text, json, diff"

end RunError

/-- What comes out of a run. There is no exit code if the program stops in the middle of a rule. -/
structure Outcome where
  exitCode : Option Nat
  printed : Printed
  writes : List (String × String)
  deriving DecidableEq, Repr

def Outcome.applyTo (o : Outcome) (w : Workspace) : Workspace :=
  o.writes.foldl (fun w (path, text) => w.write path text) w

def loadConfig (w : Workspace) (o : Options) : Except ProjectConfig.LoadError ProjectConfig :=
  if o.has .noConfig then .ok .standard
  else
    match o.value? .config with
    | some path => ProjectConfig.load w path
    | none => ProjectConfig.search w

/-- The settings of a run: the options come before the configuration, and the calls that they name
are excluded on top of those excluded anyway. -/
def settingsFor (o : Options) (config : ProjectConfig) : Settings :=
  let s := Settings.standard.override config.overrides
  { s with
    baseClass := (o.value? .baseClass).getD s.baseClass
    helperFunction := (o.value? .helper).getD s.helperFunction
    memberName := (o.value? .member).getD s.memberName
    excludedCalls := s.excludedCalls ++ o.valuesOf .excludeCall }

def formFor (o : Options) (config : ProjectConfig) : Except RunError Form :=
  if o.has .json then .ok .json
  else
    let name := ((o.value? .format).or config.format).getD "text"
    match Form.ofName? name with
    | some form => .ok form
    | none => .error (.unknownForm name)

def reportFile (fixes : Bool) (state : Report × List (String × String))
    (file : String × FileOutcome) : Report × List (String × String) :=
  let (report, writes) := state
  match file with
  | (path, .failed e) => (report.failed path (e.message path), writes)
  | (path, .unchanged) => (report.unchanged path, writes)
  | (path, .changed old new findings) =>
    if fixes then (report.fixed path findings, writes ++ [(path, new)])
    else (report.pending path findings old new, writes)

/-- The exit code: first come errors, then changes that a check has found. -/
def exitCode (fixes : Bool) (s : Summary) : Nat :=
  if 0 < s.errors then 1
  else if !fixes && 0 < s.filesWithChanges then 2
  else 0

/-- What comes of some files: the classes of all of them, and the outcome of each. -/
def checkAll (rules : List Rule) (w : Workspace) (files : List String) :
    Except Rule.Stop (Hierarchy × List (String × FileOutcome)) := do
  let loaded := files.map fun path => (path, Source.load w path)
  match Source.index? (loaded.map (·.2)) with
  | none => throw .imports
  | some h =>
    let checked ← loaded.mapM fun (path, source) => do
      return (path, ← Source.outcome rules h source)
    return (h, checked)

def checkFiles (fixes : Bool) (rules : List Rule) (w : Workspace) (files : List String)
    (form : Form) (isVerbose : Bool) (printed : Printed) : Outcome :=
  match checkAll rules w files with
  | .error _ => ⟨none, printed, []⟩
  | .ok (h, checked) =>
    let (report, writes) :=
      (Path.sortOn (·.1) checked).foldl (reportFile fixes)
        (Report.start form isVerbose h.size printed, [])
    ⟨some (exitCode fixes report.summary), report.finish version (!fixes), writes⟩

def ruleLines (rules : List Rule) : List String :=
  "Available rules:" :: rules.map fun r => "  " ++ r.name ++ " - " ++ r.description

def runWith (w : Workspace) (o : Options) : Except RunError Outcome := do
  let config ← (loadConfig w o).mapError RunError.config
  let rules ← (Rule.registry (settingsFor o config)).mapError RunError.settings
  if o.has .listRules then
    return ⟨some 0, (ruleLines rules).foldl Printed.printLine .nothing, []⟩
  let form ← formFor o config
  let fixes := o.has .fix
  let lines :=
    if o.has .verbose && form == .text then ["Mode: " ++ (if fixes then "fix" else "check"), ""]
    else []
  let warnings :=
    if form == .text then
      (w.missing o.paths).map fun path => "Warning: Path does not exist: " ++ path
    else []
  let printed := warnings.foldl Printed.warn (lines.foldl Printed.printLine .nothing)
  return checkFiles fixes rules w (w.sources config o.paths) form (o.has .verbose) printed

def usage : String :=
  "Usage: " ++ programName ++ " [OPTIONS] <PATHS>..."

def run (w : Workspace) (arguments : List String) : Outcome :=
  match Request.ofArguments arguments with
  | .error e => ⟨some 2, (Printed.nothing.warn ("error: " ++ e.message)).warn usage, []⟩
  | .ok .showHelp => ⟨some 0, Printed.nothing.printLine usage, []⟩
  | .ok .showVersion => ⟨some 0, Printed.nothing.printLine (programName ++ " " ++ version), []⟩
  | .ok (.run o) =>
    match runWith w o with
    | .ok outcome => outcome
    | .error e => ⟨some 1, Printed.nothing.warn ("Error: " ++ e.message), []⟩

end FactoryLint.CommandLine
