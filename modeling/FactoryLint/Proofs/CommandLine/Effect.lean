import FactoryLint.Proofs.Classes.Indexed
import FactoryLint.Proofs.Classes.Sharing
import FactoryLint.Proofs.CommandLine.Outcome
import FactoryLint.Proofs.Path
import FactoryLint.Proofs.Project.Files
import FactoryLint.Proofs.Project.Findings
import FactoryLint.Proofs.Traversal

namespace FactoryLint

theorem Source.outcome_eq_changed_iff {rules : List Rule} {h : Hierarchy}
    {source : Except SourceError Source} {old new : String} {findings : List Finding} :
    Source.outcome rules h source = .ok (.changed old new findings) ↔
      ∃ s found, source = .ok s ∧ s.edits rules h = .ok found ∧ found ≠ [] ∧
        Edit.apply s.text (found.map (·.2)) = .ok new ∧ old = s.text ∧
        findings = found.map (Source.findingOf s.text) := by
  constructor
  · intro hchanged
    cases source with
    | error e => cases hchanged
    | ok s =>
      rw [outcome, check] at hchanged
      split at hchanged
      · cases hchanged
      · cases hchanged
      · rename_i found hne hedits
        split at hchanged
        · cases hchanged
          exact ⟨s, found, rfl, hedits, hne, ‹_›, rfl, rfl⟩
        · cases hchanged
        · cases hchanged
  · rintro ⟨s, found, rfl, hedits, hne, happly, rfl, rfl⟩
    obtain ⟨first, more, rfl⟩ := List.exists_cons_of_ne_nil hne
    simp only [outcome, check, hedits, happly]

theorem Source.hasFindings_of_outcome {rules : List Rule} {h : Hierarchy}
    {source : Except SourceError Source} {o : FileOutcome}
    (ho : Source.outcome rules h source = .ok o) : o.HasFindings := by
  cases o with
  | failed e => trivial
  | unchanged => trivial
  | changed old new findings =>
    obtain ⟨s, found, -, -, hne, -, -, rfl⟩ := outcome_eq_changed_iff.mp ho
    exact fun hnil => hne (List.map_eq_nil_iff.mp hnil)

namespace CommandLine

/-- A run on some files of the workspace gets through all of them: `h` are their classes, and
`outcomes` is what comes of each. -/
structure Checked (rules : List Rule) (w : Workspace) (files : List String) (h : Hierarchy)
    (outcomes : String → FileOutcome) : Prop where
  index : Source.index? (files.map (Source.load w)) = some h
  outcome : ∀ path ∈ files, Source.outcome rules h (Source.load w path) = .ok (outcomes path)

/-- What a run on some files does, the outcome of which is `o`. -/
structure Effect (fixes : Bool) (rules : List Rule) (w : Workspace) (files : List String)
    (form : Form) (isVerbose : Bool) (printed : Printed) (h : Hierarchy)
    (outcomes : String → FileOutcome) (o : Outcome) : Prop where
  exitCode_le : ∃ code ≤ 2, o.exitCode = some code
  exitCode_eq_one : o.exitCode = some 1 ↔ ∃ path ∈ files, (outcomes path).isFailed
  exitCode_eq_two : (¬∃ path ∈ files, (outcomes path).isFailed) →
    (o.exitCode = some 2 ↔ fixes = false ∧ ∃ path ∈ files, (outcomes path).isChanged)
  checked : fixes = false → o.writes = [] ∧ o.applyTo w = w
  rewritten : fixes = true → ∀ path ∈ files, ∀ s found new, Source.load w path = .ok s →
    s.edits rules h = .ok found → found ≠ [] → Edit.apply s.text (found.map (·.2)) = .ok new →
      (o.applyTo w).read path = .ok new
  kept : ∀ path, (∀ file ∈ files, (outcomes file).isChanged → w.locate file ≠ w.locate path) →
    (o.applyTo w).content? path = w.content? path
  /-- Each file is reported once for each time it is named, in the order of the paths; the totals
  stand behind, and a report for programs, which lists the files again. -/
  reported : ∃ entries : List String, entries.Perm files ∧ entries.Pairwise Path.InOrder ∧
    o.printed = (printed.append (.all (entries.map fun path =>
        (outcomes path).told fixes form isVerbose path))).append
      (Report.closing fixes form (.ofOutcomes h.size (entries.map outcomes))
        (entries.map fun path => (outcomes path).fileReport path))

variable {fixes : Bool} {rules : List Rule} {w : Workspace} {files : List String} {path : String}
  {h : Hierarchy} {outcomes : String → FileOutcome}

theorem Outcome.applyTo_eq (o : Outcome) (w : Workspace) : o.applyTo w = w.writeAll o.writes := rfl

theorem load_congr {other : String} (h : w.locate path = w.locate other) :
    Source.load w path = Source.load w other := by
  rw [Source.load, Source.load, Workspace.read_eq, Workspace.read_eq, h]

theorem load_of_read {text : String} {program : Php.Program} (hread : w.read path = .ok text)
    (hparse : Php.Program.parse? text = some program) :
    Source.load w path = .ok ⟨text, program⟩ := by
  simp only [Source.load, hread, hparse]

theorem isFile_of_load {s : Source} (h : Source.load w path = .ok s) : w.IsFile path := by
  rw [Source.load] at h
  cases hread : w.read path with
  | error e =>
    rw [hread] at h
    cases h
  | ok text => exact Workspace.isFile_of_read hread

theorem checkAll_eq (rules : List Rule) (w : Workspace) (files : List String) :
    checkAll rules w files = match Source.index? (files.map (Source.load w)) with
      | none => .error .imports
      | some h => (files.mapM fun path =>
          (Source.outcome rules h (Source.load w path)).map (path, ·)).map (h, ·) := by
  have hsources : (files.map fun path => (path, Source.load w path)).map (·.2) =
      files.map (Source.load w) := by
    rw [List.map_map]
    rfl
  rw [checkAll]
  dsimp only
  rw [hsources]
  cases Source.index? (files.map (Source.load w)) with
  | none => rfl
  | some h =>
    dsimp only
    rw [List.mapM_map]
    rfl

theorem Checked.checkAll_eq (hc : Checked rules w files h outcomes) :
    checkAll rules w files = .ok (h, files.map fun path => (path, outcomes path)) := by
  have hall : files.mapM (fun path =>
      (Source.outcome rules h (Source.load w path)).map (path, ·)) =
        .ok (files.map fun path => (path, outcomes path)) :=
    mapM_eq_pure fun path hpath => by rw [hc.outcome path hpath]; rfl
  rw [CommandLine.checkAll_eq, hc.index]
  dsimp only
  rw [hall]
  rfl

theorem exists_checked {found : Hierarchy × List (String × FileOutcome)}
    (hall : checkAll rules w files = .ok found) :
    ∃ h outcomes, Checked rules w files h outcomes := by
  rw [checkAll_eq] at hall
  cases hindex : Source.index? (files.map (Source.load w)) with
  | none =>
    rw [hindex] at hall
    cases hall
  | some h =>
    rw [hindex] at hall
    dsimp only at hall
    cases hfiles : files.mapM fun path =>
        (Source.outcome rules h (Source.load w path)).map (path, ·) with
    | error e =>
      rw [hfiles] at hall
      cases hall
    | ok ys =>
      refine ⟨h, fun path => ((Source.outcome rules h (Source.load w path)).toOption).getD
        .unchanged, hindex, fun path hpath => ?_⟩
      obtain ⟨y, hy⟩ := exists_of_mapM_eq_ok hfiles path hpath
      cases ho : Source.outcome rules h (Source.load w path) with
      | error e =>
        rw [ho] at hy
        cases hy
      | ok o => rfl

/-- The texts that are written, in the order of `entries`. -/
def writesOn (fixes : Bool) (outcomes : String → FileOutcome) (entries : List String) :
    List (String × String) :=
  entries.flatMap fun path => (outcomes path).writes fixes path

theorem mem_writesOn {entries : List String} {x : String × String} :
    x ∈ writesOn fixes outcomes entries ↔ fixes = true ∧ x.1 ∈ entries ∧
      ∃ old findings, outcomes x.1 = .changed old x.2 findings := by
  rw [writesOn, List.mem_flatMap]
  constructor
  · rintro ⟨path, hpath, hx⟩
    cases houtcome : outcomes path with
    | failed e => simp [houtcome, FileOutcome.writes] at hx
    | unchanged => simp [houtcome, FileOutcome.writes] at hx
    | changed old new findings =>
      rw [houtcome, FileOutcome.writes] at hx
      split_ifs at hx with hfixes
      · obtain rfl := List.mem_singleton.mp hx
        exact ⟨hfixes, hpath, old, findings, houtcome⟩
      · cases hx
  · rintro ⟨rfl, hpath, old, findings, houtcome⟩
    refine ⟨x.1, hpath, ?_⟩
    rw [houtcome]
    exact List.mem_singleton_self x

theorem writesOn_false (outcomes : String → FileOutcome) (entries : List String) :
    writesOn false outcomes entries = [] :=
  List.eq_nil_iff_forall_not_mem.mpr fun _ hx => Bool.false_ne_true (mem_writesOn.mp hx).1

section

variable {entries : List String} (hc : Checked rules w files h outcomes)
  (hentries : ∀ path ∈ entries, path ∈ files)

include hc hentries

theorem isFile_of_mem_writesOn {x : String × String} (hx : x ∈ writesOn fixes outcomes entries) :
    w.IsFile x.1 := by
  obtain ⟨-, hmem, old, findings, houtcome⟩ := mem_writesOn.mp hx
  have hchanged := hc.outcome x.1 (hentries _ hmem)
  rw [houtcome] at hchanged
  obtain ⟨s, -, hload, -⟩ := Source.outcome_eq_changed_iff.mp hchanged
  exact isFile_of_load hload

theorem agree_writesOn : w.Agree (writesOn fixes outcomes entries) := by
  intro x hx y hy hlocate
  obtain ⟨-, hxmem, old, findings, hxoutcome⟩ := mem_writesOn.mp hx
  obtain ⟨-, hymem, old', findings', hyoutcome⟩ := mem_writesOn.mp hy
  have hxchecked := hc.outcome x.1 (hentries _ hxmem)
  rw [load_congr hlocate, hc.outcome y.1 (hentries _ hymem), hxoutcome, hyoutcome] at hxchecked
  exact (FileOutcome.changed.inj (Except.ok.inj hxchecked)).2.1.symm

end

theorem sortOn_map_pair (outcomes : String → FileOutcome) (files : List String) :
    Path.sortOn (·.1) (files.map fun path => (path, outcomes path)) =
      (Path.sortOn id files).map fun path => (path, outcomes path) := by
  rw [Path.sortOn, Path.sortOn]
  exact (List.map_mergeSort (f := fun path => (path, outcomes path)) fun _ _ _ _ => rfl).symm

theorem exitCode_cases (fixes : Bool) (s : Summary) :
    exitCode fixes s ≤ 2 ∧ (exitCode fixes s = 1 ↔ 0 < s.errors) ∧
      (¬0 < s.errors → (exitCode fixes s = 2 ↔ fixes = false ∧ 0 < s.filesWithChanges)) := by
  rw [exitCode]
  split_ifs with herrors hchanges
  · simp [herrors]
  · simp only [Bool.and_eq_true, Bool.not_eq_true', decide_eq_true_eq] at hchanges
    simp [herrors, hchanges]
  · simp only [Bool.and_eq_true, Bool.not_eq_true', decide_eq_true_eq] at hchanges
    simp [herrors, hchanges]

theorem countP_sorted_pos (p : FileOutcome → Bool) (files : List String) :
    0 < ((Path.sortOn id files).map outcomes).countP p ↔ ∃ path ∈ files, p (outcomes path) := by
  simp [List.countP_pos_iff, (Path.sortOn_perm id files).mem_iff]

section

variable (fixes form isVerbose printed)

theorem checkFiles_of_checked (hc : Checked rules w files h outcomes) :
    checkFiles fixes rules w files form isVerbose printed =
      ⟨some (exitCode fixes (.ofOutcomes h.size ((Path.sortOn id files).map outcomes))),
        (printed.append (.all ((Path.sortOn id files).map fun path =>
            (outcomes path).told fixes form isVerbose path))).append
          (Report.closing fixes form (.ofOutcomes h.size ((Path.sortOn id files).map outcomes))
            ((Path.sortOn id files).map fun path => (outcomes path).fileReport path)),
        writesOn fixes outcomes (Path.sortOn id files)⟩ := by
  have hperm := Path.sortOn_perm id files
  have hfindings : ∀ file ∈ (Path.sortOn id files).map fun path => (path, outcomes path),
      file.2.HasFindings := by
    intro file hfile
    obtain ⟨path, hpath, rfl⟩ := List.mem_map.mp hfile
    exact Source.hasFindings_of_outcome (hc.outcome path (hperm.mem_iff.mp hpath))
  have hsummary : ∀ os, (Summary.mk 0 0 0 0 h.size).add (.ofOutcomes 0 os) =
      .ofOutcomes h.size os := by
    intro os
    simp [Summary.add, Summary.ofOutcomes]
  rw [checkFiles, hc.checkAll_eq]
  dsimp only
  rw [sortOn_map_pair, foldl_reportFile, Report.finish_eq, Report.ofOutcomes_eq _ _ _ hfindings]
  simp only [Report.start, List.map_map, List.flatMap_map, List.nil_append, hsummary]
  rfl

theorem checkFiles_effect (hc : Checked rules w files h outcomes) :
    Effect fixes rules w files form isVerbose printed h outcomes
      (checkFiles fixes rules w files form isVerbose printed) := by
  have hperm := Path.sortOn_perm id files
  have hmem : ∀ path, path ∈ Path.sortOn id files ↔ path ∈ files := fun _ => hperm.mem_iff
  obtain ⟨hle, hone, htwo⟩ := exitCode_cases fixes
    (.ofOutcomes h.size ((Path.sortOn id files).map outcomes))
  have hfailed : 0 < (Summary.ofOutcomes h.size ((Path.sortOn id files).map outcomes)).errors ↔
      ∃ path ∈ files, (outcomes path).isFailed := countP_sorted_pos _ files
  have hchanges : 0 <
      (Summary.ofOutcomes h.size ((Path.sortOn id files).map outcomes)).filesWithChanges ↔
        ∃ path ∈ files, (outcomes path).isChanged := countP_sorted_pos _ files
  rw [hfailed] at hone htwo
  rw [hchanges] at htwo
  have hchanged : ∀ {x}, x ∈ writesOn fixes outcomes (Path.sortOn id files) ↔
      fixes = true ∧ x.1 ∈ files ∧ ∃ old findings, outcomes x.1 = .changed old x.2 findings := by
    intro x
    rw [mem_writesOn, hmem]
  have hfiles : ∀ x ∈ writesOn fixes outcomes (Path.sortOn id files), w.IsFile x.1 :=
    fun _ => isFile_of_mem_writesOn hc fun path => (hmem path).mp
  have hagree : w.Agree (writesOn fixes outcomes (Path.sortOn id files)) :=
    agree_writesOn hc fun path => (hmem path).mp
  rw [checkFiles_of_checked fixes form isVerbose printed hc]
  refine ⟨⟨_, hle, rfl⟩, ?_, ?_, ?_, ?_, ?_, ⟨_, hperm, Path.pairwise_sortOn id files, rfl⟩⟩
  · rw [Option.some_inj, hone]
  · intro hnone
    rw [Option.some_inj, htwo hnone]
  · rintro rfl
    rw [Outcome.applyTo_eq, writesOn_false]
    exact ⟨rfl, rfl⟩
  · intro hfixes path hpath s found new hload hedits hne happly
    have houtcome := hc.outcome path hpath
    rw [hload, Source.outcome_eq_changed_iff.mpr ⟨s, found, rfl, hedits, hne, happly, rfl, rfl⟩]
      at houtcome
    have hwrite : (path, new) ∈ writesOn fixes outcomes (Path.sortOn id files) :=
      hchanged.mpr ⟨hfixes, hpath, _, _, (Except.ok.inj houtcome).symm⟩
    rw [Outcome.applyTo_eq]
    exact Workspace.read_writeAll hfiles hagree hwrite
  · intro path hother
    rw [Outcome.applyTo_eq]
    refine Workspace.content?_writeAll hfiles hagree fun x hx => ?_
    obtain ⟨-, hx, old, findings, houtcome⟩ := hchanged.mp hx
    refine hother x.1 hx ?_
    rw [houtcome]
    rfl

end

/-- A run on some files gets through all of them, or it stops before it reports on any. It stops
wherever the braces of an import cross. -/
structure Runs (fixes : Bool) (rules : List Rule) (w : Workspace) (files : List String)
    (form : Form) (isVerbose : Bool) (printed : Printed) (o : Outcome) : Prop where
  through : ∀ h outcomes, Checked rules w files h outcomes →
    Effect fixes rules w files form isVerbose printed h outcomes o
  stopped : (¬∃ h outcomes, Checked rules w files h outcomes) → o = ⟨none, printed, []⟩
  illegible : ∀ path ∈ files, ∀ s, Source.load w path = .ok s → ¬s.program.IsLegible s.text →
    o = ⟨none, printed, []⟩

def opening (w : Workspace) (o : Options) (form : Form) : Printed :=
  if form = .text then
    ⟨if o.has .verbose then "Mode: " ++ (if o.has .fix then "fix" else "check") ++ "\n\n" else "",
      (w.missing o.paths).map fun path => "Warning: Path does not exist: " ++ path⟩
  else .nothing

theorem run_eq_checkFiles {arguments : List String} {o : Options} {config : ProjectConfig}
    {form : Form} (hrequest : Request.ofArguments arguments = .ok (.run o))
    (hconfig : loadConfig w o = .ok config)
    (hrules : Rule.registry (settingsFor o config) = .ok rules)
    (hlist : o.has .listRules = false) (hform : formFor o config = .ok form) :
    run w arguments = checkFiles (o.has .fix) rules w (w.sources config o.paths) form
      (o.has .verbose) (opening w o form) := by
  rw [run, hrequest]
  simp only [runWith, hconfig, hrules, hform, hlist, Except.mapError, bind, Except.bind,
    Bool.false_eq_true, if_false]
  refine congrArg (checkFiles _ rules w _ form _ ·) ?_
  rw [Printed.foldl_warn, Printed.foldl_printLine, opening]
  cases form <;> cases o.has .verbose <;>
    simp [Printed.ofLines, Printed.append, Printed.nothing, String.append_assoc]

theorem Checked.isLegible (hc : Checked rules w files h outcomes) (hpath : path ∈ files)
    {s : Source} (hload : Source.load w path = .ok s) : s.program.IsLegible s.text :=
  Hierarchy.isSome_index?_iff.mp (Option.isSome_of_eq_some hc.index) s
    (List.mem_map.mpr ⟨path, hpath, hload⟩)

theorem checkFiles_runs (fixes : Bool) (rules : List Rule) (w : Workspace) (files : List String)
    (form : Form) (isVerbose : Bool) (printed : Printed) :
    Runs fixes rules w files form isVerbose printed
      (checkFiles fixes rules w files form isVerbose printed) := by
  have hstopped : (¬∃ h outcomes, Checked rules w files h outcomes) →
      checkFiles fixes rules w files form isVerbose printed = ⟨none, printed, []⟩ := by
    intro hnone
    rw [checkFiles]
    cases hall : checkAll rules w files with
    | error stop => rfl
    | ok found => exact absurd (exists_checked hall) hnone
  refine ⟨fun h outcomes hc => checkFiles_effect fixes form isVerbose printed hc, hstopped, ?_⟩
  intro path hpath s hload hillegible
  exact hstopped fun ⟨h, outcomes, hc⟩ => hillegible (hc.isLegible hpath hload)

/-- A run that gets as far as its files: whichever they are, and however often they are named. -/
theorem run_effect (w : Workspace) :
    (∀ (fixes : Bool) (rules : List Rule) (files : List String) (form : Form) (isVerbose : Bool)
      (printed : Printed), Runs fixes rules w files form isVerbose printed
        (checkFiles fixes rules w files form isVerbose printed)) ∧
    ∀ (arguments : List String) (o : Options) (config : ProjectConfig) (rules : List Rule)
      (form : Form), Request.ofArguments arguments = .ok (.run o) → loadConfig w o = .ok config →
      Rule.registry (settingsFor o config) = .ok rules → o.has .listRules = false →
      formFor o config = .ok form → Runs (o.has .fix) rules w (w.sources config o.paths) form
        (o.has .verbose) (opening w o form) (run w arguments) := by
  refine ⟨fun fixes rules files form isVerbose printed =>
    checkFiles_runs fixes rules w files form isVerbose printed, ?_⟩
  intro arguments o config rules form hrequest hconfig hrules hlist hform
  rw [run_eq_checkFiles hrequest hconfig hrules hlist hform]
  exact checkFiles_runs _ _ w _ _ _ _

def twiceText : String :=
  "<?php class A extends F\x7bfunction f()\x7breturn[$this->faker->x];\x7d\x7d"

def twiceArena : Arena where
  nodes := #[⟨.variable "this", some ⟨44, 49⟩, .source⟩,
    ⟨.property 0 (some "faker"), some ⟨44, 56⟩, .source⟩,
    ⟨.property 1 (some "x"), some ⟨44, 59⟩, .source⟩,
    ⟨.arrayItem none 2, some ⟨44, 59⟩, .source⟩,
    ⟨.arrayLiteral [3], some ⟨43, 60⟩, .source⟩]

def twiceWorkspace : Workspace where
  tree := .directory [("a.php", .file twiceText.toUTF8), ("b.php", .file ⟨#[0xFF]⟩)]
  current := []

def twiceFiles : List String := ["a.php", "./a.php", "b.php"]

def twiceArguments : List String := ["--no-config", "--base-class", "F", "--fix"] ++ twiceFiles

def twiceSettings : Settings := { Settings.standard with baseClass := "F" }

def twiceEdit : Edit := ⟨⟨44, 56⟩, "fake()", Rule.HelperCall.message twiceSettings⟩

def twiceFixed : String :=
  "<?php class A extends F\x7bfunction f()\x7breturn[fake()->x];\x7d\x7d"

def twiceClasses : List Declaration := [⟨"A", some "F", ⟨6, 63⟩⟩]

theorem parse_twice : ∃ program, Php.Program.parse? twiceText = some program ∧
    program.declarations? twiceText = some twiceClasses ∧ program.lower = ([4], twiceArena) := by
  have hparse : (Php.Program.parse? twiceText).map (fun program =>
      (program.declarations? twiceText, program.lower)) =
        some (some twiceClasses, [4], twiceArena) := by
    decide +kernel
  obtain ⟨program, hprogram, hparts⟩ := Option.map_eq_some_iff.mp hparse
  exact ⟨program, hprogram, (Prod.mk.inj hparts).1, (Prod.mk.inj hparts).2⟩

theorem context?_twice {h : Hierarchy} (hF : h.parent? "F" = none) :
    (⟨h, twiceClasses⟩ : Scope).context? ⟨43, 60⟩ = some ⟨"A", ["F"]⟩ := by
  have hbare : ClassName.bare "F" = "F" := by decide
  have hother : Declaration.lastParent? [⟨"A", some "F", ⟨6, 63⟩⟩] (ClassName.key "F") = none := by
    decide
  have hunknown : (⟨h, twiceClasses⟩ : Scope).parent? "F" = none := by
    rw [Scope.parent?_eq, hF, Option.or_none]
    exact hother
  have hspan : Span.Inside ⟨43, 60⟩ ⟨6, 63⟩ := by decide
  have hcontext := Scope.context?_of_climbs (.to_unknown (by decide +kernel) hunknown) hspan
  rwa [hbare] at hcontext

theorem rewriteRoot_twice {scope : Scope} (h : scope.context? ⟨43, 60⟩ = some ⟨"A", ["F"]⟩) :
    ∃ a, Rule.HelperCall.rewriteRoot twiceSettings scope twiceText twiceArena 4 =
      .ok ([twiceEdit], a) := by
  have happly : Rewrite.apply twiceSettings scope.context? twiceArena 4 =
      Rewrite.applyIn twiceSettings (some ⟨"A", ["F"]⟩) twiceArena 4 := by
    rw [Rewrite.apply]
    exact congrArg (Rewrite.applyIn twiceSettings · twiceArena 4) h
  rw [Rule.HelperCall.rewriteRoot, happly]
  exact ⟨_, rfl⟩

theorem edits_twice {program : Php.Program} {h : Hierarchy} (hF : h.parent? "F" = none)
    (hclasses : program.declarations? twiceText = some twiceClasses)
    (hlower : program.lower = ([4], twiceArena)) :
    Source.edits [Rule.helperCall twiceSettings] h ⟨twiceText, program⟩ =
      .ok [("faker_helper", twiceEdit)] := by
  obtain ⟨a, hroot⟩ := rewriteRoot_twice (context?_twice hF)
  have hcanonical : Edit.canonical [twiceEdit] = [twiceEdit] := by
    simp [Edit.canonical, Edit.dropRepeated]
  have hroots : Rule.HelperCall.rewriteRoots twiceSettings ⟨h, twiceClasses⟩ twiceText
      program.lower.2 program.lower.1 = .ok [twiceEdit] := by
    rw [hlower]
    simp only [Rule.HelperCall.rewriteRoots, hroot, bind, Except.bind, pure, Except.pure,
      List.append_nil]
  have hcheck : Rule.HelperCall.check twiceSettings h twiceText program = .ok [twiceEdit] := by
    rw [Rule.HelperCall.check, hclasses]
    change ((Rule.HelperCall.rewriteRoots _ _ _ program.lower.2 program.lower.1).map _).mapError _ =
      _
    rw [hroots]
    exact congrArg Except.ok hcanonical
  have hedits : Source.edits [Rule.helperCall twiceSettings] h ⟨twiceText, program⟩ = .ok _ :=
    Source.edits_singleton _ hcheck
  rwa [hcanonical] at hedits

theorem apply_twice : Edit.apply twiceText [twiceEdit] = .ok twiceFixed := by
  have horder : Edit.backToFront [twiceEdit] = [twiceEdit] := List.mergeSort_singleton _
  rw [Edit.apply, horder]
  rfl

def twiceOutcomes (path : String) : FileOutcome :=
  if path = "b.php" then .failed (.unreadable .notText)
  else .changed twiceText twiceFixed [Source.findingOf twiceText ("faker_helper", twiceEdit)]

theorem checked_twice : ∃ h program, Source.load twiceWorkspace "a.php" =
      .ok ⟨twiceText, program⟩ ∧
    Source.edits [Rule.helperCall twiceSettings] h ⟨twiceText, program⟩ =
      .ok [("faker_helper", twiceEdit)] ∧
    Checked [Rule.helperCall twiceSettings] twiceWorkspace twiceFiles h twiceOutcomes := by
  obtain ⟨program, hparse, hclasses, hlower⟩ := parse_twice
  have hread : twiceWorkspace.read "a.php" = .ok twiceText := rfl
  have hread' : twiceWorkspace.read "./a.php" = .ok twiceText := rfl
  have hload := load_of_read hread hparse
  have hload' := load_of_read hread' hparse
  have hfailed : Source.load twiceWorkspace "b.php" = .error (.unreadable .notText) := rfl
  obtain ⟨h, hh⟩ : ∃ h, h = (Hierarchy.empty.extend twiceClasses).extend twiceClasses := ⟨_, rfl⟩
  have hindex : Source.index? (twiceFiles.map (Source.load twiceWorkspace)) = some h := by
    simp [twiceFiles, hload, hload', hfailed, Source.index?, Source.extendBy?, hclasses, hh]
  have hkey : ClassName.key "A" ≠ ClassName.key "F" := by decide
  have hF : h.parent? "F" = none := by
    simp [hh, twiceClasses, Hierarchy.extend, Hierarchy.register, Hierarchy.empty,
      Hierarchy.parent?, hkey]
  have hedits := edits_twice hF hclasses hlower
  have hchanged := Source.outcome_eq_changed_iff.mpr ⟨_, _, rfl, hedits, List.cons_ne_nil _ _,
    apply_twice, rfl, rfl⟩
  refine ⟨h, program, hload, hedits, hindex, ?_⟩
  simp only [twiceFiles, List.forall_mem_cons]
  refine ⟨hload ▸ hchanged, hload' ▸ hchanged, hfailed ▸ rfl, by simp⟩

theorem run_effect_twice :
    (run twiceWorkspace twiceArguments).exitCode = some 1 ∧
      ((run twiceWorkspace twiceArguments).applyTo twiceWorkspace).read "a.php" =
        .ok twiceFixed ∧
      ((run twiceWorkspace twiceArguments).applyTo twiceWorkspace).content? "b.php" =
        twiceWorkspace.content? "b.php" := by
  have hruns := (run_effect twiceWorkspace).2 twiceArguments
    ⟨[.noConfig, .fix], [(.baseClass, "F")], twiceFiles⟩ .standard [Rule.helperCall twiceSettings]
    .text rfl rfl rfl rfl rfl
  have hfiles : twiceWorkspace.sources .standard twiceFiles = twiceFiles := rfl
  rw [hfiles] at hruns
  obtain ⟨h, program, hload, hedits, hchecked⟩ := checked_twice
  have heffect := hruns.through h twiceOutcomes hchecked
  refine ⟨heffect.exitCode_eq_one.mpr ⟨"b.php", by decide, rfl⟩, ?_, ?_⟩
  · exact heffect.rewritten rfl "a.php" (by decide) _ _ _ hload hedits (List.cons_ne_nil _ _)
      apply_twice
  · refine heffect.kept "b.php" fun file hfile hchanges => ?_
    have hplaces : twiceWorkspace.locate "a.php" = .ok ["a.php"] ∧
        twiceWorkspace.locate "./a.php" = .ok ["a.php"] ∧
        twiceWorkspace.locate "b.php" = .ok ["b.php"] := ⟨rfl, rfl, rfl⟩
    simp only [twiceFiles, List.mem_cons, List.not_mem_nil, or_false] at hfile
    rcases hfile with rfl | rfl | rfl
    · simp [hplaces]
    · simp [hplaces]
    · cases hchanges

end CommandLine

end FactoryLint
