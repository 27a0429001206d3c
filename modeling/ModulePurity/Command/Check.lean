import ModulePurity.Command.Workspace
import ModulePurity.Finding.Edits
import ModulePurity.Output.Format

/-!
# Checking

The check command lints a folder, or a single file, and writes the report. On demand it first applies
the edits of the findings to the files and lints once more. The run fails if a finding reaches the
threshold of the settings.
-/

namespace ModulePurity.Command

/-- What to check and how. -/
structure CheckRequest where
  /-- The file or folder to check. -/
  path : Path := ⟨"."⟩
  format : Format := .text
  /-- Names or codes of the only rules to run, separated by commas. -/
  rules : Option String := none
  exclude : List String := []
  /-- Whether the edits of the findings are applied. -/
  applySuggestions : Bool := false
  /-- Whether a file with syntax errors fails the run. -/
  strict : Bool := false
  settingsFile : Option Path := none
deriving DecidableEq, Repr

/-- What a command leaves behind. -/
structure Outcome where
  exitCode : Nat
  stdout : String
  log : List LogLine
  failure : Option Failure
  files : FileTree

/-- The outcome of a command that failed. -/
def Outcome.failed (files : FileTree) (log : List LogLine) (failure : Failure) : Outcome :=
  ⟨failure.exitCode, "", log, some failure, files⟩

/-! ## Selecting rules -/

/-- Warns of the call paths in the settings of the purity rule that are malformed. -/
def warnOfCallPaths (s : Settings) : Logged Failure Unit :=
  match s.purityOptions with
  | .error _ => return ()
  | .ok options =>
    ⟨(options.pureFunctions.filter fun raw => !Purity.CallPath.isValid raw).map fun raw =>
        ⟨.warning, "Ignoring malformed pure function pattern " ++ Text.quoted raw⟩, .ok ()⟩

/-- The names in a selection, without blanks around them. -/
def selectedNames (selection : String) : List String :=
  (((Text.fields ',' selection.toList).map Text.trim).filter fun name => !name.isEmpty).map
    String.ofList

/-- The rules with the given names or codes; unknown ones are skipped with a warning. -/
def rulesNamed (s : Settings) : List String → Logged Failure (List Rule)
  | [] => return []
  | name :: names => do
    match ← Logged.ofExcept ((s.rule? name).mapError Failure.badOptions) with
    | none =>
      Logged.say .warning ("Unknown rule: " ++ name)
      rulesNamed s names
    | some rule =>
      warnOfCallPaths s
      let rules ← rulesNamed s names
      return rule :: rules

/-- The rules of a run: all of them, or those that are selected. -/
def selectRules (s : Settings) : Option String → Logged Failure (List Rule)
  | none => do
    let rules ← Logged.ofExcept (s.allRules.mapError Failure.badOptions)
    warnOfCallPaths s
    return rules
  | some selection => rulesNamed s (selectedNames selection)

/-! ## Linting the target -/

/-- The root of the project for a target: the folder itself, or the folder of a single file. -/
def targetRoot (w : Workspace) (target : Path) : Path :=
  if w.isFile target then
    match target.parent? with
    | some parent => if parent.text.isEmpty then ⟨"."⟩ else parent
    | none => ⟨"."⟩
  else target

/-- The path of a single file in its project. -/
def targetFile (p : Project) (target : Path) : Path :=
  match target.fileName? with
  | some name => p.root.join ⟨String.ofList name⟩
  | none => target

/-- Lints a single file, which needs no search. -/
def lintSingle (w : Workspace) (g : Grammar) (p : Project) (target : Path) :
    Logged Failure Report := do
  let file := targetFile p target
  let source ← Logged.ofExcept ((w.read file).mapError (Failure.unreadable file))
  match p.lintSource g file source with
  | .ok findings => return Report.sort ⟨findings, 1⟩
  | .error fault =>
    if p.strict then Logged.ofExcept (.error (.lintFailed (.badSyntax file fault)))
    else
      Logged.say .warning ("Failed to parse " ++ file.text ++ ": " ++ fault.message)
      return Report.sort Report.empty

/-- Lints a folder or a single file. -/
def lintTarget (w : Workspace) (g : Grammar) (p : Project) (target : Path) :
    Logged Failure Report :=
  if w.isFile target then lintSingle w g p target
  else (p.lint g w.files).mapError Failure.lintFailed

/-! ## Applying edits -/

/-- Of neighbours with the same components, only the first. -/
def dropSamePaths : List Path → List Path
  | [] => []
  | p :: ps =>
    match dropSamePaths ps with
    | [] => [p]
    | q :: qs => if p.sameAs q then p :: qs else p :: q :: qs

/-- The file that a finding is about. -/
def fileOf (root : Path) (f : Finding) : Path := root.join f.location.file

/-- The files that have findings with an edit, in order. -/
def filesToEdit (root : Path) (findings : List Finding) : List Path :=
  dropSamePaths
    (((findings.filter fun f => f.edit?.isSome).map (fileOf root)).mergeSort
      fun a b => (a.compare b).isLE)

/-- The findings about a file. -/
def findingsAbout (root file : Path) (findings : List Finding) : List Finding :=
  findings.filter fun f => f.edit?.isSome && (fileOf root f).sameAs file

/-- Applies the edits of findings to files one after another, and counts the files that change. What
was written before a failure stays. -/
def editFiles (root : Path) (findings : List Finding) (w : Workspace) :
    List Path → Workspace × Except Failure Nat
  | [] => (w, .ok 0)
  | file :: files =>
    match w.read file with
    | .error e => (w, .error (.unreadable file e))
    | .ok source =>
      match Finding.applyRemedies? source (findingsAbout root file findings) with
      | none => (w, .error .overflow)
      | some fixed =>
        if fixed = source then editFiles root findings w files
        else
          match w.write file fixed with
          | .error e => (w, .error (.unwritable file e))
          | .ok w =>
            match editFiles root findings w files with
            | (w, .ok n) => (w, .ok (n + 1))
            | (w, .error e) => (w, .error e)

/-! ## The command -/

/-- The project of a check with its threshold and first report. -/
structure CheckRun where
  project : Project
  threshold : Severity
  report : Report

/-- Loads settings, builds the project and lints it. -/
def startCheck (w : Workspace) (g : Grammar) (r : CheckRequest) : Logged Failure CheckRun := do
  let settings ← (SettingsSource.find w r.path r.settingsFile).load w
  let rules ← selectRules settings r.rules
  let plan : ProjectPlan :=
    { root := some (targetRoot w r.path), rules := rules, exclude := r.exclude
      settings := some settings, strict := r.strict, home := w.home }
  let project ← Logged.ofExcept ((plan.build w.folder).mapError Failure.badPattern)
  Logged.say .info
    ("Analyzing " ++ Text.quoted r.path.text ++ " with " ++ toString project.rules.length ++
      " rules")
  let report ← lintTarget w g project r.path
  return ⟨project, settings.threshold, report⟩

/-- The text of a file that findings are about, if it can be read. -/
def snippetSource (w : Workspace) (root file : Path) : String :=
  match w.read (root.join file) with
  | .ok s => s
  | .error _ => ""

/-- Warnings for files whose text cannot be shown. -/
def snippetWarnings (w : Workspace) (root : Path) (report : Report) : Format → List LogLine
  | .pretty =>
    ((report.findings.map fun f => f.location.file).eraseDups).filterMap fun file =>
      match w.read (root.join file) with
      | .ok _ => none
      | .error e =>
        some ⟨.warning, "Cannot read " ++ file.text ++ " for snippet: " ++ e.message⟩
  | _ => []

/-- The outcome of a check with its final report. -/
def concludeCheck (w : Workspace) (r : CheckRequest) (log : List LogLine) (run : CheckRun) :
    Outcome where
  exitCode := if run.report.reaches run.threshold then 1 else 0
  stdout := run.report.write (snippetSource w run.project.root) r.format
  log := log ++ snippetWarnings w run.project.root run.report r.format
  failure := none
  files := w.files

/-- Applies the edits of a first report, and lints again if a file changed. -/
def applyAndConclude (w : Workspace) (g : Grammar) (r : CheckRequest) (log : List LogLine)
    (run : CheckRun) : Outcome :=
  let root := run.project.root
  match editFiles root run.report.findings w (filesToEdit root run.report.findings) with
  | (edited, .error e) => Outcome.failed edited.files log e
  | (edited, .ok 0) => concludeCheck edited r log run
  | (edited, .ok n) =>
    let line : LogLine := ⟨.info, "Applied suggestions to " ++ toString n ++ " file(s)"⟩
    let again := lintTarget edited g run.project r.path
    let log := log ++ line :: again.log
    match again.result with
    | .error e => Outcome.failed edited.files log e
    | .ok report => concludeCheck edited r log { run with report := report }

/-- Runs a check. -/
def check (w : Workspace) (g : Grammar) (r : CheckRequest) : Outcome :=
  let start := startCheck w g r
  match start.result with
  | .error e => Outcome.failed w.files start.log e
  | .ok run =>
    if r.applySuggestions then applyAndConclude w g r start.log run
    else concludeCheck w r start.log run

end ModulePurity.Command
