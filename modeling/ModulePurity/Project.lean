import ModulePurity.Catalogue
import ModulePurity.FileTree
import ModulePurity.Finding.Report
import ModulePurity.Glob
import ModulePurity.Ignore.Rulebook
import ModulePurity.Log
import ModulePurity.Text.Quoted

/-!
# Projects

A project is a root folder with rules, settings and patterns of files to leave out. Linting it finds
the source files below the root that no ignore file and no pattern excludes, applies every enabled
rule to each of them in the order of their paths, and collects the findings into a sorted report. A
file with syntax errors is skipped with a warning, or fails a strict run.
-/

namespace ModulePurity

/-! ## Building a project -/

/-- What a project is built from. -/
structure ProjectPlan where
  /-- Absent, the settings give the root. -/
  root : Option Path := none
  rules : List Rule := []
  /-- Patterns of files to leave out, besides those of the settings. -/
  exclude : List String := []
  settings : Option Settings := none
  /-- Whether a file with syntax errors fails the run. -/
  strict : Bool := false
  /-- The home folder of the user. -/
  home : Option Path := none

/-- A project that can be linted. -/
structure Project where
  /-- The root as an absolute path. -/
  root : Path
  rules : List Rule
  /-- The patterns of files to leave out, as text. -/
  exclude : List String
  /-- The same patterns, read. -/
  globs : List Glob
  settings : Settings
  strict : Bool
  workingFolder : Path
  home : Option Path

/-- Reads all patterns, or fails at the first malformed one. -/
def Glob.parseAll : List String → Except GlobFault (List Glob)
  | [] => .ok []
  | s :: ss =>
    match Glob.parse s with
    | .error e => .error e
    | .ok g => (parseAll ss).map (g :: ·)

namespace ProjectPlan

/-- The root seen from the working folder. -/
def resolveRoot (plan : ProjectPlan) (workingFolder : Path) : Path :=
  workingFolder.join (plan.root.getD ((plan.settings.map fun s => s.search.root).getD ⟨"."⟩))

/-- The patterns of files to leave out; without any, installed packages are left out. -/
def patterns (plan : ProjectPlan) : List String :=
  match plan.exclude ++ (plan.settings.map fun s => s.search.exclude).getD [] with
  | [] => [Search.installedPackages]
  | patterns => patterns

/-- Builds the project. -/
def build (plan : ProjectPlan) (workingFolder : Path) : Except GlobFault Project :=
  (Glob.parseAll plan.patterns).map fun globs =>
    { root := plan.resolveRoot workingFolder
      rules := plan.rules
      exclude := plan.patterns
      globs := globs
      settings := plan.settings.getD {}
      strict := plan.strict
      workingFolder := workingFolder
      home := plan.home }

/-- The wording for a malformed pattern. -/
def patternMessage (fault : GlobFault) : String :=
  "Invalid glob pattern: " ++ fault.message

end ProjectPlan

namespace Project

/-! ## Finding the files -/

/-- What is left of a pattern without its double stars. -/
def bareText (pattern : String) : List Char :=
  Text.erasePairs '*' pattern.toList

/-- Whether the rest of a pattern without its double stars occurs in a path. -/
def occursPlainly (pattern : String) (path : Path) : Bool :=
  !(bareText pattern).isEmpty && bareText pattern != ['/'] &&
    Text.occursIn (bareText pattern) path.text.toList

/-- Whether a file is left out: a pattern matches its path, as it is or relative to the root, or
occurs plainly in it. -/
def excludes (p : Project) (path : Path) : Bool :=
  (p.globs.any fun g => g.accepts path.text || g.accepts (path.relativeTo p.root).text) ||
    p.exclude.any fun pattern => occursPlainly pattern path

/-- Why the files could not be found. -/
inductive SearchFault where
  /-- The root is not there. -/
  | noRoot (root : Path) (fault : FileFault)
  /-- Ignore files in folders above the root are flawed. -/
  | flawedRules (flaws : List Ignore.Flaw)
deriving DecidableEq, Repr

/-- The wording of a fault; each flaw has a line of its own. -/
def SearchFault.message : SearchFault → String
  | noRoot root fault =>
    root.text ++ ": IO error for operation on " ++ root.text ++ ": " ++ fault.message
  | flawedRules flaws => "\n".intercalate (flaws.map Ignore.Flaw.message)

/-- Why linting failed. -/
inductive Fault where
  | unreadable (fault : FileFault)
  | badSearch (fault : SearchFault)
  | badSyntax (path : Path) (fault : SyntaxFault)
deriving DecidableEq, Repr

/-- The wording of a fault. -/
def Fault.message : Fault → String
  | unreadable fault => "IO error: " ++ fault.message
  | badSearch fault => "Walk error: " ++ fault.message
  | badSyntax path fault => "Parse error in " ++ path.text ++ ": " ++ fault.message

/-- The rules by which files are ignored. -/
def rulebook (p : Project) (t : FileTree) : Ignore.Rulebook :=
  .ofTree t p.settings.search.respectGitignore p.workingFolder p.home

/-- The paths of the files that the walk from the root comes by. A root that is a file is the only
one, whatever the rules say. -/
def reachedFiles (p : Project) (t : FileTree) : Except SearchFault (List Path) :=
  match t.locate [] p.root with
  | .error e => .error (.noRoot p.root e)
  | .ok place =>
    if (t.file? place).isSome then .ok [p.root]
    else
      let book := p.rulebook t
      match book.flawsAbove place with
      | [] =>
        .ok (((t.below place).filter (book.reaches place p.root)).map
          (Ignore.Rulebook.pathBelow p.root))
      | flaws => .error (.flawedRules flaws)

/-- Whether a file is one to lint. -/
def wants (p : Project) (path : Path) : Bool :=
  (Language.ofPath? path).isSome && !p.excludes path

/-- The paths of the files to lint, in order. -/
def sourceFiles (p : Project) (t : FileTree) : Except SearchFault (List Path) :=
  (p.reachedFiles t).map fun paths =>
    (paths.filter p.wants).mergeSort fun a b => (a.compare b).isLE

/-! ## Linting -/

/-- The findings of a rule with the severity that the settings impose. -/
def withSeverity (severity : Option Severity) (findings : List Finding) : List Finding :=
  match severity with
  | none => findings
  | some s => findings.map fun f => { f with severity := s }

/-- The findings of all enabled rules in a module. -/
def findingsIn (p : Project) (path : Path) (m : SourceModule) : List Finding :=
  p.rules.flatMap fun rule =>
    if p.settings.isEnabled rule.name then
      withSeverity (p.settings.severity? rule.name)
        (rule.check (FileContext.ofPath path p.root) m)
    else []

/-- Lints a text as the file at a path. A text of no known language is read as JavaScript. -/
def lintSource (p : Project) (g : Grammar) (path : Path) (source : String) :
    Except SyntaxFault (List Finding) :=
  (SourceModule.parse g ((Language.ofPath? path).getD .javascript) source).map (p.findingsIn path)

/-- Lints one file of the tree; nothing comes of a file that is skipped. -/
def lintFile (p : Project) (g : Grammar) (t : FileTree) (path : Path) :
    Logged Fault (Option (List Finding)) := do
  let source ← Logged.ofExcept ((t.read [] path).mapError Fault.unreadable)
  match p.lintSource g path source with
  | .ok findings => return some findings
  | .error fault =>
    Logged.say .warning ("Failed to parse " ++ path.text ++ ": " ++ fault.message)
    if p.strict then Logged.ofExcept (.error (.badSyntax path fault)) else return none

/-- Lints files one after another. -/
def lintFiles (p : Project) (g : Grammar) (t : FileTree) :
    List Path → Logged Fault (List (Option (List Finding)))
  | [] => return []
  | path :: paths => do
    let first ← p.lintFile g t path
    let rest ← p.lintFiles g t paths
    return first :: rest

/-- The report on files that were linted or skipped. -/
def reportOn (outcomes : List (Option (List Finding))) : Report :=
  Report.sort ⟨(outcomes.filterMap id).flatten, (outcomes.filterMap id).length⟩

/-- Lints the whole project. -/
def lint (p : Project) (g : Grammar) (t : FileTree) : Logged Fault Report := do
  Logged.say .info ("Starting analysis at " ++ Text.quoted p.root.text)
  let paths ← Logged.ofExcept ((p.sourceFiles t).mapError Fault.badSearch)
  Logged.say .info ("Found " ++ toString paths.length ++ " files to analyze")
  let outcomes ← p.lintFiles g t paths
  let report := reportOn outcomes
  Logged.say .info
    ("Analysis complete: " ++ toString report.findings.length ++ " violations in " ++
      toString report.filesChecked ++ " files")
  return report

end Project

end ModulePurity
