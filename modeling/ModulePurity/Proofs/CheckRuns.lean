import ModulePurity.Command.Snapshot
import ModulePurity.Proofs.FileEdits
import ModulePurity.Proofs.FixedPoint
import ModulePurity.Proofs.LintedFiles

/-!
# The edits of a check

A check loads settings, selects rules, builds a project and lints it (`startCheck_eq_ok_iff`). Its
findings are about one file, or about files that are reached from the root by names
(`fileOf_of_mem_lintTarget`). In the second case the names decide both the components and the place
of a file, so that grouping findings by path never mixes two files: `editFiles_of_startCheck` says
what applying the edits of a check does to every file. The rules of a check only insert, so that no
end of an edit overflows (`editFiles_ne_overflow_of_startCheck`).
-/

namespace ModulePurity.Command

variable {w w' : Workspace} {g : Grammar} {r : CheckRequest} {run : CheckRun} {p : Project}

/-! ## Taking a check apart -/

/-- The plan by which a check builds its project. -/
def checkPlan (w : Workspace) (r : CheckRequest) (settings : Settings) (rules : List Rule) :
    ProjectPlan where
  root := some (targetRoot w r.path)
  rules := rules
  exclude := r.exclude
  settings := some settings
  strict := r.strict
  home := w.home

/-- A check starts well if each of its steps does. -/
theorem startCheck_eq_ok_iff :
    (startCheck w g r).result = .ok run ↔
      ∃ settings rules,
        ((SettingsSource.find w r.path r.settingsFile).load w).result = .ok settings ∧
        (selectRules settings r.rules).result = .ok rules ∧
        (checkPlan w r settings rules).build w.folder = .ok run.project ∧
        run.threshold = settings.threshold ∧
        (lintTarget w g run.project r.path).result = .ok run.report := by
  constructor
  · intro h
    obtain ⟨settings, hsettings, h⟩ := Logged.exists_of_result_bind h
    obtain ⟨rules, hrules, h⟩ := Logged.exists_of_result_bind h
    obtain ⟨project, hproject, h⟩ := Logged.exists_of_result_bind h
    -- Telling what is analyzed yields nothing.
    obtain ⟨-, -, h⟩ := Logged.exists_of_result_bind h
    obtain ⟨report, hreport, h⟩ := Logged.exists_of_result_bind h
    cases h
    exact ⟨settings, rules, hsettings, hrules, Logged.mapError_eq_ok_iff.1 hproject, rfl, hreport⟩
  · rintro ⟨settings, rules, hsettings, hrules, hproject, hthreshold, hreport⟩
    have hproject' : (Logged.ofExcept
        (((checkPlan w r settings rules).build w.folder).mapError Failure.badPattern)).result =
          .ok run.project := Logged.mapError_eq_ok_iff.2 hproject
    refine (Logged.result_bind_of_ok hsettings _).trans ?_
    refine (Logged.result_bind_of_ok hrules _).trans ?_
    refine (Logged.result_bind_of_ok hproject' _).trans ?_
    refine (Logged.result_bind_of_ok (Logged.result_say _ _) _).trans ?_
    refine (Logged.result_bind_of_ok hreport _).trans ?_
    rw [← hthreshold]
    rfl

theorem of_build {plan : ProjectPlan} {folder : Path} (h : plan.build folder = .ok p) :
    p.root = plan.resolveRoot folder ∧ p.rules = plan.rules := by
  obtain ⟨globs, -, rfl⟩ := ProjectPlan.build_eq_ok_iff.1 h
  exact ⟨rfl, rfl⟩

/-! ## The rules of a check -/

/-- Names and codes can only select the purity rule. -/
theorem purityRule_of_rulesNamed {s : Settings} {names : List String} {rules : List Rule}
    (h : (rulesNamed s names).result = .ok rules) : ∀ rule ∈ rules, s.purityRule = .ok rule := by
  induction names generalizing rules with
  | nil =>
    cases h
    simp
  | cons name names ih =>
    obtain ⟨found, hfound, h⟩ := Logged.exists_of_result_bind h
    cases found with
    | none =>
      -- An unknown name is skipped with a warning.
      obtain ⟨-, -, h⟩ := Logged.exists_of_result_bind h
      exact ih h
    | some first =>
      obtain ⟨-, -, h⟩ := Logged.exists_of_result_bind h
      obtain ⟨others, hothers, h⟩ := Logged.exists_of_result_bind h
      cases h
      have hfirst : s.rule? name = .ok (some first) := Logged.mapError_eq_ok_iff.1 hfound
      unfold Settings.rule? at hfirst
      split at hfirst
      · cases hrule : s.purityRule with
        | error e => rw [hrule] at hfirst; cases hfirst
        | ok rule =>
          rw [hrule] at hfirst
          cases hfirst
          intro x hx
          rcases List.mem_cons.1 hx with rfl | hx
          · rfl
          · rw [← hrule]
            exact ih hothers x hx
      · cases hfirst

/-- Whatever the selection, the purity rule of the settings is the only one that is run. -/
theorem purityRule_of_selectRules {s : Settings} {selection : Option String} {rules : List Rule}
    (h : (selectRules s selection).result = .ok rules) :
    ∀ rule ∈ rules, s.purityRule = .ok rule := by
  cases selection with
  | some selection => exact purityRule_of_rulesNamed h
  | none =>
    obtain ⟨all, hall, h⟩ := Logged.exists_of_result_bind h
    obtain ⟨-, -, h⟩ := Logged.exists_of_result_bind h
    cases h
    have hall : s.allRules = .ok rules := Logged.mapError_eq_ok_iff.1 hall
    unfold Settings.allRules at hall
    cases hrule : s.purityRule with
    | error e => rw [hrule] at hall; cases hall
    | ok rule =>
      rw [hrule] at hall
      cases hall
      intro x hx
      rw [List.mem_singleton.1 hx]

/-- The selected rules are the purity rule with some options. -/
theorem exists_options_of_selectRules {s : Settings} {selection : Option String}
    {rules : List Rule} (h : (selectRules s selection).result = .ok rules) :
    ∀ rule ∈ rules, ∃ options, rule = Purity.rule options .error := by
  intro rule hrule
  have hpurity := purityRule_of_selectRules h rule hrule
  unfold Settings.purityRule at hpurity
  cases hoptions : s.purityOptions with
  | error e => rw [hoptions] at hpurity; cases hpurity
  | ok options =>
    rw [hoptions] at hpurity
    cases hpurity
    exact ⟨options, rfl⟩

/-- Every selected rule reports in the file it looks at. -/
theorem staysInFile_of_selectRules {s : Settings} {selection : Option String} {rules : List Rule}
    (h : (selectRules s selection).result = .ok rules) : ∀ rule ∈ rules, rule.StaysInFile := by
  intro rule hrule
  obtain ⟨options, rfl⟩ := exists_options_of_selectRules h rule hrule
  exact Purity.rule_staysInFile options .error

/-- The rules of a check are the purity rule with some options. -/
theorem exists_options_of_startCheck (h : (startCheck w g r).result = .ok run) :
    ∀ rule ∈ run.project.rules, ∃ options, rule = Purity.rule options .error := by
  obtain ⟨settings, rules, -, hrules, hbuild, -, -⟩ := startCheck_eq_ok_iff.1 h
  rw [(of_build hbuild).2]
  exact exists_options_of_selectRules hrules

theorem staysInFile_of_startCheck (h : (startCheck w g r).result = .ok run) :
    ∀ rule ∈ run.project.rules, rule.StaysInFile := by
  intro rule hrule
  obtain ⟨options, rfl⟩ := exists_options_of_startCheck h rule hrule
  exact Purity.rule_staysInFile options .error

/-- The root of a check is an absolute path if the working folder is one. -/
theorem isAbsolute_root_of_startCheck (hfolder : w.folder.isAbsolute = true)
    (h : (startCheck w g r).result = .ok run) : run.project.root.isAbsolute = true := by
  obtain ⟨settings, rules, -, -, hbuild, -, -⟩ := startCheck_eq_ok_iff.1 h
  rw [(of_build hbuild).1]
  exact Path.isAbsolute_join hfolder

/-! ## The files of its findings -/

/-- The path of a file below the root, as a finding has it, joined to the root. -/
def fileBelow (root : Path) (names : Place) : Path :=
  root.join ((Ignore.Rulebook.pathBelow root names).relativeTo root)

/-- A file below an absolute root is spelled by the root and the names of its place. -/
theorem components_fileBelow {root : Path} (hroot : root.isAbsolute = true) {names : Place}
    (hnames : ∀ name ∈ names, Path.IsName name) :
    (fileBelow root names).components = root.components ++ names.map .name := by
  rw [fileBelow, Path.components_join_relativeTo (Path.isAbsolute_pathBelow hroot names) hroot,
    Path.components_pathBelow hroot hnames]

/-- Where a file below the root lies is told by its names. -/
theorem destination_fileBelow {root : Path} (hroot : root.isAbsolute = true) {names : Place}
    (hnames : ∀ name ∈ names, Path.IsName name) :
    FileTree.destination (fileBelow root names) = FileTree.destination root ++ names := by
  rw [FileTree.destination, components_fileBelow hroot hnames, List.foldl_append,
    FileTree.foldl_stepTo_names, FileTree.destination]

/-- The findings on a single file are those in its source. -/
theorem exists_lintSource_of_mem_lintSingle {target : Path} {report : Report}
    (h : (lintSingle w g p target).result = .ok report) {f : Finding} (hf : f ∈ report.findings) :
    ∃ source findings, p.lintSource g (targetFile p target) source = .ok findings ∧
      f ∈ findings := by
  obtain ⟨source, -, h⟩ := Logged.exists_of_result_bind h
  split at h
  · next findings hlint =>
    cases h
    exact ⟨source, findings, hlint, List.mem_mergeSort.1 hf⟩
  · split at h
    · cases h
    · -- A file that is skipped leaves an empty report.
      obtain ⟨-, -, h⟩ := Logged.exists_of_result_bind h
      cases h
      cases List.mem_mergeSort.1 hf

/-- Every finding of a run was found by one of the rules. -/
theorem exists_rule_of_mem_lintTarget {target : Path} {report : Report}
    (h : (lintTarget w g p target).result = .ok report) {f : Finding} (hf : f ∈ report.findings) :
    ∃ rule ∈ p.rules, ∃ ctx m, ∃ f' ∈ rule.check ctx m,
      f.location = f'.location ∧ f.edit? = f'.edit? := by
  obtain ⟨path, source, findings, hlint, hf⟩ : ∃ path source findings,
      p.lintSource g path source = .ok findings ∧ f ∈ findings := by
    unfold lintTarget at h
    split at h
    · exact ⟨targetFile p target, exists_lintSource_of_mem_lintSingle h hf⟩
    · have hlint : (p.lint g w.files).result = .ok report := Logged.mapError_eq_ok_iff.1 h
      obtain ⟨paths, outcomes, -, houtcomes, rfl⟩ := Project.lint_eq_ok_iff.1 hlint
      obtain ⟨path, -, source, findings, -, hlint, hf⟩ :=
        Project.exists_path_of_mem_reportOn houtcomes hf
      exact ⟨path, source, findings, hlint, hf⟩
  obtain ⟨rule, hrule, m, hfound⟩ := Project.exists_rule_of_mem_lintSource hlint hf
  exact ⟨rule, hrule, _, m, hfound⟩

/-- The findings of a run are all about one file, or about files below the root. -/
theorem fileOf_of_mem_lintTarget (hnamed : w.files.WellNamed)
    (hrules : ∀ rule ∈ p.rules, rule.StaysInFile) {target : Path} {report : Report}
    (h : (lintTarget w g p target).result = .ok report) :
    (∃ file, ∀ f ∈ report.findings, fileOf p.root f = file) ∨
      ∀ f ∈ report.findings, ∃ names, (∀ name ∈ names, Path.IsName name) ∧
        fileOf p.root f = fileBelow p.root names := by
  unfold lintTarget at h
  split at h
  · refine Or.inl ⟨p.root.join ((targetFile p target).relativeTo p.root), fun f hf => ?_⟩
    obtain ⟨source, findings, hlint, hf⟩ := exists_lintSource_of_mem_lintSingle h hf
    rw [fileOf, Project.file_of_mem_lintSource hrules hlint hf]
  · refine Or.inr fun f hf => ?_
    have hlint : (p.lint g w.files).result = .ok report := Logged.mapError_eq_ok_iff.1 h
    obtain ⟨paths, hpaths, path, hpath, -, hfile⟩ :=
      Project.exists_sourceFile_of_mem_lint hrules hlint hf
    obtain ⟨names, hnames, rfl⟩ := Project.exists_names_of_mem_sourceFiles hnamed hpaths hpath
    exact ⟨names, hnames, by rw [fileOf, hfile]; rfl⟩

/-- Components tell the files of a report apart. -/
theorem toldApart_of_lintTarget (hnamed : w.files.WellNamed) (hroot : p.root.isAbsolute = true)
    (hrules : ∀ rule ∈ p.rules, rule.StaysInFile) {target : Path} {report : Report}
    (h : (lintTarget w g p target).result = .ok report) :
    ToldApart w p.root report.findings := by
  intro f hf f' hf' place hplace
  rcases fileOf_of_mem_lintTarget hnamed hrules h with ⟨file, hall⟩ | hbelow
  · -- There is only one path.
    rw [hall f hf] at hplace ⊢
    rw [hall f' hf']
    exact iff_of_true hplace (Path.sameAs_iff.2 rfl)
  · obtain ⟨names, hnames, hfile⟩ := hbelow f hf
    obtain ⟨names', hnames', hfile'⟩ := hbelow f' hf'
    have habsolute : ∀ ns, (fileBelow p.root ns).isAbsolute = true :=
      fun ns => Path.isAbsolute_join hroot
    rw [hfile] at hplace ⊢
    rw [hfile', Path.sameAs_iff, components_fileBelow hroot hnames,
      components_fileBelow hroot hnames']
    -- Both sides say that the names are the same.
    constructor
    · intro hplace'
      have hdestination := FileTree.follow_eq_destination (habsolute names)
        (Workspace.leadsTo_iff.1 hplace)
      have hdestination' := FileTree.follow_eq_destination (habsolute names')
        (Workspace.leadsTo_iff.1 hplace')
      rw [destination_fileBelow hroot hnames] at hdestination
      rw [destination_fileBelow hroot hnames', hdestination] at hdestination'
      rw [List.append_cancel_left hdestination']
    · intro hsame
      have hinjective : Function.Injective Component.name := fun a b hab => Component.name.inj hab
      obtain rfl : names' = names :=
        List.map_injective_iff.2 hinjective (List.append_cancel_left hsame)
      exact hplace

/-! ## A folder with two modules -/

/-- A text with calls that lack a mark. -/
def plainText : String := "x = f()();"

/-- The same text with a mark. -/
def markedText : String := "x = /* #__PURE__ */ f()();"

/-- The parses of the two texts. -/
def sampleGrammar : Grammar := fun _ text =>
  if text = plainText then Purity.assignedCall else Purity.assignedCallMarked

/-- A folder with two modules, the second of them marked. -/
def twoModules (first : String) : Workspace where
  files := ⟨[(["p", "a.js"], .text first), (["p", "b.js"], .text markedText)], []⟩
  folder := ⟨"/p"⟩
  settingsFolder := none
  home := none

/-- The project of its check. -/
def sampleProject : Project where
  root := ⟨"/p/."⟩
  rules := [Purity.rule {} .error]
  exclude := [Search.installedPackages]
  globs := [⟨.anyFolders :: "node_modules/".toList.map .literal ++ [.anyFolders]⟩]
  settings := {}
  strict := false
  workingFolder := ⟨"/p"⟩
  home := none

/-- What the check finds in a module: the assignment, and both calls if they lack the mark. -/
def sampleFindings (name text : String) : List Finding :=
  let call : Purity.Effect := .call (Purity.sampleNode "identifier" 4 5 none [])
  if text = plainText then
    [Purity.effectFinding .error .assignment ⟨⟨name⟩, 1, 1, 0, 9⟩,
      Purity.effectFinding .error call ⟨⟨name⟩, 1, 5, 4, 5⟩,
      Purity.effectFinding .error call ⟨⟨name⟩, 1, 5, 4, 3⟩]
  else [Purity.effectFinding .error .assignment ⟨⟨name⟩, 1, 1, 0, 25⟩]

/-- The run of the check. -/
def sampleRun (first : String) : CheckRun where
  project := sampleProject
  threshold := .error
  report := ⟨sampleFindings "a.js" first ++ sampleFindings "b.js" markedText, 2⟩

theorem lintFile_sample {t : FileTree} {path : Path} {name text : String}
    (hname : name = "a.js" ∨ name = "b.js") (htext : text = plainText ∨ text = markedText)
    (hpath : path = ⟨"/p/./" ++ name⟩) (hread : t.read [] path = .ok text) :
    (sampleProject.lintFile sampleGrammar t path).result =
      .ok (some (sampleFindings name text)) := by
  have hlanguage : Language.ofPath? path = some .javascript := by
    rw [hpath]
    rcases hname with rfl | rfl <;> decide +kernel
  have hparse : SourceModule.parse sampleGrammar .javascript text =
      .ok (.ofTree text .javascript (sampleGrammar .javascript text)) := by
    rcases htext with rfl | rfl <;> rfl
  have hcontext : FileContext.ofPath path ⟨"/p/."⟩ = ⟨⟨name⟩⟩ := by
    rw [hpath]
    rcases hname with rfl | rfl <;> decide +kernel
  have hcheck : Purity.check {} .error ⟨⟨name⟩⟩
      (.ofTree text .javascript (sampleGrammar .javascript text)) = sampleFindings name text := by
    rw [Purity.check_eq_sweep]
    rcases hname with rfl | rfl <;> rcases htext with rfl | rfl <;> decide +kernel
  refine Project.lintFile_eq_ok_iff.2 ⟨text, hread, Or.inl ⟨_, ?_, rfl⟩⟩
  unfold Project.lintSource Project.findingsIn
  rw [hlanguage, Option.getD_some, hparse]
  show Except.ok (List.flatMap _ [_]) = _
  rw [List.flatMap_singleton]
  show Except.ok (Purity.check {} .error (FileContext.ofPath _ ⟨"/p/."⟩) _) = _
  rw [hcontext, hcheck]

section

variable {first : String} (hfirst : first = plainText ∨ first = markedText)

include hfirst

theorem build_sample :
    (checkPlan (twoModules first) {} {} [Purity.rule {} .error]).build ⟨"/p"⟩ =
      .ok sampleProject := by
  have hglobs : Glob.parseAll [Search.installedPackages] = .ok sampleProject.globs := by
    simp [Glob.parseAll, Glob.parse, Glob.parseFrom, Glob.addFolders, Except.map, sampleProject,
      Search.installedPackages]
  have hroot : (checkPlan (twoModules first) {} {} [Purity.rule {} .error]).resolveRoot ⟨"/p"⟩ =
      sampleProject.root := by
    rcases hfirst with rfl | rfl <;> decide +kernel
  unfold ProjectPlan.build
  rw [hroot, show (checkPlan _ _ _ _).patterns = [Search.installedPackages] from rfl, hglobs]
  rfl

theorem sourceFiles_sample :
    sampleProject.sourceFiles (twoModules first).files = .ok [⟨"/p/./a.js"⟩, ⟨"/p/./b.js"⟩] := by
  have hreached : sampleProject.reachedFiles (twoModules first).files =
      .ok [⟨"/p/./a.js"⟩, ⟨"/p/./b.js"⟩] := by
    rcases hfirst with rfl | rfl <;> rfl
  have hwanted : [⟨"/p/./a.js"⟩, ⟨"/p/./b.js"⟩].filter sampleProject.wants =
      [⟨"/p/./a.js"⟩, ⟨"/p/./b.js"⟩] := by
    decide +kernel
  unfold Project.sourceFiles
  rw [hreached]
  show Except.ok (List.mergeSort (List.filter _ _) _) = _
  rw [hwanted, List.mergeSort_of_pairwise (by decide +kernel)]

theorem lint_sample :
    (sampleProject.lint sampleGrammar (twoModules first).files).result =
      .ok (sampleRun first).report := by
  have hread : (twoModules first).files.read [] ⟨"/p/./a.js"⟩ = .ok first := by
    rcases hfirst with rfl | rfl <;> rfl
  have hread' : (twoModules first).files.read [] ⟨"/p/./b.js"⟩ = .ok markedText := by
    rcases hfirst with rfl | rfl <;> rfl
  have hfiles := Project.lintFiles_eq_ok_iff.2
    (.cons (lintFile_sample (.inl rfl) hfirst (by decide) hread)
      (.cons (lintFile_sample (.inr rfl) (.inr rfl) (by decide) hread') .nil))
  have hsorted : (sampleFindings "a.js" first ++ sampleFindings "b.js" markedText).Pairwise
      fun a b => (Report.order a b).isLE = true := by
    rcases hfirst with rfl | rfl <;> decide +kernel
  refine Project.lint_eq_ok_iff.2 ⟨_, _, sourceFiles_sample hfirst, hfiles, ?_⟩
  show _ = Report.sort ⟨List.flatten [_, _], 2⟩
  rw [Report.sort, List.flatten_cons, List.flatten_singleton, List.mergeSort_of_pairwise hsorted]
  rfl

theorem find_sample : SettingsSource.find (twoModules first) ⟨"."⟩ none = .none := by
  rcases hfirst with rfl | rfl <;> decide +kernel

theorem isFile_sample : (twoModules first).isFile ⟨"."⟩ = false := by
  rcases hfirst with rfl | rfl <;> decide +kernel

theorem lintTarget_sample :
    (lintTarget (twoModules first) sampleGrammar sampleProject ⟨"."⟩).result =
      .ok (sampleRun first).report := by
  rw [lintTarget, isFile_sample hfirst]
  exact Logged.mapError_eq_ok_iff.2 (lint_sample hfirst)

theorem startCheck_sample :
    (startCheck (twoModules first) sampleGrammar {}).result = .ok (sampleRun first) := by
  refine startCheck_eq_ok_iff.2 ⟨{}, [Purity.rule {} .error], ?_, rfl, build_sample hfirst, rfl,
    lintTarget_sample hfirst⟩
  show ((SettingsSource.find _ ⟨"."⟩ none).load _).result = _
  rw [find_sample hfirst]
  rfl

end

/-- The edits of the first module mark its text. -/
theorem editFiles_sample :
    editFiles sampleProject.root (sampleRun plainText).report.findings (twoModules plainText)
      (filesToEdit sampleProject.root (sampleRun plainText).report.findings) =
        (twoModules markedText, .ok 1) := by
  have hfiles : filesToEdit sampleProject.root (sampleRun plainText).report.findings =
      [⟨"/p/./a.js"⟩] := by
    rw [filesToEdit, List.mergeSort_of_pairwise (by decide +kernel)]
    decide +kernel
  have hfixed : Finding.applyRemedies? plainText (findingsAbout sampleProject.root ⟨"/p/./a.js"⟩
      (sampleRun plainText).report.findings) = some markedText := by
    rw [Finding.applyRemedies?, Edit.applyAll?, Edit.schedule,
      List.mergeSort_of_pairwise (by decide +kernel)]
    decide +kernel
  have hread : (twoModules plainText).read ⟨"/p/./a.js"⟩ = .ok plainText := rfl
  have hwrite : (twoModules plainText).write ⟨"/p/./a.js"⟩ markedText =
      .ok (twoModules markedText) := rfl
  rw [hfiles, editFiles, hread]
  dsimp only
  rw [hfixed]
  dsimp only
  rw [if_neg (by decide), hwrite]
  rfl

/-! ## Applying its edits -/

/-- What every real workspace is like: it has an absolute working folder, and names that can be told
apart in a path. -/
structure Workspace.WellFormed (w : Workspace) : Prop where
  absolute : w.folder.isAbsolute = true
  named : w.files.WellNamed

theorem wellNamed_of_putFiles {folder : Path} {t u : FileTree} {entries : List (String × Value)}
    (ht : t.WellNamed) (h : Snapshot.putFiles folder t entries = some u) : u.WellNamed := by
  induction entries generalizing t with
  | nil =>
    cases h
    exact ht
  | cons entry entries ih =>
    obtain ⟨s, -, h⟩ := Option.bind_eq_some_iff.1 h
    exact ih (ht.put _ _) h

/-- The workspace of a snapshot is well-formed as soon as its folder is absolute. -/
theorem wellFormed_of_snapshot {entries : List (String × Value)} {s : Snapshot}
    (h : Snapshot.ofEntries? entries = some s) (habsolute : s.workspace.folder.isAbsolute = true) :
    s.workspace.WellFormed := by
  refine ⟨habsolute, ?_⟩
  obtain ⟨folder, -, h⟩ := Option.bind_eq_some_iff.1 h
  obtain ⟨home, -, h⟩ := Option.bind_eq_some_iff.1 h
  obtain ⟨settingsFolder, -, h⟩ := Option.bind_eq_some_iff.1 h
  obtain ⟨files, -, h⟩ := Option.bind_eq_some_iff.1 h
  obtain ⟨texts, -, h⟩ := Option.bind_eq_some_iff.1 h
  obtain ⟨tree, htree, h⟩ := Option.bind_eq_some_iff.1 h
  cases h
  exact wellNamed_of_putFiles (by intro entry hentry; cases hentry) htree

/-- Applying the edits of a check never stops the program: they insert, and have no length to add to
their offset. -/
theorem editFiles_ne_overflow_of_startCheck (hrun : (startCheck w g r).result = .ok run)
    (w' : Workspace) (files : List Path) :
    (editFiles run.project.root run.report.findings w' files).2 ≠ .error .overflow := by
  obtain ⟨-, -, -, -, -, -, hreport⟩ := startCheck_eq_ok_iff.1 hrun
  refine editFiles_ne_overflow (fun f hf e he => ?_) _ w' files
  obtain ⟨rule, hrule, ctx, m, f', hf', -, hedit⟩ := exists_rule_of_mem_lintTarget hreport hf
  obtain ⟨options, rfl⟩ := exists_options_of_startCheck hrun rule hrule
  rw [hedit] at he
  exact Edit.fits_of_empty (Purity.rule_onlyInserts options .error ctx m f' hf' e he)

/-- If the edits of a check are applied with success, then every finding with an edit is about some
file; a file without such findings keeps its content; every other file is a text, and becomes the text
with the edits of exactly the findings about it, in the order of the report; and the number that is
returned is the number of files whose content differs. -/
theorem editFiles_of_startCheck (hw : w.WellFormed) (hrun : (startCheck w g r).result = .ok run)
    {n : Nat}
    (hedit : editFiles run.project.root run.report.findings w
      (filesToEdit run.project.root run.report.findings) = (w', .ok n)) :
    (∀ f ∈ run.report.findings, f.edit?.isSome = true →
        ∃ place, w.leadsTo (fileOf run.project.root f) place = true) ∧
      (∀ place,
        (∀ f ∈ findingsAt w run.project.root run.report.findings place, f.edit? = none) →
          w'.files.file? place = w.files.file? place) ∧
      (∀ place,
        (∃ f ∈ findingsAt w run.project.root run.report.findings place, f.edit?.isSome = true) →
          ∃ s fixed, w.files.file? place = some (.text s) ∧
            Finding.applyRemedies? s
              (findingsAt w run.project.root run.report.findings place) = some fixed ∧
            w'.files.file? place = some (.text fixed)) ∧
      {place | w'.files.file? place ≠ w.files.file? place}.encard = n := by
  obtain ⟨-, -, -, -, -, -, hreport⟩ := startCheck_eq_ok_iff.1 hrun
  refine effect_of_editFiles ?_ hedit
  exact toldApart_of_lintTarget hw.named (isAbsolute_root_of_startCheck hw.absolute hrun)
    (staysInFile_of_startCheck hrun) hreport

/-- In the sample one of two files is edited and counted. -/
theorem editFiles_of_startCheck_twoModules :
    (twoModules plainText).WellFormed ∧
    (startCheck (twoModules plainText) sampleGrammar {}).result = .ok (sampleRun plainText) ∧
    editFiles sampleProject.root (sampleRun plainText).report.findings (twoModules plainText)
      (filesToEdit sampleProject.root (sampleRun plainText).report.findings) =
        (twoModules markedText, .ok 1) ∧
    (twoModules markedText).files.file? ["p", "b.js"] =
      (twoModules plainText).files.file? ["p", "b.js"] ∧
    {place | (twoModules markedText).files.file? place ≠
      (twoModules plainText).files.file? place}.encard = 1 := by
  have hwell : (twoModules plainText).WellFormed := ⟨by decide, by decide +kernel⟩
  have hstart := startCheck_sample (.inl rfl : plainText = plainText ∨ _)
  obtain ⟨-, hkept, -, hcount⟩ := editFiles_of_startCheck hwell hstart editFiles_sample
  exact ⟨hwell, hstart, editFiles_sample, hkept _ (by decide +kernel), hcount⟩

end ModulePurity.Command
