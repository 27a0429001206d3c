import ModulePurity.Proofs.CheckRuns

/-!
# The report after edits

A check that applies edits lints once more if a file changed, with the settings and the project that
it started from. A fresh check of the files that it leaves behind finds, loads and builds all of this
again. The two agree because edits keep the shape of the tree, so that the same settings file is
found and the same root is taken, and because the settings file itself is not edited
(`startCheck_of_kept`). So the report of a check with edits is the report on the files that it leaves
behind (`check_after_edits`).
-/

namespace ModulePurity.Command

variable {w w' : Workspace} {g : Grammar} {r : CheckRequest} {run : CheckRun} {files : List Path}

/-! ## What a run that keeps the shape cannot change -/

theorem Kept.base (h : Kept w files w') : w'.base = w.base := by
  rw [h.rest]
  rfl

theorem Kept.isFile (h : Kept w files w') : w'.isFile = w.isFile := by
  funext p
  unfold Workspace.isFile
  rw [h.base, h.shape.isFile]

/-- A file that is not among the edited ones reads as before. -/
theorem Kept.read (h : Kept w files w') {p : Path}
    (hp : ∀ place, w.leadsTo p place = true → ∀ file ∈ files, w.leadsTo file place = false) :
    w'.read p = w.read p := by
  unfold Workspace.read FileTree.read
  rw [h.base, h.shape.follow]
  cases hfollow : w.files.follow w.base p with
  | error e => rfl
  | ok place =>
    dsimp only
    rw [h.frame place (hp place (Workspace.leadsTo_iff.2 hfollow)), h.shape.isFolderAt]

theorem Kept.find (h : Kept w files w') (target : Path) (file : Option Path) :
    SettingsSource.find w' target file = SettingsSource.find w target file := by
  have huser : w'.userFolder? = w.userFolder? := by
    rw [h.rest]
    rfl
  unfold SettingsSource.find
  rw [h.isFile, huser]

theorem Kept.checkPlan (h : Kept w files w') (r : CheckRequest) (settings : Settings)
    (rules : List Rule) :
    Command.checkPlan w' r settings rules = Command.checkPlan w r settings rules := by
  have hhome : w'.home = w.home := by rw [h.rest]
  unfold Command.checkPlan targetRoot
  rw [h.isFile, hhome]

/-! ## Settings -/

/-- The file that settings are read from. -/
def SettingsSource.file? : SettingsSource → Option Path
  | .named file | .project file | .user file => some file
  | .none => Option.none

/-- Loading settings depends on their file only. -/
theorem SettingsSource.load_congr {source : SettingsSource}
    (h : ∀ file, source.file? = some file → w'.read file = w.read file) :
    source.load w' = source.load w := by
  have hfile : ∀ file, source.file? = some file → loadFile w' file = loadFile w file := by
    intro file hsource
    unfold loadFile
    rw [h file hsource]
  cases source with
  | none => rfl
  | named file => exact congrArg Logged.ofExcept (hfile file rfl)
  | project file => exact congrArg Logged.ofExcept (hfile file rfl)
  | user file =>
    show (Logged.say _ _ >>= fun _ => Logged.ofExcept (loadFile w' file)) = _
    rw [hfile file rfl]
    rfl

/-- A fresh start after edits takes the settings and the project of the first one. -/
theorem startCheck_of_kept (hkept : Kept w files w') (hrun : (startCheck w g r).result = .ok run)
    (hsettings : ∀ file, (SettingsSource.find w r.path r.settingsFile).file? = some file →
      w'.read file = w.read file)
    {report : Report} (hreport : (lintTarget w' g run.project r.path).result = .ok report) :
    (startCheck w' g r).result = .ok { run with report := report } := by
  obtain ⟨settings, rules, hload, hrules, hbuild, hthreshold, -⟩ := startCheck_eq_ok_iff.1 hrun
  refine startCheck_eq_ok_iff.2 ⟨settings, rules, ?_, hrules, ?_, hthreshold, hreport⟩
  · rw [hkept.find, SettingsSource.load_congr hsettings, hload]
  · have hfolder : w'.folder = w.folder := by rw [hkept.rest]
    rw [hkept.checkPlan, hfolder, hbuild]

/-- Whether the settings of a check are read from one of the files that it lints. -/
def LintsSettings (w : Workspace) (g : Grammar) (r : CheckRequest) : Prop :=
  ∃ run paths path file place, (startCheck w g r).result = .ok run ∧
    run.project.sourceFiles w.files = .ok paths ∧ path ∈ paths ∧
    (SettingsSource.find w r.path r.settingsFile).file? = some file ∧
    w.leadsTo path place = true ∧ w.leadsTo file place = true

/-- The edits of a folder go to files that were linted. -/
theorem exists_sourceFile_of_mem_filesToEdit (hfolder : w.folder.isAbsolute = true)
    (htarget : w.isFile r.path = false) (hrun : (startCheck w g r).result = .ok run) {file : Path}
    (hfile : file ∈ filesToEdit run.project.root run.report.findings) {place : Place}
    (hplace : w.leadsTo file place = true) :
    ∃ paths, run.project.sourceFiles w.files = .ok paths ∧
      ∃ path ∈ paths, w.leadsTo path place = true := by
  obtain ⟨-, -, -, -, -, -, hreport⟩ := startCheck_eq_ok_iff.1 hrun
  have hroot := isAbsolute_root_of_startCheck hfolder hrun
  have hlint : (run.project.lint g w.files).result = .ok run.report := by
    rw [lintTarget, htarget] at hreport
    exact Logged.mapError_eq_ok_iff.1 hreport
  obtain ⟨f, hf, -, rfl⟩ := exists_of_mem_filesToEdit hfile
  obtain ⟨paths, hpaths, path, hpath, ⟨source, hread⟩, hlocation⟩ :=
    Project.exists_sourceFile_of_mem_lint (staysInFile_of_startCheck hrun) hlint hf
  refine ⟨paths, hpaths, path, hpath, ?_⟩
  -- The path of the finding and the one that was read have the same components.
  have habsolute := Project.isAbsolute_of_mem_sourceFiles hroot hpaths hpath
  obtain ⟨found, hfound, -⟩ := FileTree.read_eq_ok_iff.1 hread
  have hsame : found = place := by
    rw [fileOf, hlocation, Workspace.leadsTo_iff] at hplace
    rw [FileTree.follow_eq_destination habsolute hfound,
      FileTree.follow_eq_destination (Path.isAbsolute_join hroot) hplace,
      FileTree.destination, FileTree.destination, Path.components_join_relativeTo habsolute hroot]
  rw [Workspace.leadsTo_iff, FileTree.follow_of_isAbsolute w.files habsolute w.base [], hfound,
    hsame]

/-! ## The command -/

/-- Without edits the run that a check starts with is the one that it reports. -/
theorem check_without_edits (hrun : (startCheck w g r).result = .ok run) :
    check w g { r with applySuggestions := false } =
      concludeCheck w r (startCheck w g r).log run := by
  have hrun' : (startCheck w g { r with applySuggestions := false }).result = .ok run := hrun
  unfold check
  dsimp only
  rw [hrun']
  rfl

theorem check_with_edits (hrun : (startCheck w g r).result = .ok run) :
    check w g { r with applySuggestions := true } =
      applyAndConclude w g r (startCheck w g r).log run := by
  have hrun' : (startCheck w g { r with applySuggestions := true }).result = .ok run := hrun
  unfold check
  dsimp only
  rw [hrun']
  rfl

/-- A check that applies edits with success got over its start. -/
theorem exists_run_of_check {b : Bool}
    (h : (check w g { r with applySuggestions := b }).failure = none) :
    ∃ run, (startCheck w g r).result = .ok run := by
  cases hrun : (startCheck w g r).result with
  | ok run => exact ⟨run, rfl⟩
  | error e =>
    have hrun' : (startCheck w g { r with applySuggestions := b }).result = .error e := hrun
    unfold check at h
    dsimp only at h
    rw [hrun'] at h
    cases h

/-- What it reports in the end is a run on the files that it leaves behind: the first run if nothing
changed, else the second. -/
theorem exists_conclusion (hfolder : w.folder.isAbsolute = true)
    (htarget : w.isFile r.path = false) (hsettings : ¬ LintsSettings w g r)
    (hrun : (startCheck w g r).result = .ok run) {log : List LogLine}
    (h : (applyAndConclude w g r log run).failure = none) :
    ∃ w' run' log', w' = { w with files := w'.files } ∧
      (startCheck w' g r).result = .ok run' ∧
      applyAndConclude w g r log run = concludeCheck w' r log' run' := by
  unfold applyAndConclude at h ⊢
  dsimp only at h ⊢
  split at h
  · cases h
  · next edited hedit =>
    -- Nothing changed, and the first report stands.
    obtain rfl := eq_of_editFiles_eq_zero hedit
    exact ⟨edited, run, log, rfl, hrun, rfl⟩
  · next edited n _ hedit =>
    have hkept := kept_of_editFiles hedit
    split at h
    · cases h
    · next report hreport =>
      -- The second report comes from the same project. A fresh start builds that project again, since
      -- no edit went to the settings.
      refine ⟨edited, { run with report := report }, _, hkept.rest, ?_, rfl⟩
      refine startCheck_of_kept hkept hrun (fun file hfile => ?_) hreport
      refine hkept.read fun place hplace other hother => ?_
      by_contra hedited
      obtain ⟨paths, hpaths, path, hpath, hleads⟩ :=
        exists_sourceFile_of_mem_filesToEdit hfolder htarget hrun hother (by simpa using hedited)
      exact hsettings ⟨run, paths, path, file, place, hrun, hpaths, hpath, hfile, hleads, hplace⟩

/-- The report of a check that applies edits to a folder describes the files that it leaves behind. If
the check succeeds, and its settings are not in one of the files that it lints, then a check of these
files without edits succeeds as well, prints the same report and has the same exit code. -/
theorem check_after_edits (hfolder : w.folder.isAbsolute = true)
    (htarget : w.isFile r.path = false) (hsettings : ¬ LintsSettings w g r)
    (h : (check w g { r with applySuggestions := true }).failure = none) :
    let fixing := check w g { r with applySuggestions := true }
    let after : Workspace := { w with files := fixing.files }
    let plain := check after g { r with applySuggestions := false }
    (∃ run log, (startCheck after g r).result = .ok run ∧
        fixing = concludeCheck after r log run) ∧
      plain = { fixing with log := plain.log } := by
  intro fixing after plain
  obtain ⟨run, hrun⟩ := exists_run_of_check h
  rw [check_with_edits hrun] at h
  obtain ⟨w', run', log, hrest, hrun', hconclude⟩ :=
    exists_conclusion hfolder htarget hsettings hrun h
  have hfixing : fixing = concludeCheck w' r log run' := (check_with_edits hrun).trans hconclude
  have hafter : after = w' := by
    have hfiles : fixing.files = w'.files := congrArg Outcome.files hfixing
    rw [hrest, ← hfiles]
  have hplain : plain = _ := check_without_edits (hafter ▸ hrun')
  refine ⟨⟨run', log, hafter ▸ hrun', hafter ▸ hfixing⟩, ?_⟩
  rw [hplain, hfixing, hafter]
  rfl

theorem check_sample :
    ∃ log, check (twoModules plainText) sampleGrammar { applySuggestions := true } =
      concludeCheck (twoModules markedText) {} log (sampleRun markedText) := by
  have hrun := startCheck_sample (.inl rfl : plainText = plainText ∨ _)
  have hagain := lintTarget_sample (.inr rfl : markedText = plainText ∨ _)
  have hcheck : check (twoModules plainText) sampleGrammar { applySuggestions := true } = _ :=
    check_with_edits hrun
  rw [hcheck, applyAndConclude, show (sampleRun plainText).project = sampleProject from rfl,
    editFiles_sample]
  simp only [hagain]
  exact ⟨_, rfl⟩

/-- In the sample the edits leave two marked modules, and a check of them has the report that the
check with edits has. -/
theorem check_after_edits_twoModules :
    let fixing := check (twoModules plainText) sampleGrammar { applySuggestions := true }
    let plain := check { twoModules plainText with files := fixing.files } sampleGrammar {}
    fixing.failure = none ∧ fixing.files = (twoModules markedText).files ∧
      fixing.files ≠ (twoModules plainText).files ∧ plain = { fixing with log := plain.log } := by
  intro fixing plain
  obtain ⟨log, hfixing⟩ := check_sample
  have hfailure : fixing.failure = none := congrArg Outcome.failure hfixing
  have hfiles : fixing.files = (twoModules markedText).files := congrArg Outcome.files hfixing
  have hsettings : ¬ LintsSettings (twoModules plainText) sampleGrammar {} := by
    rintro ⟨-, -, -, file, -, -, -, -, hfile, -⟩
    rw [show SettingsSource.find _ _ _ = _ from find_sample (.inl rfl)] at hfile
    cases hfile
  refine ⟨hfailure, hfiles, ?_, ?_⟩
  · rw [hfiles]
    decide
  · exact (check_after_edits (r := {}) (by decide) (isFile_sample (.inl rfl)) hsettings hfailure).2

end ModulePurity.Command
