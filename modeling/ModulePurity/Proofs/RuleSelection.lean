import ModulePurity.Proofs.SingleFile

/-!
# Selected rules

A selection of rules is a text whose fields are looked up one by one. A field that names the purity
rule, by its name or its code, brings the rule in, and nothing keeps it from coming in again: the
selected rules are as many copies of the rule as there are fields that name it (`mentions`). Every
further copy finds everything once more, so that a whole run reports every finding that many times
(`startCheck_multiplied`). A selection stands for the set of rules that it names exactly if at most
one field names the rule: `selectRules_mentions` says so, and `repeatedSelection_doubles` shows a
selection that does not.
-/

namespace ModulePurity

/-! ## Reports in several copies -/

/-- Findings one after another, `k` times. -/
def Finding.copies (k : Nat) (findings : List Finding) : List Finding :=
  (List.replicate k findings).flatten

open Finding (copies)

theorem Finding.copies_succ (k : Nat) (findings : List Finding) :
    copies (k + 1) findings = findings ++ copies k findings := by
  rw [copies, List.replicate_succ, List.flatten_cons, copies]

/-- Each test passes `k` times as often on `k` copies. -/
theorem Finding.countP_copies (test : Finding → Bool) (k : Nat) (findings : List Finding) :
    (copies k findings).countP test = k * findings.countP test := by
  induction k with
  | zero => simp [copies]
  | succ k ih =>
    rw [copies_succ, List.countP_append, ih, Nat.succ_mul]
    omega

/-- Copies of reordered findings are reordered copies. -/
theorem Finding.copies_perm (k : Nat) {findings findings' : List Finding}
    (h : findings.Perm findings') : (copies k findings).Perm (copies k findings') := by
  induction k with
  | zero => exact .refl _
  | succ k ih =>
    rw [copies_succ, copies_succ]
    exact h.append ih

/-- Copying two lists apart or together gives the same findings, in another order. -/
theorem Finding.copies_append (k : Nat) (as bs : List Finding) :
    (copies k as ++ copies k bs).Perm (copies k (as ++ bs)) := by
  induction k with
  | zero => exact .refl _
  | succ k ih =>
    -- The first copy of `bs` moves before the later copies of `as`.
    have hswap : (copies k as ++ bs).Perm (bs ++ copies k as) := List.perm_append_comm
    have hrest : (copies k as ++ (bs ++ copies k bs)).Perm (bs ++ copies k (as ++ bs)) := by
      rw [← List.append_assoc]
      refine (hswap.append_right _).trans ?_
      rw [List.append_assoc]
      exact ih.append_left bs
    rw [copies_succ, copies_succ, copies_succ, List.append_assoc, List.append_assoc]
    exact hrest.append_left as

/-- Copies that are made block by block are copies of the whole. -/
theorem Finding.flatten_map_copies (k : Nat) (blocks : List (List Finding)) :
    (blocks.map (copies k)).flatten.Perm (copies k blocks.flatten) := by
  induction blocks with
  | nil =>
    have hnone : copies k [] = [] := by simp [copies]
    rw [List.map_nil, List.flatten_nil, hnone]
  | cons block blocks ih =>
    rw [List.map_cons, List.flatten_cons, List.flatten_cons]
    exact (ih.append_left _).trans (copies_append k block blocks.flatten)

namespace Report

/-- A report with `k` copies of every finding of another one, on as many files. -/
structure Multiplied (k : Nat) (r r' : Report) : Prop where
  findings : r'.findings.Perm (copies k r.findings)
  filesChecked : r'.filesChecked = r.filesChecked

variable {k : Nat} {r r' : Report}

/-- Every severity is counted `k` times as often. -/
theorem Multiplied.count (h : Multiplied k r r') (s : Severity) : r'.count s = k * r.count s := by
  rw [Report.count, h.findings.countP_eq, Finding.countP_copies]
  rfl

/-- Sorting keeps the number of copies. -/
theorem Multiplied.sort (h : Multiplied k r r') : Multiplied k r.sort r'.sort := by
  have hsorted : (copies k r.findings).Perm (copies k r.sort.findings) :=
    Finding.copies_perm k (List.mergeSort_perm r.findings _).symm
  exact ⟨((List.mergeSort_perm _ _).trans h.findings).trans hsorted, h.filesChecked⟩

end Report

/-! ## Running rules several times -/

namespace Project

variable {p : Project} {g : Grammar} {t : FileTree}

/-- The project that runs all its rules `k` times. -/
def repeating (p : Project) (k : Nat) : Project :=
  { p with rules := (List.replicate k p.rules).flatten }

/-- Every copy of the rules finds the same in a module. -/
theorem findingsIn_repeating (p : Project) (k : Nat) (path : Path) (m : SourceModule) :
    (p.repeating k).findingsIn path m = copies k (p.findingsIn path m) := by
  induction k with
  | zero => rfl
  | succ k ih =>
    have hrules : (p.repeating (k + 1)).rules = p.rules ++ (p.repeating k).rules := by
      show (List.replicate (k + 1) p.rules).flatten = _
      rw [List.replicate_succ, List.flatten_cons]
      rfl
    rw [Finding.copies_succ, ← ih, findingsIn, hrules, List.flatMap_append]
    rfl

/-- On one source text, `k` copies of the rule report `k` copies of the findings. -/
theorem lintSource_repeating (p : Project) (k : Nat) (g : Grammar) (path : Path)
    (source : String) :
    (p.repeating k).lintSource g path source = (p.lintSource g path source).map (copies k) := by
  unfold lintSource
  cases SourceModule.parse g ((Language.ofPath? path).getD .javascript) source with
  | error fault => rfl
  | ok m => exact congrArg Except.ok (findingsIn_repeating p k path m)

/-- On one file, `k` copies of the rule report `k` copies of the findings. -/
theorem lintFile_repeating {path : Path} {outcome : Option (List Finding)}
    (h : (p.lintFile g t path).result = .ok outcome) (k : Nat) :
    ((p.repeating k).lintFile g t path).result = .ok (outcome.map (copies k)) := by
  obtain ⟨source, hread, ⟨findings, hlint, rfl⟩ | ⟨fault, hlint, hstrict, rfl⟩⟩ :=
    lintFile_eq_ok_iff.1 h
  · refine lintFile_eq_ok_iff.2 ⟨source, hread, Or.inl ⟨copies k findings, ?_, rfl⟩⟩
    rw [lintSource_repeating, hlint]
    rfl
  · refine lintFile_eq_ok_iff.2 ⟨source, hread, Or.inr ⟨fault, ?_, hstrict, rfl⟩⟩
    rw [lintSource_repeating, hlint]
    rfl

theorem lintFiles_repeating {paths : List Path} {outcomes : List (Option (List Finding))}
    (h : (p.lintFiles g t paths).result = .ok outcomes) (k : Nat) :
    ((p.repeating k).lintFiles g t paths).result = .ok (outcomes.map (Option.map (copies k))) := by
  refine lintFiles_eq_ok_iff.2 (List.forall₂_map_right_iff.2 ?_)
  refine (lintFiles_eq_ok_iff.1 h).imp ?_
  intro path outcome houtcome
  exact lintFile_repeating houtcome k

/-- A report on copied findings is multiplied, and counts the same files. -/
theorem reportOn_multiplied (outcomes : List (Option (List Finding))) (k : Nat) :
    (reportOn outcomes).Multiplied k (reportOn (outcomes.map (Option.map (copies k)))) := by
  have hkept : (outcomes.map (Option.map (copies k))).filterMap id =
      (outcomes.filterMap id).map (copies k) := by
    rw [List.filterMap_map, List.map_filterMap]
    rfl
  refine Report.Multiplied.sort ⟨?_, ?_⟩
  · rw [hkept]
    exact Finding.flatten_map_copies k _
  · rw [hkept, List.length_map]

/-- A run that succeeds also does so with several copies of the rules, and reports copies. -/
theorem lint_multiplied {report : Report} (h : (p.lint g t).result = .ok report) (k : Nat) :
    ∃ report', ((p.repeating k).lint g t).result = .ok report' ∧
      report.Multiplied k report' := by
  obtain ⟨paths, outcomes, hpaths, houtcomes, rfl⟩ := lint_eq_ok_iff.1 h
  exact ⟨_, lint_eq_ok_iff.2 ⟨paths, _, hpaths, lintFiles_repeating houtcomes k, rfl⟩,
    reportOn_multiplied outcomes k⟩

end Project

namespace Command

variable {w : Workspace} {g : Grammar} {p : Project} {r : CheckRequest} {run : CheckRun}
  {s : Settings} {rule : Rule}

/-- Checking a single file with `k` copies of the rule multiplies its report. -/
theorem lintSingle_multiplied {target : Path} {report : Report}
    (h : (lintSingle w g p target).result = .ok report) (k : Nat) :
    ∃ report', (lintSingle w g (p.repeating k) target).result = .ok report' ∧
      report.Multiplied k report' := by
  obtain ⟨source, hread, -⟩ := Logged.exists_of_result_bind h
  rw [Logged.result_ofExcept] at hread
  have hread : w.read (targetFile p target) = .ok source := Logged.mapError_eq_ok_iff.1 hread
  have htarget : targetFile (p.repeating k) target = targetFile p target := rfl
  have hstrict : (p.repeating k).strict = p.strict := rfl
  rw [result_lintSingle hread] at h
  rw [result_lintSingle (htarget ▸ hread), htarget, hstrict, Project.lintSource_repeating]
  cases hsource : p.lintSource g (targetFile p target) source with
  | ok findings =>
    rw [hsource] at h
    cases h
    exact ⟨_, rfl, Report.Multiplied.sort ⟨.refl _, rfl⟩⟩
  | error fault =>
    rw [hsource] at h
    -- A file that is skipped leaves nothing to copy.
    dsimp only [Except.map] at h ⊢
    split at h
    · cases h
    · next hlenient =>
      cases h
      rw [if_neg hlenient]
      refine ⟨_, rfl, Report.Multiplied.sort ⟨?_, rfl⟩⟩
      simp [Report.empty, copies]

/-- Checking a file or a folder with `k` copies of the rule multiplies its report. -/
theorem lintTarget_multiplied {target : Path} {report : Report}
    (h : (lintTarget w g p target).result = .ok report) (k : Nat) :
    ∃ report', (lintTarget w g (p.repeating k) target).result = .ok report' ∧
      report.Multiplied k report' := by
  unfold lintTarget at h ⊢
  split at h
  · next hfile =>
    rw [if_pos hfile]
    exact lintSingle_multiplied h k
  · next hfolder =>
    rw [if_neg hfolder]
    have hlint : (p.lint g w.files).result = .ok report := Logged.mapError_eq_ok_iff.1 h
    obtain ⟨report', hlint', hcopies⟩ := Project.lint_multiplied hlint k
    exact ⟨report', Logged.mapError_eq_ok_iff.2 hlint', hcopies⟩

/-! ## Fields that name the rule -/

/-- Whether a field of a selection names the purity rule, by its name or its code. -/
def namesPurity (field : List Char) : Bool :=
  Text.trim field == Purity.ruleName.toList || Text.trim field == Purity.ruleCode.toList

/-- The number of fields of a selection that name the purity rule. -/
def mentions (selection : String) : Nat :=
  (Text.fields ',' selection.toList).countP namesPurity

/-- Whether a name is one of the purity rule. -/
def isPurity (name : String) : Bool :=
  name == Purity.ruleName || name == Purity.ruleCode

theorem isPurity_ofList (cs : List Char) :
    isPurity (String.ofList cs) =
      (cs == Purity.ruleName.toList || cs == Purity.ruleCode.toList) := by
  have hword : ∀ word : String, (String.ofList cs == word) = (cs == word.toList) := by
    intro word
    rw [Bool.eq_iff_iff, beq_iff_eq, beq_iff_eq]
    constructor
    · rintro rfl
      rw [String.toList_ofList]
    · rintro rfl
      rw [String.ofList_toList]
  rw [isPurity, hword, hword]

/-- Blank fields name no rule, so that leaving them out does not matter. -/
theorem countP_selectedNames (selection : String) :
    (selectedNames selection).countP isPurity = mentions selection := by
  unfold selectedNames mentions
  rw [List.countP_map, List.countP_filter, List.countP_map]
  refine List.countP_congr fun field _ => ?_
  show (isPurity (String.ofList (Text.trim field)) && !(Text.trim field).isEmpty) = true ↔ _
  rw [isPurity_ofList, namesPurity, Bool.and_eq_true, and_iff_left_iff_imp]
  intro hname
  cases hfield : Text.trim field with
  | nil =>
    rw [hfield] at hname
    exact absurd hname (by decide)
  | cons c cs => rfl

/-! ## Looking up names -/

theorem result_warnOfCallPaths (s : Settings) : (warnOfCallPaths s).result = .ok () := by
  unfold warnOfCallPaths
  split <;> rfl

/-- A name of no rule adds nothing. -/
theorem rulesNamed_cons_unknown {name : String} (hname : isPurity name = false) (s : Settings)
    (names : List String) :
    (rulesNamed s (name :: names)).result = (rulesNamed s names).result := by
  have hlookup : s.rule? name = .ok none := if_neg (by rw [← isPurity, hname]; simp)
  rw [rulesNamed, hlookup, Logged.result_bind]
  show (Logged.say .warning _ >>= fun _ => rulesNamed s names).result = _
  rw [Logged.result_bind]
  rfl

/-- A name of the purity rule adds it, whether or not it is there already. -/
theorem rulesNamed_cons_purity {name : String} (hname : isPurity name = true)
    (h : s.purityRule = .ok rule) {names : List String} {rules : List Rule}
    (hrest : (rulesNamed s names).result = .ok rules) :
    (rulesNamed s (name :: names)).result = .ok (rule :: rules) := by
  have hlookup : s.rule? name = .ok (some rule) := by
    rw [Settings.rule?, ← isPurity, if_pos hname, h]
    rfl
  rw [rulesNamed, hlookup, Logged.result_bind]
  show (warnOfCallPaths s >>= fun _ => rulesNamed s names >>= fun rules =>
    (pure (rule :: rules) : Logged Failure (List Rule))).result = _
  rw [Logged.result_bind_of_ok (result_warnOfCallPaths s), Logged.result_bind_of_ok hrest]
  rfl

/-- A list of names without the purity rule selects nothing, whatever the settings say. -/
theorem rulesNamed_of_none {names : List String} (h : names.countP isPurity = 0) (s : Settings) :
    (rulesNamed s names).result = .ok [] := by
  induction names with
  | nil => rfl
  | cons name names ih =>
    rw [List.countP_eq_zero, List.forall_mem_cons, Bool.not_eq_true] at h
    rw [rulesNamed_cons_unknown h.1]
    exact ih (List.countP_eq_zero.2 h.2)

/-- Names select one copy of the purity rule for each time that they name it. -/
theorem rulesNamed_of_purityRule (h : s.purityRule = .ok rule) (names : List String) :
    (rulesNamed s names).result = .ok (List.replicate (names.countP isPurity) rule) := by
  induction names with
  | nil => rfl
  | cons name names ih =>
    cases hname : isPurity name with
    | false => rw [rulesNamed_cons_unknown hname, ih, List.countP_cons_of_neg (by rw [hname]; simp)]
    | true =>
      rw [rulesNamed_cons_purity hname h ih, List.countP_cons_of_pos hname, List.replicate_succ]

/-- Without a filter the rule is taken once. -/
theorem selectRules_none (h : s.purityRule = .ok rule) :
    (selectRules s none).result = .ok [rule] := by
  have hall : (Logged.ofExcept (s.allRules.mapError Failure.badOptions)).result = .ok [rule] := by
    rw [Settings.allRules, h]
    rfl
  rw [selectRules, Logged.result_bind_of_ok hall,
    Logged.result_bind_of_ok (result_warnOfCallPaths s)]
  rfl

/-- All rules can be selected only if the options of the purity rule can be read. -/
theorem exists_purityRule_of_selectRules {rules : List Rule}
    (h : (selectRules s none).result = .ok rules) :
    ∃ rule, s.purityRule = .ok rule ∧ rules = [rule] := by
  cases hrule : s.purityRule with
  | ok rule =>
    rw [selectRules_none hrule] at h
    exact ⟨rule, rfl, (Except.ok.inj h).symm⟩
  | error fault =>
    obtain ⟨all, hall, -⟩ := Logged.exists_of_result_bind h
    have hall : s.allRules = .ok all := Logged.mapError_eq_ok_iff.1 hall
    rw [Settings.allRules, hrule] at hall
    cases hall

/-- With a filter the rule is taken as often as the filter mentions it. -/
theorem selectRules_some (h : s.purityRule = .ok rule) (selection : String) :
    (selectRules s (some selection)).result = .ok (List.replicate (mentions selection) rule) := by
  rw [← countP_selectedNames]
  exact rulesNamed_of_purityRule h (selectedNames selection)

/-! ## The run of a selection -/

/-- If a check of all rules starts well, so does a check of selected ones, and each finding comes as
often as the selection names the purity rule. -/
theorem startCheck_multiplied (h : (startCheck w g { r with rules := none }).result = .ok run)
    (selection : String) :
    ∃ run', (startCheck w g { r with rules := some selection }).result = .ok run' ∧
      run'.project = run.project.repeating (mentions selection) ∧
      run'.threshold = run.threshold ∧
      run.report.Multiplied (mentions selection) run'.report := by
  obtain ⟨settings, rules, hsettings, hrules, hbuild, hthreshold, hreport⟩ :=
    startCheck_eq_ok_iff.1 h
  obtain ⟨rule, hrule, rfl⟩ := exists_purityRule_of_selectRules hrules
  obtain ⟨globs, hglobs, hproject⟩ := ProjectPlan.build_eq_ok_iff.1 hbuild
  obtain ⟨report, hreport', hcopies⟩ := lintTarget_multiplied hreport (mentions selection)
  have hrules' : (run.project.repeating (mentions selection)).rules =
      List.replicate (mentions selection) rule := by
    rw [hproject]
    show (List.replicate (mentions selection) [rule]).flatten = _
    rw [List.flatten_replicate_singleton]
  refine ⟨⟨run.project.repeating (mentions selection), run.threshold, report⟩, ?_, rfl, rfl,
    hcopies⟩
  refine startCheck_eq_ok_iff.2 ⟨settings, _, hsettings, selectRules_some hrule selection, ?_,
    hthreshold, hreport'⟩
  refine ProjectPlan.build_eq_ok_iff.2 ⟨globs, hglobs, ?_⟩
  rw [← hrules', hproject]
  rfl

/-- A selection that names the purity rule once gives the run of all rules. -/
theorem report_of_mentions_eq_one {run' : CheckRun}
    (h : (startCheck w g { r with rules := none }).result = .ok run) {selection : String}
    (h' : (startCheck w g { r with rules := some selection }).result = .ok run')
    (hproject : run'.project = run.project.repeating (mentions selection))
    (hone : mentions selection = 1) : run'.report = run.report := by
  obtain ⟨-, -, -, -, -, -, hreport⟩ := startCheck_eq_ok_iff.1 h
  obtain ⟨-, -, -, -, -, -, hreport'⟩ := startCheck_eq_ok_iff.1 h'
  have hsame : run.project.repeating 1 = run.project := by
    rw [Project.repeating, List.replicate_one, List.flatten_singleton]
  rw [hproject, hone, hsame] at hreport'
  exact Except.ok.inj (hreport'.symm.trans hreport)

/-- A selection that names no rule selects none. One that names the purity rule selects as many
copies of it as there are fields that name it, which are the rules without a selection exactly if
there is one such field; and a check reports and counts every finding that many times. -/
theorem selectRules_mentions (selection : String) :
    (∀ s, mentions selection = 0 → (selectRules s (some selection)).result = .ok []) ∧
      (∀ s rule, s.purityRule = .ok rule →
        (selectRules s (some selection)).result =
            .ok (List.replicate (mentions selection) rule) ∧
          ((selectRules s (some selection)).result = (selectRules s none).result ↔
            mentions selection = 1)) ∧
      ∀ (w : Workspace) (g : Grammar) (r : CheckRequest) (run : CheckRun),
        (startCheck w g { r with rules := none }).result = .ok run →
        ∃ run', (startCheck w g { r with rules := some selection }).result = .ok run' ∧
          run'.report.findings.Perm (copies (mentions selection) run.report.findings) ∧
          run'.report.filesChecked = run.report.filesChecked ∧
          (∀ s, run'.report.count s = mentions selection * run.report.count s) ∧
          (mentions selection = 1 → run'.report = run.report) := by
  refine ⟨?_, ?_, ?_⟩
  · intro s hnone
    rw [← countP_selectedNames] at hnone
    exact rulesNamed_of_none hnone s
  · intro s rule hrule
    refine ⟨selectRules_some hrule selection, ?_⟩
    rw [selectRules_some hrule, selectRules_none hrule]
    constructor
    · intro hsame
      have hlength := congrArg List.length (Except.ok.inj hsame)
      rwa [List.length_replicate] at hlength
    · intro hone
      rw [hone, List.replicate_one]
  · intro w g r run hrun
    obtain ⟨run', hrun', hproject, -, hcopies⟩ := startCheck_multiplied hrun selection
    exact ⟨run', hrun', hcopies.findings, hcopies.filesChecked, hcopies.count,
      report_of_mentions_eq_one hrun hrun' hproject⟩

/-- Blanks, an empty field and an unknown name do not matter: the rule is named once, and the sample
is reported on as without a selection. -/
theorem selectRules_mentions_twoModules :
    mentions " PM001 ,, nope" = 1 ∧
      (selectRules {} (some " PM001 ,, nope")).result = (selectRules {} none).result ∧
      ∃ run, (startCheck (twoModules plainText) sampleGrammar
          { rules := some " PM001 ,, nope" }).result = .ok run ∧
        run.report = (sampleRun plainText).report := by
  have hone : mentions " PM001 ,, nope" = 1 := by decide +kernel
  have hstart := startCheck_sample (.inl rfl : plainText = plainText ∨ _)
  obtain ⟨-, hrules, hruns⟩ := selectRules_mentions " PM001 ,, nope"
  obtain ⟨run, hrun, -, -, -, hreport⟩ := hruns (twoModules plainText) sampleGrammar {} _ hstart
  exact ⟨hone, (hrules {} _ rfl).2.2 hone, run, hrun, hreport hone⟩

/-- Named by its name and by its code, the rule is selected twice, and each of the four errors in
the sample is reported and counted twice. -/
theorem repeatedSelection_doubles :
    mentions "pure-module,PM001" = 2 ∧
      (selectRules {} (some "pure-module,PM001")).result ≠ (selectRules {} none).result ∧
      (startCheck (twoModules plainText) sampleGrammar {}).result = .ok (sampleRun plainText) ∧
      (sampleRun plainText).report.count .error = 4 ∧
      ∃ run, (startCheck (twoModules plainText) sampleGrammar
          { rules := some "pure-module,PM001" }).result = .ok run ∧
        run.report.count .error = 8 := by
  have htwice : mentions "pure-module,PM001" = 2 := by decide +kernel
  have hstart := startCheck_sample (.inl rfl : plainText = plainText ∨ _)
  have hcount : (sampleRun plainText).report.count .error = 4 := by decide +kernel
  obtain ⟨run, hrun, -, -, hcopies⟩ :=
    startCheck_multiplied (r := {}) hstart "pure-module,PM001"
  refine ⟨htwice, fun hsame => ?_, hstart, hcount, run, hrun, ?_⟩
  · have hrule : (({} : Settings).purityRule) = .ok (Purity.rule {} .error) := rfl
    rw [selectRules_some hrule, selectRules_none hrule, htwice] at hsame
    cases congrArg List.length (Except.ok.inj hsame)
  · rw [hcopies.count, htwice, hcount]

end Command

end ModulePurity
