import Mathlib.Data.List.Forall2
import ModulePurity.Project
import ModulePurity.Proofs.FilePlaces
import ModulePurity.Proofs.Sweep

/-!
# The files that findings are about

Linting reads files one after another and reports what the rules find in each. This file takes a
successful run apart: one spec lemma for a file (`lintFile_eq_ok_iff`), one for a list of files
(`lintFiles_eq_ok_iff`), and one for a project (`lint_eq_ok_iff`). What comes out is that every
finding is what a rule found, up to its severity (`exists_rule_of_mem_lintSource`), that it is about a
file that was linted, as long as the rules locate their findings in the file that they are given, and
that in a well-named tree such a file is reached from the root by names.
-/

namespace ModulePurity

/-- A rule that locates its findings in the file that it is given. -/
def Rule.StaysInFile (rule : Rule) : Prop :=
  ∀ ctx m, ∀ f ∈ rule.check ctx m, f.location.file = ctx.relative

theorem Purity.rule_staysInFile (o : Purity.Options) (severity : Severity) :
    (Purity.rule o severity).StaysInFile := by
  intro ctx m f hf
  obtain ⟨n, -, hfound⟩ := Purity.exists_node_of_mem_check hf
  rw [Purity.location_of_findingHere? hfound]
  rfl

/-- A rule whose edits replace nothing. -/
def Rule.OnlyInserts (rule : Rule) : Prop :=
  ∀ ctx m, ∀ f ∈ rule.check ctx m, ∀ e, f.edit? = some e → e.location.length = 0

theorem Purity.rule_onlyInserts (o : Purity.Options) (severity : Severity) :
    (Purity.rule o severity).OnlyInserts := by
  intro ctx m f hf e he
  obtain ⟨n, -, hfound⟩ := Purity.exists_node_of_mem_check hf
  rw [(Purity.edit_of_findingHere? hfound he).1]
  rfl

/-- A project is built from what its plan says, as soon as its patterns can be read. -/
theorem ProjectPlan.build_eq_ok_iff {plan : ProjectPlan} {folder : Path} {p : Project} :
    plan.build folder = .ok p ↔
      ∃ globs, Glob.parseAll plan.patterns = .ok globs ∧
        p = { root := plan.resolveRoot folder, rules := plan.rules, exclude := plan.patterns,
              globs := globs, settings := plan.settings.getD {}, strict := plan.strict,
              workingFolder := folder, home := plan.home } := by
  unfold build
  cases Glob.parseAll plan.patterns with
  | error e => simp [Except.map]
  | ok globs => simp [Except.map, eq_comm]

namespace Project

variable {p : Project} {g : Grammar} {t : FileTree}

/-! ## One file -/

/-- Another severity leaves the place and the edit of a finding as they are. -/
theorem exists_of_mem_withSeverity {severity : Option Severity} {findings : List Finding}
    {f : Finding} (hf : f ∈ withSeverity severity findings) :
    ∃ f' ∈ findings, f.location = f'.location ∧ f.edit? = f'.edit? := by
  unfold withSeverity at hf
  split at hf
  · exact ⟨f, hf, rfl, rfl⟩
  · obtain ⟨f', hf', rfl⟩ := List.mem_map.1 hf
    exact ⟨f', hf', rfl, rfl⟩

/-- What is reported on a text was found there by one of the rules. -/
theorem exists_rule_of_mem_lintSource {path : Path} {source : String} {findings : List Finding}
    (h : p.lintSource g path source = .ok findings) {f : Finding} (hf : f ∈ findings) :
    ∃ rule ∈ p.rules, ∃ m, ∃ f' ∈ rule.check (FileContext.ofPath path p.root) m,
      f.location = f'.location ∧ f.edit? = f'.edit? := by
  unfold lintSource at h
  cases hparse : SourceModule.parse g ((Language.ofPath? path).getD .javascript) source with
  | error fault => rw [hparse] at h; cases h
  | ok m =>
    rw [hparse] at h
    cases h
    obtain ⟨rule, hrule, hf⟩ := List.mem_flatMap.1 hf
    split at hf
    · exact ⟨rule, hrule, m, exists_of_mem_withSeverity hf⟩
    · cases hf

/-- The findings in a text carry the path of its file, relative to the root. -/
theorem file_of_mem_lintSource (hrules : ∀ rule ∈ p.rules, rule.StaysInFile) {path : Path}
    {source : String} {findings : List Finding} (h : p.lintSource g path source = .ok findings)
    {f : Finding} (hf : f ∈ findings) : f.location.file = path.relativeTo p.root := by
  obtain ⟨rule, hrule, m, f', hf', hlocation, -⟩ := exists_rule_of_mem_lintSource h hf
  rw [hlocation]
  exact hrules rule hrule _ _ f' hf'

/-- Linting a file reads it, and gives its findings, or nothing for a file that a lenient run
skips. -/
theorem lintFile_eq_ok_iff {path : Path} {outcome : Option (List Finding)} :
    (p.lintFile g t path).result = .ok outcome ↔
      ∃ source, t.read [] path = .ok source ∧
        ((∃ findings, p.lintSource g path source = .ok findings ∧ outcome = some findings) ∨
          (∃ fault, p.lintSource g path source = .error fault ∧ p.strict = false ∧
            outcome = none)) := by
  constructor
  · intro h
    obtain ⟨source, hread, h⟩ := Logged.exists_of_result_bind h
    refine ⟨source, Logged.mapError_eq_ok_iff.1 hread, ?_⟩
    split at h
    · next findings hlint => exact Or.inl ⟨findings, hlint, (Except.ok.inj h).symm⟩
    · next fault hlint =>
      -- The warning comes first, and then a strict run fails.
      obtain ⟨-, -, h⟩ := Logged.exists_of_result_bind h
      split at h
      · cases h
      · next hstrict =>
        exact Or.inr ⟨fault, hlint, Bool.not_eq_true _ ▸ hstrict, (Except.ok.inj h).symm⟩
  · rintro ⟨source, hread, hcases⟩
    have hread' : (Logged.ofExcept ((t.read [] path).mapError Fault.unreadable)).result =
        .ok source := Logged.mapError_eq_ok_iff.2 hread
    refine (Logged.result_bind_of_ok hread' _).trans ?_
    obtain ⟨findings, hlint, rfl⟩ | ⟨fault, hlint, hstrict, rfl⟩ := hcases
    · rw [hlint]
      rfl
    · rw [hlint, hstrict]
      rfl

/-! ## A list of files -/

/-- Linting files succeeds if each of them can be linted, and gives what each of them gives. -/
theorem lintFiles_eq_ok_iff {paths : List Path} {outcomes : List (Option (List Finding))} :
    (p.lintFiles g t paths).result = .ok outcomes ↔
      List.Forall₂ (fun path outcome => (p.lintFile g t path).result = .ok outcome)
        paths outcomes := by
  induction paths generalizing outcomes with
  | nil =>
    rw [List.forall₂_nil_left_iff]
    constructor
    · intro h
      exact (Except.ok.inj h).symm
    · rintro rfl
      rfl
  | cons path paths ih =>
    constructor
    · intro h
      obtain ⟨first, hfirst, h⟩ := Logged.exists_of_result_bind h
      obtain ⟨rest, hrest, h⟩ := Logged.exists_of_result_bind h
      cases h
      exact List.Forall₂.cons hfirst (ih.1 hrest)
    · intro h
      cases h with
      | cons hfirst hrest =>
        rw [lintFiles, Logged.result_bind_of_ok hfirst, Logged.result_bind_of_ok (ih.2 hrest)]
        rfl

/-- What came of some file that was linted. -/
theorem exists_path_of_mem_outcomes {paths : List Path} {outcomes : List (Option (List Finding))}
    (h : List.Forall₂ (fun path outcome => (p.lintFile g t path).result = .ok outcome)
      paths outcomes) {outcome : Option (List Finding)} (hmem : outcome ∈ outcomes) :
    ∃ path ∈ paths, (p.lintFile g t path).result = .ok outcome := by
  induction h with
  | nil => cases hmem
  | @cons path first paths rest hfirst _ ih =>
    rcases List.mem_cons.1 hmem with rfl | hmem
    · exact ⟨path, List.mem_cons_self, hfirst⟩
    · obtain ⟨path', hpath', hlint⟩ := ih hmem
      exact ⟨path', List.mem_cons_of_mem path hpath', hlint⟩

theorem exists_outcome_of_mem {paths : List Path} {outcomes : List (Option (List Finding))}
    (h : List.Forall₂ (fun path outcome => (p.lintFile g t path).result = .ok outcome)
      paths outcomes) {path : Path} (hmem : path ∈ paths) :
    ∃ outcome ∈ outcomes, (p.lintFile g t path).result = .ok outcome := by
  induction h with
  | nil => cases hmem
  | @cons first outcome paths outcomes hfirst _ ih =>
    rcases List.mem_cons.1 hmem with rfl | hmem
    · exact ⟨outcome, List.mem_cons_self, hfirst⟩
    · obtain ⟨outcome', houtcome', hlint⟩ := ih hmem
      exact ⟨outcome', List.mem_cons_of_mem outcome houtcome', hlint⟩

/-- A finding in files that were linted comes from one of them, which could be read. -/
theorem exists_path_of_mem_reportOn {paths : List Path} {outcomes : List (Option (List Finding))}
    (h : (p.lintFiles g t paths).result = .ok outcomes) {f : Finding}
    (hf : f ∈ (reportOn outcomes).findings) :
    ∃ path ∈ paths, ∃ source findings, t.read [] path = .ok source ∧
      p.lintSource g path source = .ok findings ∧ f ∈ findings := by
  -- Sorting a report does not change what it holds.
  have hf : f ∈ (outcomes.filterMap id).flatten := List.mem_mergeSort.1 hf
  obtain ⟨findings, hfindings, hf⟩ := List.mem_flatten.1 hf
  obtain ⟨outcome, houtcome, rfl⟩ := List.mem_filterMap.1 hfindings
  obtain ⟨path, hpath, hlint⟩ := exists_path_of_mem_outcomes (lintFiles_eq_ok_iff.1 h) houtcome
  obtain ⟨source, hread, ⟨findings', hsource, heq⟩ | ⟨-, -, -, heq⟩⟩ := lintFile_eq_ok_iff.1 hlint
  · cases heq
    exact ⟨path, hpath, source, findings, hread, hsource, hf⟩
  · cases heq

/-! ## A project -/

/-- Linting a project lints its source files and reports on them. -/
theorem lint_eq_ok_iff {report : Report} :
    (p.lint g t).result = .ok report ↔
      ∃ paths outcomes, p.sourceFiles t = .ok paths ∧
        (p.lintFiles g t paths).result = .ok outcomes ∧ report = reportOn outcomes := by
  constructor
  · intro h
    obtain ⟨-, -, h⟩ := Logged.exists_of_result_bind h
    obtain ⟨paths, hpaths, h⟩ := Logged.exists_of_result_bind h
    obtain ⟨-, -, h⟩ := Logged.exists_of_result_bind h
    obtain ⟨outcomes, houtcomes, h⟩ := Logged.exists_of_result_bind h
    obtain ⟨-, -, h⟩ := Logged.exists_of_result_bind h
    exact ⟨paths, outcomes, Logged.mapError_eq_ok_iff.1 hpaths, houtcomes,
      (Except.ok.inj h).symm⟩
  · rintro ⟨paths, outcomes, hpaths, houtcomes, rfl⟩
    have hpaths' : (Logged.ofExcept ((p.sourceFiles t).mapError Fault.badSearch)).result =
        .ok paths := Logged.mapError_eq_ok_iff.2 hpaths
    refine (Logged.result_bind_of_ok (Logged.result_say _ _) _).trans ?_
    refine (Logged.result_bind_of_ok hpaths' _).trans ?_
    refine (Logged.result_bind_of_ok (Logged.result_say _ _) _).trans ?_
    refine (Logged.result_bind_of_ok houtcomes _).trans ?_
    exact Logged.result_bind_of_ok (Logged.result_say _ _) _

/-- Every finding of a project is about a source file that could be read. -/
theorem exists_sourceFile_of_mem_lint (hrules : ∀ rule ∈ p.rules, rule.StaysInFile)
    {report : Report} (h : (p.lint g t).result = .ok report) {f : Finding}
    (hf : f ∈ report.findings) :
    ∃ paths, p.sourceFiles t = .ok paths ∧ ∃ path ∈ paths,
      (∃ source, t.read [] path = .ok source) ∧ f.location.file = path.relativeTo p.root := by
  obtain ⟨paths, outcomes, hpaths, houtcomes, rfl⟩ := lint_eq_ok_iff.1 h
  obtain ⟨path, hpath, source, findings, hread, hlint, hf⟩ :=
    exists_path_of_mem_reportOn houtcomes hf
  exact ⟨paths, hpaths, path, hpath, ⟨source, hread⟩, file_of_mem_lintSource hrules hlint hf⟩

/-- The walk comes by the root alone, or by files below a folder. -/
theorem exists_names_of_reachedFiles {reached : List Path} (h : p.reachedFiles t = .ok reached) :
    ∃ names : List Place, reached = names.map (Ignore.Rulebook.pathBelow p.root) ∧
      (names = [[]] ∨ ∃ place, names.Sublist (t.below place)) := by
  unfold reachedFiles at h
  split at h
  · cases h
  · next place _ =>
    split at h
    · cases h
      exact ⟨[[]], rfl, Or.inl rfl⟩
    · dsimp only at h
      split at h
      · cases h
        exact ⟨_, rfl, Or.inr ⟨place, List.filter_sublist⟩⟩
      · cases h

/-- The source files are those of the files on the walk that the project wants, in order. -/
theorem exists_reachedFiles_of_sourceFiles {paths : List Path} (h : p.sourceFiles t = .ok paths) :
    ∃ reached, p.reachedFiles t = .ok reached ∧
      paths = (reached.filter p.wants).mergeSort fun a b => (a.compare b).isLE := by
  unfold sourceFiles at h
  cases hreached : p.reachedFiles t with
  | error e => rw [hreached] at h; cases h
  | ok reached =>
    rw [hreached] at h
    cases h
    exact ⟨reached, rfl, rfl⟩

/-- A source file is the root, or one of the files below it. -/
theorem exists_below_of_mem_sourceFiles {paths : List Path} (h : p.sourceFiles t = .ok paths)
    {path : Path} (hpath : path ∈ paths) :
    ∃ place, ∃ names ∈ [] :: t.below place, path = Ignore.Rulebook.pathBelow p.root names := by
  obtain ⟨reached, hreached, rfl⟩ := exists_reachedFiles_of_sourceFiles h
  have hpath : path ∈ reached := (List.mem_filter.1 (List.mem_mergeSort.1 hpath)).1
  obtain ⟨names, rfl, hnames⟩ := exists_names_of_reachedFiles hreached
  obtain ⟨rest, hrest, rfl⟩ := List.mem_map.1 hpath
  rcases hnames with rfl | ⟨place, hbelow⟩
  · exact ⟨[], rest, List.mem_singleton.1 hrest ▸ List.mem_cons_self, rfl⟩
  · exact ⟨place, rest, List.mem_cons_of_mem [] (hbelow.subset hrest), rfl⟩

theorem isAbsolute_of_mem_sourceFiles (hroot : p.root.isAbsolute = true) {paths : List Path}
    (h : p.sourceFiles t = .ok paths) {path : Path} (hpath : path ∈ paths) :
    path.isAbsolute = true := by
  obtain ⟨place, names, -, rfl⟩ := exists_below_of_mem_sourceFiles h hpath
  exact Path.isAbsolute_pathBelow hroot names

/-- In a well-named tree a source file is reached from the root by names. -/
theorem exists_names_of_mem_sourceFiles (hnamed : t.WellNamed) {paths : List Path}
    (h : p.sourceFiles t = .ok paths) {path : Path} (hpath : path ∈ paths) :
    ∃ names, (∀ name ∈ names, Path.IsName name) ∧
      path = Ignore.Rulebook.pathBelow p.root names := by
  obtain ⟨place, names, hnames, hbelow⟩ := exists_below_of_mem_sourceFiles h hpath
  refine ⟨names, fun name hname => ?_, hbelow⟩
  rcases List.mem_cons.1 hnames with rfl | hnames
  · cases hname
  · exact hnamed.isName_of_mem_below hnames hname

end Project

end ModulePurity
