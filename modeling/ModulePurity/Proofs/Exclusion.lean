import ModulePurity.Proofs.LintedFiles
import ModulePurity.Proofs.PathOrder
import ModulePurity.Proofs.StableSort

/-!
# Files that are left out

The patterns by which files are left out come from the plan of a project and from its settings. Each
pattern decides for itself (`excludes_eq_any`), so that one more of them leaves out more files and
lints no file that was skipped. There is one exception: the pattern for installed packages stands in
for a list without patterns, and gives way to the first one that is given. `excludes_insert` says
what a further pattern does in both cases, and `installedPackages_give_way` shows that the second
one occurs.
-/

namespace ModulePurity

/-! ## Reading patterns -/

/-- Patterns are read one by one, and all of them have to be well formed. -/
theorem Glob.parseAll_eq_ok_iff {patterns : List String} {globs : List Glob} :
    parseAll patterns = .ok globs ↔
      List.Forall₂ (fun pattern glob => parse pattern = .ok glob) patterns globs := by
  induction patterns generalizing globs with
  | nil =>
    rw [List.forall₂_nil_left_iff, parseAll]
    exact ⟨fun h => (Except.ok.inj h).symm, fun h => h ▸ rfl⟩
  | cons pattern patterns ih =>
    rw [parseAll]
    constructor
    · intro h
      split at h
      · cases h
      · next glob hparse =>
        cases hrest : parseAll patterns with
        | error e => rw [hrest] at h; cases h
        | ok rest =>
          rw [hrest] at h
          cases h
          exact List.Forall₂.cons hparse (ih.1 hrest)
    · intro h
      cases h with
      | cons hparse hrest =>
        rw [hparse, ih.2 hrest]
        rfl

/-- Patterns can be read if each of them can. -/
theorem Glob.exists_parseAll {patterns : List String}
    (h : ∀ pattern ∈ patterns, ∃ glob, parse pattern = .ok glob) :
    ∃ globs, parseAll patterns = .ok globs := by
  induction patterns with
  | nil => exact ⟨[], rfl⟩
  | cons pattern patterns ih =>
    obtain ⟨glob, hglob⟩ := h pattern List.mem_cons_self
    obtain ⟨globs, hglobs⟩ := ih fun x hx => h x (List.mem_cons_of_mem pattern hx)
    exact ⟨glob :: globs, parseAll_eq_ok_iff.2 (.cons hglob (parseAll_eq_ok_iff.1 hglobs))⟩

theorem Glob.exists_parse_of_mem {patterns : List String} {globs : List Glob}
    (h : parseAll patterns = .ok globs) {pattern : String} (hmem : pattern ∈ patterns) :
    ∃ glob, parse pattern = .ok glob := by
  have hparse := parseAll_eq_ok_iff.1 h
  clear h
  induction hparse with
  | nil => cases hmem
  | @cons first glob patterns globs hfirst _ ih =>
    rcases List.mem_cons.1 hmem with rfl | hmem
    · exact ⟨glob, hfirst⟩
    · exact ih hmem

namespace ProjectPlan

/-- The patterns that a plan is given, by itself and by its settings. -/
def given (plan : ProjectPlan) : List String :=
  plan.exclude ++ (plan.settings.map fun s => s.search.exclude).getD []

theorem patterns_of_given_eq_nil {plan : ProjectPlan} (h : plan.given = []) :
    plan.patterns = [Search.installedPackages] := by
  unfold given at h
  rw [patterns, h]

theorem patterns_of_given_ne_nil {plan : ProjectPlan} (h : plan.given ≠ []) :
    plan.patterns = plan.given := by
  unfold given at h ⊢
  rw [patterns]
  split
  · next hnil => exact absurd hnil h
  · rfl

/-- The plan with a further pattern, after the first `n` ones of its own. -/
def excluding (plan : ProjectPlan) (n : Nat) (pattern : String) : ProjectPlan :=
  { plan with exclude := plan.exclude.take n ++ pattern :: plan.exclude.drop n }

/-- A further pattern is one more given pattern, wherever it is put. -/
theorem given_excluding (plan : ProjectPlan) (n : Nat) (pattern : String) :
    (plan.excluding n pattern).given.Perm (pattern :: plan.given) := by
  have hexclude : (plan.exclude.take n ++ pattern :: plan.exclude.drop n).Perm
      (pattern :: plan.exclude) := by
    nth_rewrite 3 [← List.take_append_drop n plan.exclude]
    exact List.perm_middle
  exact hexclude.append_right _

/-- With a further pattern, all patterns are given ones. -/
theorem patterns_excluding (plan : ProjectPlan) (n : Nat) (pattern : String) :
    (plan.excluding n pattern).patterns.Perm (pattern :: plan.given) := by
  have hperm := given_excluding plan n pattern
  have hne : (plan.excluding n pattern).given ≠ [] := fun hnil => by
    rw [hnil] at hperm
    cases List.nil_perm.1 hperm
  rw [patterns_of_given_ne_nil hne]
  exact hperm

theorem mem_patterns_of_mem_given {plan : ProjectPlan} {pattern : String}
    (h : pattern ∈ plan.given) : pattern ∈ plan.patterns := by
  rwa [patterns_of_given_ne_nil (List.ne_nil_of_mem h)]

end ProjectPlan

namespace Project

/-! ## One pattern -/

/-- Whether a pattern leaves out a file of a project with the given root: it matches the path of the
file, as it is or relative to the root, or occurs plainly in it. -/
def leavesOut (root : Path) (pattern : String) (path : Path) : Bool :=
  match Glob.parse pattern with
  | .ok glob =>
    glob.accepts path.text || glob.accepts (path.relativeTo root).text ||
      occursPlainly pattern path
  | .error _ => false

/-- A path is excluded if one of the patterns leaves it out. -/
theorem any_leavesOut {patterns : List String} {globs : List Glob}
    (h : List.Forall₂ (fun pattern glob => Glob.parse pattern = .ok glob) patterns globs)
    (root path : Path) :
    ((globs.any fun glob => glob.accepts path.text || glob.accepts (path.relativeTo root).text) ||
      patterns.any fun pattern => occursPlainly pattern path) =
        patterns.any fun pattern => leavesOut root pattern path := by
  induction h with
  | nil => rfl
  | @cons pattern glob patterns globs hfirst _ ih =>
    rw [List.any_cons, List.any_cons, List.any_cons, ← ih, leavesOut, hfirst]
    simp only [Bool.or_assoc, Bool.or_left_comm]

/-- A file is left out if one of the patterns leaves it out. -/
theorem excludes_eq_any {plan : ProjectPlan} {folder : Path} {p : Project}
    (h : plan.build folder = .ok p) (path : Path) :
    p.excludes path = plan.patterns.any fun pattern => leavesOut p.root pattern path := by
  obtain ⟨globs, hglobs, rfl⟩ := ProjectPlan.build_eq_ok_iff.1 h
  exact any_leavesOut (Glob.parseAll_eq_ok_iff.1 hglobs) _ path

/-! ## One pattern more -/

section

variable {plan : ProjectPlan} {folder : Path} {p : Project} (h : plan.build folder = .ok p)
  {extra : String} {glob : Glob} (hextra : Glob.parse extra = .ok glob) (n : Nat)

include h hextra

/-- A project can be built with a further pattern, and differs from the one without it only in its
patterns. -/
theorem exists_build_excluding :
    ∃ q, (plan.excluding n extra).build folder = .ok q ∧
      q = { p with exclude := q.exclude, globs := q.globs } := by
  obtain ⟨globs, hglobs, rfl⟩ := ProjectPlan.build_eq_ok_iff.1 h
  obtain ⟨globs', hglobs'⟩ : ∃ globs', Glob.parseAll (plan.excluding n extra).patterns =
      .ok globs' := by
    refine Glob.exists_parseAll fun pattern hpattern => ?_
    rcases List.mem_cons.1 ((plan.patterns_excluding n extra).subset hpattern) with rfl | hgiven
    · exact ⟨glob, hextra⟩
    · exact Glob.exists_parse_of_mem hglobs (ProjectPlan.mem_patterns_of_mem_given hgiven)
  exact ⟨_, ProjectPlan.build_eq_ok_iff.2 ⟨globs', hglobs', rfl⟩, rfl⟩

omit h hextra in
theorem excludes_of_given_eq_nil (h : plan.build folder = .ok p) (hnone : plan.given = [])
    (path : Path) : p.excludes path = leavesOut p.root Search.installedPackages path := by
  rw [excludes_eq_any h, ProjectPlan.patterns_of_given_eq_nil hnone]
  simp

omit hextra in
/-- A further pattern leaves out what it matches, besides what the given ones leave out. -/
theorem excludes_of_build_excluding {q : Project}
    (hq : (plan.excluding n extra).build folder = .ok q) (hroot : q.root = p.root) (path : Path) :
    q.excludes path =
      (leavesOut p.root extra path || (!plan.given.isEmpty && p.excludes path)) := by
  rw [excludes_eq_any hq, hroot, (plan.patterns_excluding n extra).any_eq, List.any_cons]
  by_cases hnone : plan.given = []
  · rw [hnone]
    rfl
  · rw [excludes_eq_any h, ProjectPlan.patterns_of_given_ne_nil hnone,
      List.isEmpty_eq_false_iff.2 hnone]
    rfl

end

/-- Projects that differ only in their patterns come by the same files. -/
theorem reachedFiles_of_patterns (p : Project) (exclude : List String) (globs : List Glob)
    (t : FileTree) :
    ({ p with exclude := exclude, globs := globs } : Project).reachedFiles t = p.reachedFiles t :=
  rfl

/-- A project that leaves out more files lints the others, in the same order. -/
theorem sourceFiles_of_excludes {p q : Project} {t : FileTree} {paths : List Path}
    (hreached : q.reachedFiles t = p.reachedFiles t) {leaves : Path → Bool}
    (hexcludes : ∀ path, q.excludes path = (leaves path || p.excludes path))
    (h : p.sourceFiles t = .ok paths) :
    q.sourceFiles t = .ok (paths.filter fun path => !leaves path) := by
  obtain ⟨reached, hp, rfl⟩ := exists_reachedFiles_of_sourceFiles h
  have hwants : ∀ path, q.wants path = (!leaves path && p.wants path) := by
    intro path
    rw [wants, wants, hexcludes, Bool.not_or]
    exact Bool.and_left_comm _ _ _
  rw [sourceFiles, hreached, hp]
  show Except.ok (List.mergeSort (reached.filter q.wants) _) = _
  rw [StableSort.filter_mergeSort Path.isLE_compare_trans Path.isLE_compare_total,
    List.filter_filter, List.filter_congr fun path _ => hwants path]

/-- A further pattern leaves out what it matches. As long as any pattern was given before, all files
that were left out still are, and exactly the files that the new pattern matches are no longer
linted. If none was given, installed packages were left out, and now the new pattern alone counts.
-/
theorem excludes_insert {plan : ProjectPlan} {folder : Path} {p : Project}
    (h : plan.build folder = .ok p) {extra : String} {glob : Glob}
    (hextra : Glob.parse extra = .ok glob) (n : Nat) :
    ∃ q, (plan.excluding n extra).build folder = .ok q ∧
      (∀ path, q.excludes path =
        (leavesOut p.root extra path || (!plan.given.isEmpty && p.excludes path))) ∧
      (plan.given ≠ [] →
        (∀ path, p.excludes path = true → q.excludes path = true) ∧
        ∀ t paths, p.sourceFiles t = .ok paths →
          q.sourceFiles t = .ok (paths.filter fun path => !leavesOut p.root extra path)) ∧
      (plan.given = [] →
        ∀ path, p.excludes path = leavesOut p.root Search.installedPackages path) := by
  obtain ⟨q, hq, heq⟩ := exists_build_excluding h hextra n
  have hexcludes := excludes_of_build_excluding h n hq (by rw [heq])
  refine ⟨q, hq, hexcludes, fun hgiven => ?_, excludes_of_given_eq_nil h⟩
  have hmore : ∀ path, q.excludes path = (leavesOut p.root extra path || p.excludes path) := by
    intro path
    rw [hexcludes, List.isEmpty_eq_false_iff.2 hgiven]
    rfl
  refine ⟨fun path hpath => by rw [hmore, hpath, Bool.or_true], fun t paths hpaths => ?_⟩
  refine sourceFiles_of_excludes ?_ hmore hpaths
  rw [heq, reachedFiles_of_patterns]

/-! ## Samples -/

theorem parse_dist : Glob.parse "**/dist/**" =
    .ok ⟨.anyFolders :: "dist/".toList.map .literal ++ [.anyFolders]⟩ := by
  simp [Glob.parse, Glob.parseFrom, Glob.addFolders, Except.map]

theorem parse_installedPackages : Glob.parse Search.installedPackages =
    .ok ⟨.anyFolders :: "node_modules/".toList.map .literal ++ [.anyFolders]⟩ := by
  simp [Glob.parse, Glob.parseFrom, Glob.addFolders, Except.map, Search.installedPackages]

/-- A project with one pattern can be built. -/
theorem exists_build_of_patterns (plan : ProjectPlan) {pattern : String} {glob : Glob}
    (hplan : plan.patterns = [pattern]) (hparse : Glob.parse pattern = .ok glob) (folder : Path) :
    ∃ p, plan.build folder = .ok p ∧ p.root = plan.resolveRoot folder := by
  have hglobs : Glob.parseAll plan.patterns = .ok [glob] := by
    rw [hplan]
    exact Glob.parseAll_eq_ok_iff.2 (.cons hparse .nil)
  exact ⟨_, ProjectPlan.build_eq_ok_iff.2 ⟨_, hglobs, rfl⟩, rfl⟩

/-- Leaves out build results. -/
def distPlan : ProjectPlan := { exclude := ["**/dist/**"] }

/-- With a further pattern a module of the sources is left out, and a build result still is. -/
theorem excludes_insert_distPlan :
    ∃ p q, distPlan.build ⟨"/proj"⟩ = .ok p ∧
      (distPlan.excluding 1 "**/*.ts").build ⟨"/proj"⟩ = .ok q ∧
      p.excludes ⟨"/proj/./src/a.ts"⟩ = false ∧ q.excludes ⟨"/proj/./src/a.ts"⟩ = true ∧
      p.excludes ⟨"/proj/./dist/a.js"⟩ = true ∧ q.excludes ⟨"/proj/./dist/a.js"⟩ = true := by
  have htype : Glob.parse "**/*.ts" =
      .ok ⟨.anyFolders :: .anySequence :: ".ts".toList.map .literal⟩ := by
    simp [Glob.parse, Glob.parseFrom, Glob.addFolders, Except.map]
  obtain ⟨p, hp, hroot⟩ := exists_build_of_patterns distPlan rfl parse_dist ⟨"/proj"⟩
  obtain ⟨q, hq, hexcludes, hmore, -⟩ := excludes_insert hp htype 1
  have hskipped : p.excludes ⟨"/proj/./dist/a.js"⟩ = true := by
    rw [excludes_eq_any hp, hroot]
    show (leavesOut _ "**/dist/**" _ || false) = true
    rw [leavesOut, parse_dist]
    decide +kernel
  refine ⟨p, q, hp, hq, ?_, ?_, hskipped, (hmore (by decide)).1 _ hskipped⟩
  · rw [excludes_eq_any hp, hroot]
    show (leavesOut _ "**/dist/**" _ || false) = false
    rw [leavesOut, parse_dist]
    decide +kernel
  · have hleaves : leavesOut (distPlan.resolveRoot ⟨"/proj"⟩) "**/*.ts" ⟨"/proj/./src/a.ts"⟩ =
        true := by
      rw [leavesOut, htype]
      decide +kernel
    rw [hexcludes, hroot, hleaves, Bool.true_or]

/-- Without a pattern installed packages are left out, and a pattern for something else lets them
in. -/
theorem installedPackages_give_way :
    ∃ p q, ({} : ProjectPlan).build ⟨"/proj"⟩ = .ok p ∧
      (({} : ProjectPlan).excluding 0 "**/dist/**").build ⟨"/proj"⟩ = .ok q ∧
      p.excludes ⟨"/proj/./node_modules/x.js"⟩ = true ∧
      q.excludes ⟨"/proj/./node_modules/x.js"⟩ = false := by
  obtain ⟨p, hp, hroot⟩ := exists_build_of_patterns {} rfl parse_installedPackages ⟨"/proj"⟩
  obtain ⟨q, hq, heq⟩ := exists_build_excluding hp parse_dist 0
  refine ⟨p, q, hp, hq, ?_, ?_⟩
  · rw [excludes_of_given_eq_nil hp rfl, hroot, leavesOut, parse_installedPackages]
    decide +kernel
  · rw [excludes_of_build_excluding hp 0 hq (by rw [heq]), hroot]
    show (leavesOut _ _ _ || false) = false
    rw [leavesOut, parse_dist]
    decide +kernel

end Project

end ModulePurity
