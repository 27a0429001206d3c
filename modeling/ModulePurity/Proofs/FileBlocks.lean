import Mathlib.Data.List.Sort
import ModulePurity.Proofs.LintedFiles
import ModulePurity.Proofs.PathOrder
import ModulePurity.Proofs.PureMarks
import ModulePurity.Proofs.StableSort

/-!
# The report, file by file

Linting orders the files by their paths, and in the end orders all findings by file, line and
column. The paths of the files are absolute and those of the findings relative to the root, but the
two orders agree (`compare_relativeTo`), and no two files have the same components
(`pairwise_compare_sourceFiles`). So the second sort leaves the files as they are and only orders
what was found in each of them: the report is a row of blocks, one for each file (`reportByFile`).

`lint_byFile` says so, says when a strict run fails, and says what is left of the report if one file
is added, removed or edited.
-/

namespace ModulePurity

/-! ## The order of findings -/

/-- The order of findings in one file. -/
def Finding.comparePlace (a b : Finding) : Ordering :=
  (compare a.location.line b.location.line).then (compare a.location.column b.location.column)

namespace Report

instance : Std.TransCmp fun a b : Finding => a.location.file.compare b.location.file where
  eq_swap := Path.compare_eq_swap _ _
  isLE_trans := Path.isLE_compare_trans _ _ _

/-- Findings are ordered by file, then by line, then by column. -/
theorem order_eq_compareLex :
    order = compareLex (fun a b => a.location.file.compare b.location.file)
      (compareLex (compareOn fun f => f.location.line) (compareOn fun f => f.location.column)) :=
  rfl

instance : Std.TransCmp order := by
  rw [order_eq_compareLex]
  infer_instance

theorem isLE_order_trans (a b c : Finding) (hab : (order a b).isLE = true)
    (hbc : (order b c).isLE = true) : (order a c).isLE = true :=
  Std.TransCmp.isLE_trans hab hbc

theorem isLE_order_total (a b : Finding) : ((order a b).isLE || (order b a).isLE) = true := by
  have hswap : order b a = (order a b).swap := Std.OrientedCmp.eq_swap
  rw [hswap]
  cases order a b <;> rfl

/-- In one file, line and column decide. -/
theorem order_of_file_eq {a b : Finding} (h : a.location.file = b.location.file) :
    order a b = a.comparePlace b := by
  have hfile : a.location.file.compare b.location.file = .eq := by
    rw [h, Path.compare_eq_iff, Path.sameAs_iff]
  rw [order, hfile, Ordering.eq_then]
  rfl

end Report

namespace Project

variable {p : Project} {g : Grammar} {t : FileTree}

/-! ## The order of the files -/

/-- Below a root the order of absolute paths is that of the relative ones. -/
theorem compare_relativeTo {root : Path} (hroot : root.isAbsolute = true) {names names' : Place}
    (hnames : ∀ name ∈ names, Path.IsName name) (hnames' : ∀ name ∈ names', Path.IsName name) :
    ((Ignore.Rulebook.pathBelow root names).relativeTo root).compare
        ((Ignore.Rulebook.pathBelow root names').relativeTo root) =
      (Ignore.Rulebook.pathBelow root names).compare (Ignore.Rulebook.pathBelow root names') := by
  have hcomponents := Path.components_pathBelow hroot hnames
  have hcomponents' := Path.components_pathBelow hroot hnames'
  rw [Path.compare, Path.compare, hcomponents, hcomponents', Path.compareComponents_append_left,
    Path.components_relativeTo (Path.isAbsolute_pathBelow hroot names) hroot hcomponents,
    Path.components_relativeTo (Path.isAbsolute_pathBelow hroot names') hroot hcomponents']

section

variable (ht : t.Proper) (hroot : p.root.isAbsolute = true)

include ht hroot

/-- The source files stand in order, and no two of them have the same components. -/
theorem pairwise_compare_sourceFiles {paths : List Path} (h : p.sourceFiles t = .ok paths) :
    paths.Pairwise fun a b => a.compare b = .lt := by
  obtain ⟨reached, hreached, rfl⟩ := exists_reachedFiles_of_sourceFiles h
  obtain ⟨names, rfl, hnames⟩ := exists_names_of_reachedFiles hreached
  have hnodup : names.Nodup := by
    rcases hnames with rfl | ⟨place, hbelow⟩
    · exact List.nodup_singleton []
    · exact (FileTree.nodup_below ht.once place).sublist hbelow
  have hisName : ∀ rest ∈ names, ∀ name ∈ rest, Path.IsName name := by
    intro rest hrest name hname
    rcases hnames with rfl | ⟨place, hbelow⟩
    · rw [List.mem_singleton.1 hrest] at hname
      cases hname
    · exact ht.named.isName_of_mem_below (hbelow.subset hrest) hname
  -- Different names give different components.
  have hdiffer : (names.map (Ignore.Rulebook.pathBelow p.root)).Pairwise fun a b =>
      a.sameAs b = false := by
    refine List.pairwise_map.2 (hnodup.imp_of_mem fun {a b} ha hb hab => ?_)
    rw [← Bool.not_eq_true, Path.sameAs_iff, Path.components_pathBelow hroot (hisName a ha),
      Path.components_pathBelow hroot (hisName b hb)]
    intro hsame
    have hinjective : Function.Injective Component.name := fun a b hab => Component.name.inj hab
    exact hab (List.map_injective_iff.2 hinjective (List.append_cancel_left hsame))
  have hsymm : ∀ {a b : Path}, a.sameAs b = false → b.sameAs a = false := by
    intro a b hab
    rw [← Bool.not_eq_true, Path.sameAs_iff] at hab ⊢
    exact fun hba => hab hba.symm
  have hdiffer := ((List.mergeSort_perm _ fun a b => (Path.compare a b).isLE).pairwise_iff hsymm).2
    (hdiffer.filter p.wants)
  refine (Path.sorted_mergeSort_compare _).imp₂ (fun a b hle hne => ?_) hdiffer
  exact Path.compare_lt_of_isLE hle hne

/-- Seen from the root, the source files come in strict order, as their full paths do. -/
theorem pairwise_relativeTo_sourceFiles {paths : List Path} (h : p.sourceFiles t = .ok paths) :
    paths.Pairwise fun a b => (a.relativeTo p.root).compare (b.relativeTo p.root) = .lt := by
  refine (pairwise_compare_sourceFiles ht hroot h).imp_of_mem fun {a b} ha hb hab => ?_
  obtain ⟨names, hnames, rfl⟩ := exists_names_of_mem_sourceFiles ht.named h ha
  obtain ⟨names', hnames', rfl⟩ := exists_names_of_mem_sourceFiles ht.named h hb
  rw [compare_relativeTo hroot hnames hnames', hab]

end

/-! ## The blocks of a report -/

/-- Whether a text parses as the file at a path. -/
def parses (g : Grammar) (path : Path) (source : String) : Bool :=
  (SourceModule.parse g ((Language.ofPath? path).getD .javascript) source).isOk

/-- What linting finds in a file, in the order of lines and columns. -/
def block (p : Project) (g : Grammar) (path : Path) (source : String) : List Finding :=
  match p.lintSource g path source with
  | .ok findings => findings.mergeSort fun a b => (a.comparePlace b).isLE
  | .error _ => []

/-- The report on files with the given texts: the blocks of those that parse, one after another. -/
def reportByFile (p : Project) (g : Grammar) (text : Path → String) (paths : List Path) : Report :=
  let parsable := paths.filter fun path => parses g path (text path)
  ⟨parsable.flatMap fun path => p.block g path (text path), parsable.length⟩

theorem lintSource_of_parses {path : Path} {source : String} (h : parses g path source = true) :
    ∃ findings, p.lintSource g path source = .ok findings := by
  unfold parses at h
  unfold lintSource
  cases hparse : SourceModule.parse g ((Language.ofPath? path).getD .javascript) source with
  | error fault => rw [hparse] at h; cases h
  | ok m => exact ⟨_, rfl⟩

theorem exists_cause_of_not_parses {path : Path} {source : String}
    (h : parses g path source = false) :
    ∃ cause, SourceModule.parse g ((Language.ofPath? path).getD .javascript) source =
      .error cause := by
  unfold parses at h
  cases hparse : SourceModule.parse g ((Language.ofPath? path).getD .javascript) source with
  | error cause => exact ⟨cause, rfl⟩
  | ok m => rw [hparse] at h; cases h

theorem lintSource_of_cause {path : Path} {source : String} {cause : SyntaxFault}
    (h : SourceModule.parse g ((Language.ofPath? path).getD .javascript) source = .error cause) :
    p.lintSource g path source = .error cause := by
  rw [lintSource, h]
  rfl

theorem lintSource_of_not_parses {path : Path} {source : String}
    (h : parses g path source = false) : ∃ cause, p.lintSource g path source = .error cause := by
  obtain ⟨cause, hcause⟩ := exists_cause_of_not_parses h
  exact ⟨cause, lintSource_of_cause hcause⟩

/-- A text that does not parse adds nothing to the report. -/
theorem block_of_not_parses {path : Path} {source : String} (h : parses g path source = false) :
    p.block g path source = [] := by
  obtain ⟨cause, hlint⟩ := lintSource_of_not_parses (p := p) h
  rw [block, hlint]

/-- All findings of a block are about the file of the block. -/
theorem file_of_mem_block (hrules : ∀ rule ∈ p.rules, rule.StaysInFile) {path : Path}
    {source : String} {f : Finding} (hf : f ∈ p.block g path source) :
    f.location.file = path.relativeTo p.root := by
  unfold block at hf
  split at hf
  · next findings hlint => exact file_of_mem_lintSource hrules hlint (List.mem_mergeSort.1 hf)
  · cases hf

/-- Skipped files leave nothing behind. -/
theorem findings_reportByFile (text : Path → String) (paths : List Path) :
    (p.reportByFile g text paths).findings =
      paths.flatMap fun path => p.block g path (text path) := by
  show List.flatMap _ (paths.filter _) = _
  induction paths with
  | nil => rfl
  | cons path paths ih =>
    rw [List.flatMap_cons, ← ih]
    cases hparses : parses g path (text path) with
    | true => simp [hparses]
    | false => simp [hparses, block_of_not_parses hparses]

/-- A sort by file, line and column orders each file for itself. -/
theorem sort_lintSource (hrules : ∀ rule ∈ p.rules, rule.StaysInFile) {path : Path}
    {source : String} {findings : List Finding} (h : p.lintSource g path source = .ok findings) :
    (findings.mergeSort fun a b => (Report.order a b).isLE) = p.block g path source := by
  rw [block, h]
  refine StableSort.mergeSort_congr fun a ha b hb => ?_
  rw [Report.order_of_file_eq ((file_of_mem_lintSource hrules h ha).trans
    (file_of_mem_lintSource hrules h hb).symm)]

/-! ## Linting -/

/-- What linting some texts gives is what it gives for those that parse. -/
theorem filterMap_lintSource (text : Path → String) (paths : List Path) :
    (paths.filterMap fun path => (p.lintSource g path (text path)).toOption) =
      (paths.filter fun path => parses g path (text path)).map fun path =>
        (p.lintSource g path (text path)).toOption.getD [] := by
  induction paths with
  | nil => rfl
  | cons path paths ih =>
    cases hparses : parses g path (text path) with
    | true =>
      obtain ⟨findings, hlint⟩ := lintSource_of_parses (p := p) hparses
      have hsome : (p.lintSource g path (text path)).toOption = some findings := by rw [hlint]; rfl
      simp [hparses, hsome, ih]
    | false =>
      obtain ⟨cause, hlint⟩ := lintSource_of_not_parses (p := p) hparses
      have hnone : (p.lintSource g path (text path)).toOption = none := by rw [hlint]; rfl
      simp [hparses, hnone, ih]

/-- The report on files in order, each of which was linted or skipped. -/
theorem reportOn_lintSource (hrules : ∀ rule ∈ p.rules, rule.StaysInFile) {paths : List Path}
    (hsorted : paths.Pairwise fun a b =>
      (a.relativeTo p.root).compare (b.relativeTo p.root) = .lt) (text : Path → String) :
    reportOn (paths.map fun path => (p.lintSource g path (text path)).toOption) =
      p.reportByFile g text paths := by
  have houtcomes : (paths.map fun path => (p.lintSource g path (text path)).toOption).filterMap id =
      (paths.filter fun path => parses g path (text path)).map fun path =>
        (p.lintSource g path (text path)).toOption.getD [] := by
    rw [List.filterMap_map]
    exact filterMap_lintSource text paths
  have hfile : ∀ path, ∀ f ∈ (p.lintSource g path (text path)).toOption.getD [],
      f.location.file = path.relativeTo p.root := by
    intro path f hf
    cases hlint : p.lintSource g path (text path) with
    | error fault => rw [hlint] at hf; cases hf
    | ok findings =>
      rw [hlint] at hf
      exact file_of_mem_lintSource hrules hlint hf
  -- Findings in one file may stand before those in a later one.
  have hblocks : (paths.filter fun path => parses g path (text path)).Pairwise fun a b =>
      ∀ x ∈ (p.lintSource g a (text a)).toOption.getD [],
        ∀ y ∈ (p.lintSource g b (text b)).toOption.getD [], (Report.order x y).isLE = true := by
    refine (hsorted.filter _).imp fun {a b} hab x hx y hy => ?_
    rw [Report.order, hfile a x hx, hfile b y hy, hab]
    rfl
  unfold reportOn Report.sort reportByFile
  rw [houtcomes, List.length_map]
  congr 1
  rw [← List.flatMap_def, StableSort.mergeSort_flatMap Report.isLE_order_trans
    Report.isLE_order_total _ hblocks]
  refine List.flatMap_congr fun path hpath => ?_
  obtain ⟨findings, hlint⟩ := lintSource_of_parses (p := p) (List.mem_filter.1 hpath).2
  rw [← sort_lintSource hrules hlint, hlint]
  rfl

/-- Linting a file that can be read fails only in a strict run, if the file does not parse. -/
theorem result_lintFile {path : Path} {source : String} (hread : t.read [] path = .ok source) :
    (p.lintFile g t path).result =
      match p.lintSource g path source with
      | .ok findings => .ok (some findings)
      | .error fault => if p.strict then .error (.badSyntax path fault) else .ok none := by
  unfold lintFile
  rw [hread, Logged.result_bind]
  show Logged.result (match p.lintSource g path source with
    | .ok findings => _
    | .error fault => _) = _
  cases p.lintSource g path source with
  | ok findings => rfl
  | error fault => cases p.strict <;> rfl

section

variable {paths : List Path} {text : Path → String}
  (hread : ∀ path ∈ paths, t.read [] path = .ok (text path))

include hread

/-- Files that can be read are linted or skipped, unless one of them fails a strict run. -/
theorem result_lintFiles
    (hparses : p.strict = false ∨ ∀ path ∈ paths, parses g path (text path) = true) :
    (p.lintFiles g t paths).result =
      .ok (paths.map fun path => (p.lintSource g path (text path)).toOption) := by
  refine lintFiles_eq_ok_iff.2 (List.forall₂_map_right_iff.2 (List.forall₂_same.2 ?_))
  intro path hpath
  rw [result_lintFile (hread path hpath)]
  cases hlint : p.lintSource g path (text path) with
  | ok findings => rfl
  | error fault =>
    rcases hparses with hlenient | hall
    · rw [hlenient]
      rfl
    · obtain ⟨findings, hok⟩ := lintSource_of_parses (p := p) (hall path hpath)
      rw [hlint] at hok
      cases hok

end

/-- A strict run fails at the first file that does not parse. -/
theorem result_lintFiles_strict (hstrict : p.strict = true) {before after : List Path} {path : Path}
    {text : Path → String} (hread : ∀ q ∈ before ++ path :: after, t.read [] q = .ok (text q))
    (hbefore : ∀ q ∈ before, parses g q (text q) = true) {fault : SyntaxFault}
    (hpath : p.lintSource g path (text path) = .error fault) :
    (p.lintFiles g t (before ++ path :: after)).result = .error (.badSyntax path fault) := by
  induction before with
  | nil =>
    have hfirst := result_lintFile (p := p) (g := g) (hread path List.mem_cons_self)
    rw [hpath, hstrict] at hfirst
    show (p.lintFiles g t (path :: after)).result = _
    rw [lintFiles, Logged.result_bind, hfirst]
    rfl
  | cons q before ih =>
    obtain ⟨findings, hlint⟩ := lintSource_of_parses (p := p) (hbefore q List.mem_cons_self)
    have hfirst := result_lintFile (p := p) (g := g) (hread q List.mem_cons_self)
    rw [hlint] at hfirst
    have hrest := ih (fun x hx => hread x (List.mem_cons_of_mem q hx))
      fun x hx => hbefore x (List.mem_cons_of_mem q hx)
    rw [List.cons_append, lintFiles, Logged.result_bind_of_ok hfirst, Logged.result_bind, hrest]
    rfl

/-- Once its files are found, linting a project is linting these and reporting on them. -/
theorem result_lint {paths : List Path} (h : p.sourceFiles t = .ok paths) :
    (p.lint g t).result = (p.lintFiles g t paths).result.map reportOn := by
  unfold lint
  rw [h]
  cases hfiles : (p.lintFiles g t paths).result with
  | error fault => simp [hfiles, Except.mapError, Except.bind, Except.map]
  | ok outcomes => simp [hfiles, Except.mapError, Except.bind, Except.map]

/-! ## One file more, less, or changed -/

/-- Two sets of files with their texts that agree but for one file: it may be in only one of them,
or hold another text. -/
structure DifferAt (x : Path) (paths : List Path) (text : Path → String) (paths' : List Path)
    (text' : Path → String) : Prop where
  members : ∀ path, path ≠ x → (path ∈ paths' ↔ path ∈ paths)
  texts : ∀ path ∈ paths, path ≠ x → text' path = text path

instance : Std.Irrefl fun a b : Path => a.compare b = .lt where
  irrefl a h := by
    rw [Path.compare_self] at h
    cases h

instance : Std.Antisymm fun a b : Path => a.compare b = .lt where
  antisymm a b hab hba := by
    rw [Path.compare_eq_swap, hba] at hab
    cases hab

/-- Paths in order are those before `x`, then `x` if it is one of them, then the others. -/
theorem split_at_path {paths : List Path} (h : paths.Pairwise fun a b => a.compare b = .lt)
    (x : Path) :
    paths = (paths.filter fun path => path.compare x = .lt) ++ (if x ∈ paths then [x] else []) ++
      paths.filter fun path => path ≠ x ∧ path.compare x ≠ .lt := by
  induction paths with
  | nil => rfl
  | cons path paths ih =>
    obtain ⟨hfirst, hrest⟩ := List.pairwise_cons.1 h
    by_cases hlt : path.compare x = .lt
    · have hne : x ≠ path := by
        rintro rfl
        rw [Path.compare_self] at hlt
        cases hlt
      simpa [hlt, hne] using ih hrest
    · -- From here on no path comes before `x`, and none is `x`.
      have hbefore : (paths.filter fun q => q.compare x = .lt) = [] := by
        refine List.filter_eq_nil_iff.2 fun q hq hqx => ?_
        exact hlt (Path.compare_lt_trans (hfirst q hq) (of_decide_eq_true hqx))
      have hmem : x ∉ paths := fun hx => hlt (hfirst x hx)
      have hafter : (paths.filter fun q => q ≠ x ∧ q.compare x ≠ .lt) = paths := by
        refine List.filter_eq_self.2 fun q hq => decide_eq_true ⟨?_, fun hqx => ?_⟩
        · exact fun heq => hmem (heq ▸ hq)
        · exact hlt (Path.compare_lt_trans (hfirst q hq) hqx)
      rw [List.filter_cons, List.filter_cons, hbefore, hafter]
      by_cases heq : path = x
      · subst heq
        simp [hlt]
      · have hxne : ¬ x = path := fun h => heq h.symm
        simp [hlt, heq, hxne, hmem]

/-- The block of a file in a report, if it is one of the files. -/
def blockOf (p : Project) (g : Grammar) (text : Path → String) (paths : List Path) (x : Path) :
    List Finding :=
  if x ∈ paths then p.block g x (text x) else []

/-- A report is what comes before a file, the block of the file, and what comes after it. -/
theorem findings_around {paths : List Path} (h : paths.Pairwise fun a b => a.compare b = .lt)
    (text : Path → String) (x : Path) :
    (p.reportByFile g text paths).findings =
      ((paths.filter fun path => path.compare x = .lt).flatMap
          fun path => p.block g path (text path)) ++
        p.blockOf g text paths x ++
        (paths.filter fun path => path ≠ x ∧ path.compare x ≠ .lt).flatMap
          fun path => p.block g path (text path) := by
  rw [findings_reportByFile]
  nth_rewrite 1 [split_at_path h x]
  rw [List.flatMap_append, List.flatMap_append, blockOf]
  split
  · rw [List.flatMap_singleton]
  · rfl

/-- Files chosen by something that `x` fails are other files. -/
theorem of_mem_filter_of_eq_false {paths : List Path} {q : Path → Bool} {x path : Path}
    (hq : q x = false) (h : path ∈ paths.filter q) : path ∈ paths ∧ path ≠ x := by
  obtain ⟨hmem, hpath⟩ := List.mem_filter.1 h
  refine ⟨hmem, ?_⟩
  rintro rfl
  rw [hq] at hpath
  cases hpath

section

variable {x : Path} {paths paths' : List Path} {text text' : Path → String}
  (hdiffer : DifferAt x paths text paths' text')

include hdiffer

/-- The other files are the same ones, in the same order. -/
theorem DifferAt.filter_eq (hsorted : paths.Pairwise fun a b => a.compare b = .lt)
    (hsorted' : paths'.Pairwise fun a b => a.compare b = .lt) {q : Path → Bool}
    (hq : q x = false) : paths'.filter q = paths.filter q := by
  refine (hsorted'.filter q).eq_of_mem_iff (hsorted.filter q) fun path => ?_
  rw [List.mem_filter, List.mem_filter]
  refine and_congr_left fun hpath => hdiffer.members path ?_
  rintro rfl
  rw [hq] at hpath
  cases hpath

/-- The files that a filter without the changed one lets through have the same findings in both
sets. -/
theorem DifferAt.flatMap_eq {q : Path → Bool} (hq : q x = false) :
    ((paths.filter q).flatMap fun path => p.block g path (text' path)) =
      (paths.filter q).flatMap fun path => p.block g path (text path) := by
  refine List.flatMap_congr fun path hpath => ?_
  obtain ⟨hmem, hne⟩ := of_mem_filter_of_eq_false hq hpath
  rw [hdiffer.texts path hmem hne]

/-- The blocks of all other files stay, and stay in order. -/
theorem DifferAt.findings (hsorted : paths.Pairwise fun a b => a.compare b = .lt)
    (hsorted' : paths'.Pairwise fun a b => a.compare b = .lt) :
    ∃ before after,
      (∀ f ∈ before ++ after, ∃ path ∈ paths, path ≠ x ∧ f ∈ p.block g path (text path)) ∧
      (p.reportByFile g text paths).findings =
        before ++ p.blockOf g text paths x ++ after ∧
      (p.reportByFile g text' paths').findings =
        before ++ p.blockOf g text' paths' x ++ after := by
  have hbefore : decide (x.compare x = .lt) = false := by rw [Path.compare_self]; rfl
  have hafter : decide (x ≠ x ∧ x.compare x ≠ .lt) = false := by simp
  have hother : ∀ q : Path → Bool, q x = false →
      ∀ f ∈ (paths.filter q).flatMap (fun path => p.block g path (text path)),
        ∃ path ∈ paths, path ≠ x ∧ f ∈ p.block g path (text path) := by
    intro q hq f hf
    obtain ⟨path, hpath, hf⟩ := List.mem_flatMap.1 hf
    obtain ⟨hmem, hne⟩ := of_mem_filter_of_eq_false hq hpath
    exact ⟨path, hmem, hne, hf⟩
  refine ⟨_, _, fun f hf => ?_, findings_around hsorted text x, ?_⟩
  · rcases List.mem_append.1 hf with hf | hf
    · exact hother _ hbefore f hf
    · exact hother _ hafter f hf
  · rw [findings_around hsorted' text' x, hdiffer.filter_eq hsorted hsorted' hbefore,
      hdiffer.filter_eq hsorted hsorted' hafter, hdiffer.flatMap_eq hbefore,
      hdiffer.flatMap_eq hafter]

end

/-! ## Linting a project -/

/-- The files that linting a project comes to in a tree, with what they hold. -/
structure Discovers (p : Project) (t : FileTree) (paths : List Path) (text : Path → String) :
    Prop where
  tree : t.Proper
  found : p.sourceFiles t = .ok paths
  readable : ∀ path ∈ paths, t.read [] path = .ok (text path)

/-- The first of some files that does not parse, and why. -/
def FirstFault (g : Grammar) (text : Path → String) (paths : List Path) (path : Path)
    (cause : SyntaxFault) : Prop :=
  ∃ before after, paths = before ++ path :: after ∧
    (∀ q ∈ before, parses g q (text q) = true) ∧
    SourceModule.parse g ((Language.ofPath? path).getD .javascript) (text path) = .error cause

/-- If some file does not parse, there is a first one. -/
theorem exists_firstFault {text : Path → String} {paths : List Path} {path : Path}
    (hpath : path ∈ paths) (h : parses g path (text path) = false) :
    ∃ first cause, FirstFault g text paths first cause := by
  cases hfind : paths.find? fun q => !parses g q (text q) with
  | none =>
    have hparses := List.find?_eq_none.1 hfind path hpath
    simp [h] at hparses
  | some first =>
    obtain ⟨hfirst, before, after, hsplit, hbefore⟩ := List.find?_eq_some_iff_append.1 hfind
    have hfirst : parses g first (text first) = false := by simpa using hfirst
    obtain ⟨cause, hcause⟩ := exists_cause_of_not_parses hfirst
    exact ⟨first, cause, before, after, hsplit, fun q hq => by simpa using hbefore q hq, hcause⟩

/-- A run that succeeds has read all its files. -/
theorem exists_discovers {paths : List Path} (ht : t.Proper) (hpaths : p.sourceFiles t = .ok paths)
    {report : Report} (h : (p.lint g t).result = .ok report) :
    ∃ text, p.Discovers t paths text := by
  obtain ⟨paths', outcomes, hpaths', houtcomes, -⟩ := lint_eq_ok_iff.1 h
  obtain rfl : paths' = paths := Except.ok.inj (hpaths'.symm.trans hpaths)
  have hread : ∀ path ∈ paths', ∃ source, t.read [] path = .ok source := by
    intro path hpath
    obtain ⟨outcome, -, hlint⟩ := exists_outcome_of_mem (lintFiles_eq_ok_iff.1 houtcomes) hpath
    obtain ⟨source, hsource, -⟩ := lintFile_eq_ok_iff.1 hlint
    exact ⟨source, hsource⟩
  refine ⟨fun path => (t.read [] path).toOption.getD "", ht, hpaths, fun path hpath => ?_⟩
  obtain ⟨source, hsource⟩ := hread path hpath
  rw [hsource]
  rfl

section

variable {paths : List Path} {text : Path → String} (h : p.Discovers t paths text)

include h

/-- A run that skips faulty files, or finds none, reports file by file. -/
theorem Discovers.result_lint (hroot : p.root.isAbsolute = true)
    (hrules : ∀ rule ∈ p.rules, rule.StaysInFile)
    (hparses : p.strict = false ∨ ∀ path ∈ paths, parses g path (text path) = true) :
    (p.lint g t).result = .ok (p.reportByFile g text paths) := by
  rw [Project.result_lint h.found, result_lintFiles h.readable hparses,
    ← reportOn_lintSource hrules (pairwise_relativeTo_sourceFiles h.tree hroot h.found)]
  rfl

/-- Nothing but a file that does not parse makes the run fail. -/
theorem Discovers.exists_of_fails (hroot : p.root.isAbsolute = true)
    (hrules : ∀ rule ∈ p.rules, rule.StaysInFile) {fault : Fault}
    (hfault : (p.lint g t).result = .error fault) :
    ∃ path ∈ paths, parses g path (text path) = false := by
  by_contra hnone
  have hall : ∀ path ∈ paths, parses g path (text path) = true := by
    intro path hpath
    by_contra hparses
    exact hnone ⟨path, hpath, Bool.not_eq_true _ ▸ hparses⟩
  rw [h.result_lint hroot hrules (Or.inr hall)] at hfault
  cases hfault

/-- A strict run fails at the first file that does not parse. -/
theorem Discovers.result_lint_strict (hstrict : p.strict = true) {path : Path}
    {cause : SyntaxFault} (hfirst : FirstFault g text paths path cause) :
    (p.lint g t).result = .error (.badSyntax path cause) := by
  obtain ⟨before, after, rfl, hbefore, hcause⟩ := hfirst
  rw [Project.result_lint h.found,
    result_lintFiles_strict hstrict h.readable hbefore (lintSource_of_cause hcause)]
  rfl

/-- A strict run that succeeds has parsed all its files. -/
theorem Discovers.parses_of_lint {report : Report} (hreport : (p.lint g t).result = .ok report) :
    p.strict = false ∨ ∀ path ∈ paths, parses g path (text path) = true := by
  rw [← Bool.not_eq_true]
  refine or_iff_not_imp_left.2 fun hstrict path hpath => ?_
  by_contra hparses
  obtain ⟨first, cause, hfirst⟩ := exists_firstFault hpath (Bool.not_eq_true _ ▸ hparses)
  rw [h.result_lint_strict (not_not.1 hstrict) hfirst] at hreport
  cases hreport

/-- Whatever the run reports, it reports file by file. -/
theorem Discovers.report_eq (hroot : p.root.isAbsolute = true)
    (hrules : ∀ rule ∈ p.rules, rule.StaysInFile) {report : Report}
    (hreport : (p.lint g t).result = .ok report) : report = p.reportByFile g text paths := by
  have hlint := h.result_lint (g := g) hroot hrules (h.parses_of_lint hreport)
  exact Except.ok.inj (hreport.symm.trans hlint)

/-- What the report says about one of the files is the block of that file. -/
theorem Discovers.filter_findings (hroot : p.root.isAbsolute = true)
    (hrules : ∀ rule ∈ p.rules, rule.StaysInFile) {x : Path} (hx : x ∈ paths) :
    (p.reportByFile g text paths).findings.filter
        (fun f => f.location.file = x.relativeTo p.root) = p.block g x (text x) := by
  have hnodup : (paths.map fun path => path.relativeTo p.root).Nodup := by
    refine List.pairwise_map.2 ((pairwise_relativeTo_sourceFiles h.tree hroot h.found).imp ?_)
    intro a b hab heq
    rw [heq, Path.compare_self] at hab
    cases hab
  have hother : ∀ q : Path → Bool, q x = false →
      ((paths.filter q).flatMap fun path => p.block g path (text path)).filter
        (fun f => f.location.file = x.relativeTo p.root) = [] := by
    intro q hq
    refine List.filter_eq_nil_iff.2 fun f hf hfile => ?_
    obtain ⟨path, hpath, hf⟩ := List.mem_flatMap.1 hf
    obtain ⟨hmem, hne⟩ := of_mem_filter_of_eq_false hq hpath
    rw [decide_eq_true_eq, file_of_mem_block hrules hf] at hfile
    exact hne (List.inj_on_of_nodup_map hnodup hmem hx hfile)
  rw [findings_around (pairwise_compare_sourceFiles h.tree hroot h.found) text x,
    List.filter_append, List.filter_append, hother _ (by rw [Path.compare_self]; rfl),
    hother _ (by simp), blockOf, if_pos hx, List.nil_append, List.append_nil]
  exact List.filter_eq_self.2 fun f hf => decide_eq_true (file_of_mem_block hrules hf)

end

/-- Linting files that can be read reports them file by file, in the order of their relative paths:
what is found in each file that parses, by line and column, and nothing for one that does not. A
lenient run always succeeds; a strict one fails exactly if some file does not parse, and names the
first of them. If another tree has the same files but for one, which may be new, gone or changed,
then the two reports are the same but for the block of that file. -/
theorem lint_byFile (hroot : p.root.isAbsolute = true)
    (hrules : ∀ rule ∈ p.rules, rule.StaysInFile) {paths : List Path} {text : Path → String}
    (h : p.Discovers t paths text) :
    (paths.Pairwise fun a b => (a.relativeTo p.root).compare (b.relativeTo p.root) = .lt) ∧
    (∀ path, ∀ f ∈ p.block g path (text path), f.location.file = path.relativeTo p.root) ∧
    ((p.strict = false ∨ ∀ path ∈ paths, parses g path (text path) = true) →
      (p.lint g t).result = .ok (p.reportByFile g text paths)) ∧
    (p.strict = true →
      ((∃ fault, (p.lint g t).result = .error fault) ↔
        ∃ path ∈ paths, parses g path (text path) = false) ∧
      ∀ fault, (p.lint g t).result = .error fault →
        ∃ path cause, FirstFault g text paths path cause ∧ fault = .badSyntax path cause) ∧
    ∀ t' paths' text' x, p.Discovers t' paths' text' → DifferAt x paths text paths' text' →
      ∀ report report', (p.lint g t).result = .ok report → (p.lint g t').result = .ok report' →
        ∃ before after,
          (∀ f ∈ before ++ after, ∃ path ∈ paths, path ≠ x ∧ f ∈ p.block g path (text path)) ∧
          report.findings = before ++ p.blockOf g text paths x ++ after ∧
          report'.findings = before ++ p.blockOf g text' paths' x ++ after := by
  have hsorted := pairwise_compare_sourceFiles h.tree hroot h.found
  refine ⟨pairwise_relativeTo_sourceFiles h.tree hroot h.found,
    fun path f hf => file_of_mem_block hrules hf, h.result_lint hroot hrules, fun hstrict => ?_, ?_⟩
  · refine ⟨⟨fun ⟨fault, hfault⟩ => h.exists_of_fails hroot hrules hfault, ?_⟩, ?_⟩
    · rintro ⟨path, hpath, hparses⟩
      obtain ⟨first, cause, hfirst⟩ := exists_firstFault hpath hparses
      exact ⟨_, h.result_lint_strict hstrict hfirst⟩
    · intro fault hfault
      obtain ⟨path, hpath, hparses⟩ := h.exists_of_fails hroot hrules hfault
      obtain ⟨first, cause, hfirst⟩ := exists_firstFault hpath hparses
      have herror := h.result_lint_strict hstrict hfirst
      rw [hfault] at herror
      exact ⟨first, cause, hfirst, Except.error.inj herror⟩
  · intro t' paths' text' x h' hdiffer report report' hreport hreport'
    rw [h.report_eq hroot hrules hreport, h'.report_eq hroot hrules hreport']
    exact hdiffer.findings hsorted (pairwise_compare_sourceFiles h'.tree hroot h'.found)

/-- A folder with two modules and a text that does not parse. The first path comes after the second
one as a text, but before it by its components. -/
def threeFiles : FileTree where
  files := [(["p", "a", "z.js"], .text "f()();"), (["p", "a.js"], .text "f()();"),
    (["p", "b.js"], .text "(")]
  folders := []

/-- Their texts. -/
def textInThreeFiles (path : Path) : String :=
  if path.text = "/p/b.js" then "(" else "f()();"

/-- Parses the modules, and finds a fault in every other text. -/
def moduleGrammar : Grammar := fun _ text =>
  if text = "f()();" then Purity.nestedCalls.root
  else .mk ⟨"ERROR", true, false, true, true, 0, 1, none⟩ []

/-- The project of the folder. -/
def folderProject : Project where
  root := ⟨"/p"⟩
  rules := [Purity.rule {} .error]
  exclude := []
  globs := []
  settings := {}
  strict := false
  workingFolder := ⟨"/"⟩
  home := none

theorem discovers_threeFiles :
    folderProject.Discovers threeFiles [⟨"/p/a/z.js"⟩, ⟨"/p/a.js"⟩, ⟨"/p/b.js"⟩]
      textInThreeFiles where
  tree := ⟨by decide +kernel, by decide +kernel⟩
  found := by
    have hreached : folderProject.reachedFiles threeFiles =
        .ok [⟨"/p/a/z.js"⟩, ⟨"/p/a.js"⟩, ⟨"/p/b.js"⟩] := by
      rfl
    have hwanted : [⟨"/p/a/z.js"⟩, ⟨"/p/a.js"⟩, ⟨"/p/b.js"⟩].filter folderProject.wants =
        [⟨"/p/a/z.js"⟩, ⟨"/p/a.js"⟩, ⟨"/p/b.js"⟩] := by
      decide +kernel
    rw [sourceFiles, hreached]
    show Except.ok (List.mergeSort (List.filter _ _) _) = _
    rw [hwanted, List.mergeSort_of_pairwise (by decide +kernel)]
  readable := by decide +kernel

theorem lint_byFile_threeFiles :
    folderProject.Discovers threeFiles [⟨"/p/a/z.js"⟩, ⟨"/p/a.js"⟩, ⟨"/p/b.js"⟩]
      textInThreeFiles ∧
    parses moduleGrammar ⟨"/p/b.js"⟩ "(" = false ∧
    ∃ report, (folderProject.lint moduleGrammar threeFiles).result = .ok report ∧
      report.findings = folderProject.block moduleGrammar ⟨"/p/a/z.js"⟩ "f()();" ++
        folderProject.block moduleGrammar ⟨"/p/a.js"⟩ "f()();" ∧ report.filesChecked = 2 := by
  have hrules : ∀ rule ∈ folderProject.rules, rule.StaysInFile := by
    intro rule hrule
    rw [List.mem_singleton.1 hrule]
    exact Purity.rule_staysInFile {} .error
  have hlint :=
    (lint_byFile (g := moduleGrammar) rfl hrules discovers_threeFiles).2.2.1 (Or.inl rfl)
  have hfault : parses moduleGrammar ⟨"/p/b.js"⟩ "(" = false := by decide +kernel
  refine ⟨discovers_threeFiles, hfault, _, hlint, ?_, by decide +kernel⟩
  rw [findings_reportByFile]
  show _ ++ (_ ++ (folderProject.block moduleGrammar ⟨"/p/b.js"⟩ "(" ++ [])) = _
  rw [block_of_not_parses hfault, List.append_nil, List.append_nil]
  rfl

end Project

end ModulePurity
