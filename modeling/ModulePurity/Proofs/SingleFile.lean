import ModulePurity.Proofs.CheckRuns
import ModulePurity.Proofs.Climbing
import ModulePurity.Proofs.FileBlocks

/-!
# Checking a folder and checking a file in it

The check of a single file takes the folder of the file as its root, joins the name of the file to
it and reads the file from there; the check of a folder searches it. The paths that the two go by
may differ, but they lead to the same file (`read_targetFile`), and linting sees only the name of
the file, its text, the rules and the settings (`lintSource_congr`). So the check of a file reports
what the check of its folder reports about it: `lintTarget_file_of_folder`.
-/

namespace ModulePurity.Command

variable {w : Workspace} {g : Grammar} {r : CheckRequest} {p q : Project}

/-- What every real workspace is like: an absolute path leads to its working folder, names can be
told apart in a path, and there is one file at most at a place. -/
structure Workspace.Sound (w : Workspace) : Prop where
  absolute : w.folder.isAbsolute = true
  entered : w.files.follow [] w.folder = .ok w.base
  tree : w.files.Proper

/-- A path of a file in a folder: the path of the folder with the name of the file, or another path
that ends in that name, leads to the same place and, seen from the root of the file system, is not
too long. -/
def Spells (w : Workspace) (folder : Path) (name : String) (file : Path) : Prop :=
  file = folder.join ⟨name⟩ ∨
    (file.fileName? = some name.toList ∧
      w.files.follow w.base file = w.files.follow w.base (folder.join ⟨name⟩) ∧
      ((w.folder.join (targetRoot w file)).join ⟨name⟩).text.utf8ByteSize ≤ FileTree.pathLimit)

/-! ## The folder of a single file -/

/-- The folder that a single file is seen from is absolute or relative as the file is, and has its
components without the name. Its text is a beginning of that of the file, unless the file is named
by itself. -/
theorem targetRoot_of_isFile {file : Path} {name : String}
    (hname : file.fileName? = some name.toList) (hfile : w.isFile file = true) :
    (targetRoot w file).isAbsolute = file.isAbsolute ∧
      file.tailComponents = (targetRoot w file).tailComponents ++ [.name name] ∧
      (targetRoot w file = ⟨"."⟩ ∨ (targetRoot w file).text.toList <+: file.text.toList) := by
  obtain ⟨parent, hparent, hhead, htail, hbegin⟩ := Path.exists_parent? hname
  have habsolute : parent.isAbsolute = file.isAbsolute := by
    rw [Bool.eq_iff_iff, ← Path.head_eq_root_iff, ← Path.head_eq_root_iff, hhead]
  unfold targetRoot
  rw [if_pos hfile, hparent]
  dsimp only
  split
  · next hempty =>
    obtain rfl : parent = ⟨""⟩ := congrArg Path.mk (String.isEmpty_iff.1 hempty)
    exact ⟨habsolute, htail, Or.inl rfl⟩
  · exact ⟨habsolute, htail, Or.inr hbegin⟩

/-- If the path of a file is that of a folder with a name, then the file is seen from that folder,
up to the end of its text. -/
theorem targetRoot_join {folder : Path} (hfolder : folder.text.toList ≠ []) {name : String}
    (hname : Path.IsName name) (hfile : w.isFile (folder.join ⟨name⟩) = true) :
    (targetRoot w (folder.join ⟨name⟩)).isAbsolute = folder.isAbsolute ∧
      (targetRoot w (folder.join ⟨name⟩)).text.toList <+: folder.text.toList := by
  obtain ⟨voids, hbody, -⟩ := Path.exists_dropVoidRight folder.parts.body
  obtain ⟨hhead, htail⟩ := Path.parts_front folder hbody
  have habsolute : (Path.ofParts ⟨folder.parts.head,
      Path.dropVoidRight folder.parts.body⟩).isAbsolute = folder.isAbsolute := by
    rw [Bool.eq_iff_iff, ← Path.head_eq_root_iff, ← Path.head_eq_root_iff, hhead]
  unfold targetRoot
  rw [if_pos hfile, Path.parent?_join_name folder hname]
  dsimp only
  split
  · next hempty =>
    -- A folder without any component would have an empty path.
    have hnone : Path.ofParts ⟨folder.parts.head, Path.dropVoidRight folder.parts.body⟩ = ⟨""⟩ :=
      congrArg Path.mk (String.isEmpty_iff.1 hempty)
    rw [hnone] at hhead htail
    refine absurd (Path.toList_of_no_component hhead.symm ?_) hfolder
    rw [Path.filterMap_dropVoidRight] at htail
    exact htail.symm
  · exact ⟨habsolute, Path.front_isPrefix folder hbody⟩

theorem nonempty_of_contains {folder : Path} (h : w.contains folder = true) :
    folder.text.toList ≠ [] := by
  unfold Workspace.contains FileTree.contains at h
  split at h
  · next place hplace => exact (FileTree.follow_eq_ok_iff.1 hplace).2.1
  · cases h

/-! ## Paths from the working folder -/

section

variable (hw : w.Sound)

include hw

/-- From the root, the working folder comes first. -/
theorem climb_folder {cs : List Component} {place : Place} :
    w.files.climb [] (w.folder.tailComponents ++ cs) = .ok place ↔
      w.files.climb w.base cs = .ok place := by
  have hbase := FileTree.climb_of_follow hw.entered
  rw [FileTree.origin, if_pos hw.absolute] at hbase
  unfold FileTree.climb at hbase ⊢
  rw [List.map_append, FileTree.enterAll_append]
  constructor
  · rintro ⟨next, hnext, h⟩
    rw [hbase] at hnext
    exact Except.ok.inj hnext ▸ h
  · intro h
    exact ⟨w.base, hbase, h⟩

/-- A name below a folder that can be reached from the root can be reached from the working folder.
-/
theorem follow_of_join {folder : Path} {name : String} (hname : Path.IsName name) {place : Place}
    (h : w.files.follow [] ((w.folder.join folder).join ⟨name⟩) = .ok place) :
    w.files.follow w.base (folder.join ⟨name⟩) = .ok place := by
  rw [Path.join_assoc] at h
  cases hfolder : folder.isAbsolute with
  | true =>
    have habsolute := Path.isAbsolute_join (q := ⟨name⟩) hfolder
    rw [Path.join_of_isAbsolute habsolute, w.files.follow_of_isAbsolute habsolute [] w.base] at h
    exact h
  | false =>
    have hrelative := Path.isAbsolute_join_of_relative hfolder hname.components.1
    have hclimb := FileTree.climb_of_follow h
    rw [FileTree.origin, if_pos (Path.isAbsolute_join hw.absolute),
      Path.tailComponents_join hw.absolute hrelative, climb_folder hw,
      Path.tailComponents_join_name folder hname] at hclimb
    refine FileTree.follow_join_name hname ?_ ?_
    · obtain ⟨hopenable, -, -⟩ := FileTree.follow_eq_ok_iff.1 h
      exact hopenable.of_join
    · rw [FileTree.origin, hfolder, if_neg Bool.false_ne_true]
      exact hclimb

/-- A file can be reached from the root over the folder that it is seen from. -/
theorem follow_targetRoot {file : Path} {name : String} (hisName : Path.IsName name)
    (hname : file.fileName? = some name.toList) {place : Place}
    (hplace : w.files.follow w.base file = .ok place) (hfile : w.isFile file = true)
    (hopenable : FileTree.Openable ((w.folder.join (targetRoot w file)).join ⟨name⟩)) :
    w.files.follow [] ((w.folder.join (targetRoot w file)).join ⟨name⟩) = .ok place := by
  obtain ⟨habsolute, htail, -⟩ := targetRoot_of_isFile hname hfile
  have hclimb := FileTree.climb_of_follow hplace
  refine FileTree.follow_join_name hisName hopenable ?_
  rw [FileTree.origin, if_pos (Path.isAbsolute_join hw.absolute)]
  rw [htail, FileTree.origin] at hclimb
  cases hkind : (targetRoot w file).isAbsolute with
  | true =>
    rw [← habsolute, hkind, if_pos rfl] at hclimb
    rw [Path.join_of_isAbsolute hkind]
    exact hclimb
  | false =>
    rw [← habsolute, hkind, if_neg Bool.false_ne_true] at hclimb
    rw [Path.tailComponents_join hw.absolute hkind, List.append_assoc, climb_folder hw]
    exact hclimb

/-- Any path that spells out a file leads to it, and the file can be opened over the folder that it
is seen from. -/
theorem follow_of_spells {folder file : Path} (hfolder : w.contains folder = true) {name : String}
    (hname : Path.IsName name) {place : Place}
    (hplace : w.files.follow [] ((w.folder.join folder).join ⟨name⟩) = .ok place)
    (hfile : (w.files.file? place).isSome = true) (hspells : Spells w folder name file) :
    file.fileName? = some name.toList ∧ w.files.follow w.base file = .ok place ∧
      w.isFile file = true ∧
      FileTree.Openable ((w.folder.join (targetRoot w file)).join ⟨name⟩) := by
  have hbase := follow_of_join hw hname hplace
  have hopenable := (FileTree.follow_eq_ok_iff.1 hplace).1
  have hisFile : ∀ file, w.files.follow w.base file = .ok place → w.isFile file = true := by
    intro file hfollow
    rw [Workspace.isFile, FileTree.isFile, hfollow]
    exact hfile
  rcases hspells with rfl | ⟨hfileName, hsame, hfits⟩
  · obtain ⟨habsolute, hbegin⟩ :=
      targetRoot_join (nonempty_of_contains hfolder) hname (hisFile _ hbase)
    refine ⟨Path.fileName?_join_name folder hname, hbase, hisFile _ hbase, ?_⟩
    exact FileTree.Openable.join_name (Path.join_isPrefix habsolute hbegin) hname hopenable
  · rw [hbase] at hsame
    have hisFile := hisFile file hsame
    refine ⟨hfileName, hsame, hisFile, fun hnul => ?_, hfits⟩
    -- Every character comes from the working folder, from the file, or from the name.
    rcases Path.mem_of_mem_join hnul with hroot | hslash | hmem
    · rcases Path.mem_of_mem_join hroot with hmem | hslash | hmem
      · exact (FileTree.follow_eq_ok_iff.1 hw.entered).1.1 hmem
      · cases hslash
      · obtain ⟨-, -, hdot | hbegin⟩ := targetRoot_of_isFile hfileName hisFile
        · rw [hdot] at hmem
          revert hmem
          decide
        · exact (FileTree.follow_eq_ok_iff.1 hsame).1.1 (hbegin.subset hmem)
    · cases hslash
    · exact hopenable.1 (Path.mem_join_right hmem)

end

/-! ## Linting one file -/

/-- Linting sees of a file its name and its path relative to the root, and of a project its rules
and settings. -/
theorem lintSource_congr {path path' : Path} (hrules : q.rules = p.rules)
    (hsettings : q.settings = p.settings) (hname : path'.fileName? = path.fileName?)
    (hrelative : path'.relativeTo q.root = path.relativeTo p.root) (source : String) :
    q.lintSource g path' source = p.lintSource g path source := by
  have hfindings : q.findingsIn path' = p.findingsIn path := by
    funext m
    unfold Project.findingsIn FileContext.ofPath
    rw [hrules, hsettings, hrelative]
  rw [Project.lintSource, Project.lintSource, Language.ofPath?_of_fileName? hname, hfindings]

/-- Two projects that differ in their roots find the same in a file directly below their root. -/
theorem lintSource_join_name (hp : p.root.isAbsolute = true) (hq : q.root.isAbsolute = true)
    (hrules : q.rules = p.rules) (hsettings : q.settings = p.settings) {name : String}
    (hname : Path.IsName name) (source : String) :
    q.lintSource g (q.root.join ⟨name⟩) source = p.lintSource g (p.root.join ⟨name⟩) source := by
  refine lintSource_congr hrules hsettings ?_ ?_ source
  · rw [Path.fileName?_join_name _ hname, Path.fileName?_join_name _ hname]
  · rw [Path.relativeTo_join_name hq hname, Path.relativeTo_join_name hp hname]

/-- Whether a source can be parsed depends on the name of its file alone. -/
theorem parses_of_fileName? {path path' : Path} (h : path'.fileName? = path.fileName?)
    (source : String) : Project.parses g path' source = Project.parses g path source := by
  rw [Project.parses, Project.parses, Language.ofPath?_of_fileName? h]

/-- What checking a single readable file gives, whether or not its source can be parsed. -/
theorem result_lintSingle {target : Path} {source : String}
    (hread : w.read (targetFile q target) = .ok source) :
    (lintSingle w g q target).result =
      match q.lintSource g (targetFile q target) source with
      | .ok findings => .ok (Report.sort ⟨findings, 1⟩)
      | .error fault =>
        if q.strict then .error (.lintFailed (.badSyntax (targetFile q target) fault))
        else .ok (Report.sort Report.empty) := by
  have hread' : (Logged.ofExcept ((w.read (targetFile q target)).mapError
      (Failure.unreadable (targetFile q target)))).result = .ok source := by
    rw [hread]
    rfl
  unfold lintSingle
  dsimp only
  rw [Logged.result_bind_of_ok hread']
  cases q.lintSource g (targetFile q target) source with
  | ok findings => rfl
  | error fault => cases q.strict <;> rfl

/-- The report on a single file is its block, unless a strict run fails. -/
theorem result_lintSingle_block (hrules : ∀ rule ∈ q.rules, rule.StaysInFile) {target : Path}
    {source : String} (hread : w.read (targetFile q target) = .ok source)
    (hparses : q.strict = false ∨ Project.parses g (targetFile q target) source = true) :
    (lintSingle w g q target).result =
      .ok ⟨q.block g (targetFile q target) source,
        if Project.parses g (targetFile q target) source then 1 else 0⟩ := by
  rw [result_lintSingle hread]
  cases hcase : Project.parses g (targetFile q target) source with
  | true =>
    obtain ⟨findings, hlint⟩ := Project.lintSource_of_parses (p := q) hcase
    rw [hlint, ← Project.sort_lintSource hrules hlint]
    rfl
  | false =>
    obtain ⟨cause, hlint⟩ := Project.lintSource_of_not_parses (p := q) hcase
    rw [hcase] at hparses
    have hlenient : q.strict = false := hparses.resolve_right Bool.false_ne_true
    rw [hlint, hlenient, Project.block_of_not_parses hcase]
    simp [Report.sort, Report.empty]

/-! ## A file and its folder -/

/-- The projects of two checks with the same settings and rules, one of a folder and one of a file
directly in it. -/
structure Counterparts (w : Workspace) (folder : Path) (name : String) (file : Path)
    (p q : Project) : Prop where
  sound : w.Sound
  isFolder : w.contains folder = true ∧ w.isFile folder = false
  isName : Path.IsName name
  spells : Spells w folder name file
  root : p.root = w.folder.join folder
  fileRoot : q.root = w.folder.join (targetRoot w file)
  rules : q.rules = p.rules
  settings : q.settings = p.settings
  strict : q.strict = p.strict
  stays : ∀ rule ∈ p.rules, rule.StaysInFile

namespace Counterparts

variable {folder file : Path} {name : String} (h : Counterparts w folder name file p q)

include h

theorem isAbsolute_root : p.root.isAbsolute = true :=
  h.root ▸ Path.isAbsolute_join h.sound.absolute

theorem isAbsolute_fileRoot : q.root.isAbsolute = true :=
  h.fileRoot ▸ Path.isAbsolute_join h.sound.absolute

theorem lintTarget_folder :
    lintTarget w g p folder = (p.lint g w.files).mapError Failure.lintFailed := by
  rw [lintTarget, h.isFolder.2, if_neg Bool.false_ne_true]

section

variable {source : String} (hread : w.read (p.root.join ⟨name⟩) = .ok source)

include hread

/-- The check of a file reads what the check of its folder reads. -/
theorem read_targetFile :
    w.isFile file = true ∧ w.read file = .ok source ∧ file.fileName? = some name.toList ∧
      targetFile q file = q.root.join ⟨name⟩ ∧ w.read (q.root.join ⟨name⟩) = .ok source := by
  rw [h.root] at hread
  obtain ⟨place, hplace, hcontent⟩ := FileTree.read_eq_ok_iff.1 hread
  have habsolute : ∀ path : Path, ((w.folder.join path).join ⟨name⟩).isAbsolute = true :=
    fun path => Path.isAbsolute_join (Path.isAbsolute_join h.sound.absolute)
  rw [w.files.follow_of_isAbsolute (habsolute folder) w.base []] at hplace
  obtain ⟨hfileName, hfollow, hfile, hopenable⟩ :=
    follow_of_spells h.sound h.isFolder.1 h.isName hplace (by rw [hcontent]; rfl) h.spells
  have htarget := follow_targetRoot h.sound h.isName hfileName hfollow hfile hopenable
  rw [w.files.follow_of_isAbsolute (habsolute _) [] w.base] at htarget
  refine ⟨hfile, FileTree.read_eq_ok_iff.2 ⟨place, hfollow, hcontent⟩, hfileName, ?_, ?_⟩
  · rw [targetFile, hfileName]
    dsimp only
    rw [String.ofList_toList]
  · rw [h.fileRoot]
    exact FileTree.read_eq_ok_iff.2 ⟨place, htarget, hcontent⟩

/-- The check of a file looks at it as the check of its folder does. -/
theorem lintSingle_of_read :
    lintTarget w g q file = lintSingle w g q file ∧ w.read (targetFile q file) = .ok source ∧
      q.lintSource g (targetFile q file) source = p.lintSource g (p.root.join ⟨name⟩) source ∧
      Project.parses g (targetFile q file) source = Project.parses g file source ∧
      Project.parses g (p.root.join ⟨name⟩) source = Project.parses g file source := by
  obtain ⟨hfile, -, hfileName, htarget, hreadTarget⟩ := h.read_targetFile hread
  rw [htarget]
  refine ⟨by rw [lintTarget, hfile, if_pos rfl], hreadTarget, ?_, ?_, ?_⟩
  · exact lintSource_join_name h.isAbsolute_root h.isAbsolute_fileRoot h.rules h.settings h.isName _
  · exact parses_of_fileName? (by rw [hfileName, Path.fileName?_join_name _ h.isName]) _
  · exact parses_of_fileName? (by rw [hfileName, Path.fileName?_join_name _ h.isName]) _

/-- The report on the file: its block, and one file if it can be parsed. -/
theorem result_file
    (hparses : p.strict = false ∨ Project.parses g (p.root.join ⟨name⟩) source = true) :
    (lintTarget w g q file).result =
      .ok ⟨p.block g (p.root.join ⟨name⟩) source,
        if Project.parses g file source then 1 else 0⟩ := by
  obtain ⟨hsingle, hreadTarget, hlint, htarget, hfolder⟩ := h.lintSingle_of_read (g := g) hread
  have hblock : q.block g (targetFile q file) source = p.block g (p.root.join ⟨name⟩) source := by
    rw [Project.block, Project.block, hlint]
  rw [← h.strict, hfolder, ← htarget] at hparses
  rw [hsingle, result_lintSingle_block (h.rules ▸ h.stays) hreadTarget hparses, hblock, htarget]

/-- In strict mode a fault in the file fails the check. -/
theorem fails_file (hstrict : p.strict = true) (hfault : Project.parses g file source = false) :
    ∃ failure, (lintTarget w g q file).result = .error failure := by
  obtain ⟨hsingle, hreadTarget, -, htarget, -⟩ := h.lintSingle_of_read (g := g) hread
  obtain ⟨cause, hcause⟩ := Project.lintSource_of_not_parses (p := q) (htarget.trans hfault)
  rw [hsingle, result_lintSingle hreadTarget, hcause, h.strict, hstrict]
  exact ⟨_, rfl⟩

end

end Counterparts

/-- If the check of a folder can be built, so can the check of a file in it. -/
theorem exists_counterpart (hw : w.Sound) {settings : Settings} {rules : List Rule}
    (hrules : (selectRules settings r.rules).result = .ok rules) {folder : Path}
    (hfolder : w.contains folder = true ∧ w.isFile folder = false)
    (hbuild : (checkPlan w { r with path := folder } settings rules).build w.folder = .ok p)
    {name : String} (hname : Path.IsName name) {file : Path}
    (hspells : Spells w folder name file) :
    ∃ q, (checkPlan w { r with path := file } settings rules).build w.folder = .ok q ∧
      Counterparts w folder name file p q := by
  obtain ⟨globs, hglobs, rfl⟩ := ProjectPlan.build_eq_ok_iff.1 hbuild
  -- The patterns do not depend on what is checked.
  have hpatterns : (checkPlan w { r with path := file } settings rules).patterns =
      (checkPlan w { r with path := folder } settings rules).patterns := by
    simp only [ProjectPlan.patterns, checkPlan]
  have hroot : (checkPlan w { r with path := folder } settings rules).resolveRoot w.folder =
      w.folder.join folder := by
    simp only [ProjectPlan.resolveRoot, checkPlan, Option.getD_some]
    rw [targetRoot, hfolder.2, if_neg Bool.false_ne_true]
  refine ⟨_, ProjectPlan.build_eq_ok_iff.2 ⟨globs, hpatterns ▸ hglobs, rfl⟩, hw, hfolder, hname,
    hspells, hroot, rfl, rfl, rfl, rfl, staysInFile_of_selectRules hrules⟩

/-- If the check of a folder succeeds, so does the check of a file directly in it that the first one
comes to, whatever path the file is given by. It reports what the first one reports about the file,
in the same order, and counts the file if it parses. A file that does not parse fails both checks if
they are strict. -/
theorem lintTarget_file_of_folder (hw : w.Sound) {settings : Settings} {rules : List Rule}
    (hrules : (selectRules settings r.rules).result = .ok rules) {folder : Path}
    (hfolder : w.contains folder = true ∧ w.isFile folder = false)
    (hbuild : (checkPlan w { r with path := folder } settings rules).build w.folder = .ok p)
    {paths : List Path} (hpaths : p.sourceFiles w.files = .ok paths) {name : String}
    (hname : Path.IsName name) (hmem : p.root.join ⟨name⟩ ∈ paths) {file : Path}
    (hspells : Spells w folder name file) :
    ∃ q, (checkPlan w { r with path := file } settings rules).build w.folder = .ok q ∧
      (∀ report, (lintTarget w g p folder).result = .ok report →
        ∃ source, w.read file = .ok source ∧
          (lintTarget w g q file).result =
            .ok ⟨report.findings.filter fun f => f.location.file = ⟨name⟩,
              if Project.parses g file source then 1 else 0⟩) ∧
      (r.strict = true → ∀ source, w.read (p.root.join ⟨name⟩) = .ok source →
        Project.parses g file source = false →
          (∃ failure, (lintTarget w g p folder).result = .error failure) ∧
            ∃ failure, (lintTarget w g q file).result = .error failure) := by
  obtain ⟨q, hq, h⟩ := exists_counterpart hw hrules hfolder hbuild hname hspells
  have hread : w.read (p.root.join ⟨name⟩) = w.files.read [] (p.root.join ⟨name⟩) :=
    w.files.read_of_isAbsolute (Path.isAbsolute_join h.isAbsolute_root) w.base []
  have hlint : ∀ report, (lintTarget w g p folder).result = .ok report →
      (p.lint g w.files).result = .ok report := by
    intro report hreport
    rw [h.lintTarget_folder] at hreport
    exact Logged.mapError_eq_ok_iff.1 hreport
  have hpstrict : p.strict = r.strict := by
    obtain ⟨globs, -, rfl⟩ := ProjectPlan.build_eq_ok_iff.1 hbuild
    rfl
  refine ⟨q, hq, fun report hreport => ?_, fun hstrict source hsource hfault => ⟨?_, ?_⟩⟩
  · obtain ⟨text, hdiscovers⟩ := Project.exists_discovers hw.tree hpaths (hlint report hreport)
    have hsource := hread.trans (hdiscovers.readable _ hmem)
    have hparses := hdiscovers.parses_of_lint (hlint report hreport)
    have hfindings := hdiscovers.filter_findings (g := g) h.isAbsolute_root h.stays hmem
    rw [← hdiscovers.report_eq h.isAbsolute_root h.stays (hlint report hreport),
      Path.relativeTo_join_name h.isAbsolute_root hname] at hfindings
    refine ⟨_, (h.read_targetFile hsource).2.1, ?_⟩
    rw [h.result_file hsource (hparses.imp_right fun hall => hall _ hmem), hfindings]
  · cases hresult : (lintTarget w g p folder).result with
    | error failure => exact ⟨failure, rfl⟩
    | ok report =>
      -- A strict run that succeeds has parsed the file.
      obtain ⟨text, hdiscovers⟩ := Project.exists_discovers hw.tree hpaths (hlint report hresult)
      have htext := hread.trans (hdiscovers.readable _ hmem)
      obtain ⟨-, -, -, -, hsame⟩ := h.lintSingle_of_read (g := g) hsource
      rcases hdiscovers.parses_of_lint (hlint report hresult) with hlenient | hall
      · rw [hpstrict, hstrict] at hlenient
        cases hlenient
      · have hparses := hall _ hmem
        rw [← Except.ok.inj (hsource.symm.trans htext), hsame, hfault] at hparses
        cases hparses
  · exact h.fails_file hsource (hpstrict.trans hstrict) hfault

/-- In the sample, a module that is checked by its bare name is reported as in the check of `.`. -/
theorem lintTarget_file_of_folder_twoModules :
    Spells (twoModules plainText) ⟨"."⟩ "a.js" ⟨"a.js"⟩ ∧
    (lintTarget (twoModules plainText) sampleGrammar sampleProject ⟨"."⟩).result =
      .ok (sampleRun plainText).report ∧
    ∃ q, (checkPlan (twoModules plainText) { path := ⟨"a.js"⟩ } {} [Purity.rule {} .error]).build
        ⟨"/p"⟩ = .ok q ∧
      (lintTarget (twoModules plainText) sampleGrammar q ⟨"a.js"⟩).result =
        .ok ⟨sampleFindings "a.js" plainText, 1⟩ := by
  have hspells : Spells (twoModules plainText) ⟨"."⟩ "a.js" ⟨"a.js"⟩ :=
    Or.inr ⟨by decide +kernel, by decide +kernel, by decide +kernel⟩
  have hsound : (twoModules plainText).Sound :=
    ⟨by decide, by decide +kernel, by decide +kernel, by decide +kernel⟩
  have hplain : plainText = plainText ∨ plainText = markedText := Or.inl rfl
  have hfolder : (twoModules plainText).contains ⟨"."⟩ = true ∧
      (twoModules plainText).isFile ⟨"."⟩ = false := ⟨by decide +kernel, isFile_sample hplain⟩
  have hrules : (selectRules {} none).result = .ok [Purity.rule {} .error] := rfl
  have hname : Path.IsName "a.js" := by decide +kernel
  obtain ⟨q, hq, hreport, -⟩ := lintTarget_file_of_folder (g := sampleGrammar) (r := {}) hsound
    hrules hfolder (build_sample hplain) (sourceFiles_sample hplain) hname (by decide) hspells
  obtain ⟨source, hsource, hlint⟩ := hreport _ (lintTarget_sample hplain)
  have hread : (twoModules plainText).read ⟨"a.js"⟩ = .ok plainText := rfl
  obtain rfl : source = plainText := Except.ok.inj (hsource.symm.trans hread)
  refine ⟨hspells, lintTarget_sample hplain, q, hq, hlint.trans ?_⟩
  have hparses : Project.parses sampleGrammar ⟨"a.js"⟩ plainText = true := by decide +kernel
  have hfindings : ((sampleRun plainText).report.findings.filter fun f =>
      f.location.file = ⟨"a.js"⟩) = sampleFindings "a.js" plainText := by decide +kernel
  rw [hparses, hfindings]
  rfl

end ModulePurity.Command
