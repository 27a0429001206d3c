import ModulePurity.Proofs.Exclusion
import ModulePurity.Proofs.LeadingBack

/-!
# Patterns for folders

The pattern `**/dist/**` leaves out what lies below a folder `dist`. Three tests go by it: the
pattern is matched with the path of a file, and with the path relative to the root, and `/dist/` is
searched in the path. They all ask about one thing, the folders that the path goes through:

* the pattern accepts a text if the name is one of its fields, with a slash behind it
  (`Glob.accepts_ofFolder`);
* the search finds no other folders (`mem_folders_of_occursPlainly`), and the relative path has none
  (`Path.folders_relativeTo`).

A path to a file starts with the root, so the folders that the root itself lies in count as well
(`excludes_folderPattern`): in a project below a folder `dist` no file is linted
(`excludes_sources_below_dist`).
-/

namespace ModulePurity

namespace Text

/-! ## Fields with a mark behind them -/

section

variable {mark : Char} {cs f : List Char}

theorem joinFields_append {fs gs : List (List Char)} (hfs : fs ≠ []) (hgs : gs ≠ []) :
    joinFields mark (fs ++ gs) = joinFields mark fs ++ mark :: joinFields mark gs := by
  induction fs with
  | nil => exact absurd rfl hfs
  | cons f fs ih =>
    cases fs with
    | nil =>
      obtain ⟨g, gs, rfl⟩ := List.exists_cons_of_ne_nil hgs
      rfl
    | cons g rest =>
      have htail := ih (by simp)
      show f ++ mark :: joinFields mark ((g :: rest) ++ gs) = _
      rw [htail, joinFields, List.append_assoc]
      rfl

/-- A field that is not the last one stands between two marks, the first of which may be thought in
front of the text. -/
theorem mem_dropLast_fields_iff (hf : mark ∉ f) :
    f ∈ (fields mark cs).dropLast ↔
      ∃ before after, mark :: cs = before ++ mark :: (f ++ mark :: after) := by
  have hmarked : fields mark (mark :: cs) = [] :: fields mark cs := by rw [fields, if_pos rfl]
  constructor
  · intro h
    obtain ⟨fs, gs, hsplit⟩ := List.append_of_mem h
    obtain ⟨front, last, hlast⟩ :=
      (List.eq_nil_or_concat' (fields mark cs)).resolve_left (fields_ne_nil mark cs)
    rw [hlast, List.dropLast_concat] at hsplit
    have hjoin := joinFields_fields mark (mark :: cs)
    have hfields : [] :: fields mark cs = ([] :: fs) ++ ([f] ++ (gs ++ [last])) := by
      rw [hlast, hsplit]
      simp
    rw [hmarked, hfields, joinFields_append (by simp) (by simp),
      joinFields_append (by simp) (by simp)] at hjoin
    exact ⟨_, _, hjoin.symm⟩
  · rintro ⟨before, after, hcs⟩
    rw [hcs, fields_append, fields_append, fields_of_not_mem hf] at hmarked
    obtain ⟨b, bs, hb⟩ := List.exists_cons_of_ne_nil (fields_ne_nil mark before)
    rw [hb, List.cons_append, List.cons_append] at hmarked
    rw [← (List.cons.inj hmarked).2, List.nil_append, List.dropLast_append_of_ne_nil (by simp),
      List.dropLast_cons_of_ne_nil (fields_ne_nil mark after)]
    simp

end

/-! ## Searching -/

/-- The search is for an entry that passes the test, with an end behind it that passes `p`. -/
theorem someEndAfter_iff {α : Type} {test : α → Bool} {p : List α → Bool} {as : List α} :
    someEndAfter test p as = true ↔
      ∃ before a after, as = before ++ a :: after ∧ test a = true ∧ p after = true := by
  induction as with
  | nil => simp [someEndAfter]
  | cons a as ih =>
    rw [someEndAfter, Bool.or_eq_true, Bool.and_eq_true, ih]
    constructor
    · rintro (⟨htest, hp⟩ | ⟨before, b, after, rfl, htest, hp⟩)
      · exact ⟨[], a, as, rfl, htest, hp⟩
      · exact ⟨a :: before, b, after, rfl, htest, hp⟩
    · rintro ⟨before, b, after, hsplit, htest, hp⟩
      cases before with
      | nil =>
        cases hsplit
        exact Or.inl ⟨htest, hp⟩
      | cons c before =>
        cases hsplit
        exact Or.inr ⟨before, b, after, rfl, htest, hp⟩

theorem occursIn_iff {word cs : List Char} : occursIn word cs = true ↔ word <:+: cs := by
  induction cs with
  | nil => simp [occursIn]
  | cons c cs ih =>
    rw [occursIn, Bool.or_eq_true, List.isPrefixOf_iff_prefix, ih, List.infix_cons_iff]

theorem erasePairs_append {mark : Char} {as : List Char} (h : mark ∉ as) (bs : List Char) :
    erasePairs mark (as ++ bs) = as ++ erasePairs mark bs := by
  induction as with
  | nil => rfl
  | cons a as ih =>
    rw [List.mem_cons, not_or] at h
    rw [List.cons_append, List.cons_append, ← ih h.2]
    cases as ++ bs with
    | nil => rfl
    | cons b cs => rw [erasePairs, if_neg fun hmarks => h.1 hmarks.1.symm]

end Text

/-! ## The pattern -/

namespace Glob

/-- A character that stands for itself in a pattern. -/
def IsPlain (c : Char) : Prop :=
  c ≠ '*' ∧ c ≠ '?' ∧ c ≠ '['

instance (c : Char) : Decidable (IsPlain c) :=
  inferInstanceAs (Decidable (_ ∧ _))

/-- The pattern for what lies below a folder with the given name. -/
def folderPattern (name : String) : String :=
  "**/" ++ name ++ "/**"

/-- The characters of a pattern for a folder: the name between two runs of folders. -/
theorem toList_folderPattern (name : String) :
    (folderPattern name).toList = '*' :: '*' :: '/' :: (name.toList ++ ['/', '*', '*']) := by
  rw [folderPattern, String.toList_append, String.toList_append]
  rfl

/-- The same pattern, read. -/
def ofFolder (name : String) : Glob :=
  ⟨.anyFolders :: ((name.toList ++ ['/']).map .literal ++ [.anyFolders])⟩

theorem parseFrom_plain {c : Char} (h : IsPlain c) (pos : Nat) (fresh : Bool)
    (done : List GlobToken) (cs : List Char) :
    parseFrom pos fresh done (c :: cs) =
      parseFrom (pos + 1) (c == '/') (.literal c :: done) cs := by
  obtain ⟨hstar, hmark, hbracket⟩ := h
  rw [parseFrom]
  all_goals simp_all

/-- A segment of plain characters is read as these characters. -/
theorem parseFrom_segment {segment : List Char} (h : ∀ c ∈ segment, IsPlain c) (pos : Nat)
    (fresh : Bool) (done : List GlobToken) (rest : List Char) :
    parseFrom pos fresh done (segment ++ '/' :: rest) =
      parseFrom (pos + segment.length + 1) true
        (((segment ++ ['/']).map .literal).reverse ++ done) rest := by
  induction segment generalizing pos fresh done with
  | nil => exact parseFrom_plain (by decide) pos fresh done rest
  | cons c cs ih =>
    rw [List.cons_append, parseFrom_plain (h c List.mem_cons_self),
      ih fun x hx => h x (List.mem_cons_of_mem c hx)]
    simp [Nat.add_assoc, Nat.add_comm 1]

/-- The pattern for a folder with a plain name is read as intended. -/
theorem parse_folderPattern {name : String} (h : ∀ c ∈ name.toList, IsPlain c) :
    parse (folderPattern name) = .ok (ofFolder name) := by
  have hread : parseFrom 0 true [] ('*' :: '*' :: '/' :: (name.toList ++ ['/', '*', '*'])) =
      .ok (ofFolder name).tokens := by
    rw [parseFrom, if_pos rfl, parseFrom_segment h, parseFrom, if_pos rfl]
    simp [addFolders, ofFolder]
  rw [parse, toList_folderPattern, hread]
  rfl

/-- Literals match their own characters, and the rest of the pattern what is left. -/
theorem matchTokens_literals {word cs : List Char} {ts : List GlobToken} :
    matchTokens (word.map .literal ++ ts) cs = true ↔
      ∃ rest, cs = word ++ rest ∧ matchTokens ts rest = true := by
  induction word generalizing cs with
  | nil => simp
  | cons w word ih =>
    show Text.next (· == w) (matchTokens (word.map .literal ++ ts)) cs = true ↔ _
    cases cs with
    | nil => simp [Text.next]
    | cons c cs =>
      rw [Text.next, Bool.and_eq_true, beq_iff_eq, ih]
      simp [and_assoc]

/-- A double star goes on behind any slash, also behind one that may be thought in front of the
text, or at the end. -/
theorem matchTokens_anyFolders {ts : List GlobToken} {cs : List Char} :
    matchTokens (.anyFolders :: ts) cs = true ↔
      (∃ before after, '/' :: cs = before ++ '/' :: after ∧ matchTokens ts after = true) ∨
        matchTokens ts [] = true := by
  have hfront : (matchTokens ts cs || Text.someEndAfter (· == '/') (matchTokens ts) cs) =
      Text.someEndAfter (· == '/') (matchTokens ts) ('/' :: cs) := rfl
  rw [matchTokens, ← Bool.or_assoc, hfront, Bool.or_eq_true, Text.someEndAfter_iff]
  refine or_congr_left (exists_congr fun before => ?_)
  constructor
  · rintro ⟨a, after, hsplit, ha, hmatch⟩
    rw [beq_iff_eq] at ha
    exact ⟨after, ha ▸ hsplit, hmatch⟩
  · rintro ⟨after, hsplit, hmatch⟩
    exact ⟨'/', after, hsplit, rfl, hmatch⟩

/-- The pattern for a folder accepts a text if the name is one of its fields, but not the last. -/
theorem accepts_ofFolder {name : String} (h : '/' ∉ name.toList) (text : String) :
    (ofFolder name).accepts text = true ↔
      name.toList ∈ (Text.fields '/' text.toList).dropLast := by
  have hend : ∀ cs, matchTokens [.anyFolders] cs = true := by
    intro cs
    simp [matchTokens]
  rw [accepts_eq, ofFolder, matchTokens_anyFolders, Text.mem_dropLast_fields_iff h]
  simp only [matchTokens_literals, hend]
  simp

end Glob

/-! ## Folders of a path -/

namespace Path

/-- The components that a slash follows. -/
def folders (p : Path) : List Component :=
  p.parts.body.dropLast.filterMap segmentComponent?

/-- A leading root or `.` is no folder, so that the fields of the text tell the folders as well. -/
theorem folders_eq_fields (p : Path) :
    p.folders = (Text.fields '/' p.text.toList).dropLast.filterMap segmentComponent? := by
  unfold folders parts Parts.ofChars
  split
  · next rest htext =>
    rw [htext, Text.fields, if_pos rfl, List.dropLast_cons_of_ne_nil (Text.fields_ne_nil '/' rest)]
    rfl
  · next htext => rw [htext]; rfl
  · next rest htext =>
    rw [htext, show '.' :: '/' :: rest = ['.'] ++ '/' :: rest from rfl, Text.fields_append]
    show ([] :: Text.fields '/' rest).dropLast.filterMap segmentComponent? =
      (['.'] :: Text.fields '/' rest).dropLast.filterMap segmentComponent?
    rw [List.dropLast_cons_of_ne_nil (Text.fields_ne_nil '/' rest),
      List.dropLast_cons_of_ne_nil (Text.fields_ne_nil '/' rest)]
    rfl
  · rfl

/-- The folders of a path are named by its fields without the last one. -/
theorem mem_folders_iff {p : Path} {name : String} (h : IsName name) :
    .name name ∈ p.folders ↔ name.toList ∈ (Text.fields '/' p.text.toList).dropLast := by
  rw [folders_eq_fields, List.mem_filterMap]
  constructor
  · rintro ⟨segment, hsegment, hcomponent⟩
    rwa [toList_of_segmentComponent? hcomponent]
  · intro hmem
    exact ⟨_, hmem, h.2⟩

/-- A component that others follow has a slash behind it. -/
theorem mem_folders_of_dropLast {p : Path} {c : Component} (h : c ∈ p.tailComponents.dropLast) :
    c ∈ p.folders := by
  rw [tailComponents] at h
  rw [folders]
  rcases List.eq_nil_or_concat' p.parts.body with hbody | ⟨front, last, hbody⟩
  · rw [hbody] at h
    cases h
  · rw [hbody, List.filterMap_append] at h
    rw [hbody, List.dropLast_concat]
    cases hlast : segmentComponent? last with
    | none =>
      rw [List.filterMap_cons_none hlast, List.filterMap_nil, List.append_nil] at h
      exact (List.dropLast_sublist _).subset h
    | some d =>
      rw [List.filterMap_cons_some hlast, List.filterMap_nil, List.dropLast_concat] at h
      exact h

/-- In a path that ends in a component all others are folders. -/
theorem folders_of_endsSolid {p : Path} (h : p.EndsSolid) :
    p.folders = p.tailComponents.dropLast := by
  obtain ⟨front, last, hbody, hlast⟩ := h
  obtain ⟨c, hc⟩ := exists_segmentComponent? hlast
  rw [folders, tailComponents, hbody, List.filterMap_append, List.filterMap_cons_some hc,
    List.filterMap_nil, List.dropLast_concat, List.dropLast_concat]

/-- Only a leading root or `.` is lost behind the head. -/
theorem mem_dropLast_components_iff {p : Path} {c : Component} (hc : isLead c = false) :
    c ∈ p.components.dropLast ↔ c ∈ p.tailComponents.dropLast := by
  rw [components_eq]
  by_cases htail : p.tailComponents = []
  · rw [htail, List.append_nil]
    cases p.parts.head <;> rfl
  · rw [List.dropLast_append_of_ne_nil htail, List.mem_append, or_iff_right]
    intro hhead
    rw [isLead_of_head (Option.mem_toList.1 hhead)] at hc
    cases hc

theorem ne_nil_of_isAbsolute {p : Path} (h : p.isAbsolute = true) : p.text.toList ≠ [] := by
  obtain ⟨rest, htext⟩ := exists_of_isAbsolute h
  rw [htext]
  exact List.cons_ne_nil '/' rest

/-- Relative to a root a path has no other folders. -/
theorem folders_relativeTo {p root : Path} (hroot : root.text.toList ≠ []) :
    (p.relativeTo root).folders ⊆ p.folders := by
  intro c hc
  rw [relativeTo] at hc
  cases hstrip : p.strip? root with
  | none => rwa [hstrip] at hc
  | some r =>
    rw [hstrip, Option.getD_some] at hc
    rcases strip?_cases hstrip with ⟨hempty, -⟩ | ⟨-, segments, rfl, hleft⟩
    · exact absurd hempty hroot
    · rcases List.eq_nil_or_concat' segments with rfl | ⟨front, last, rfl⟩
      · cases hc
      · rw [folders_eq_fields, hleft.fields (by simp), List.dropLast_concat] at hc
        obtain ⟨s, -, hs⟩ := List.mem_filterMap.1 hc
        -- The last segment makes a component, so the folders come before the last component.
        obtain ⟨d, hd⟩ := exists_segmentComponent? (hleft.last front last rfl)
        have hcomponents := hleft.components
        rw [List.filterMap_append, List.filterMap_cons_some hd, ← List.append_assoc]
          at hcomponents
        refine mem_folders_of_dropLast
          ((mem_dropLast_components_iff (isLead_of_segmentComponent? hs)).1 ?_)
        rw [hcomponents, List.filterMap_nil, List.dropLast_concat]
        exact List.mem_append_right _ hc

/-- Behind an absolute root all of its components are folders. -/
theorem folders_join {root rel : Path} (hroot : root.isAbsolute = true)
    (hrel : rel.isAbsolute = false) :
    (root.join rel).folders = root.tailComponents ++ rel.folders := by
  obtain ⟨front, hparts, hfront⟩ := exists_parts_join (ne_nil_of_isAbsolute hroot) hrel
  rw [folders, hparts, List.dropLast_append_of_ne_nil (Text.fields_ne_nil '/' _),
    List.filterMap_append, ← tailComponents_of_front hfront, folders_eq_fields]

end Path

namespace Project

/-- A name of a folder whose characters all stand for themselves in a pattern. -/
structure PlainName (name : String) : Prop where
  isName : Path.IsName name
  plain : ∀ c ∈ name.toList, Glob.IsPlain c

instance (name : String) : Decidable (PlainName name) :=
  decidable_of_iff (Path.IsName name ∧ (name.toList.all fun c => decide (Glob.IsPlain c)) = true)
    ⟨fun h => ⟨h.1, fun c hc => of_decide_eq_true (List.all_eq_true.1 h.2 c hc)⟩,
      fun h => ⟨h.isName, List.all_eq_true.2 fun c hc => decide_eq_true (h.plain c hc)⟩⟩

section

variable {name : String}

/-- Without its asterisks, the pattern for a folder is the name between two slashes. -/
theorem bareText_folderPattern (h : PlainName name) :
    bareText (Glob.folderPattern name) = '/' :: (name.toList ++ ['/']) := by
  have hstar : '*' ∉ '/' :: (name.toList ++ ['/']) := by
    intro hmem
    have hname : '*' ∈ name.toList := by simpa using hmem
    exact (h.plain '*' hname).1 rfl
  have hsplit : '/' :: (name.toList ++ ['/', '*', '*']) =
      ('/' :: (name.toList ++ ['/'])) ++ ['*', '*'] := by simp
  rw [bareText, Glob.toList_folderPattern, Text.erasePairs, if_pos ⟨rfl, rfl⟩, hsplit,
    Text.erasePairs_append hstar]
  exact List.append_nil _

/-- The pattern for a folder occurs plainly only in paths that have such a folder. -/
theorem mem_folders_of_occursPlainly (h : PlainName name) {path : Path}
    (hoccurs : occursPlainly (Glob.folderPattern name) path = true) :
    .name name ∈ path.folders := by
  rw [occursPlainly, bareText_folderPattern h, Bool.and_eq_true, Text.occursIn_iff] at hoccurs
  obtain ⟨before, after, htext⟩ := hoccurs.2
  rw [Path.mem_folders_iff h.isName, Text.mem_dropLast_fields_iff h.isName.1, ← htext]
  exact ⟨'/' :: before, after, by simp⟩

/-- The pattern for a folder leaves out what lies below a folder of this name, wherever the root
is. -/
theorem leavesOut_folderPattern (h : PlainName name) {root : Path} (hroot : root.isAbsolute = true)
    (path : Path) :
    leavesOut root (Glob.folderPattern name) path = true ↔ .name name ∈ path.folders := by
  have haccepts : ∀ p : Path, (Glob.ofFolder name).accepts p.text = true ↔ .name name ∈ p.folders :=
    fun p => by rw [Glob.accepts_ofFolder h.isName.1, Path.mem_folders_iff h.isName]
  rw [leavesOut, Glob.parse_folderPattern h.plain]
  dsimp only
  rw [Bool.or_eq_true, Bool.or_eq_true, haccepts, haccepts]
  constructor
  · rintro ((hpath | hrelative) | hoccurs)
    · exact hpath
    · exact Path.folders_relativeTo (Path.ne_nil_of_isAbsolute hroot) hrelative
    · exact mem_folders_of_occursPlainly h hoccurs
  · intro hpath
    exact Or.inl (Or.inl hpath)

/-! ## Projects with one such pattern -/

variable {plan : ProjectPlan}

/-- A project with the pattern for a folder as its only one leaves out what lies below a folder of
this name. -/
theorem exists_build_of_folderPattern (h : PlainName name)
    (hplan : plan.patterns = [Glob.folderPattern name]) (folder : Path)
    (hroot : (plan.resolveRoot folder).isAbsolute = true) :
    ∃ p, plan.build folder = .ok p ∧ p.root = plan.resolveRoot folder ∧
      ∀ path, p.excludes path = true ↔ .name name ∈ path.folders := by
  obtain ⟨p, hp, hresolved⟩ :=
    exists_build_of_patterns plan hplan (Glob.parse_folderPattern h.plain) folder
  refine ⟨p, hp, hresolved, fun path => ?_⟩
  rw [excludes_eq_any hp, hplan, List.any_cons, List.any_nil, Bool.or_false, hresolved]
  exact leavesOut_folderPattern h hroot path

/-- If the pattern for a folder is the only one, a file of the project is left out exactly if the
folder is one that the root goes through, or one that the path below the root goes through. The
latter are the components of a path to a file without the last one. -/
theorem excludes_folderPattern (h : PlainName name)
    (hplan : plan.patterns = [Glob.folderPattern name]) (folder : Path)
    (hroot : (plan.resolveRoot folder).isAbsolute = true) :
    ∃ p, plan.build folder = .ok p ∧ p.root = plan.resolveRoot folder ∧
      ∀ rel : Path, rel.isAbsolute = false →
        (p.excludes (p.root.join rel) = true ↔
          .name name ∈ p.root.components ∨ .name name ∈ rel.folders) ∧
        (rel.EndsSolid → (.name name ∈ rel.folders ↔ .name name ∈ rel.components.dropLast)) := by
  obtain ⟨p, hp, hresolved, hexcludes⟩ := exists_build_of_folderPattern h hplan folder hroot
  rw [← hresolved] at hroot
  refine ⟨p, hp, hresolved, fun rel hrel => ⟨?_, fun hsolid => ?_⟩⟩
  · rw [hexcludes, Path.folders_join hroot hrel, List.mem_append,
      Path.components_of_isAbsolute hroot]
    simp
  · rw [Path.folders_of_endsSolid hsolid]
    exact (Path.mem_dropLast_components_iff rfl).symm

end

/-- Leaves out build results below the given root. -/
def distPlanAt (root : Path) : ProjectPlan :=
  { distPlan with root := some root }

theorem plainName_dist : PlainName "dist" := by decide

theorem patterns_distPlanAt (root : Path) :
    (distPlanAt root).patterns = [Glob.folderPattern "dist"] := by
  have hpattern : "**/dist/**" = Glob.folderPattern "dist" := by decide
  rw [← hpattern]
  rfl

/-- Build results in a folder of the project are left out, a file of the same name is not. -/
theorem excludes_folderPattern_packages :
    PlainName "dist" ∧ ∃ p, (distPlanAt ⟨"/home/app"⟩).build ⟨"/"⟩ = .ok p ∧
      p.excludes (p.root.join ⟨"packages/a/dist/main.js"⟩) = true ∧
      p.excludes (p.root.join ⟨"src/dist"⟩) = false := by
  obtain ⟨p, hp, hroot, hfiles⟩ :=
    excludes_folderPattern plainName_dist (patterns_distPlanAt ⟨"/home/app"⟩) ⟨"/"⟩ (by decide)
  refine ⟨plainName_dist, p, hp, ?_, ?_⟩
  · exact (hfiles ⟨"packages/a/dist/main.js"⟩ (by decide)).1.2 (Or.inr (by decide +kernel))
  · rw [← Bool.not_eq_true, (hfiles ⟨"src/dist"⟩ (by decide)).1, hroot]
    decide +kernel

/-- The same module is left out if the project lies below a folder for build results. -/
theorem excludes_sources_below_dist :
    PlainName "dist" ∧ Component.name "dist" ∉ (⟨"src/a.js"⟩ : Path).folders ∧
      ∃ p q, (distPlanAt ⟨"/home/dist/app"⟩).build ⟨"/"⟩ = .ok p ∧
        (distPlanAt ⟨"/home/app"⟩).build ⟨"/"⟩ = .ok q ∧
        p.root = ⟨"/home/dist/app"⟩ ∧ p.excludes (p.root.join ⟨"src/a.js"⟩) = true ∧
        q.root = ⟨"/home/app"⟩ ∧ q.excludes (q.root.join ⟨"src/a.js"⟩) = false := by
  obtain ⟨p, hp, hproot, hpfiles⟩ := exists_build_of_folderPattern plainName_dist
    (patterns_distPlanAt ⟨"/home/dist/app"⟩) ⟨"/"⟩ (by decide)
  obtain ⟨q, hq, hqroot, hqfiles⟩ := exists_build_of_folderPattern plainName_dist
    (patterns_distPlanAt ⟨"/home/app"⟩) ⟨"/"⟩ (by decide)
  refine ⟨plainName_dist, by decide +kernel, p, q, hp, hq, hproot, ?_, hqroot, ?_⟩
  · rw [hpfiles, hproot]
    decide +kernel
  · rw [← Bool.not_eq_true, hqfiles, hqroot]
    decide +kernel

end Project

end ModulePurity
