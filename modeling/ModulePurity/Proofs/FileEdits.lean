import Mathlib.Data.Set.Card
import ModulePurity.Command.Check
import ModulePurity.Proofs.FilePlaces
import ModulePurity.Proofs.PathOrder
import ModulePurity.Proofs.Splices

/-!
# What applying edits does to the files

Edits are applied file by file. One step rewrites the text at the place that a path leads to and
keeps everything else (`exists_of_editFiles_cons`); a whole run keeps every place that none of its
paths leads to, and counts the places whose content differs at the end, provided that no two of the
paths lead to one place (`edited_of_editFiles`). The paths of a report are sorted and those with the
same components are merged, so that it is enough if the components of the paths tell their places
apart (`ToldApart`, `effect_of_editFiles`).
-/

namespace ModulePurity.Command

namespace Workspace

/-- Whether a path leads to a place. -/
def leadsTo (w : Workspace) (p : Path) (place : Place) : Bool :=
  match w.files.follow w.base p with
  | .ok found => found == place
  | .error _ => false

/-- A path leads to the place that following it from the base ends in. -/
theorem leadsTo_iff {w : Workspace} {p : Path} {place : Place} :
    w.leadsTo p place = true ↔ w.files.follow w.base p = .ok place := by
  unfold leadsTo
  split
  · next found hfound => rw [hfound, beq_iff_eq, Except.ok.injEq]
  · next e he => simp [he]

theorem leadsTo_unique {w : Workspace} {p : Path} {place other : Place}
    (hplace : w.leadsTo p place = true) (hother : w.leadsTo p other = true) : place = other := by
  rw [leadsTo_iff] at hplace hother
  rw [hplace] at hother
  exact Except.ok.inj hother

/-- A text that can be read lies at the place of its path. -/
theorem exists_place_of_read {w : Workspace} {p : Path} {s : String} (h : w.read p = .ok s) :
    ∃ place, w.leadsTo p place = true ∧ w.files.file? place = some (.text s) := by
  obtain ⟨place, hfollow, hfile⟩ := FileTree.read_eq_ok_iff.1 h
  exact ⟨place, leadsTo_iff.2 hfollow, hfile⟩

/-! ## One file -/

/-- The workspace after one file was given a new content. -/
structure Replaced (w : Workspace) (place : Place) (content : Content) (w' : Workspace) :
    Prop where
  shape : w.files.SameShape w'.files
  rest : w' = { w with files := w'.files }
  here : w'.files.file? place = some content
  elsewhere : ∀ other, other ≠ place → w'.files.file? other = w.files.file? other
  /-- The content that it had changes nothing. -/
  same : w.files.file? place = some content → w' = w

theorem Replaced.refl {w : Workspace} {place : Place} {content : Content}
    (h : w.files.file? place = some content) : w.Replaced place content w :=
  ⟨.refl w.files, rfl, h, fun _ _ => rfl, fun _ => rfl⟩

/-- Writing a new text replaces the content of the place the path leads to, and nothing else. -/
theorem replaced_of_write {w w' : Workspace} {p : Path} {place : Place} {old new : String}
    (hplace : w.leadsTo p place = true) (hfile : w.files.file? place = some (.text old))
    (hne : new ≠ old) (h : w.write p new = .ok w') : w.Replaced place (.text new) w' := by
  unfold write at h
  cases hwrite : w.files.write w.base p new with
  | error e => rw [hwrite] at h; cases h
  | ok files =>
    rw [hwrite] at h
    cases h
    obtain rfl : files = w.files.put place (.text new) :=
      FileTree.of_write_eq_ok (leadsTo_iff.1 hplace) hwrite
    have hsome : (w.files.file? place).isSome = true := by rw [hfile]; rfl
    refine ⟨FileTree.sameShape_put _ hsome, rfl, FileTree.file?_put_self hsome,
      fun other hother => FileTree.file?_put_of_ne hsome hother, fun hsame => ?_⟩
    rw [hfile, Option.some.injEq, Content.text.injEq] at hsame
    exact absurd hsame.symm hne

/-- Every path leads to the same place before and after. -/
theorem Replaced.leadsTo {w w' : Workspace} {place : Place} {content : Content}
    (h : w.Replaced place content w') (p : Path) (other : Place) :
    w'.leadsTo p other = w.leadsTo p other := by
  rw [h.rest]
  unfold Workspace.leadsTo
  show (match w'.files.follow w.base p with | .ok found => found == other | .error _ => false) = _
  rw [h.shape.follow]

/-- A new content that stays to the end is one change more. -/
theorem Replaced.encard_changed {w middle w' : Workspace} {place : Place} {content : Content}
    (h : w.Replaced place content middle) (hnew : w.files.file? place ≠ some content)
    (hlast : w'.files.file? place = some content) :
    {p | w'.files.file? p ≠ w.files.file? p}.encard =
      {p | w'.files.file? p ≠ middle.files.file? p}.encard + 1 := by
  have hset : {p | w'.files.file? p ≠ w.files.file? p} =
      insert place {p | w'.files.file? p ≠ middle.files.file? p} := by
    ext p
    rw [Set.mem_insert_iff, Set.mem_ofPred_eq, Set.mem_ofPred_eq]
    by_cases hp : p = place
    · subst hp
      rw [hlast]
      exact iff_of_true hnew.symm (Or.inl rfl)
    · rw [h.elsewhere p hp, or_iff_right hp]
  have hnot : place ∉ {p | w'.files.file? p ≠ middle.files.file? p} := by
    rw [Set.mem_ofPred_eq, hlast, h.here]
    exact fun hne => hne rfl
  rw [hset, Set.encard_insert_of_notMem hnot]

end Workspace

variable {root : Path} {findings : List Finding} {w w' : Workspace} {file : Path}
  {files : List Path} {n : Nat}

/-- The step for one file: it is read, its text is rewritten, and it counts if the text changes. -/
theorem exists_of_editFiles_cons
    (h : editFiles root findings w (file :: files) = (w', .ok n)) :
    ∃ place s fixed middle m, w.leadsTo file place = true ∧
      w.files.file? place = some (.text s) ∧
      Finding.applyRemedies? s (findingsAbout root file findings) = some fixed ∧
      w.Replaced place (.text fixed) middle ∧
      editFiles root findings middle files = (w', .ok m) ∧
      n = if fixed = s then m else m + 1 := by
  unfold editFiles at h
  split at h
  · cases h
  · next s hread =>
    obtain ⟨place, hplace, hfile⟩ := Workspace.exists_place_of_read hread
    split at h
    · cases h
    · next fixed hfixed =>
      split at h
      · next hsame =>
        refine ⟨place, s, fixed, w, n, hplace, hfile, hfixed, .refl ?_, h, ?_⟩
        · rw [hfile, hsame]
        · rw [if_pos hsame]
      · next hne =>
        split at h
        · cases h
        · next middle hwrite =>
          split at h
          · next m hrest =>
            cases h
            refine ⟨place, s, fixed, middle, m, hplace, hfile, hfixed, ?_, hrest, ?_⟩
            · exact Workspace.replaced_of_write hplace hfile hne hwrite
            · rw [if_neg hne]
          · cases h

/-- Edits whose ends fit never stop the program, whatever the files hold. -/
theorem editFiles_ne_overflow
    (hfits : ∀ f ∈ findings, ∀ e, f.edit? = some e → e.fits = true) (root : Path)
    (w : Workspace) (files : List Path) :
    (editFiles root findings w files).2 ≠ .error .overflow := by
  have hfixed : ∀ file s, ∃ fixed,
      Finding.applyRemedies? s (findingsAbout root file findings) = some fixed := by
    intro file s
    refine Edit.exists_applyAll? s fun e he => ?_
    obtain ⟨f, hf, hedit⟩ := List.mem_filterMap.1 he
    exact hfits f (List.mem_filter.1 hf).1 e hedit
  induction files generalizing w with
  | nil => simp [editFiles]
  | cons file files ih =>
    rw [editFiles]
    split
    · simp
    · next s _ =>
      obtain ⟨fixed, hs⟩ := hfixed file s
      rw [hs]
      dsimp only
      split
      · exact ih w
      · split
        · simp
        · next next _ =>
          -- The rest of the run decides.
          have hrest := ih next
          split
          · simp
          · next e herror =>
            rw [herror] at hrest
            exact hrest

/-! ## A list of files -/

/-- A run that counts no change leaves the workspace as it is. -/
theorem eq_of_editFiles_eq_zero (h : editFiles root findings w files = (w', .ok 0)) : w' = w := by
  induction files generalizing w with
  | nil =>
    cases h
    rfl
  | cons file files ih =>
    obtain ⟨place, s, fixed, middle, m, -, hfile, -, hstep, hrest, hm⟩ :=
      exists_of_editFiles_cons h
    -- A change would count, so that the text was rewritten to itself.
    split at hm
    · next hsame =>
      subst hm
      rw [ih hrest, hstep.same (by rw [hfile, hsame])]
    · cases hm

/-- What a run never touches: shape, surroundings, and the places that no path leads to. -/
structure Kept (w : Workspace) (files : List Path) (w' : Workspace) : Prop where
  shape : w.files.SameShape w'.files
  rest : w' = { w with files := w'.files }
  frame : ∀ place, (∀ file ∈ files, w.leadsTo file place = false) →
    w'.files.file? place = w.files.file? place

/-- A run that edits files keeps everything but the contents of these files. -/
theorem kept_of_editFiles (h : editFiles root findings w files = (w', .ok n)) :
    Kept w files w' := by
  induction files generalizing w n with
  | nil =>
    cases h
    exact ⟨.refl _, rfl, fun _ _ => rfl⟩
  | cons file files ih =>
    obtain ⟨place, _, _, middle, m, hplace, -, -, hstep, hrest, -⟩ := exists_of_editFiles_cons h
    obtain ⟨hshape, hsurroundings, hframe⟩ := ih hrest
    refine ⟨hstep.shape.trans hshape, ?_, fun other hother => ?_⟩
    · rw [hsurroundings, hstep.rest]
    · -- This step writes to a place that its path leads to.
      have hne : other ≠ place := by
        rintro rfl
        rw [hother file List.mem_cons_self] at hplace
        cases hplace
      rw [hframe other fun f hf => ?_, hstep.elsewhere other hne]
      rw [hstep.leadsTo]
      exact hother f (List.mem_cons_of_mem file hf)

/-- The effect of a run on files that lie at different places. -/
structure Edited (root : Path) (findings : List Finding) (w : Workspace) (files : List Path)
    (w' : Workspace) (n : Nat) : Prop where
  fixed : ∀ file ∈ files, ∃ place s text, w.leadsTo file place = true ∧
    w.files.file? place = some (.text s) ∧
    Finding.applyRemedies? s (findingsAbout root file findings) = some text ∧
    w'.files.file? place = some (.text text)
  count : {place | w'.files.file? place ≠ w.files.file? place}.encard = n

/-- If no two paths lead to one place, each file gets its own edits, once. -/
theorem edited_of_editFiles
    (hapart : files.Pairwise fun a b => ∀ place, w.leadsTo a place = true →
      w.leadsTo b place = false)
    (h : editFiles root findings w files = (w', .ok n)) :
    Edited root findings w files w' n := by
  induction files generalizing w n with
  | nil =>
    cases h
    exact ⟨by simp, by simp⟩
  | cons file files ih =>
    obtain ⟨place, s, text, middle, m, hplace, hfile, htext, hstep, hrest, hn⟩ :=
      exists_of_editFiles_cons h
    obtain ⟨hfirst, hothers⟩ := List.pairwise_cons.1 hapart
    obtain ⟨hfixed, hcount⟩ := ih (by simpa only [hstep.leadsTo] using hothers) hrest
    -- No later file lies here, so that what this step wrote stays.
    have hhere : w'.files.file? place = some (.text text) := by
      rw [(kept_of_editFiles hrest).frame place fun f hf => ?_, hstep.here]
      rw [hstep.leadsTo]
      exact hfirst f hf place hplace
    constructor
    · intro f hf
      rcases List.mem_cons.1 hf with rfl | hf
      · exact ⟨place, s, text, hplace, hfile, htext, hhere⟩
      · obtain ⟨other, s', text', hother, hfile', htext', hnew⟩ := hfixed f hf
        rw [hstep.leadsTo] at hother
        have hne : other ≠ place := by
          rintro rfl
          rw [hfirst f hf other hplace] at hother
          cases hother
        rw [hstep.elsewhere other hne] at hfile'
        exact ⟨other, s', text', hother, hfile', htext', hnew⟩
    · -- The place joins those that later steps change, if its own text changes.
      by_cases hsame : text = s
      · rw [if_pos hsame] at hn
        rw [hstep.same (by rw [hfile, hsame])] at hcount
        rw [hn]
        exact hcount
      · rw [if_neg hsame] at hn
        rw [hstep.encard_changed (by simpa [hfile] using fun h => hsame h.symm) hhere, hcount, hn,
          Nat.cast_add, Nat.cast_one]

/-! ## The files of a report -/

theorem mem_of_mem_dropSamePaths {paths : List Path} {p : Path} (h : p ∈ dropSamePaths paths) :
    p ∈ paths := by
  induction paths with
  | nil => exact h
  | cons q paths ih =>
    unfold dropSamePaths at h
    split at h
    · exact List.mem_singleton.1 h ▸ List.mem_cons_self
    · next next rest hrest =>
      rw [hrest] at ih
      have hmem : p = q ∨ p ∈ next :: rest := by
        split at h <;> grind
      rcases hmem with rfl | hmem
      · exact List.mem_cons_self
      · exact List.mem_cons_of_mem q (ih hmem)

/-- Every path is still there in one with the same components. -/
theorem exists_sameAs_of_mem {paths : List Path} {p : Path} (h : p ∈ paths) :
    ∃ q ∈ dropSamePaths paths, p.sameAs q = true := by
  induction paths with
  | nil => cases h
  | cons first paths ih =>
    have hself : ∀ q : Path, q.sameAs q = true := fun q => Path.sameAs_iff.2 rfl
    unfold dropSamePaths
    split
    · next hnil =>
      rcases List.mem_cons.1 h with rfl | h
      · exact ⟨p, List.mem_singleton_self p, hself p⟩
      · obtain ⟨q, hq, -⟩ := ih h
        rw [hnil] at hq
        cases hq
    · next next rest hrest =>
      rw [hrest] at ih
      rcases List.mem_cons.1 h with rfl | h
      · exact ⟨p, by split <;> exact List.mem_cons_self, hself p⟩
      · obtain ⟨q, hq, hsame⟩ := ih h
        split
        · next hdouble =>
          rcases List.mem_cons.1 hq with rfl | hq
          · -- The path that stood for it gave way to its neighbour.
            refine ⟨first, List.mem_cons_self, ?_⟩
            rw [Path.sameAs_iff] at hdouble hsame ⊢
            rw [hsame, hdouble]
          · exact ⟨q, List.mem_cons_of_mem first hq, hsame⟩
        · exact ⟨q, List.mem_cons_of_mem first hq, hsame⟩

/-- In a sorted list equal paths are neighbours, so that none is left twice. -/
theorem strict_dropSamePaths {paths : List Path}
    (h : paths.Pairwise fun a b => (a.compare b).isLE = true) :
    (dropSamePaths paths).Pairwise fun a b => a.compare b = .lt := by
  induction paths with
  | nil => exact List.Pairwise.nil
  | cons first paths ih =>
    obtain ⟨hfirst, hothers⟩ := List.pairwise_cons.1 h
    have ih := ih hothers
    unfold dropSamePaths
    split
    · exact List.pairwise_singleton _ _
    · next next rest hrest =>
      rw [hrest] at ih
      obtain ⟨hnext, htail⟩ := List.pairwise_cons.1 ih
      have hle : (first.compare next).isLE = true :=
        hfirst next (mem_of_mem_dropSamePaths (hrest ▸ List.mem_cons_self))
      split
      · next hsame =>
        -- The first path takes the place of its neighbour in the order.
        refine List.pairwise_cons.2 ⟨fun p hp => ?_, htail⟩
        rw [Path.compare_congr_left hsame]
        exact hnext p hp
      · next hdiffer =>
        have hlt : first.compare next = .lt :=
          Path.compare_lt_of_isLE hle (Bool.not_eq_true _ ▸ hdiffer)
        refine List.pairwise_cons.2 ⟨fun p hp => ?_, ih⟩
        rcases List.mem_cons.1 hp with rfl | hp
        · exact hlt
        · exact Path.compare_lt_trans hlt (hnext p hp)

/-- A file is edited only if a finding in it has an edit. -/
theorem exists_of_mem_filesToEdit (h : file ∈ filesToEdit root findings) :
    ∃ f ∈ findings, f.edit?.isSome = true ∧ fileOf root f = file := by
  have hmem := List.mem_mergeSort.1 (mem_of_mem_dropSamePaths h)
  obtain ⟨f, hf, rfl⟩ := List.mem_map.1 hmem
  obtain ⟨hf, hedit⟩ := List.mem_filter.1 hf
  exact ⟨f, hf, hedit, rfl⟩

theorem exists_mem_filesToEdit (root : Path) {f : Finding} (hf : f ∈ findings)
    (hedit : f.edit?.isSome = true) :
    ∃ file ∈ filesToEdit root findings, (fileOf root f).sameAs file = true :=
  exists_sameAs_of_mem
    (List.mem_mergeSort.2 (List.mem_map_of_mem (List.mem_filter.2 ⟨hf, hedit⟩)))

/-- No file is edited twice. -/
theorem pairwise_filesToEdit (root : Path) (findings : List Finding) :
    (filesToEdit root findings).Pairwise fun a b => a.sameAs b = false := by
  refine (strict_dropSamePaths (Path.sorted_mergeSort_compare _)).imp fun {a b} hlt => ?_
  by_contra hsame
  rw [Path.compare_eq_iff.2 (by simpa using hsame)] at hlt
  cases hlt

/-! ## The effect of a report -/

/-- The findings whose file lies at a place. -/
def findingsAt (w : Workspace) (root : Path) (findings : List Finding) (place : Place) :
    List Finding :=
  findings.filter fun f => w.leadsTo (fileOf root f) place

/-- Findings whose files have the same components just when they lie at the same place. -/
def ToldApart (w : Workspace) (root : Path) (findings : List Finding) : Prop :=
  ∀ f ∈ findings, ∀ g ∈ findings, ∀ place, w.leadsTo (fileOf root f) place = true →
    (w.leadsTo (fileOf root g) place = true ↔ (fileOf root g).sameAs (fileOf root f) = true)

/-- Grouping by components gives every place the edits of the findings there. -/
theorem applyRemedies?_findingsAbout (hapart : ToldApart w root findings) {f : Finding}
    (hf : f ∈ findings) {place : Place} (hplace : w.leadsTo (fileOf root f) place = true)
    (s : String) :
    Finding.applyRemedies? s (findingsAbout root (fileOf root f) findings) =
      Finding.applyRemedies? s (findingsAt w root findings place) := by
  have hedits : (findingsAbout root (fileOf root f) findings).filterMap Finding.edit? =
      (findingsAt w root findings place).filterMap Finding.edit? := by
    unfold findingsAbout findingsAt
    rw [List.filterMap_filter, List.filterMap_filter]
    -- A finding without an edit adds nothing on either side.
    refine List.filterMap_congr fun g hg => ?_
    have hsame : w.leadsTo (fileOf root g) place = (fileOf root g).sameAs (fileOf root f) :=
      Bool.eq_iff_iff.2 (hapart f hf g hg place hplace)
    rw [hsame]
    cases g.edit? <;> simp
  rw [Finding.applyRemedies?, Finding.applyRemedies?, hedits]

/-- Files with different components lie at different places. -/
theorem pairwise_places (hapart : ToldApart w root findings) :
    (filesToEdit root findings).Pairwise fun a b => ∀ place, w.leadsTo a place = true →
      w.leadsTo b place = false := by
  refine (pairwise_filesToEdit root findings).imp_of_mem ?_
  intro a b ha hb hdiffer place hplace
  obtain ⟨f, hf, -, rfl⟩ := exists_of_mem_filesToEdit ha
  obtain ⟨g, hg, -, rfl⟩ := exists_of_mem_filesToEdit hb
  by_contra hboth
  have hsame := (hapart f hf g hg place hplace).1 (by simpa using hboth)
  rw [Path.sameAs_iff] at hsame
  rw [Path.sameAs_iff.2 hsame.symm] at hdiffer
  cases hdiffer

/-- A successful run over the files of a report gives each of them the edits of its own findings,
keeps all others, and counts those that differ. -/
theorem effect_of_editFiles (hapart : ToldApart w root findings)
    (h : editFiles root findings w (filesToEdit root findings) = (w', .ok n)) :
    (∀ f ∈ findings, f.edit?.isSome = true → ∃ place, w.leadsTo (fileOf root f) place = true) ∧
      (∀ place, (∀ f ∈ findingsAt w root findings place, f.edit? = none) →
        w'.files.file? place = w.files.file? place) ∧
      (∀ place, (∃ f ∈ findingsAt w root findings place, f.edit?.isSome = true) →
        ∃ s fixed, w.files.file? place = some (.text s) ∧
          Finding.applyRemedies? s (findingsAt w root findings place) = some fixed ∧
          w'.files.file? place = some (.text fixed)) ∧
      {place | w'.files.file? place ≠ w.files.file? place}.encard = n := by
  obtain ⟨hfixed, hcount⟩ := edited_of_editFiles (pairwise_places hapart) h
  -- Each finding with an edit has its file among those that were edited.
  have hfindings : ∀ f ∈ findings, f.edit?.isSome = true → ∃ place s fixed,
      w.leadsTo (fileOf root f) place = true ∧ w.files.file? place = some (.text s) ∧
      Finding.applyRemedies? s (findingsAt w root findings place) = some fixed ∧
      w'.files.file? place = some (.text fixed) := by
    intro f hf hedit
    obtain ⟨file, hfile, hsame⟩ := exists_mem_filesToEdit root hf hedit
    obtain ⟨place, s, fixed, hplace, hold, htext, hnew⟩ := hfixed file hfile
    obtain ⟨g, hg, -, rfl⟩ := exists_of_mem_filesToEdit hfile
    rw [applyRemedies?_findingsAbout hapart hg hplace] at htext
    exact ⟨place, s, fixed, (hapart g hg f hf place hplace).2 hsame, hold, htext, hnew⟩
  refine ⟨fun f hf hedit => ?_, fun place hnone => ?_, ?_, hcount⟩
  · obtain ⟨place, -, -, hplace, -⟩ := hfindings f hf hedit
    exact ⟨place, hplace⟩
  · refine (kept_of_editFiles h).frame place fun file hfile => ?_
    obtain ⟨f, hf, hedit, rfl⟩ := exists_of_mem_filesToEdit hfile
    by_contra hplace
    rw [hnone f (List.mem_filter.2 ⟨hf, by simpa using hplace⟩)] at hedit
    cases hedit
  · rintro place ⟨f, hf, hedit⟩
    obtain ⟨hf, hplace⟩ := List.mem_filter.1 hf
    obtain ⟨other, s, fixed, hother, hold, htext, hnew⟩ := hfindings f hf hedit
    obtain rfl := Workspace.leadsTo_unique hplace hother
    exact ⟨s, fixed, hold, htext, hnew⟩

end ModulePurity.Command
