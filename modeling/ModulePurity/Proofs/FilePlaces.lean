import Mathlib.Data.List.Nodup
import ModulePurity.Proofs.PathJoin

/-!
# Files, their places and paths to them

Facts about file trees that do not depend on what the files hold:

* two trees of the same shape have files and folders at the same places, so that every path leads to
  the same place in both (`SameShape.follow`);
* overwriting a file keeps the shape and every other file (`sameShape_put`, `file?_put_of_ne`);
* an absolute path that can be followed leads to the place that its components spell out, whatever
  is in the tree (`follow_eq_destination`).
-/

namespace ModulePurity

namespace FileTree

/-! ## Trees of the same shape -/

/-- Two trees with files and folders at the same places. -/
structure SameShape (t u : FileTree) : Prop where
  places : u.files.map Prod.fst = t.files.map Prod.fst
  folders : u.folders = t.folders

theorem SameShape.refl (t : FileTree) : SameShape t t := ⟨rfl, rfl⟩

theorem SameShape.trans {t u v : FileTree} (htu : SameShape t u) (huv : SameShape u v) :
    SameShape t v :=
  ⟨huv.places.trans htu.places, huv.folders.trans htu.folders⟩

/-- Whether there is a file at a place can be read off the places alone. -/
theorem isSome_file? (t : FileTree) (place : Place) :
    (t.file? place).isSome = (t.files.map Prod.fst).contains place := by
  unfold file?
  induction t.files with
  | nil => rfl
  | cons entry entries ih =>
    rw [List.find?_cons, List.map_cons, List.contains_cons]
    by_cases hplace : entry.1 = place
    · simp [hplace]
    · have hfirst : (entry.1 == place) = false := by simpa using hplace
      have hsecond : (place == entry.1) = false := by simpa using fun h => hplace h.symm
      rw [hfirst, hsecond, Bool.false_or]
      exact ih

section

variable {t u : FileTree} (h : SameShape t u)

include h

theorem SameShape.isSome_file? (place : Place) :
    (u.file? place).isSome = (t.file? place).isSome := by
  rw [FileTree.isSome_file?, FileTree.isSome_file?, h.places]

theorem SameShape.isFolderAt (place : Place) : u.isFolderAt place = t.isFolderAt place := by
  have hfiles : ∀ v : FileTree,
      (v.files.any fun entry => place.isPrefixOf entry.1 && place != entry.1) =
        (v.files.map Prod.fst).any fun other => place.isPrefixOf other && place != other := by
    intro v
    rw [List.any_map]
    rfl
  unfold FileTree.isFolderAt
  rw [hfiles u, hfiles t, h.places, h.folders]

/-- A step along a path goes to the same place in trees of one shape, or fails in both. -/
theorem SameShape.enter (place : Place) (segment : List Char) :
    u.enter place segment = t.enter place segment := by
  unfold FileTree.enter
  rw [h.isFolderAt, h.isSome_file?]

theorem SameShape.enterAll (place : Place) (segments : List (List Char)) :
    u.enterAll place segments = t.enterAll place segments := by
  induction segments generalizing place with
  | nil => rfl
  | cons s ss ih =>
    rw [FileTree.enterAll, FileTree.enterAll, h.enter]
    cases t.enter place s with
    | error e => rfl
    | ok next => exact ih next

/-- Every path leads to the same place in trees of the same shape. -/
theorem SameShape.follow (base : Place) (p : Path) : u.follow base p = t.follow base p := by
  unfold FileTree.follow
  split
  · rfl
  · split
    · rfl
    · split <;> simp only [h.enterAll]

theorem SameShape.isFile (base : Place) (p : Path) : u.isFile base p = t.isFile base p := by
  unfold FileTree.isFile
  rw [h.follow]
  cases t.follow base p with
  | error e => rfl
  | ok place => exact h.isSome_file? place

end

/-! ## Overwriting a file -/

/-- Putting a text where there is a file replaces what the file holds and keeps all places. -/
theorem files_put {t : FileTree} {place : Place} (content : Content)
    (h : (t.file? place).isSome = true) :
    (t.put place content).files =
      t.files.map fun entry => if entry.1 == place then (place, content) else entry :=
  if_pos h

theorem file?_put_self {t : FileTree} {place : Place} {content : Content}
    (h : (t.file? place).isSome = true) : (t.put place content).file? place = some content := by
  rw [file?, files_put content h]
  rw [FileTree.isSome_file?] at h
  -- The first entry for the place is replaced, and no earlier one is about it.
  generalize t.files = entries at h
  induction entries with
  | nil => cases h
  | cons entry entries ih =>
    rw [List.map_cons, List.find?_cons]
    by_cases hplace : entry.1 = place
    · simp [hplace]
    · have hfirst : (entry.1 == place) = false := by simpa using hplace
      have hsecond : (place == entry.1) = false := by simpa using fun heq => hplace heq.symm
      have hrest : (entries.map Prod.fst).contains place = true := by
        rwa [List.map_cons, List.contains_cons, hsecond, Bool.false_or] at h
      rw [hfirst, if_neg Bool.false_ne_true, hfirst]
      exact ih hrest

theorem file?_put_of_ne {t : FileTree} {place other : Place} {content : Content}
    (h : (t.file? place).isSome = true) (hne : other ≠ place) :
    (t.put place content).file? other = t.file? other := by
  rw [file?, files_put content h, file?]
  clear h
  generalize t.files = entries
  induction entries with
  | nil => rfl
  | cons entry entries ih =>
    rw [List.map_cons, List.find?_cons, List.find?_cons]
    by_cases hplace : entry.1 = place
    · have hother : (place == other) = false := by simpa using fun heq => hne heq.symm
      have hfirst : (entry.1 == place) = true := by simpa using hplace
      rw [hfirst, if_pos rfl, hplace, hother]
      exact ih
    · have hfirst : (entry.1 == place) = false := by simpa using hplace
      rw [hfirst, if_neg Bool.false_ne_true]
      cases entry.1 == other with
      | true => rfl
      | false => exact ih

/-- To give a file a new content does not change the shape of a tree. -/
theorem sameShape_put {t : FileTree} {place : Place} (content : Content)
    (h : (t.file? place).isSome = true) : SameShape t (t.put place content) := by
  refine ⟨?_, rfl⟩
  rw [files_put content h, List.map_map]
  refine List.map_congr_left fun entry _ => ?_
  by_cases hplace : entry.1 = place
  · simp [hplace]
  · simp [hplace]

/-! ## Reading and writing -/

/-- A text that was read is what the file at the place of the path holds. -/
theorem read_eq_ok_iff {t : FileTree} {base : Place} {p : Path} {s : String} :
    t.read base p = .ok s ↔
      ∃ place, t.follow base p = .ok place ∧ t.file? place = some (.text s) := by
  unfold read
  cases t.follow base p with
  | error e => simp
  | ok place =>
    cases hfile : t.file? place with
    | none => simp [hfile]
    | some content => cases content <;> simp [hfile]

/-- Writing succeeds by putting the text at the place that the path leads to. -/
theorem of_write_eq_ok {t u : FileTree} {base place : Place} {p : Path} {s : String}
    (hplace : t.follow base p = .ok place) (h : t.write base p s = .ok u) :
    u = t.put place (.text s) := by
  unfold write at h
  rw [hplace] at h
  dsimp only at h
  split at h
  · cases h
  · exact (Except.ok.inj h).symm

/-! ## Where an absolute path leads -/

/-- One step along a path. -/
def stepTo (place : Place) : Component → Place
  | .name s => place ++ [s]
  | .parent => place.dropLast
  | _ => place

/-- The place that the components of an absolute path spell out. -/
def destination (p : Path) : Place := p.components.foldl stepTo []

/-- A step that succeeds goes where the component of the segment says. -/
theorem enter_eq_stepTo {t : FileTree} {place next : Place} {segment : List Char}
    (h : t.enter place segment = .ok next) :
    next = (Path.segmentComponent? segment).toList.foldl stepTo place := by
  unfold enter at h
  split at h
  · unfold Path.segmentComponent? at h ⊢
    split at h
    · next hvoid =>
      split at hvoid
      · next htrue =>
        cases h
        rw [if_pos htrue]
        rfl
      · split at hvoid <;> cases hvoid
    · next name hname =>
      rw [hname]
      split at h
      · cases h
      · exact (Except.ok.inj h).symm
    · next c hname hc =>
      rw [hc]
      cases h
      -- A segment is never the root or `.`, so it goes up.
      split at hc
      · cases hc
      · split at hc
        · cases hc
          rfl
        · cases hc
          exact absurd rfl (hname _)
  · split at h <;> cases h

/-- A way that succeeds goes where its components say, one after another. -/
theorem enterAll_eq_foldl {t : FileTree} {place last : Place} {segments : List (List Char)}
    (h : t.enterAll place segments = .ok last) :
    last = (segments.filterMap Path.segmentComponent?).foldl stepTo place := by
  induction segments generalizing place with
  | nil => exact (Except.ok.inj h).symm
  | cons s ss ih =>
    unfold enterAll at h
    split at h
    · next next hnext =>
      rw [ih h, enter_eq_stepTo hnext, ← List.foldl_append]
      cases hs : Path.segmentComponent? s with
      | none => rw [List.filterMap_cons_none hs]; rfl
      | some c => rw [List.filterMap_cons_some hs]; rfl
    · cases h

/-- The base folder does not matter for an absolute path. -/
theorem follow_of_isAbsolute (t : FileTree) {p : Path} (hp : p.isAbsolute = true)
    (base base' : Place) : t.follow base p = t.follow base' p := by
  obtain ⟨rest, hrest⟩ := Path.exists_of_isAbsolute hp
  unfold follow
  rw [hrest]
  rfl

/-- An absolute path is read in the same way from every base folder. -/
theorem read_of_isAbsolute (t : FileTree) {p : Path} (hp : p.isAbsolute = true)
    (base base' : Place) : t.read base p = t.read base' p := by
  rw [read, read, t.follow_of_isAbsolute hp base base']

/-- An absolute path that can be followed leads where its components say. -/
theorem follow_eq_destination {t : FileTree} {base place : Place} {p : Path}
    (hp : p.isAbsolute = true) (h : t.follow base p = .ok place) : place = destination p := by
  obtain ⟨rest, hrest⟩ := Path.exists_of_isAbsolute hp
  unfold follow at h
  rw [hrest] at h
  split at h
  · cases h
  · split at h
    · cases h
    · rw [destination, Path.components_of_toList hrest]
      exact enterAll_eq_foldl h

theorem foldl_stepTo_names (place : Place) (names : Place) :
    (names.map Component.name).foldl stepTo place = place ++ names := by
  induction names generalizing place with
  | nil => exact (List.append_nil _).symm
  | cons name names ih =>
    rw [List.map_cons, List.foldl_cons, ih, stepTo, List.append_assoc, List.singleton_append]

/-! ## Files below a folder -/

/-- Files at different places are seen differently from a folder above them. -/
theorem nodup_below {t : FileTree} (h : (t.files.map Prod.fst).Nodup) (folder : Place) :
    (t.below folder).Nodup := by
  have hplaces : t.below folder = (t.files.map Prod.fst).filterMap fun place =>
      if folder.isPrefixOf place && folder != place then some (place.drop folder.length)
      else none := by
    rw [List.filterMap_map]
    rfl
  rw [hplaces]
  refine List.Nodup.filterMap (fun a b rest ha hb => ?_) h
  have hsplit : ∀ place, rest ∈ (if folder.isPrefixOf place && folder != place then
      some (place.drop folder.length) else none) → place = folder ++ rest := by
    intro place hrest
    split at hrest
    · next hbelow =>
      obtain ⟨tail, rfl⟩ := List.isPrefixOf_iff_prefix.1 (Bool.and_eq_true_iff.1 hbelow).1
      cases hrest
      rw [List.drop_left]
    · cases hrest
  rw [hsplit a ha, hsplit b hb]

/-! ## Well-named trees -/

/-- A tree in which every file has names on its way that can be told apart in a path. -/
def WellNamed (t : FileTree) : Prop :=
  ∀ entry ∈ t.files, ∀ name ∈ entry.1, Path.IsName name

instance (t : FileTree) : Decidable t.WellNamed :=
  inferInstanceAs (Decidable (∀ entry ∈ t.files, ∀ name ∈ entry.1, Path.IsName name))

/-- What every real tree is like: names can be told apart in a path, and there is one file at most
at a place. -/
structure Proper (t : FileTree) : Prop where
  named : t.WellNamed
  once : (t.files.map Prod.fst).Nodup

/-- In a well-named tree, what leads down from a folder to a file are names. -/
theorem WellNamed.isName_of_mem_below {t : FileTree} (h : t.WellNamed) {folder rest : Place}
    (hrest : rest ∈ t.below folder) {name : String} (hname : name ∈ rest) : Path.IsName name := by
  unfold below at hrest
  obtain ⟨entry, hentry, hsome⟩ := List.mem_filterMap.1 hrest
  split at hsome
  · cases hsome
    exact h entry hentry name (List.mem_of_mem_drop hname)
  · cases hsome

/-- Putting a file where a path leads keeps the tree well-named. -/
theorem WellNamed.put {t : FileTree} (h : t.WellNamed) (p : Path) (content : Content) :
    (t.put p.place content).WellNamed := by
  have hplace : ∀ name ∈ p.place, Path.IsName name := fun name hname =>
    Path.isName_of_mem_place hname
  intro entry hentry
  unfold FileTree.put at hentry
  dsimp only at hentry
  split at hentry
  · obtain ⟨old, hold, rfl⟩ := List.mem_map.1 hentry
    split
    · exact hplace
    · exact h old hold
  · rcases List.mem_append.1 hentry with hold | hnew
    · exact h entry hold
    · rw [List.mem_singleton.1 hnew]
      exact hplace

end FileTree

end ModulePurity
