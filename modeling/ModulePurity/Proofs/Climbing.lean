import ModulePurity.Proofs.FilePlaces
import ModulePurity.Proofs.LastName

/-!
# Where the components of a path lead

A path is followed segment by segment, but only its components matter: a void segment needs a folder
to start from, and so does whatever comes after it. So void segments may be left out
(`climb_of_follow`), and put in as long as another component follows (`enterAll_of_climb`) or the way
ends at a folder (`enterAll_of_climb_folder`). What is left of the text is that it must not be too
long, and a name below a folder can be opened if it can be below a folder whose path goes on
(`Openable.join_name`).
-/

namespace ModulePurity

namespace FileTree

/-! ## Following components -/

/-- A segment that a component is written with. -/
def segment : Component → List Char
  | .name s => s.toList
  | .parent => ['.', '.']
  | _ => []

theorem segment_of_segmentComponent? {s : List Char} {c : Component}
    (h : Path.segmentComponent? s = some c) : segment c = s := by
  unfold Path.segmentComponent? at h
  split at h
  · cases h
  · split at h
    · next hparent =>
      cases h
      exact (beq_iff_eq.1 hparent).symm
    · cases h
      exact String.toList_ofList

/-- Follows components one after another. -/
def climb (t : FileTree) (place : Place) (cs : List Component) : Except FileFault Place :=
  t.enterAll place (cs.map segment)

variable {t : FileTree}

theorem enterAll_append {place : Place} {front rest : List (List Char)} {last : Place} :
    t.enterAll place (front ++ rest) = .ok last ↔
      ∃ next, t.enterAll place front = .ok next ∧ t.enterAll next rest = .ok last := by
  induction front generalizing place with
  | nil => exact ⟨fun h => ⟨place, rfl, h⟩, fun ⟨next, hnext, h⟩ => Except.ok.inj hnext ▸ h⟩
  | cons s ss ih =>
    rw [List.cons_append, enterAll, enterAll]
    cases t.enter place s with
    | error e => simp
    | ok next => exact ih

/-- A void segment stays in the folder, and needs it to be one. -/
theorem enter_of_isVoid {place : Place} {s : List Char} (h : Path.isVoid s = true) {last : Place} :
    t.enter place s = .ok last ↔ t.isFolderAt place = true ∧ last = place := by
  unfold enter
  rw [Path.segmentComponent?_of_isVoid h]
  split
  · next hfolder => simp [hfolder, eq_comm]
  · next hfolder => split <;> simp [hfolder]

/-- A step succeeds only from a folder. -/
theorem isFolderAt_of_enter {place last : Place} {s : List Char} (h : t.enter place s = .ok last) :
    t.isFolderAt place = true := by
  unfold enter at h
  split at h
  · assumption
  · split at h <;> cases h

/-- Only a folder can be entered. -/
theorem isFolderAt_of_enterAll {place last : Place} {segments : List (List Char)}
    (h : t.enterAll place segments = .ok last) (hne : segments ≠ []) :
    t.isFolderAt place = true := by
  obtain ⟨s, ss, rfl⟩ := List.exists_cons_of_ne_nil hne
  rw [enterAll] at h
  split at h
  · next hnext => exact isFolderAt_of_enter hnext
  · cases h

/-- Void segments may be left out. -/
theorem climb_of_enterAll {place last : Place} {segments : List (List Char)}
    (h : t.enterAll place segments = .ok last) :
    t.climb place (segments.filterMap Path.segmentComponent?) = .ok last := by
  induction segments generalizing place with
  | nil => exact h
  | cons s ss ih =>
    rw [enterAll] at h
    split at h
    · next next hnext =>
      cases hs : Path.isVoid s with
      | true =>
        rw [List.filterMap_cons_none (Path.segmentComponent?_of_isVoid hs)]
        exact ih ((enter_of_isVoid hs).1 hnext |>.2 ▸ h)
      | false =>
        obtain ⟨c, hc⟩ := Path.exists_segmentComponent? hs
        rw [List.filterMap_cons_some hc, climb, List.map_cons, segment_of_segmentComponent? hc,
          enterAll, hnext]
        exact ih h
    · cases h

/-- Void segments may be put in, as long as another component follows. -/
theorem enterAll_of_climb {place last : Place} {segments : List (List Char)} {c : Component}
    (h : t.climb place (segments.filterMap Path.segmentComponent? ++ [c]) = .ok last) :
    t.enterAll place (segments ++ [segment c]) = .ok last := by
  induction segments generalizing place with
  | nil => exact h
  | cons s ss ih =>
    cases hs : Path.isVoid s with
    | true =>
      rw [List.filterMap_cons_none (Path.segmentComponent?_of_isVoid hs)] at h
      -- What follows starts from the same place, which has to be a folder.
      have hrest := ih h
      have hfolder := isFolderAt_of_enterAll hrest (by simp)
      rw [List.cons_append, enterAll, (enter_of_isVoid hs).2 ⟨hfolder, rfl⟩]
      exact hrest
    | false =>
      obtain ⟨c, hc⟩ := Path.exists_segmentComponent? hs
      rw [List.filterMap_cons_some hc, List.cons_append, climb, List.map_cons,
        segment_of_segmentComponent? hc, enterAll] at h
      rw [List.cons_append, enterAll]
      split at h
      · next next hnext => exact ih h
      · cases h

/-- On the way to a folder void segments may be put in everywhere. -/
theorem enterAll_of_climb_folder {place last : Place} {segments : List (List Char)}
    (h : t.climb place (segments.filterMap Path.segmentComponent?) = .ok last)
    (hfolder : t.isFolderAt last = true) : t.enterAll place segments = .ok last := by
  induction segments generalizing place with
  | nil => exact h
  | cons s ss ih =>
    cases hs : Path.isVoid s with
    | true =>
      rw [List.filterMap_cons_none (Path.segmentComponent?_of_isVoid hs)] at h
      have hrest := ih h
      have hplace : t.isFolderAt place = true := by
        by_cases hnil : ss = []
        · rw [hnil] at hrest
          rw [Except.ok.inj hrest]
          exact hfolder
        · exact isFolderAt_of_enterAll hrest hnil
      rw [enterAll, (enter_of_isVoid hs).2 ⟨hplace, rfl⟩]
      exact hrest
    | false =>
      obtain ⟨c, hc⟩ := Path.exists_segmentComponent? hs
      rw [List.filterMap_cons_some hc, climb, List.map_cons, segment_of_segmentComponent? hc,
        enterAll] at h
      rw [enterAll]
      split at h
      · next next hnext => exact ih h
      · cases h

/-! ## Following paths -/

/-- A path that the file system takes. -/
def Openable (p : Path) : Prop :=
  '\x00' ∉ p.text.toList ∧ p.text.utf8ByteSize ≤ pathLimit

/-- Where a path starts. -/
def origin (base : Place) (p : Path) : Place :=
  if p.isAbsolute then [] else base

/-- A leading `.` may be followed as an empty segment. -/
theorem enterAll_fields {p : Path} (hp : p.isAbsolute = false) (place : Place) :
    t.enterAll place (Text.fields '/' p.text.toList) = t.enterAll place p.parts.body := by
  unfold Path.parts Path.Parts.ofChars
  split
  · next rest htext =>
    rw [Path.isAbsolute_of_toList htext] at hp
    cases hp
  · next htext => rw [htext]; rfl
  · next rest htext =>
    rw [htext, show '.' :: '/' :: rest = ['.'] ++ '/' :: rest from rfl, Text.fields_append]
    rfl
  · rfl

/-- A path that the file system takes is followed segment by segment. -/
theorem follow_eq_ok_iff {base last : Place} {p : Path} :
    t.follow base p = .ok last ↔
      Openable p ∧ p.text.toList ≠ [] ∧ t.enterAll (origin base p) p.parts.body = .ok last := by
  unfold follow Openable origin
  by_cases hnul : '\x00' ∈ p.text.toList
  · rw [if_pos (List.contains_iff_mem.2 hnul)]
    exact iff_of_false (by simp) fun h => h.1.1 hnul
  rw [if_neg (fun hcontains => hnul (List.contains_iff_mem.1 hcontains))]
  by_cases hlong : pathLimit < p.text.utf8ByteSize
  · rw [if_pos hlong]
    exact iff_of_false (by simp) fun h => Nat.not_lt.2 h.1.2 hlong
  rw [if_neg hlong, and_iff_right ⟨hnul, Nat.le_of_not_lt hlong⟩]
  cases habsolute : p.isAbsolute with
  | true =>
    obtain ⟨rest, hrest⟩ := Path.exists_of_isAbsolute habsolute
    rw [Path.parts_of_toList hrest, hrest]
    exact (and_iff_right (by simp)).symm
  | false =>
    rw [← enterAll_fields habsolute, if_neg Bool.false_ne_true]
    split
    · next htext => exact iff_of_false (by simp) fun h => h.1 htext
    · next rest htext =>
      rw [Path.isAbsolute_of_toList htext] at habsolute
      cases habsolute
    · next hne _ => exact (and_iff_right hne).symm

/-- Where a path leads to, climbing along its components gets to as well. -/
theorem climb_of_follow {base last : Place} {p : Path} (h : t.follow base p = .ok last) :
    t.climb (origin base p) p.tailComponents = .ok last :=
  climb_of_enterAll (follow_eq_ok_iff.1 h).2.2

/-- A name below a folder is reached over the components of the folder. -/
theorem follow_join_name {base last : Place} {r : Path} {name : String} (hname : Path.IsName name)
    (hopenable : Openable (r.join ⟨name⟩))
    (h : t.climb (origin base r) (r.tailComponents ++ [.name name]) = .ok last) :
    t.follow base (r.join ⟨name⟩) = .ok last := by
  obtain ⟨front, hparts, hfront⟩ := Path.exists_parts_join_name r hname
  have horigin : origin base (r.join ⟨name⟩) = origin base r := by
    have hiff : (r.join ⟨name⟩).isAbsolute = true ↔ r.isAbsolute = true := by
      rw [← Path.head_eq_root_iff, ← Path.head_eq_root_iff, hparts]
    rw [origin, origin]
    by_cases hr : r.isAbsolute = true
    · rw [if_pos hr, if_pos (hiff.2 hr)]
    · rw [if_neg hr, if_neg fun hjoin => hr (hiff.1 hjoin)]
  rw [Path.tailComponents_of_front hfront] at h
  refine follow_eq_ok_iff.2 ⟨hopenable, fun hempty => ?_, ?_⟩
  · rw [Path.toList_join hname.components.1] at hempty
    have hvoid := hname.isVoid
    rw [(List.append_eq_nil_iff.1 hempty).2] at hvoid
    cases hvoid
  · rw [horigin, hparts]
    exact enterAll_of_climb (c := .name name) h

/-! ## Shorter paths -/

theorem text_join {p q : Path} (hq : q.isAbsolute = false) :
    (p.join q).text = p.text ++ String.ofList (Path.separator p.text.toList) ++ q.text := by
  refine String.toList_inj.1 ?_
  rw [Path.toList_join hq, String.toList_append, String.toList_append, String.toList_ofList]

/-- A folder whose path is shorter gives shorter paths. -/
theorem utf8ByteSize_join_name_le {r r' : Path} (h : r.text.toList <+: r'.text.toList)
    {name : String} (hname : Path.IsName name) :
    (r.join ⟨name⟩).text.utf8ByteSize ≤ (r'.join ⟨name⟩).text.utf8ByteSize := by
  obtain ⟨rest, hrest⟩ := h
  have htext : r'.text = r.text ++ String.ofList rest := by
    refine String.toList_inj.1 ?_
    rw [String.toList_append, String.toList_ofList, hrest]
  by_cases hsame : rest = []
  · obtain rfl : r = r' := Path.eq_of_toList (by rw [← hrest, hsame, List.append_nil])
    exact Nat.le_refl _
  · rw [text_join hname.components.1, text_join hname.components.1]
    simp only [String.utf8ByteSize_append, htext]
    have hseparator : (String.ofList (Path.separator r.text.toList)).utf8ByteSize ≤ 1 := by
      unfold Path.separator
      split <;> decide
    have hmore : (String.ofList rest).utf8ByteSize ≠ 0 := by
      rw [Ne, String.utf8ByteSize_eq_zero_iff]
      intro hnil
      exact hsame (by rw [← String.toList_ofList (l := rest), hnil]; rfl)
    omega

theorem Openable.join_name {r r' : Path} (h : r.text.toList <+: r'.text.toList) {name : String}
    (hname : Path.IsName name) (hopenable : Openable (r'.join ⟨name⟩)) :
    Openable (r.join ⟨name⟩) := by
  refine ⟨fun hnul => ?_, Nat.le_trans (utf8ByteSize_join_name_le h hname) hopenable.2⟩
  rcases Path.mem_of_mem_join hnul with hc | hc | hc
  · exact hopenable.1 (Path.mem_join_left hname.components.1 (h.subset hc))
  · cases hc
  · exact hopenable.1 (Path.mem_join_right hc)

/-- A path that can be opened behind another one can be opened alone. -/
theorem Openable.of_join {p q : Path} (h : Openable (p.join q)) : Openable q := by
  cases hq : q.isAbsolute with
  | true => rwa [Path.join_of_isAbsolute hq] at h
  | false =>
    refine ⟨fun hnul => h.1 (Path.mem_join_right hnul), Nat.le_trans ?_ h.2⟩
    rw [text_join hq, String.utf8ByteSize_append]
    exact Nat.le_add_left _ _

end FileTree

end ModulePurity
