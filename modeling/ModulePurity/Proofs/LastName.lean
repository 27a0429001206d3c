import ModulePurity.Proofs.PathJoin
import ModulePurity.Tree.Language

/-!
# Paths and their last names

A file is named by its own path, or by the path of its folder with a name. This file relates the
two:

* joining is associative (`join_assoc`), so that a path may be resolved before or after its last
  name is joined to it;
* a joined name is the last segment of the parts, and the others are those of the folder, up to a
  slash at its end (`exists_parts_join_name`);
* the folder of a path has its components without the last name, and its text is a beginning of the
  text (`exists_parent?`);
* seen from its folder, a file has its name as its path (`relativeTo_join_name`), and its name alone
  decides its language (`Language.ofPath?_of_fileName?`).
-/

namespace ModulePurity

namespace Path

/-! ## The text of a join -/

theorem eq_of_toList {p q : Path} (h : p.text.toList = q.text.toList) : p = q := by
  have htext : p.text = q.text := String.toList_inj.1 h
  cases p
  cases q
  exact congrArg Path.mk htext

theorem join_of_isAbsolute {p q : Path} (hq : q.isAbsolute = true) : p.join q = q := by
  rw [join, if_pos hq]

/-- What stands between a path and another one that is joined to it. -/
def separator (cs : List Char) : List Char :=
  if cs.isEmpty || cs.getLast? == some '/' then [] else ['/']

/-- A relative path is put behind the text of the other, with a slash between them if one is
missing. -/
theorem toList_join {p q : Path} (hq : q.isAbsolute = false) :
    (p.join q).text.toList = p.text.toList ++ separator p.text.toList ++ q.text.toList := by
  unfold join separator
  rw [if_neg (by rw [hq]; exact Bool.false_ne_true)]
  dsimp only
  split
  · rw [String.toList_append, List.append_nil]
  · rw [String.toList_append, String.toList_append]
    rfl

/-- Joining brings in no character but a slash. -/
theorem mem_of_mem_join {p q : Path} {c : Char} (h : c ∈ (p.join q).text.toList) :
    c ∈ p.text.toList ∨ c = '/' ∨ c ∈ q.text.toList := by
  cases hq : q.isAbsolute with
  | true =>
    rw [join_of_isAbsolute hq] at h
    exact Or.inr (Or.inr h)
  | false =>
    rw [toList_join hq, List.mem_append, List.mem_append, or_assoc] at h
    refine h.imp_right (Or.imp_left fun hseparator => ?_)
    unfold separator at hseparator
    split at hseparator
    · cases hseparator
    · exact List.mem_singleton.1 hseparator

theorem mem_join_left {p q : Path} (hq : q.isAbsolute = false) {c : Char}
    (h : c ∈ p.text.toList) : c ∈ (p.join q).text.toList := by
  rw [toList_join hq]
  exact List.mem_append_left _ (List.mem_append_left _ h)

theorem mem_join_right {p q : Path} {c : Char} (h : c ∈ q.text.toList) :
    c ∈ (p.join q).text.toList := by
  cases hq : q.isAbsolute with
  | true => rwa [join_of_isAbsolute hq]
  | false =>
    rw [toList_join hq]
    exact List.mem_append_right _ h

/-- What begins another path still does so behind a third one. -/
theorem join_isPrefix {p q q' : Path} (habsolute : q.isAbsolute = q'.isAbsolute)
    (h : q.text.toList <+: q'.text.toList) :
    (p.join q).text.toList <+: (p.join q').text.toList := by
  cases hq : q.isAbsolute with
  | true => rwa [join_of_isAbsolute hq, join_of_isAbsolute (habsolute ▸ hq)]
  | false =>
    rw [toList_join hq, toList_join (habsolute ▸ hq), List.prefix_append_right_inj]
    exact h

/-- Only the end of a text matters for what separates it. -/
theorem separator_append (as : List Char) {bs : List Char} (h : bs ≠ []) :
    separator (as ++ bs) = separator bs := by
  unfold separator
  rw [List.getLast?_append_of_ne_nil as h, List.isEmpty_eq_false_iff.2 h,
    List.isEmpty_eq_false_iff.2 (List.append_ne_nil_of_right_ne_nil as h)]

theorem separator_separated (cs : List Char) : separator (cs ++ separator cs) = [] := by
  by_cases hnone : separator cs = []
  · rw [hnone, List.append_nil, hnone]
  · have hslash : separator cs = ['/'] := by
      unfold separator at hnone ⊢
      split at hnone
      · exact absurd rfl hnone
      · next h => rw [if_neg h]
    rw [separator_append cs hnone, hslash]
    rfl

theorem isAbsolute_join_of_relative {p q : Path} (hp : p.isAbsolute = false)
    (hq : q.isAbsolute = false) : (p.join q).isAbsolute = false := by
  rw [isAbsolute, toList_join hq]
  cases hcs : p.text.toList with
  | nil => exact hq
  | cons c cs =>
    rw [isAbsolute, hcs] at hp
    exact hp

/-- It does not matter which of three paths are joined first. -/
theorem join_assoc (a b c : Path) : (a.join b).join c = a.join (b.join c) := by
  cases hc : c.isAbsolute with
  | true => rw [join_of_isAbsolute hc, join_of_isAbsolute hc, join_of_isAbsolute hc]
  | false =>
    cases hb : b.isAbsolute with
    | true => rw [join_of_isAbsolute hb, join_of_isAbsolute (isAbsolute_join hb)]
    | false =>
      refine eq_of_toList ?_
      rw [toList_join hc, toList_join hb, toList_join (isAbsolute_join_of_relative hb hc),
        toList_join hc]
      by_cases hempty : b.text.toList = []
      · rw [hempty, List.append_nil, separator_separated]
        simp [separator]
      · rw [separator_append _ hempty]
        simp only [List.append_assoc]

/-! ## The parts of a join -/

/-- A text that does not begin like a head has no head, and all its fields are segments. -/
theorem ofChars_of_ne {cs : List Char} (hroot : ∀ rest, cs ≠ '/' :: rest) (hdot : cs ≠ ['.'])
    (hcurrent : ∀ rest, cs ≠ '.' :: '/' :: rest) :
    Parts.ofChars cs = ⟨none, Text.fields '/' cs⟩ := by
  unfold Parts.ofChars
  split
  · exact absurd rfl (hroot _)
  · exact absurd rfl hdot
  · exact absurd rfl (hcurrent _)
  · rfl

/-- What follows a slash that is not the first character are further segments. -/
theorem ofChars_append {cs : List Char} (h : cs ≠ []) (s : List Char) :
    Parts.ofChars (cs ++ '/' :: s) =
      ⟨(Parts.ofChars cs).head, (Parts.ofChars cs).body ++ Text.fields '/' s⟩ := by
  by_cases hroot : ∃ rest, cs = '/' :: rest
  · obtain ⟨rest, rfl⟩ := hroot
    show (⟨some .root, Text.fields '/' (rest ++ '/' :: s)⟩ : Parts) = _
    rw [Text.fields_append]
    rfl
  by_cases hdot : cs = ['.']
  · rw [hdot]
    rfl
  by_cases hcurrent : ∃ rest, cs = '.' :: '/' :: rest
  · obtain ⟨rest, rfl⟩ := hcurrent
    show (⟨some .current, [] :: Text.fields '/' (rest ++ '/' :: s)⟩ : Parts) = _
    rw [Text.fields_append]
    rfl
  -- Neither text begins with the root or with `.`.
  obtain ⟨c, ds, rfl⟩ := List.exists_cons_of_ne_nil h
  have hroot : ∀ rest, c :: ds ≠ '/' :: rest := fun rest hrest => hroot ⟨rest, hrest⟩
  have hcurrent : ∀ rest, c :: ds ≠ '.' :: '/' :: rest := fun rest hrest => hcurrent ⟨rest, hrest⟩
  have hc : c ≠ '/' := fun hc => hroot ds (by rw [hc])
  rw [ofChars_of_ne hroot hdot hcurrent, ofChars_of_ne, Text.fields_append]
  · intro rest hrest
    exact hc (List.head_eq_of_cons_eq hrest)
  · simp
  · intro rest hrest
    cases ds with
    | nil =>
      rw [List.head_eq_of_cons_eq hrest] at hdot
      exact hdot rfl
    | cons d ds =>
      injection hrest with hfirst hrest
      injection hrest with hsecond hrest
      exact hcurrent ds (by rw [hfirst, hsecond])

theorem IsName.isVoid {name : String} (h : IsName name) : isVoid name.toList = false := by
  rw [← Bool.not_eq_true]
  intro hvoid
  have hcomponent := h.2
  rw [segmentComponent?_of_isVoid hvoid] at hcomponent
  cases hcomponent

theorem IsName.fields {name : String} (h : IsName name) :
    Text.fields '/' name.toList = [name.toList] :=
  Text.fields_of_not_mem h.1

/-- Read as a path, a name is a single segment without a head. -/
theorem IsName.ofChars {name : String} (h : IsName name) :
    Parts.ofChars name.toList = ⟨none, [name.toList]⟩ := by
  have hvoid := h.isVoid
  rw [ofChars_of_ne, h.fields]
  · intro rest hrest
    exact h.1 (hrest ▸ List.mem_cons_self)
  · intro hdot
    rw [hdot] at hvoid
    cases hvoid
  · intro rest hrest
    exact h.1 (hrest ▸ List.mem_cons_of_mem '.' List.mem_cons_self)

/-- The segments of a path that is joined to another one come last. Those before them stay, but for
the empty one behind a slash at the end. -/
theorem exists_parts_join {p q : Path} (hp : p.text.toList ≠ []) (hq : q.isAbsolute = false) :
    ∃ front, (p.join q).parts = ⟨p.parts.head, front ++ Text.fields '/' q.text.toList⟩ ∧
      (front = p.parts.body ∨ p.parts.body = front ++ [[]]) := by
  unfold parts
  rw [toList_join hq]
  rcases List.eq_nil_or_concat' p.text.toList with hempty | ⟨cs, last, hconcat⟩
  · exact absurd hempty hp
  · rw [hconcat]
    by_cases hslash : last = '/'
    · have hseparator : separator (cs ++ [last]) = [] := by
        rw [separator_append cs (by simp), hslash]
        rfl
      rw [hseparator, List.append_nil, hslash, List.append_assoc, List.singleton_append]
      by_cases hroot : cs = []
      · rw [hroot]
        exact ⟨[], rfl, Or.inr rfl⟩
      · rw [ofChars_append hroot, ofChars_append hroot]
        exact ⟨_, rfl, Or.inr rfl⟩
    · have hseparator : separator (cs ++ [last]) = ['/'] := by
        rw [separator_append cs (by simp)]
        simp [separator, hslash]
      rw [hseparator, List.append_assoc, List.singleton_append, ofChars_append (by simp)]
      exact ⟨_, rfl, Or.inl rfl⟩

/-- Seen from the empty path, every path stands for itself. -/
theorem join_of_empty {p q : Path} (hp : p.text.toList = []) : p.join q = q := by
  cases hq : q.isAbsolute with
  | true => exact join_of_isAbsolute hq
  | false =>
    refine eq_of_toList ?_
    rw [toList_join hq, hp]
    rfl

/-- A name that is joined to a path becomes its last segment. -/
theorem exists_parts_join_name (r : Path) {name : String} (h : IsName name) :
    ∃ front, (r.join ⟨name⟩).parts = ⟨r.parts.head, front ++ [name.toList]⟩ ∧
      (front = r.parts.body ∨ r.parts.body = front ++ [[]]) := by
  by_cases hempty : r.text.toList = []
  · refine ⟨[], ?_, Or.inr ?_⟩
    · rw [join_of_empty hempty, parts, parts, hempty]
      exact h.ofChars
    · rw [parts, hempty]
      rfl
  · obtain ⟨front, hparts, hfront⟩ := exists_parts_join hempty h.components.1
    exact ⟨front, by rw [hparts, h.fields], hfront⟩

/-! ## Void segments at the end -/

theorem dropVoidRight_concat_of_isVoid (segments : List (List Char)) {s : List Char}
    (h : isVoid s = true) : dropVoidRight (segments ++ [s]) = dropVoidRight segments := by
  rw [dropVoidRight, List.reverse_concat, List.dropWhile_cons_of_pos h, dropVoidRight]

/-- A segment that makes a component stops the dropping. -/
theorem dropVoidRight_concat (segments : List (List Char)) {s : List Char}
    (h : isVoid s = false) : dropVoidRight (segments ++ [s]) = segments ++ [s] := by
  rw [dropVoidRight, List.reverse_concat, List.dropWhile_cons_of_neg (by rw [h]; simp),
    ← List.reverse_concat, List.reverse_reverse]

/-- What is left ends in a segment that makes a component. -/
theorem isVoid_last_dropVoidRight {segments front : List (List Char)} {last : List Char}
    (h : dropVoidRight segments = front ++ [last]) : isVoid last = false := by
  have hreverse : segments.reverse.dropWhile isVoid = last :: front.reverse := by
    rw [← List.reverse_concat, ← h, dropVoidRight, List.reverse_reverse]
  have hfirst := List.head?_dropWhile_not isVoid segments.reverse
  rw [hreverse] at hfirst
  exact hfirst

/-- What is cut off at the end makes no component. -/
theorem exists_dropVoidRight (segments : List (List Char)) :
    ∃ voids, segments = dropVoidRight segments ++ voids ∧ ∀ v ∈ voids, isVoid v = true := by
  refine ⟨(segments.reverse.takeWhile isVoid).reverse, ?_, fun v hv => ?_⟩
  · rw [dropVoidRight, ← List.reverse_append, List.takeWhile_append_dropWhile,
      List.reverse_reverse]
  · exact List.all_eq_true.1 List.all_takeWhile v (List.mem_reverse.1 hv)

/-! ## Folders and last names -/

/-- The components after a leading root or `.`. -/
def tailComponents (p : Path) : List Component :=
  p.parts.body.filterMap segmentComponent?

/-- An empty segment at the end makes no component and may be left out. -/
theorem tailComponents_of_front {r : Path} {front : List (List Char)}
    (h : front = r.parts.body ∨ r.parts.body = front ++ [[]]) :
    r.tailComponents = front.filterMap segmentComponent? := by
  rw [tailComponents]
  rcases h with rfl | hbody
  · rfl
  · rw [hbody, List.filterMap_append]
    simp [segmentComponent?, isVoid]

section

variable (r : Path) {name : String} (h : IsName name)

include h

/-- Joining a name adds one component, the name, whatever the path ends in. -/
theorem tailComponents_join_name :
    (r.join ⟨name⟩).tailComponents = r.tailComponents ++ [.name name] := by
  obtain ⟨front, hparts, hfront⟩ := exists_parts_join_name r h
  rw [tailComponents, hparts, List.filterMap_append, List.filterMap_cons_some h.2,
    tailComponents_of_front hfront]
  rfl

theorem fileName?_join_name : (r.join ⟨name⟩).fileName? = some name.toList := by
  obtain ⟨front, hparts, -⟩ := exists_parts_join_name r h
  have hnotParent : (name.toList == ['.', '.']) = false := by
    rw [beq_eq_false_iff_ne]
    intro hparent
    have hcomponent := h.2
    rw [hparent] at hcomponent
    cases hcomponent
  rw [fileName?, hparts]
  dsimp only
  rw [dropVoidRight_concat front h.isVoid, List.getLast?_concat]
  dsimp only
  rw [hnotParent]
  rfl

/-- The parent of a name below a path is that path without its void segments at the end. -/
theorem parent?_join_name :
    (r.join ⟨name⟩).parent? =
      some (ofParts ⟨r.parts.head, dropVoidRight r.parts.body⟩) := by
  obtain ⟨front, hparts, hfront⟩ := exists_parts_join_name r h
  have hsame : dropVoidRight r.parts.body = dropVoidRight front := by
    rcases hfront with rfl | hbody
    · rfl
    · rw [hbody, dropVoidRight_concat_of_isVoid front rfl]
  rw [parent?, hparts, hsame]
  dsimp only
  rw [dropVoidRight_concat front h.isVoid, List.reverse_concat]
  dsimp only
  rw [List.reverse_reverse]

end

/-- The last name of a path stands after all other segments but void ones, and before it stands what
the path of the folder is made of. -/
theorem exists_of_fileName? {p : Path} {n : List Char} (h : p.fileName? = some n) :
    ∃ front voids, p.parts.body = front ++ n :: voids ∧ (∀ v ∈ voids, isVoid v = true) ∧
      segmentComponent? n = some (.name (String.ofList n)) ∧
      p.parent? = some (ofParts ⟨p.parts.head, dropVoidRight front⟩) := by
  unfold fileName? at h
  obtain ⟨voids, hbody, hvoids⟩ := exists_dropVoidRight p.parts.body
  rcases List.eq_nil_or_concat' (dropVoidRight p.parts.body) with hnil | ⟨front, last, hconcat⟩
  · rw [hnil] at h
    cases h
  · rw [hconcat, List.getLast?_concat] at h
    dsimp only at h
    split at h
    · cases h
    · next hnotParent =>
      obtain rfl : last = n := Option.some.inj h
      have hvoid := isVoid_last_dropVoidRight hconcat
      refine ⟨front, voids, ?_, hvoids, ?_, ?_⟩
      · rw [hconcat] at hbody
        rw [hbody, List.append_assoc, List.singleton_append]
      · rw [segmentComponent?, if_neg (by rw [hvoid]; simp), if_neg hnotParent]
      · rw [parent?, hconcat, List.reverse_concat]
        dsimp only
        rw [List.reverse_reverse]

/-! ## Beginnings of a path -/

theorem joinFields_isPrefix {mark : Char} (front rest : List (List Char)) :
    Text.joinFields mark front <+: Text.joinFields mark (front ++ rest) := by
  induction front with
  | nil => exact List.nil_prefix
  | cons f fs ih =>
    cases fs with
    | nil =>
      cases rest with
      | nil => exact List.prefix_rfl
      | cons g gs => exact List.prefix_append f _
    | cons g gs =>
      show f ++ mark :: Text.joinFields mark (g :: gs) <+:
        f ++ mark :: Text.joinFields mark (g :: (gs ++ rest))
      rw [List.prefix_append_right_inj, List.cons_prefix_cons]
      exact ⟨rfl, ih⟩

/-- Reading a path into its parts loses nothing: the parts spell out its text. -/
theorem toList_eq_parts (p : Path) :
    p.text.toList = headChars p.parts.head ++ Text.joinFields '/' p.parts.body := by
  unfold parts Parts.ofChars
  split
  · next rest _ =>
    show _ = '/' :: Text.joinFields '/' (Text.fields '/' rest)
    rw [Text.joinFields_fields]
    assumption
  · next htext => exact htext
  · next rest htext =>
    obtain ⟨f, fs, hf⟩ := List.exists_cons_of_ne_nil (Text.fields_ne_nil '/' rest)
    show _ = '.' :: Text.joinFields '/' ([] :: Text.fields '/' rest)
    rw [htext, hf, Text.joinFields, ← hf, Text.joinFields_fields]
    rfl
  · show _ = Text.joinFields '/' (Text.fields '/' p.text.toList)
    rw [Text.joinFields_fields]

theorem toList_ofParts (head : Option Component) (body : List (List Char)) :
    (ofParts ⟨head, body⟩).text.toList = headChars head ++ Text.joinFields '/' body := by
  rw [ofParts, String.toList_ofList]

section

variable (p : Path) {front rest : List (List Char)} (h : p.parts.body = front ++ rest)

include h

/-- The text of the first segments is a beginning of the text. -/
theorem front_isPrefix : (ofParts ⟨p.parts.head, front⟩).text.toList <+: p.text.toList := by
  rw [toList_ofParts, toList_eq_parts p, h, List.prefix_append_right_inj]
  exact joinFields_isPrefix front rest

/-- Written and read again, the first segments of a path make the same components. -/
theorem fields_front :
    (Text.fields '/' (Text.joinFields '/' front)).filterMap segmentComponent? =
      front.filterMap segmentComponent? := by
  cases front with
  | nil => rfl
  | cons s ss =>
    rw [Text.fields_joinFields (by simp)]
    intro s' hs'
    exact not_mem_of_mem_body (h ▸ List.mem_append_left rest hs')

/-- The first segments of a path that starts with neither the root nor `.` make up such a path. -/
theorem ofChars_front (hroot : ∀ rest, p.text.toList ≠ '/' :: rest) (hdot : p.text.toList ≠ ['.'])
    (hcurrent : ∀ rest, p.text.toList ≠ '.' :: '/' :: rest) :
    Parts.ofChars (Text.joinFields '/' front) =
      ⟨none, Text.fields '/' (Text.joinFields '/' front)⟩ := by
  have hparts : p.parts = ⟨none, Text.fields '/' p.text.toList⟩ :=
    ofChars_of_ne hroot hdot hcurrent
  have hbegin : Text.joinFields '/' front <+: p.text.toList := by
    have hbegin := front_isPrefix p h
    rw [toList_ofParts, hparts] at hbegin
    exact hbegin
  obtain ⟨more, hmore⟩ := hbegin
  refine ofChars_of_ne (fun rest hrest => ?_) (fun hfront => ?_) fun rest hrest => ?_
  · rw [hrest] at hmore
    exact hroot _ hmore.symm
  · -- A first segment `.` would end the text or come before a slash.
    have hne : front ≠ [] := fun hnil => by
      rw [hnil] at hfront
      cases hfront
    have hslash : ∀ s ∈ front, '/' ∉ s := fun s hs =>
      not_mem_of_mem_body (h ▸ List.mem_append_left rest hs)
    have hdots := Text.fields_joinFields hne hslash
    rw [hfront] at hdots
    have htext := toList_eq_parts p
    rw [hparts] at htext h
    rw [show Text.fields '/' p.text.toList = ['.'] :: rest from h.trans (by rw [← hdots]; rfl)]
      at htext
    cases rest with
    | nil => exact hdot htext
    | cons s ss => exact hcurrent _ htext
  · rw [hrest] at hmore
    exact hcurrent _ hmore.symm

/-- The first segments of a path that starts with `.` come after that dot. -/
theorem ofChars_dot_front {more : List (List Char)} (hbody : p.parts.body = [] :: more) :
    Parts.ofChars ('.' :: Text.joinFields '/' front) =
      ⟨some .current, Text.fields '/' (Text.joinFields '/' front)⟩ := by
  -- What follows the dot is nothing, or starts with a slash.
  cases front with
  | nil => rfl
  | cons s ss =>
    obtain rfl : s = [] := (List.head_eq_of_cons_eq (hbody.symm.trans h)).symm
    cases ss with
    | nil => rfl
    | cons s' ss => rfl

/-- What the first segments of a path spell out is read with the same head. -/
theorem parts_ofParts_front :
    (ofParts ⟨p.parts.head, front⟩).parts =
      ⟨p.parts.head, Text.fields '/' (Text.joinFields '/' front)⟩ := by
  by_cases hroot : ∃ rest, p.text.toList = '/' :: rest
  · obtain ⟨body, hbody⟩ := hroot
    have hhead : p.parts.head = some .root := by rw [parts_of_toList hbody]
    rw [hhead, parts_of_toList (toList_ofParts (some .root) front)]
    rfl
  by_cases hcurrent : p.text.toList = ['.'] ∨ ∃ rest, p.text.toList = '.' :: '/' :: rest
  · obtain ⟨hhead, more, hbody⟩ :
        p.parts.head = some .current ∧ ∃ more, p.parts.body = [] :: more := by
      rw [parts]
      rcases hcurrent with htext | ⟨body, htext⟩
      · rw [htext]
        exact ⟨rfl, [], rfl⟩
      · rw [htext]
        exact ⟨rfl, Text.fields '/' body, rfl⟩
    rw [hhead, parts, toList_ofParts]
    exact ofChars_dot_front p h hbody
  · rw [not_or, not_exists] at hcurrent
    rw [not_exists] at hroot
    have hhead : p.parts.head = none := by
      rw [parts, ofChars_of_ne hroot hcurrent.1 hcurrent.2]
    rw [hhead, parts, toList_ofParts]
    exact ofChars_front p h hroot hcurrent.1 hcurrent.2

/-- The first segments of a path make up a path with the same head. -/
theorem parts_front :
    (ofParts ⟨p.parts.head, front⟩).parts.head = p.parts.head ∧
      (ofParts ⟨p.parts.head, front⟩).tailComponents = front.filterMap segmentComponent? := by
  rw [tailComponents, parts_ofParts_front p h]
  exact ⟨rfl, fields_front p h⟩

end

/-! ## Folders -/

/-- A path is absolute exactly if its head is the root. -/
theorem head_eq_root_iff {p : Path} : p.parts.head = some .root ↔ p.isAbsolute = true := by
  unfold parts Parts.ofChars isAbsolute
  split
  · next htext => rw [htext]; simp
  · next htext => rw [htext]; simp
  · next htext => rw [htext]; simp
  · next hroot _ _ =>
    cases hcs : p.text.toList with
    | nil => simp
    | cons c cs =>
      have hc : c ≠ '/' := fun hc => hroot cs (by rw [hcs, hc])
      simpa using hc

/-- A path without components is empty. -/
theorem toList_of_no_component {p : Path} (hhead : p.parts.head = none)
    (htail : p.tailComponents = []) : p.text.toList = [] := by
  have htext := Text.joinFields_fields '/' p.text.toList
  obtain ⟨s, ss, hfields⟩ := List.exists_cons_of_ne_nil (Text.fields_ne_nil '/' p.text.toList)
  unfold parts Parts.ofChars at hhead
  split at hhead
  · cases hhead
  · cases hhead
  · cases hhead
  · next hroot hdot hcurrent =>
    rw [tailComponents, parts, ofChars_of_ne hroot hdot hcurrent] at htail
    rw [hfields] at htail htext
    have hvoid : isVoid s = true := by
      rw [← Bool.not_eq_false]
      intro hs
      obtain ⟨c, hc⟩ := exists_segmentComponent? hs
      rw [List.filterMap_cons_some hc] at htail
      cases htail
    -- A first segment that is void would be the root or a leading `.`, unless it is all there is.
    rw [isVoid, Bool.or_eq_true, List.isEmpty_iff, beq_iff_eq] at hvoid
    rcases hvoid with rfl | rfl
    · cases ss with
      | nil => exact htext.symm
      | cons s' ss => exact absurd htext.symm (hroot _)
    · cases ss with
      | nil => exact absurd htext.symm hdot
      | cons s' ss => exact absurd htext.symm (hcurrent _)

/-- The components of an absolute path are the root and those behind it. -/
theorem components_of_isAbsolute {p : Path} (hp : p.isAbsolute = true) :
    p.components = .root :: p.tailComponents := by
  rw [components, head_eq_root_iff.2 hp]
  rfl

theorem fieldComponents_of_relative {p : Path} (hp : p.isAbsolute = false) :
    p.fieldComponents = p.tailComponents := by
  unfold fieldComponents tailComponents parts Parts.ofChars
  split
  · next rest htext =>
    rw [isAbsolute_of_toList htext] at hp
    cases hp
  · next htext => rw [htext]; rfl
  · next rest htext =>
    rw [htext, show '.' :: '/' :: rest = ['.'] ++ '/' :: rest from rfl, Text.fields_append]
    rfl
  · rfl

theorem tailComponents_join {p q : Path} (hp : p.isAbsolute = true) (hq : q.isAbsolute = false) :
    (p.join q).tailComponents = p.tailComponents ++ q.tailComponents := by
  have hjoin := components_join hp hq
  rw [components_of_isAbsolute (isAbsolute_join hp), components_of_isAbsolute hp,
    fieldComponents_of_relative hq, List.cons_append] at hjoin
  exact List.tail_eq_of_cons_eq hjoin

/-- The folder of a path starts as the path does, and has its components without the last name. -/
theorem exists_parent? {p : Path} {name : String} (h : p.fileName? = some name.toList) :
    ∃ folder, p.parent? = some folder ∧ folder.parts.head = p.parts.head ∧
      p.tailComponents = folder.tailComponents ++ [.name name] ∧
      folder.text.toList <+: p.text.toList := by
  obtain ⟨front, voids, hbody, hvoids, hname, hparent⟩ := exists_of_fileName? h
  obtain ⟨voids', hfront, -⟩ := exists_dropVoidRight front
  have hsplit : p.parts.body = dropVoidRight front ++ (voids' ++ name.toList :: voids) := by
    rw [hbody, ← List.append_assoc, ← hfront]
  obtain ⟨hhead, htail⟩ := parts_front p hsplit
  refine ⟨_, hparent, hhead, ?_, front_isPrefix p hsplit⟩
  have hnone : voids.filterMap segmentComponent? = [] :=
    List.filterMap_eq_nil_iff.2 fun v hv => segmentComponent?_of_isVoid (hvoids v hv)
  rw [htail, filterMap_dropVoidRight, tailComponents, hbody, List.filterMap_append,
    List.filterMap_cons_some hname, hnone, String.ofList_toList]

/-! ## Names below a root -/

theorem dropComponents?_of_isVoid (cs : List Component) (segments : List (List Char))
    {s : List Char} (h : isVoid s = true) :
    dropComponents? cs (s :: segments) = dropComponents? cs segments := by
  cases cs <;> rw [dropComponents?, dropComponents?, List.dropWhile_cons_of_pos h]

/-- Segments that spell out some components can be taken off before a name. -/
theorem dropComponents?_concat {segments : List (List Char)} {n : List Char}
    (h : isVoid n = false) :
    dropComponents? (segments.filterMap segmentComponent?) (segments ++ [n]) = some [n] := by
  induction segments with
  | nil =>
    show some (dropVoidRight ([n].dropWhile isVoid)) = _
    rw [List.dropWhile_cons_of_neg (by rw [h]; simp)]
    exact congrArg some (dropVoidRight_concat [] h)
  | cons s ss ih =>
    cases hs : isVoid s with
    | true =>
      rw [List.filterMap_cons_none (segmentComponent?_of_isVoid hs), List.cons_append,
        dropComponents?_of_isVoid _ _ hs, ih]
    | false =>
      obtain ⟨c, hc⟩ := exists_segmentComponent? hs
      rw [List.filterMap_cons_some hc, List.cons_append, dropComponents?,
        List.dropWhile_cons_of_neg (by rw [hs]; simp)]
      dsimp only
      rw [if_pos hc, ih]

/-- Seen from its folder, a file has its name as its path. -/
theorem relativeTo_join_name {r : Path} (hr : r.isAbsolute = true) {name : String}
    (h : IsName name) : (r.join ⟨name⟩).relativeTo r = ⟨name⟩ := by
  obtain ⟨front, hparts, hfront⟩ := exists_parts_join_name r h
  rw [relativeTo, strip?, components_of_isAbsolute hr, hparts, head_eq_root_iff.2 hr]
  dsimp only
  rw [if_pos rfl, tailComponents_of_front hfront, dropComponents?_concat h.isVoid]
  show ofParts ⟨none, [name.toList]⟩ = _
  refine eq_of_toList ?_
  rw [toList_ofParts]
  rfl

end Path

/-- The language of a file depends only on its name. -/
theorem Language.ofPath?_of_fileName? {p q : Path} (h : p.fileName? = q.fileName?) :
    Language.ofPath? p = Language.ofPath? q := by
  rw [Language.ofPath?, Language.ofPath?, Path.extension?, Path.extension?, h]

end ModulePurity
