import Mathlib.Data.List.Basic
import ModulePurity.Ignore.Rulebook

/-!
# Joining and stripping paths

A path is text, and what it denotes is its list of components. This file says what the operations on
the text do to the components of an absolute path:

* joining a relative path appends the components of its fields (`components_join`);
* stripping a root leaves the other components (`components_relativeTo`), and joining it again leads
  back to the same ones (`components_join_relativeTo`);
* going down from a folder by names appends these names (`components_pathBelow`).
-/

namespace ModulePurity

namespace Text

/-! ## Fields -/

/-- A mark ends one text's fields and begins those of the next. -/
theorem fields_append (mark : Char) (a b : List Char) :
    fields mark (a ++ mark :: b) = fields mark a ++ fields mark b := by
  induction a with
  | nil => simp [fields]
  | cons c cs ih =>
    rw [List.cons_append, fields, fields, ih]
    split
    · rfl
    · obtain ⟨f, fs, hf⟩ := List.exists_cons_of_ne_nil (fields_ne_nil mark cs)
      rw [hf]
      rfl

/-- Fields hold no mark, since they were cut there. -/
theorem not_mem_of_mem_fields {mark : Char} {cs f : List Char} (h : f ∈ fields mark cs) :
    mark ∉ f := by
  induction cs generalizing f with
  | nil =>
    rw [fields, List.mem_singleton] at h
    simp [h]
  | cons c cs ih =>
    rw [fields] at h
    split at h
    · rcases List.mem_cons.1 h with rfl | h
      · simp
      · exact ih h
    · next hc =>
      obtain ⟨g, gs, hg⟩ := List.exists_cons_of_ne_nil (fields_ne_nil mark cs)
      rw [hg] at h ih
      rcases List.mem_cons.1 h with rfl | h
      · rw [List.mem_cons, not_or]
        exact ⟨fun heq => hc heq.symm, ih List.mem_cons_self⟩
      · exact ih (List.mem_cons_of_mem g h)

theorem fields_of_not_mem {mark : Char} {cs : List Char} (h : mark ∉ cs) :
    fields mark cs = [cs] := by
  induction cs with
  | nil => rfl
  | cons c cs ih =>
    rw [List.mem_cons, not_or] at h
    rw [fields, if_neg fun heq => h.1 heq.symm, ih h.2]

/-- Fields that hold no mark come back from the text that they are joined to. -/
theorem fields_joinFields {mark : Char} {fs : List (List Char)} (hne : fs ≠ [])
    (h : ∀ f ∈ fs, mark ∉ f) : fields mark (joinFields mark fs) = fs := by
  induction fs with
  | nil => exact absurd rfl hne
  | cons f fs ih =>
    have hf : fields mark f = [f] := fields_of_not_mem (h f List.mem_cons_self)
    cases fs with
    | nil => exact hf
    | cons g gs =>
      rw [joinFields, fields_append, hf, ih (by simp) fun x hx => h x (List.mem_cons_of_mem f hx)]
      rfl

end Text

namespace Path

/-! ## Segments without a component -/

theorem segmentComponent?_of_isVoid {segment : List Char} (h : isVoid segment = true) :
    segmentComponent? segment = none := by
  rw [segmentComponent?, if_pos h]

theorem exists_segmentComponent? {segment : List Char} (h : isVoid segment = false) :
    ∃ c, segmentComponent? segment = some c := by
  rw [segmentComponent?, if_neg (by rw [h]; exact Bool.false_ne_true)]
  split <;> exact ⟨_, rfl⟩

/-- A name is spelled like its segment. -/
theorem toList_of_segmentComponent? {segment : List Char} {name : String}
    (h : segmentComponent? segment = some (.name name)) : name.toList = segment := by
  unfold segmentComponent? at h
  split at h
  · cases h
  · split at h
    · cases h
    · rw [← Component.name.inj (Option.some.inj h), String.toList_ofList]

/-- Void segments at the beginning make no component. -/
theorem filterMap_dropWhile_isVoid (segments : List (List Char)) :
    (segments.dropWhile isVoid).filterMap segmentComponent? =
      segments.filterMap segmentComponent? := by
  induction segments with
  | nil => rfl
  | cons s ss ih =>
    rw [List.dropWhile_cons]
    split
    · next hvoid => rw [ih, List.filterMap_cons_none (segmentComponent?_of_isVoid hvoid)]
    · rfl

/-- Void segments at the end make no component. -/
theorem filterMap_dropVoidRight (segments : List (List Char)) :
    (dropVoidRight segments).filterMap segmentComponent? =
      segments.filterMap segmentComponent? := by
  rw [dropVoidRight, List.filterMap_reverse, filterMap_dropWhile_isVoid, List.filterMap_reverse,
    List.reverse_reverse]

theorem mem_of_mem_dropVoidRight {segments : List (List Char)} {s : List Char}
    (h : s ∈ dropVoidRight segments) : s ∈ segments := by
  rw [dropVoidRight, List.mem_reverse] at h
  exact List.mem_reverse.1 ((List.dropWhile_suffix _).subset h)

/-- The first segment is kept, unless nothing is. -/
theorem head?_dropVoidRight {segments : List (List Char)} {s : List Char}
    (h : (dropVoidRight segments).head? = some s) : segments.head? = some s := by
  have hprefix : dropVoidRight segments <+: segments := by
    rw [dropVoidRight, ← List.reverse_suffix, List.reverse_reverse]
    exact List.dropWhile_suffix _
  obtain ⟨rest, hrest⟩ := hprefix
  obtain ⟨tail, htail⟩ := List.head?_eq_some_iff.1 h
  rw [← hrest, htail]
  rfl

/-! ## Absolute paths -/

/-- The text of an absolute path begins with a slash. -/
theorem exists_of_isAbsolute {p : Path} (h : p.isAbsolute = true) :
    ∃ rest, p.text.toList = '/' :: rest := by
  rw [isAbsolute, beq_iff_eq] at h
  obtain ⟨rest, hrest⟩ := List.head?_eq_some_iff.1 h
  exact ⟨rest, hrest⟩

theorem isAbsolute_of_toList {p : Path} {rest : List Char} (h : p.text.toList = '/' :: rest) :
    p.isAbsolute = true := by
  rw [isAbsolute, h]
  rfl

theorem parts_of_toList {p : Path} {rest : List Char} (h : p.text.toList = '/' :: rest) :
    p.parts = ⟨some .root, Text.fields '/' rest⟩ := by
  rw [parts, h]
  rfl

/-- Behind the slash of an absolute path each field makes a component, unless it is void. -/
theorem components_of_toList {p : Path} {rest : List Char} (h : p.text.toList = '/' :: rest) :
    p.components = .root :: (Text.fields '/' rest).filterMap segmentComponent? := by
  rw [components, parts_of_toList h]
  rfl

/-- What a relative path is made of when it is joined to another one. -/
def fieldComponents (q : Path) : List Component :=
  (Text.fields '/' q.text.toList).filterMap segmentComponent?

/-- The text of a join: the end of the first path is cut off if it is a slash. -/
theorem exists_toList_join {p q : Path} (hp : p.isAbsolute = true) (hq : q.isAbsolute = false) :
    ∃ rest, (p.join q).text.toList = '/' :: rest ∧
      (Text.fields '/' rest).filterMap segmentComponent? =
        p.components.tail ++ q.fieldComponents := by
  obtain ⟨body, hbody⟩ := exists_of_isAbsolute hp
  rw [components_of_toList hbody, List.tail_cons, fieldComponents]
  unfold join
  rw [if_neg (by rw [hq]; exact Bool.false_ne_true), hbody]
  by_cases hslash : (('/' :: body).isEmpty || ('/' :: body).getLast? == some '/') = true
  · rw [if_pos hslash]
    refine ⟨body ++ q.text.toList, by simp [hbody], ?_⟩
    -- The path is the root itself, or its body ends in a field that makes no component.
    rcases List.eq_nil_or_concat' body with rfl | ⟨front, last, rfl⟩
    · rfl
    · rw [← List.cons_append, List.getLast?_concat] at hslash
      have hlast : last = '/' := by simpa using hslash
      rw [hlast, List.append_assoc]
      show (Text.fields '/' (front ++ '/' :: q.text.toList)).filterMap _ = _
      rw [Text.fields_append, Text.fields_append, List.filterMap_append, List.filterMap_append]
      simp [Text.fields, segmentComponent?, isVoid]
  · rw [if_neg hslash]
    refine ⟨body ++ '/' :: q.text.toList, by simp [hbody], ?_⟩
    rw [Text.fields_append, List.filterMap_append]

theorem isAbsolute_join {p q : Path} (hp : p.isAbsolute = true) :
    (p.join q).isAbsolute = true := by
  cases hq : q.isAbsolute with
  | true => rwa [join, if_pos hq]
  | false =>
    obtain ⟨rest, hrest, -⟩ := exists_toList_join hp hq
    exact isAbsolute_of_toList hrest

/-- Joining a relative path appends its components. -/
theorem components_join {p q : Path} (hp : p.isAbsolute = true) (hq : q.isAbsolute = false) :
    (p.join q).components = p.components ++ q.fieldComponents := by
  obtain ⟨rest, hrest, hcomponents⟩ := exists_toList_join hp hq
  obtain ⟨body, hbody⟩ := exists_of_isAbsolute hp
  rw [components_of_toList hrest, hcomponents, components_of_toList hbody, List.tail_cons,
    List.cons_append]

/-! ## Stripping -/

/-- Taking components off the front leaves the segments of the others, with no void one in front. -/
theorem of_dropComponents? {cs : List Component} {segments rest : List (List Char)}
    (h : dropComponents? cs segments = some rest) :
    segments.filterMap segmentComponent? = cs ++ rest.filterMap segmentComponent? ∧
      (∀ s ∈ rest, s ∈ segments) ∧ ∀ s, rest.head? = some s → isVoid s = false := by
  induction cs generalizing segments with
  | nil =>
    rw [dropComponents?] at h
    cases h
    refine ⟨?_, fun s hs => ?_, fun s hs => ?_⟩
    · rw [filterMap_dropVoidRight, filterMap_dropWhile_isVoid, List.nil_append]
    · exact (List.dropWhile_suffix _).subset (mem_of_mem_dropVoidRight hs)
    · have hhead := head?_dropVoidRight hs
      have hnot := List.head?_dropWhile_not isVoid segments
      rw [hhead] at hnot
      exact hnot
  | cons c cs ih =>
    rw [dropComponents?] at h
    rw [← filterMap_dropWhile_isVoid segments]
    split at h
    · cases h
    · next s ss hdrop =>
      split at h
      · next hs =>
        obtain ⟨hcomponents, hmem, hfirst⟩ := ih h
        have hsuffix : s :: ss <:+ segments := hdrop ▸ List.dropWhile_suffix _
        rw [hdrop, List.filterMap_cons_some hs, hcomponents]
        exact ⟨rfl, fun t ht => hsuffix.subset (List.mem_cons_of_mem s (hmem t ht)), hfirst⟩
      · cases h

/-- Components that come first can be taken off. -/
theorem exists_dropComponents? {cs ds : List Component} {segments : List (List Char)}
    (h : segments.filterMap segmentComponent? = cs ++ ds) :
    ∃ rest, dropComponents? cs segments = some rest := by
  induction cs generalizing segments with
  | nil => exact ⟨_, rfl⟩
  | cons c cs ih =>
    rw [← filterMap_dropWhile_isVoid] at h
    have hfirst := List.head?_dropWhile_not isVoid segments
    rw [dropComponents?]
    cases hdrop : segments.dropWhile isVoid with
    | nil =>
      rw [hdrop] at h
      cases h
    | cons s ss =>
      rw [hdrop] at h hfirst
      -- The first segment that is left is not void, so it makes the first component.
      obtain ⟨c', hc'⟩ := exists_segmentComponent? hfirst
      rw [List.filterMap_cons_some hc', List.cons_append] at h
      injection h with hhead htail
      dsimp only
      rw [if_pos (hhead ▸ hc')]
      exact ih htail

/-- The text of segments that come from a path is no absolute path and has these segments. -/
theorem relative_ofParts {segments : List (List Char)} (hslash : ∀ s ∈ segments, '/' ∉ s)
    (hfirst : ∀ s, segments.head? = some s → isVoid s = false) :
    (ofParts ⟨none, segments⟩).isAbsolute = false ∧
      (ofParts ⟨none, segments⟩).fieldComponents = segments.filterMap segmentComponent? := by
  have htext : (ofParts ⟨none, segments⟩).text.toList = Text.joinFields '/' segments := by
    simp [ofParts, headChars]
  rw [isAbsolute, fieldComponents, htext]
  cases segments with
  | nil => exact ⟨rfl, rfl⟩
  | cons s ss =>
    rw [Text.fields_joinFields (by simp) hslash]
    refine ⟨?_, rfl⟩
    -- The first segment is not empty and holds no slash, so the text does not start with one.
    have hs : isVoid s = false := hfirst s rfl
    cases s with
    | nil => cases hs
    | cons c cs =>
      have hc : c ≠ '/' := by
        rintro rfl
        exact hslash _ List.mem_cons_self List.mem_cons_self
      cases ss <;> simpa [Text.joinFields] using hc

/-- A path whose first field makes a name or goes up has no component before its fields. -/
theorem components_of_fields {q : Path} {s : List Char} {ss : List (List Char)}
    (hfields : Text.fields '/' q.text.toList = s :: ss) (hs : isVoid s = false) :
    q.components = q.fieldComponents := by
  rw [components, parts, fieldComponents]
  unfold Parts.ofChars
  split
  · next rest htext =>
    rw [htext, Text.fields, if_pos rfl] at hfields
    cases hfields
    cases hs
  · next htext =>
    rw [htext] at hfields
    cases hfields
    cases hs
  · next rest htext =>
    rw [htext, show '.' :: '/' :: rest = ['.'] ++ '/' :: rest from rfl, Text.fields_append]
      at hfields
    cases hfields
    cases hs
  · rfl

/-- A path written from segments is read back as their components, if the first is not void. -/
theorem components_ofParts {segments : List (List Char)} (hslash : ∀ s ∈ segments, '/' ∉ s)
    (hfirst : ∀ s, segments.head? = some s → isVoid s = false) :
    (ofParts ⟨none, segments⟩).components = (ofParts ⟨none, segments⟩).fieldComponents := by
  have htext : (ofParts ⟨none, segments⟩).text.toList = Text.joinFields '/' segments := by
    simp [ofParts, headChars]
  cases segments with
  | nil => rfl
  | cons s ss =>
    have hfields : Text.fields '/' (Text.joinFields '/' (s :: ss)) = s :: ss :=
      Text.fields_joinFields (by simp) hslash
    exact components_of_fields (htext ▸ hfields) (hfirst s rfl)

/-- Stripping an absolute root leaves a relative path with the components behind the root. -/
theorem components_of_strip? {p root r : Path} (hp : p.isAbsolute = true)
    (hroot : root.isAbsolute = true) (h : p.strip? root = some r) :
    r.isAbsolute = false ∧ p.components = root.components ++ r.fieldComponents := by
  obtain ⟨body, hbody⟩ := exists_of_isAbsolute hp
  obtain ⟨base, hbase⟩ := exists_of_isAbsolute hroot
  rw [strip?, components_of_toList hbase, parts_of_toList hbody] at h
  dsimp only at h
  rw [if_pos rfl] at h
  obtain ⟨segments, hsegments, rfl⟩ := Option.map_eq_some_iff.1 h
  obtain ⟨hcomponents, hmem, hfirst⟩ := of_dropComponents? hsegments
  have hslash : ∀ s ∈ segments, '/' ∉ s :=
    fun s hs => Text.not_mem_of_mem_fields (hmem s hs)
  obtain ⟨hrelative, hfields⟩ := relative_ofParts hslash hfirst
  refine ⟨hrelative, ?_⟩
  rw [hfields, components_of_toList hbody, components_of_toList hbase, hcomponents,
    List.cons_append]

/-- Below a root the relative path has the remaining components. -/
theorem components_relativeTo {p root : Path} (hp : p.isAbsolute = true)
    (hroot : root.isAbsolute = true) {cs : List Component}
    (h : p.components = root.components ++ cs) : (p.relativeTo root).components = cs := by
  obtain ⟨body, hbody⟩ := exists_of_isAbsolute hp
  obtain ⟨base, hbase⟩ := exists_of_isAbsolute hroot
  rw [components_of_toList hbody, components_of_toList hbase, List.cons_append] at h
  have h := List.tail_eq_of_cons_eq h
  obtain ⟨rest, hrest⟩ := exists_dropComponents? h
  have hstrip : p.relativeTo root = ofParts ⟨none, rest⟩ := by
    rw [relativeTo, strip?, components_of_toList hbase, parts_of_toList hbody]
    dsimp only
    rw [if_pos rfl, hrest]
    rfl
  obtain ⟨hcomponents, hmem, hfirst⟩ := of_dropComponents? hrest
  have hslash : ∀ s ∈ rest, '/' ∉ s := fun s hs => Text.not_mem_of_mem_fields (hmem s hs)
  rw [hstrip, components_ofParts hslash hfirst, (relative_ofParts hslash hfirst).2]
  exact List.append_cancel_left (hcomponents.symm.trans h)

/-- The path relative to a root leads from there to the same components. -/
theorem components_join_relativeTo {p root : Path} (hp : p.isAbsolute = true)
    (hroot : root.isAbsolute = true) :
    (root.join (p.relativeTo root)).components = p.components := by
  rw [relativeTo]
  cases hstrip : p.strip? root with
  | none =>
    show (root.join p).components = p.components
    rw [join, if_pos hp]
  | some r =>
    obtain ⟨hrelative, hcomponents⟩ := components_of_strip? hp hroot hstrip
    show (root.join r).components = p.components
    rw [components_join hroot hrelative, hcomponents]

/-! ## Names -/

/-- A text that can name a file or a folder. -/
def IsName (name : String) : Prop :=
  '/' ∉ name.toList ∧ segmentComponent? name.toList = some (.name name)

instance (name : String) : Decidable (IsName name) :=
  inferInstanceAs (Decidable (_ ∧ _))

theorem IsName.components {name : String} (h : IsName name) :
    (⟨name⟩ : Path).isAbsolute = false ∧ (⟨name⟩ : Path).fieldComponents = [.name name] := by
  obtain ⟨hslash, hcomponent⟩ := h
  constructor
  · rw [isAbsolute, beq_eq_false_iff_ne]
    intro hhead
    exact hslash (List.mem_of_mem_head? hhead)
  · rw [fieldComponents, Text.fields_of_not_mem hslash, List.filterMap_cons_some hcomponent]
    rfl

theorem not_mem_of_mem_body {p : Path} {segment : List Char} (h : segment ∈ p.parts.body) :
    '/' ∉ segment := by
  unfold parts Parts.ofChars at h
  split at h
  · exact Text.not_mem_of_mem_fields h
  · rw [List.mem_singleton] at h
    simp [h]
  · rcases List.mem_cons.1 h with rfl | h
    · simp
    · exact Text.not_mem_of_mem_fields h
  · exact Text.not_mem_of_mem_fields h

/-- The place that a path spells out is made of names. -/
theorem isName_of_mem_place {p : Path} {name : String} (h : name ∈ p.place) : IsName name := by
  obtain ⟨c, hc, hname⟩ := List.mem_filterMap.1 h
  obtain rfl : c = .name name := by
    cases c with
    | name s => rw [Option.some.inj hname]
    | root => cases hname
    | current => cases hname
    | parent => cases hname
  have hbody : Component.name name ∈ p.parts.body.filterMap segmentComponent? := by
    rcases List.mem_append.1 hc with hhead | hbody
    · -- The head of a path is the root or `.`, never a name.
      unfold parts Parts.ofChars at hhead
      split at hhead <;> simp at hhead
    · exact hbody
  obtain ⟨segment, hsegment, hcomponent⟩ := List.mem_filterMap.1 hbody
  rw [IsName, toList_of_segmentComponent? hcomponent]
  exact ⟨not_mem_of_mem_body hsegment, hcomponent⟩

/-- Going down from an absolute root gives absolute paths. -/
theorem isAbsolute_pathBelow {root : Path} (hroot : root.isAbsolute = true) (names : Place) :
    (Ignore.Rulebook.pathBelow root names).isAbsolute = true := by
  induction names generalizing root with
  | nil => exact hroot
  | cons name names ih => exact ih (isAbsolute_join (q := ⟨name⟩) hroot)

/-- Going down by names appends them. -/
theorem components_pathBelow {root : Path} (hroot : root.isAbsolute = true) {names : Place}
    (h : ∀ name ∈ names, IsName name) :
    (Ignore.Rulebook.pathBelow root names).components = root.components ++ names.map .name := by
  induction names generalizing root with
  | nil => exact (List.append_nil _).symm
  | cons name names ih =>
    obtain ⟨hrelative, hcomponents⟩ := (h name List.mem_cons_self).components
    have hbelow := ih (isAbsolute_join (q := ⟨name⟩) hroot)
      fun n hn => h n (List.mem_cons_of_mem name hn)
    show (Ignore.Rulebook.pathBelow (root.join ⟨name⟩) names).components = _
    rw [hbelow, components_join hroot hrelative, hcomponents, List.map_cons, List.append_assoc,
      List.singleton_append]

end Path

end ModulePurity
