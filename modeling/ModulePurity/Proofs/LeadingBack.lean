import ModulePurity.Proofs.Climbing
import ModulePurity.Rule

/-!
# Relative paths lead back

A finding carries the path of its file relative to the root, and whoever opens the file joins the
two again. The relative path is what is left of the text behind the root, without the void segments
at its ends, so that the joined text need not be the original one. It has the same components,
though, if the path is absolute or lies below the root (`components_join_relativeTo_iff`), and then
it leads to the same place: never to another one, and to this one as soon as the root leads to a
folder and the joined text is not too long (`relative_leadsBack`). A root that is another path than
the file need not lead anywhere. A root that is the file itself is the one exception: nothing is left
behind it, and joining puts a slash behind the file.

Root and path may be spelled in any way: relative or absolute, with repeated slashes, slashes at the
end, and `.` or `..` inside.
-/

namespace ModulePurity

namespace Path

/-! ## Heads and tails -/

/-- The components that only the beginning of a path can have. -/
def isLead : Component → Bool
  | .root => true
  | .current => true
  | _ => false

theorem isLead_of_segmentComponent? {s : List Char} {c : Component}
    (h : segmentComponent? s = some c) : isLead c = false := by
  unfold segmentComponent? at h
  split at h
  · cases h
  · split at h <;> cases h <;> rfl

/-- No component behind the head is a lead. -/
theorem isLead_of_mem_tailComponents {p : Path} {c : Component} (h : c ∈ p.tailComponents) :
    isLead c = false := by
  obtain ⟨s, -, hs⟩ := List.mem_filterMap.1 h
  exact isLead_of_segmentComponent? hs

theorem components_eq (p : Path) : p.components = p.parts.head.toList ++ p.tailComponents := rfl

theorem isLead_of_head {p : Path} {c : Component} (h : p.parts.head = some c) :
    isLead c = true := by
  unfold parts Parts.ofChars at h
  split at h <;> cases h <;> rfl

/-- Every path has a segment behind its head, if only an empty one. -/
theorem body_ne_nil (p : Path) : p.parts.body ≠ [] := by
  unfold parts Parts.ofChars
  split
  · exact Text.fields_ne_nil '/' _
  · exact List.cons_ne_nil _ _
  · exact List.cons_ne_nil _ _
  · exact Text.fields_ne_nil '/' _

/-- The head of a path can be told from its components. -/
theorem head_eq_filter (p : Path) : p.parts.head = p.components.head?.filter isLead := by
  rw [components_eq]
  cases hhead : p.parts.head with
  | some c =>
    show some c = (some c).filter isLead
    rw [Option.filter_some, if_pos (isLead_of_head hhead)]
  | none =>
    show none = p.tailComponents.head?.filter isLead
    cases htail : p.tailComponents with
    | nil => rfl
    | cons c cs =>
      have hc := isLead_of_mem_tailComponents (htail ▸ List.mem_cons_self : c ∈ p.tailComponents)
      rw [List.head?_cons, Option.filter_some, hc]
      rfl

/-- Paths with the same components have the same head and the same components behind it. -/
theorem head_and_tail_of_components {p q : Path} (h : q.components = p.components) :
    q.parts.head = p.parts.head ∧ q.tailComponents = p.tailComponents := by
  have hhead : q.parts.head = p.parts.head := by rw [head_eq_filter, head_eq_filter, h]
  rw [components_eq, components_eq, hhead] at h
  exact ⟨hhead, List.append_cancel_left h⟩

/-- Only the empty path has no component. -/
theorem components_eq_nil_iff {p : Path} : p.components = [] ↔ p.text.toList = [] := by
  constructor
  · intro h
    rw [components_eq, List.append_eq_nil_iff] at h
    refine toList_of_no_component ?_ h.2
    cases hhead : p.parts.head with
    | none => rfl
    | some c =>
      rw [hhead] at h
      cases h.1
  · intro h
    rw [components, parts, h]
    rfl

/-! ## Joining -/

/-- Joining a relative path appends its fields. -/
theorem components_join_of_ne_nil {p q : Path} (hp : p.text.toList ≠ [])
    (hq : q.isAbsolute = false) : (p.join q).components = p.components ++ q.fieldComponents := by
  obtain ⟨front, hparts, hfront⟩ := exists_parts_join hp hq
  have hhead : (p.join q).parts.head = p.parts.head := by rw [hparts]
  have htail : (p.join q).tailComponents = p.tailComponents ++ q.fieldComponents := by
    rw [tailComponents, hparts, tailComponents_of_front hfront, List.filterMap_append]
    rfl
  rw [components_eq, hhead, htail, components_eq, List.append_assoc]

/-! ## Stripping -/

/-- The segments that are left of a path behind a root, with no void one at either end. -/
structure LeftBehind (p root : Path) (segments : List (List Char)) : Prop where
  components : p.components = root.components ++ segments.filterMap segmentComponent?
  plain : ∀ s ∈ segments, '/' ∉ s
  first : ∀ s, segments.head? = some s → isVoid s = false
  last : ∀ front s, segments = front ++ [s] → isVoid s = false

theorem LeftBehind.fields {p root : Path} {segments : List (List Char)}
    (h : LeftBehind p root segments) (hne : segments ≠ []) :
    Text.fields '/' (ofParts ⟨none, segments⟩).text.toList = segments := by
  rw [toList_ofParts]
  exact Text.fields_joinFields hne h.plain

theorem exists_of_dropComponents? {cs : List Component} {segments rest : List (List Char)}
    (h : dropComponents? cs segments = some rest) : ∃ more, rest = dropVoidRight more := by
  induction cs generalizing segments with
  | nil => exact ⟨_, (Option.some.inj h).symm⟩
  | cons c cs ih =>
    rw [dropComponents?] at h
    split at h
    · cases h
    · split at h
      · exact ih h
      · cases h

/-- What dropping the components of a root leaves is left behind by that root. -/
theorem leftBehind_of_dropComponents? {p root : Path} {cs : List Component}
    {segments : List (List Char)} (hroot : root.components = p.parts.head.toList ++ cs)
    (h : dropComponents? cs p.parts.body = some segments) : LeftBehind p root segments := by
  obtain ⟨hcomponents, hmem, hfirst⟩ := of_dropComponents? h
  obtain ⟨more, hmore⟩ := exists_of_dropComponents? h
  refine ⟨?_, fun s hs => not_mem_of_mem_body (hmem s hs), hfirst, fun front s hs => ?_⟩
  · rw [Path.components, hroot, hcomponents, List.append_assoc]
  · exact isVoid_last_dropVoidRight (hmore.symm.trans hs)

/-- What stripping leaves: without a root all segments but the void ones at the end, and else those
behind the segments of the root. -/
theorem strip?_cases {p root r : Path} (h : p.strip? root = some r) :
    (root.text.toList = [] ∧ r = ofParts ⟨p.parts.head, dropVoidRight p.parts.body⟩) ∨
      (root.text.toList ≠ [] ∧ ∃ segments, r = ofParts ⟨none, segments⟩ ∧
        LeftBehind p root segments) := by
  unfold strip? at h
  split at h
  · next hnone => exact Or.inl ⟨components_eq_nil_iff.1 hnone, (Option.some.inj h).symm⟩
  · next c cs head hroot hhead =>
    split at h
    · next hc =>
      obtain ⟨segments, hsegments, rfl⟩ := Option.map_eq_some_iff.1 h
      have hne : root.text.toList ≠ [] := fun hempty => by
        rw [components_eq_nil_iff.2 hempty] at hroot
        cases hroot
      have hsplit : root.components = p.parts.head.toList ++ cs := by
        rw [hroot, hhead, hc]
        rfl
      exact Or.inr ⟨hne, segments, rfl, leftBehind_of_dropComponents? hsplit hsegments⟩
    · cases h
  · next hhead hne =>
    obtain ⟨segments, hsegments, rfl⟩ := Option.map_eq_some_iff.1 h
    have hnonempty : root.text.toList ≠ [] := fun hempty => hne (components_eq_nil_iff.2 hempty)
    have hsplit : root.components = p.parts.head.toList ++ root.components := by
      rw [hhead]
      rfl
    exact Or.inr ⟨hnonempty, segments, rfl, leftBehind_of_dropComponents? hsplit hsegments⟩

/-- A path below a root can be stripped. -/
theorem exists_strip? {p root : Path} (h : root.components <+: p.components) :
    ∃ r, p.strip? root = some r := by
  obtain ⟨rest, hrest⟩ := h
  rw [components_eq p] at hrest
  unfold strip?
  split
  · exact ⟨_, rfl⟩
  · next c cs head hroot hhead =>
    rw [hroot, hhead] at hrest
    obtain ⟨hc, htail⟩ := List.cons.inj hrest
    obtain ⟨segments, hsegments⟩ := exists_dropComponents? htail.symm
    rw [if_pos hc, hsegments]
    exact ⟨_, rfl⟩
  · next hhead _ =>
    rw [hhead] at hrest
    obtain ⟨segments, hsegments⟩ := exists_dropComponents? hrest.symm
    rw [hsegments]
    exact ⟨_, rfl⟩

/-! ## Joining what was stripped -/

/-- A path that ends in a segment that makes a component. -/
def EndsSolid (p : Path) : Prop :=
  ∃ front last, p.parts.body = front ++ [last] ∧ isVoid last = false

section

variable {p root r : Path}

/-- Without its void segments at the end a path has the same components. -/
theorem components_trimmed (p : Path) :
    (ofParts ⟨p.parts.head, dropVoidRight p.parts.body⟩).components = p.components := by
  obtain ⟨voids, hvoids, -⟩ := exists_dropVoidRight p.parts.body
  obtain ⟨hhead, htail⟩ := parts_front p hvoids
  rw [components_eq, hhead, htail, filterMap_dropVoidRight]
  rfl

/-- Joining what stripping left gives back the components of the path. -/
theorem components_join_of_strip? (h : p.strip? root = some r) :
    (root.join r).components = p.components := by
  rcases strip?_cases h with ⟨hempty, rfl⟩ | ⟨hne, segments, rfl, hleft⟩
  · rw [join_of_empty hempty, components_trimmed]
  · obtain ⟨hrelative, hfields⟩ := relative_ofParts hleft.plain hleft.first
    rw [components_join_of_ne_nil hne hrelative, hfields, hleft.components]

/-- Only a path whose components begin with those of the root can be stripped. -/
theorem isPrefix_of_strip? (h : p.strip? root = some r) : root.components <+: p.components := by
  rcases strip?_cases h with ⟨hempty, -⟩ | ⟨-, segments, -, hleft⟩
  · rw [components_eq_nil_iff.2 hempty]
    exact List.nil_prefix
  · exact ⟨_, hleft.components.symm⟩

/-- What was stripped ends in a component when it is joined again, unless nothing is left behind the
root or the path has no segment that counts. -/
theorem endsSolid_join_of_strip? (h : p.strip? root = some r) :
    (root.join r).EndsSolid ∨ root.components = p.components ∨ p.tailComponents = [] := by
  rcases strip?_cases h with ⟨hempty, rfl⟩ | ⟨hne, segments, rfl, hleft⟩
  · obtain ⟨voids, hvoids, -⟩ := exists_dropVoidRight p.parts.body
    have hparts := parts_ofParts_front p hvoids
    rw [join_of_empty hempty]
    rcases List.eq_nil_or_concat' (dropVoidRight p.parts.body) with hnil | ⟨front, last, hlast⟩
    · refine Or.inr (Or.inr ?_)
      rw [tailComponents, ← filterMap_dropVoidRight, hnil, List.filterMap_nil]
    · refine Or.inl ⟨front, last, ?_, isVoid_last_dropVoidRight hlast⟩
      rw [hparts, ← hlast]
      refine Text.fields_joinFields (by rw [hlast]; simp) fun s hs => ?_
      exact not_mem_of_mem_body (mem_of_mem_dropVoidRight hs)
  · rcases List.eq_nil_or_concat' segments with rfl | ⟨front, last, rfl⟩
    · refine Or.inr (Or.inl ?_)
      rw [hleft.components, List.filterMap_nil, List.append_nil]
    · obtain ⟨hrelative, -⟩ := relative_ofParts hleft.plain hleft.first
      obtain ⟨before, hparts, -⟩ := exists_parts_join hne hrelative
      refine Or.inl ⟨before ++ front, last, ?_, hleft.last front last rfl⟩
      rw [hparts, hleft.fields (by simp), List.append_assoc]

/-- The path relative to a root leads from there to the same components exactly if the path is
absolute or lies below the root. -/
theorem components_join_relativeTo_iff :
    (root.join (p.relativeTo root)).components = p.components ↔
      p.isAbsolute = true ∨ root.components <+: p.components := by
  cases hstrip : p.strip? root with
  | some r =>
    have hrelative : p.relativeTo root = r := by rw [relativeTo, hstrip]; rfl
    rw [hrelative]
    exact iff_of_true (components_join_of_strip? hstrip) (Or.inr (isPrefix_of_strip? hstrip))
  | none =>
    have hrelative : p.relativeTo root = p := by rw [relativeTo, hstrip]; rfl
    have hoff : ¬ root.components <+: p.components := fun hprefix => by
      obtain ⟨r, hr⟩ := exists_strip? hprefix
      rw [hstrip] at hr
      cases hr
    rw [hrelative]
    cases hp : p.isAbsolute with
    | true => exact iff_of_true (by rw [join_of_isAbsolute hp]) (Or.inl rfl)
    | false =>
      refine iff_of_false (fun hsame => hoff ?_) (by simp [hoff])
      have hne : root.text.toList ≠ [] := fun hempty => hoff (by
        rw [components_eq_nil_iff.2 hempty]
        exact List.nil_prefix)
      -- The joined path starts with the components of the root.
      rw [components_join_of_ne_nil hne hp] at hsame
      exact ⟨_, hsame⟩

end

end Path

namespace FileTree

variable {t : FileTree} {base place place' : Place} {p q root : Path}

/-! ## Paths with the same components -/

theorem origin_of_components (h : q.components = p.components) : origin base q = origin base p := by
  have hhead := (Path.head_and_tail_of_components h).1
  have habsolute : q.isAbsolute = p.isAbsolute := by
    rw [Bool.eq_iff_iff, ← Path.head_eq_root_iff, ← Path.head_eq_root_iff, hhead]
  rw [origin, origin, habsolute]

/-- Paths with the same components never lead to different places. -/
theorem follow_unique (h : q.components = p.components) (hp : t.follow base p = .ok place)
    (hq : t.follow base q = .ok place') : place' = place := by
  have hclimb := climb_of_follow hq
  rw [origin_of_components h, (Path.head_and_tail_of_components h).2, climb_of_follow hp] at hclimb
  exact (Except.ok.inj hclimb).symm

/-- A path that ends in a component leads wherever another one with the same components does. -/
theorem follow_of_components (h : q.components = p.components) (hsolid : q.EndsSolid)
    (hopenable : Openable q) (hp : t.follow base p = .ok place) : t.follow base q = .ok place := by
  obtain ⟨front, last, hbody, hlast⟩ := hsolid
  obtain ⟨c, hc⟩ := Path.exists_segmentComponent? hlast
  have htail : p.tailComponents = front.filterMap Path.segmentComponent? ++ [c] := by
    rw [← (Path.head_and_tail_of_components h).2, Path.tailComponents, hbody,
      List.filterMap_append, List.filterMap_cons_some hc]
    rfl
  have hclimb := climb_of_follow hp
  rw [htail] at hclimb
  refine follow_eq_ok_iff.2 ⟨hopenable, fun hempty => ?_, ?_⟩
  · -- The empty text has a void segment only.
    have hcomponents := Path.components_eq_nil_iff.2 hempty
    rw [h, Path.components_eq, htail] at hcomponents
    simp at hcomponents
  · rw [origin_of_components h, hbody, ← segment_of_segmentComponent? hc]
    exact enterAll_of_climb hclimb

/-- To a folder every path with the right components leads, whatever it ends in. -/
theorem follow_folder_of_components (h : q.components = p.components) (hopenable : Openable q)
    (hp : t.follow base p = .ok place) (hfolder : t.isFolderAt place = true) :
    t.follow base q = .ok place := by
  have hclimb := climb_of_follow hp
  rw [← origin_of_components h, ← (Path.head_and_tail_of_components h).2] at hclimb
  refine follow_eq_ok_iff.2 ⟨hopenable, fun hempty => ?_, enterAll_of_climb_folder hclimb hfolder⟩
  -- An empty text has no component, and then the other path would be empty as well.
  rw [Path.components_eq_nil_iff.2 hempty] at h
  exact (follow_eq_ok_iff.1 hp).2.1 (Path.components_eq_nil_iff.1 h.symm)

/-- A path without a segment that counts leads to the folder that it starts from. -/
theorem isFolderAt_of_no_component (hp : t.follow base p = .ok place)
    (hnone : p.tailComponents = []) : t.isFolderAt place = true := by
  have hclimb := climb_of_follow hp
  rw [hnone] at hclimb
  rw [← Except.ok.inj hclimb]
  exact isFolderAt_of_enterAll (follow_eq_ok_iff.1 hp).2.2 (Path.body_ne_nil p)

/-- Paths that lead to one place are read and written alike. -/
theorem read_write_of_follow (hp : t.follow base p = .ok place)
    (hq : t.follow base q = .ok place) :
    t.read base q = t.read base p ∧ ∀ s, t.write base q s = t.write base p s := by
  refine ⟨?_, fun s => ?_⟩
  · rw [read, read, hp, hq]
  · rw [write, write, hp, hq]

/-- What the relative path leads to from the root, if it is not left empty behind a file. -/
theorem follow_join_relativeTo (h : p.isAbsolute = true ∨ root.components <+: p.components)
    (hfolder : root.components = p.components → t.isFolderAt place = true)
    (hopenable : Openable (root.join (p.relativeTo root)))
    (hp : t.follow base p = .ok place) :
    t.follow base (root.join (p.relativeTo root)) = .ok place := by
  have hsame := Path.components_join_relativeTo_iff.2 h
  cases hstrip : p.strip? root with
  | some r =>
    have hrelative : p.relativeTo root = r := by rw [Path.relativeTo, hstrip]; rfl
    rw [hrelative] at hopenable hsame ⊢
    rcases Path.endsSolid_join_of_strip? hstrip with hsolid | hroot | hnone
    · exact follow_of_components hsame hsolid hopenable hp
    · exact follow_folder_of_components hsame hopenable hp (hfolder hroot)
    · exact follow_folder_of_components hsame hopenable hp (isFolderAt_of_no_component hp hnone)
  | none =>
    -- The path is not below the root, so it is absolute and stands for itself.
    have hrelative : p.relativeTo root = p := by rw [Path.relativeTo, hstrip]; rfl
    have habsolute : p.isAbsolute = true := by
      rcases h with habsolute | hprefix
      · exact habsolute
      · obtain ⟨r, hr⟩ := Path.exists_strip? hprefix
        rw [hstrip] at hr
        cases hr
    rwa [hrelative, Path.join_of_isAbsolute habsolute]

end FileTree

namespace FileContext

/-- The path that the findings in a file carry, joined to the root, has the components of the path
that was linted exactly if the latter is absolute or lies below the root. Then it never leads to
another place, and as long as the root leads to a folder, or is another path, and the joined text is
not too long, the same file is read and written. -/
theorem relative_leadsBack (path root : Path) :
    let relative := (FileContext.ofPath path root).relative
    ((root.join relative).components = path.components ↔
        path.isAbsolute = true ∨ root.components <+: path.components) ∧
      (path.isAbsolute = true ∨ root.components <+: path.components →
        ∀ (t : FileTree) (base place : Place), t.follow base path = .ok place →
          (∀ other, t.follow base (root.join relative) = .ok other → other = place) ∧
          ((∃ folder, t.follow base root = .ok folder ∧ t.isFolderAt folder = true) ∨
              root.components ≠ path.components →
            FileTree.Openable (root.join relative) →
              t.read base (root.join relative) = t.read base path ∧
                ∀ s, t.write base (root.join relative) s = t.write base path s)) := by
  intro relative
  refine ⟨Path.components_join_relativeTo_iff, ?_⟩
  intro h t base place hplace
  have hsame := Path.components_join_relativeTo_iff.2 h
  refine ⟨fun other hother => FileTree.follow_unique hsame hplace hother, ?_⟩
  intro hroot hopenable
  refine FileTree.read_write_of_follow hplace
    (FileTree.follow_join_relativeTo h (fun heq => ?_) hopenable hplace)
  -- A root with the components of the path leads to the same place, which is a folder then.
  rcases hroot with ⟨folder, hfollow, hfolder⟩ | hother
  · rwa [← FileTree.follow_unique heq hplace hfollow]
  · exact absurd heq hother

/-- A root with slashes at its end, and a file below it that is spelled with others. -/
theorem relative_leadsBack_doubledSlashes :
    let root : Path := ⟨"./src//"⟩
    let path : Path := ⟨"./src/.//lib/./a.js"⟩
    let t : FileTree := ⟨[(["w", "src", "lib", "a.js"], .text "f();")], []⟩
    (FileContext.ofPath path root).relative = ⟨"lib/./a.js"⟩ ∧
      (root.join ⟨"lib/./a.js"⟩).components = path.components ∧
      t.read ["w"] path = .ok "f();" ∧ t.read ["w"] (root.join ⟨"lib/./a.js"⟩) = .ok "f();" := by
  intro root path t
  have hrelative : (FileContext.ofPath path root).relative = ⟨"lib/./a.js"⟩ := by decide +kernel
  have hbelow : path.isAbsolute = true ∨ root.components <+: path.components :=
    Or.inr (by decide +kernel)
  have hplace : t.follow ["w"] path = .ok ["w", "src", "lib", "a.js"] := by decide +kernel
  have hread : t.read ["w"] path = .ok "f();" := by decide +kernel
  obtain ⟨hcomponents, hleads⟩ := relative_leadsBack path root
  rw [hrelative] at hcomponents hleads
  have hfolder : t.follow ["w"] root = .ok ["w", "src"] ∧ t.isFolderAt ["w", "src"] = true := by
    decide +kernel
  obtain ⟨-, hopens⟩ := hleads hbelow t ["w"] _ hplace
  refine ⟨hrelative, hcomponents.2 hbelow, hread, ?_⟩
  rw [(hopens (Or.inl ⟨_, hfolder⟩) ⟨by decide +kernel, by decide +kernel⟩).1, hread]

end FileContext

end ModulePurity
