import ModulePurity.Proofs.PathJoin
import ModulePurity.Proofs.Permissiveness
import ModulePurity.Tree.Comment

/-!
# Call paths as dotted paths

A call target is matched from its outermost property inwards, with one step for each segment. This
file says the same from left to right. `peel` takes parentheses and member accesses off a target and
keeps the names; a call path then compares its segments with the last names, and its anchor with the
base that is left (`EndsIn`), or with the meta-property that is left (`StartsAtImport`).

* Going inwards by some segments is the same as cutting accepted names off the end (`of_enterAll?`,
  `exists_enterAll?`).
* So matching is comparing, as long as only nodes of kind `comment` count as comments in parentheses
  (`matches_iff_endsIn`, `matches_iff_startsAtImport`).
* Any other idea of a comment gives the same result on a target whose parentheses do not tell the
  difference (`rawMatches_iff_dotted`). An `html_comment` in front of the expression in parentheses
  does (`commentedObject_not_matched`).
-/

namespace ModulePurity

theorem Node.size_lt_of_mem {c n : Node} (h : c ∈ n.children) : c.size < n.size := by
  obtain ⟨label, children⟩ := n
  have hle : ∀ cs : List Node, c ∈ cs → c.size ≤ Node.sizes cs := by
    intro cs hc
    induction cs with
    | nil => cases hc
    | cons d cs ih =>
      rw [Node.sizes]
      rcases List.mem_cons.1 hc with rfl | hc
      · omega
      · have := ih hc
        omega
  have := hle children h
  rw [Node.size]
  omega

namespace Purity

/-! ## Taking a target apart -/

/-- The expression in parentheses: their first named child that is not skipped. -/
def inner? (skips : Node → Bool) (n : Node) : Option Node :=
  if n.kind == "parenthesized_expression" then
    n.children.find? fun c => c.label.named && !skips c
  else none

/-- The name behind the dot of a member access, and what stands before the dot. -/
def access? (source : List Char) (n : Node) : Option (List Char × Node) :=
  if n.kind == "member_expression" then
    ((n.child? .property).bind (nameOf? source)).bind fun name =>
      (n.child? .object).map fun object => (name, object)
  else none

theorem mem_children_of_inner? {skips : Node → Bool} {n c : Node} (h : inner? skips n = some c) :
    c ∈ n.children := by
  unfold inner? at h
  split at h
  · exact List.mem_of_find?_eq_some h
  · cases h

theorem inner?_of_kind {skips : Node → Bool} {n : Node} (h : n.kind ≠ "parenthesized_expression") :
    inner? skips n = none :=
  if_neg (by simpa using h)

theorem access?_of_kind {source : List Char} {n : Node} (h : n.kind ≠ "member_expression") :
    access? source n = none :=
  if_neg (by simpa using h)

/-- An access is a member expression with a readable property name and an object. -/
theorem access?_eq_some_iff {source : List Char} {n object : Node} {name : List Char} :
    access? source n = some (name, object) ↔
      n.kind = "member_expression" ∧ (n.child? .property).bind (nameOf? source) = some name ∧
        n.child? .object = some object := by
  by_cases hkind : n.kind = "member_expression"
  · simp [access?, hkind, Option.bind_eq_some_iff, Option.map_eq_some_iff]
  · simp [access?_of_kind hkind, hkind]

/-- A call target taken apart. -/
structure Peeled where
  /-- The names of its member accesses, the outermost one last. -/
  names : List (List Char)
  /-- What is left. -/
  base : Node
  /-- All nodes that were come by, from the target to the base. -/
  way : List Node

/-- Takes parentheses and member accesses off a target until there are none. -/
def peel (skips : Node → Bool) (source : List Char) (n : Node) : Peeled :=
  match _hinner : inner? skips n with
  | some inner =>
    let rest := peel skips source inner
    ⟨rest.names, rest.base, n :: rest.way⟩
  | none =>
    match _haccess : access? source n with
    | some (name, object) =>
      let rest := peel skips source object
      ⟨rest.names ++ [name], rest.base, n :: rest.way⟩
    | none => ⟨[], n, [n]⟩
termination_by n.size
decreasing_by
  · exact Node.size_lt_of_mem (mem_children_of_inner? (by assumption))
  · obtain ⟨-, -, hobject⟩ := access?_eq_some_iff.1 (by assumption)
    exact Node.size_lt_of_mem (List.mem_of_find?_eq_some hobject)

section

variable {skips : Node → Bool} {source : List Char} {n : Node}

/-- Peeling takes off parentheses if there are some, else an access, and goes on with what is
inside. -/
theorem peel_eq :
    peel skips source n =
      match inner? skips n with
      | some inner =>
        ⟨(peel skips source inner).names, (peel skips source inner).base,
          n :: (peel skips source inner).way⟩
      | none =>
        match access? source n with
        | some (name, object) =>
          ⟨(peel skips source object).names ++ [name], (peel skips source object).base,
            n :: (peel skips source object).way⟩
        | none => ⟨[], n, [n]⟩ := by
  rw [peel]
  split
  · next hinner => rw [hinner]
  · next hinner =>
    rw [hinner]
    split
    · next haccess => rw [haccess]
    · next haccess => rw [haccess]

/-- Parentheses add no name. -/
theorem peel_of_inner {inner : Node} (h : inner? skips n = some inner) :
    peel skips source n =
      ⟨(peel skips source inner).names, (peel skips source inner).base,
        n :: (peel skips source inner).way⟩ := by
  rw [peel_eq, h]

/-- An access adds its property as the last name. -/
theorem peel_of_access {name : List Char} {object : Node} (hinner : inner? skips n = none)
    (h : access? source n = some (name, object)) :
    peel skips source n =
      ⟨(peel skips source object).names ++ [name], (peel skips source object).base,
        n :: (peel skips source object).way⟩ := by
  rw [peel_eq, hinner, h]

/-- What is neither in parentheses nor an access is the base. -/
theorem peel_of_base (hinner : inner? skips n = none) (h : access? source n = none) :
    peel skips source n = ⟨[], n, [n]⟩ := by
  rw [peel_eq, hinner, h]

/-- Two ideas of what to skip take a target apart alike if they agree along the way. -/
theorem peel_congr {skips' : Node → Bool}
    (h : ∀ m ∈ (peel skips source n).way, inner? skips m = inner? skips' m) :
    peel skips source n = peel skips' source n := by
  fun_induction peel skips source n with
  | case1 n inner hinner rest ih =>
    have hinner' : inner? skips' n = some inner := by
      rw [← h n List.mem_cons_self, hinner]
    rw [peel_of_inner hinner', ← ih fun m hm => h m (List.mem_cons_of_mem n hm)]
  | case2 n hinner name object haccess rest ih =>
    have hinner' : inner? skips' n = none := by
      rw [← h n List.mem_cons_self, hinner]
    rw [peel_of_access hinner' haccess, ← ih fun m hm => h m (List.mem_cons_of_mem n hm)]
  | case3 n hinner haccess =>
    have hinner' : inner? skips' n = none := by
      rw [← h n List.mem_cons_self, hinner]
    rw [peel_of_base hinner' haccess]

end

/-! ## Parentheses -/

/-- A node of the kind that matching skips in parentheses. -/
def isPlainComment (n : Node) : Bool := n.kind == "comment"

theorem unwrapFirst_eq (outer : Node) (cs : List Node) :
    unwrapFirst outer cs =
      match cs.find? fun c => c.label.named && !isPlainComment c with
      | some c => unwrapParens c
      | none => outer := by
  induction cs with
  | nil => rfl
  | cons c cs ih =>
    have hcondition : (c.label.named && c.kind != "comment") =
        (c.label.named && !isPlainComment c) := rfl
    rw [unwrapFirst, hcondition, List.find?_cons]
    cases c.label.named && !isPlainComment c with
    | true => rfl
    | false => exact ih

/-- Taking off parentheses goes inwards until there are none. -/
theorem unwrapParens_eq (n : Node) :
    unwrapParens n =
      match inner? isPlainComment n with
      | some c => unwrapParens c
      | none => n := by
  obtain ⟨label, children⟩ := n
  rw [unwrapParens, inner?, Node.kind, Node.label_mk, Node.children_mk]
  cases label.kind == "parenthesized_expression" with
  | true => exact unwrapFirst_eq _ children
  | false => rfl

theorem inner?_unwrapParens (n : Node) : inner? isPlainComment (unwrapParens n) = none := by
  induction n using Node.induct with
  | step label children ih =>
    rw [unwrapParens_eq]
    split
    · next c hc => exact ih c (mem_children_of_inner? hc)
    · next hnone => exact hnone

/-- Peeling starts with taking off the parentheses around the target. -/
theorem peel_unwrapParens (source : List Char) (n : Node) :
    (peel isPlainComment source (unwrapParens n)).names = (peel isPlainComment source n).names ∧
      (peel isPlainComment source (unwrapParens n)).base = (peel isPlainComment source n).base := by
  induction n using Node.induct with
  | step label children ih =>
    rw [unwrapParens_eq]
    split
    · next c hc =>
      rw [peel_of_inner hc]
      exact ih c (mem_children_of_inner? hc)
    · exact ⟨rfl, rfl⟩

/-! ## Going inwards -/

/-- Goes inwards through member accesses, one for each segment. -/
def enterAll? (source : List Char) : List Segment → Node → Option Node
  | [], n => some n
  | s :: segments, n => (enter? source s objectOf? n).bind (enterAll? source segments)

/-- Without `import.` matching goes inwards over all segments first and then tries the anchor. -/
theorem matchInwards_false (anchor : Segment) (source : List Char) (segments : List Segment)
    (n : Node) :
    matchInwards false anchor source segments n =
      (enterAll? source segments n).any (anchorMatches anchor source) := by
  induction segments generalizing n with
  | nil => rfl
  | cons s segments ih =>
    cases segments with
    | nil =>
      rw [matchInwards, enterAll?, if_neg Bool.false_ne_true]
      cases enter? source s objectOf? n with
      | none => rfl
      | some inner => exact ih inner
    | cons t segments =>
      rw [matchInwards, enterAll?]
      cases enter? source s objectOf? n with
      | none => rfl
      | some inner => exact ih inner

/-- Behind a leading `import.` the innermost step goes through a meta-property. -/
theorem matchInwards_true (anchor : Segment) (source : List Char) (segments : List Segment)
    (s : Segment) (n : Node) :
    matchInwards true anchor source (segments ++ [s]) n =
      (enterAll? source segments n).any fun b =>
        (enter? source s metaOf? b).any (anchorMatches anchor source) := by
  induction segments generalizing n with
  | nil =>
    rw [List.nil_append, matchInwards, enterAll?, if_pos rfl, Option.any_some]
    cases enter? source s metaOf? n <;> rfl
  | cons t segments ih =>
    have hstep : matchInwards true anchor source (t :: (segments ++ [s])) n =
        (enter? source t objectOf? n).any (matchInwards true anchor source (segments ++ [s])) := by
      cases hrest : segments ++ [s] with
      | nil => simp at hrest
      | cons u rest =>
        rw [matchInwards]
        cases enter? source t objectOf? n <;> rfl
    rw [List.cons_append, hstep, enterAll?]
    cases enter? source t objectOf? n with
    | none => rfl
    | some inner => exact ih inner

variable {source : List Char} {n : Node}

/-- One step inwards goes through a member access whose name is accepted. -/
theorem enter?_objectOf? (s : Segment) (n : Node) :
    enter? source s objectOf? n =
      (access? source n).bind fun found =>
        if s.accepts found.1 then some (unwrapParens found.2) else none := by
  by_cases hkind : n.kind = "member_expression"
  · have hname : propertyName? source n = (n.child? .property).bind (nameOf? source) := by
      rw [propertyName?, hkind]
      rfl
    rw [enter?, hname, objectOf?, access?, hkind]
    cases (n.child? .property).bind (nameOf? source) with
    | none => rfl
    | some name =>
      cases n.child? .object with
      | none => simp
      | some object => simp
  · -- A meta-property has a name, but no object.
    have hobject : objectOf? n = none := if_neg (by simpa using hkind)
    rw [access?_of_kind hkind, enter?, hobject]
    cases propertyName? source n <;> simp

/-- Going inwards cuts accepted names off the end, the last one first. -/
theorem of_enterAll? {segments : List Segment} {b : Node}
    (hn : inner? isPlainComment n = none) (h : enterAll? source segments n = some b) :
    inner? isPlainComment b = none ∧
      (peel isPlainComment source n).base = (peel isPlainComment source b).base ∧
      ∃ cut, List.Forall₂ (fun s name => s.accepts name = true) segments cut ∧
        (peel isPlainComment source n).names =
          (peel isPlainComment source b).names ++ cut.reverse := by
  induction segments generalizing n with
  | nil =>
    cases h
    exact ⟨hn, rfl, [], List.Forall₂.nil, (List.append_nil _).symm⟩
  | cons s segments ih =>
    rw [enterAll?, enter?_objectOf?] at h
    obtain ⟨inner, hinner, h⟩ := Option.bind_eq_some_iff.1 h
    obtain ⟨⟨name, object⟩, haccess, hinner⟩ := Option.bind_eq_some_iff.1 hinner
    split at hinner
    · next haccepts =>
      cases hinner
      obtain ⟨hb, hbase, cut, hall, hnames⟩ := ih (inner?_unwrapParens object) h
      obtain ⟨hnames', hbase'⟩ := peel_unwrapParens source object
      rw [peel_of_access hn haccess]
      refine ⟨hb, hbase'.symm.trans hbase, name :: cut, List.Forall₂.cons haccepts hall, ?_⟩
      rw [List.reverse_cons, ← List.append_assoc, ← hnames, hnames']
    · cases hinner

/-- Accepted names at the end lead inwards. -/
theorem exists_enterAll? {segments : List Segment} {kept cut : List (List Char)}
    (hn : inner? isPlainComment n = none)
    (hall : List.Forall₂ (fun s name => s.accepts name = true) segments cut)
    (hnames : (peel isPlainComment source n).names = kept ++ cut.reverse) :
    ∃ b, enterAll? source segments n = some b ∧
      (peel isPlainComment source b).names = kept := by
  induction hall generalizing n with
  | nil => exact ⟨n, rfl, by simpa using hnames⟩
  | @cons s name segments cut haccepts _ ih =>
    rw [List.reverse_cons, ← List.append_assoc] at hnames
    cases haccess : access? source n with
    | none =>
      rw [peel_of_base hn haccess] at hnames
      simp at hnames
    | some found =>
      obtain ⟨name', object⟩ := found
      rw [peel_of_access hn haccess] at hnames
      obtain ⟨hobject, rfl⟩ := List.append_singleton_inj.1 hnames
      rw [← (peel_unwrapParens source object).1] at hobject
      obtain ⟨b, hb, hkept⟩ := ih (inner?_unwrapParens object) hobject
      refine ⟨b, ?_, hkept⟩
      rw [enterAll?, enter?_objectOf?, haccess, Option.bind_some, if_pos haccepts, Option.bind_some,
        hb]

/-! ## Comparing -/

/-- The segments of a call path fit names and a base: as many names as there are properties are
accepted at the end, and the anchor is a star or the name of the base right before them. -/
structure EndsIn (p : CallPath) (source : List Char) (names : List (List Char)) (base : Node) :
    Prop where
  enough : p.properties.length ≤ names.length
  accepted : List.Forall₂ (fun s name => s.accepts name = true) p.properties
    (names.drop (names.length - p.properties.length))
  anchored : p.anchor = .any ∨
    p.properties.length = names.length ∧ ∃ w, p.anchor = .word w ∧ nameOf? source base = some w

/-- A meta-property that starts with `import` and ends in a keyword that a segment accepts. -/
structure ImportMeta (source : List Char) (s : Segment) (n : Node) : Prop where
  kind : n.kind = "meta_property"
  keyword : ∃ last, n.children.getLast? = some last ∧ (last.kind = "meta" ∨ last.kind = "target") ∧
    s.accepts last.kind.toList = true
  first : ∃ first, n.children.head? = some first ∧
    nameOf? source (unwrapParens first) = some "import".toList

/-- The segments of a call path behind `import.` fit names and a base: the base is the meta-property
of the first segment, and the others accept all of the names. -/
structure StartsAtImport (p : CallPath) (source : List Char) (names : List (List Char))
    (base : Node) : Prop where
  count : names.length + 1 = p.properties.length
  base : ∀ s ∈ p.properties.head?, ImportMeta source s base
  accepted : List.Forall₂ (fun s name => s.accepts name = true) p.properties.tail names

/-- A node that holds a name is no access, so that peeling ends there. -/
theorem access?_of_name {w : List Char} (h : nameOf? source n = some w) :
    access? source n = none := by
  apply access?_of_kind
  intro hkind
  rw [nameOf?, hkind] at h
  cases h

/-- Without names the base is what there was, apart from parentheses. -/
theorem base_of_names_eq_nil (hn : inner? isPlainComment n = none)
    (h : (peel isPlainComment source n).names = []) :
    (peel isPlainComment source n).base = n := by
  cases haccess : access? source n with
  | none => rw [peel_of_base hn haccess]
  | some found =>
    rw [peel_of_access hn haccess] at h
    simp at h

/-- Going inwards by all properties of a call path, seen from left to right. -/
theorem enterAll?_reverse {segments : List Segment} {b : Node}
    (hn : inner? isPlainComment n = none) (h : enterAll? source segments.reverse n = some b) :
    ∃ last, List.Forall₂ (fun s name => s.accepts name = true) segments last ∧
      (peel isPlainComment source n).names = (peel isPlainComment source b).names ++ last := by
  obtain ⟨-, -, cut, hall, hnames⟩ := of_enterAll? hn h
  refine ⟨cut.reverse, ?_, hnames⟩
  rw [← List.forall₂_reverse_iff, List.reverse_reverse]
  exact hall

/-- Going inwards over segments from the last one takes the names off the end one by one. -/
theorem exists_enterAll?_reverse {segments : List Segment} {kept last : List (List Char)}
    (hn : inner? isPlainComment n = none)
    (hall : List.Forall₂ (fun s name => s.accepts name = true) segments last)
    (hnames : (peel isPlainComment source n).names = kept ++ last) :
    ∃ b, enterAll? source segments.reverse n = some b ∧
      (peel isPlainComment source b).names = kept := by
  apply exists_enterAll? hn (List.forall₂_reverse_iff.2 hall)
  rw [List.reverse_reverse]
  exact hnames

/-- A call path without `import.` matches exactly the targets whose names end in those of its
properties, with the anchor right before them. -/
theorem matches_iff_endsIn {p : CallPath} (h : p.throughMeta = false) (source : List Char)
    (target : Node) :
    p.matches source target = true ↔
      EndsIn p source (peel isPlainComment source target).names
        (peel isPlainComment source target).base := by
  obtain ⟨hnames, hbase⟩ := peel_unwrapParens source target
  have hn := inner?_unwrapParens target
  rw [CallPath.matches, h, matchInwards_false, Option.any_eq_true, ← hnames, ← hbase]
  constructor
  · rintro ⟨b, hb, hanchor⟩
    obtain ⟨hinner, hbase, -⟩ := of_enterAll? hn hb
    obtain ⟨last, hall, hlast⟩ := enterAll?_reverse hn hb
    have hlength := hall.length_eq
    rw [hlast, hbase]
    refine ⟨by rw [List.length_append]; omega, ?_, ?_⟩
    · rw [List.length_append, List.drop_left' (by omega)]
      exact hall
    · cases hp : p.anchor with
      | any => exact Or.inl rfl
      | word w =>
        -- A node with a name is no member access, so that there are no more names.
        have hw : nameOf? source b = some w := by simpa [anchorMatches, hp] using hanchor
        rw [peel_of_base hinner (access?_of_name hw)]
        exact Or.inr ⟨by simpa using hlength, w, rfl, hw⟩
  · rintro ⟨henough, haccepted, hanchored⟩
    obtain ⟨b, hb, hkept⟩ := exists_enterAll?_reverse hn haccepted (List.take_append_drop _ _).symm
    refine ⟨b, hb, ?_⟩
    rcases hanchored with hany | ⟨hcount, w, hword, hw⟩
    · rw [hany]
      rfl
    · obtain ⟨hinner, hbase, -⟩ := of_enterAll? hn hb
      rw [hcount, Nat.sub_self, List.take_zero] at hkept
      rw [hbase, base_of_names_eq_nil hinner hkept] at hw
      simp [hword, anchorMatches, hw]

theorem propertyName?_of_meta {w : List Char} (hkind : n.kind = "meta_property") :
    propertyName? source n = some w ↔
      ∃ last, n.children.getLast? = some last ∧ (last.kind = "meta" ∨ last.kind = "target") ∧
        last.kind.toList = w := by
  rw [propertyName?, hkind]
  show n.children.getLast?.bind _ = some w ↔ _
  rw [Option.bind_eq_some_iff]
  apply exists_congr
  intro last
  apply and_congr_right
  intro _
  split
  · next hmeta => simp [hmeta]
  · next htarget => simp [htarget]
  · next hmeta htarget => exact iff_of_false (by simp) fun h => h.1.elim hmeta htarget

/-- The last step behind `import.` asks for a meta-property. -/
theorem any_enter?_metaOf? (s : Segment) (n : Node) :
    (enter? source s metaOf? n).any (anchorMatches (.word "import".toList) source) = true ↔
      ImportMeta source s n := by
  rw [Option.any_eq_true]
  constructor
  · rintro ⟨k, hk, hname⟩
    obtain ⟨w, hw, hk⟩ := Option.bind_eq_some_iff.1 hk
    split at hk
    · next haccepts =>
      obtain ⟨first, hfirst, rfl⟩ := Option.map_eq_some_iff.1 hk
      unfold metaOf? at hfirst
      split at hfirst
      · next hkind =>
        have hkind : n.kind = "meta_property" := beq_iff_eq.1 hkind
        obtain ⟨last, hlast, hkeyword, rfl⟩ := (propertyName?_of_meta hkind).1 hw
        exact ⟨hkind, ⟨last, hlast, hkeyword, haccepts⟩, ⟨first, hfirst, beq_iff_eq.1 hname⟩⟩
      · cases hfirst
    · cases hk
  · rintro ⟨hkind, ⟨last, hlast, hkeyword, haccepts⟩, ⟨first, hfirst, hname⟩⟩
    have hmeta : metaOf? n = some first := by
      rw [metaOf?, if_pos (beq_iff_eq.2 hkind), hfirst]
    refine ⟨unwrapParens first, ?_, beq_iff_eq.2 hname⟩
    rw [enter?, (propertyName?_of_meta hkind).2 ⟨last, hlast, hkeyword, rfl⟩, Option.bind_some,
      if_pos haccepts, hmeta, Option.map_some]

/-- A call path behind `import.` matches exactly the targets whose names are all those of its
properties, from the meta-property on. -/
theorem matches_iff_startsAtImport {p : CallPath} (h : p.throughMeta = true) (source : List Char)
    (target : Node) :
    p.matches source target = true ↔
      StartsAtImport p source (peel isPlainComment source target).names
        (peel isPlainComment source target).base := by
  obtain ⟨hnames, hbase⟩ := peel_unwrapParens source target
  have hn := inner?_unwrapParens target
  obtain ⟨hanchor, hne⟩ := CallPath.throughMeta_iff.1 h
  obtain ⟨s, segments, hproperties⟩ := List.exists_cons_of_ne_nil hne
  rw [CallPath.matches, h, hanchor, hproperties, List.reverse_cons, matchInwards_true,
    Option.any_eq_true, ← hnames, ← hbase]
  simp only [any_enter?_metaOf?]
  constructor
  · rintro ⟨b, hb, himport⟩
    obtain ⟨hinner, hbase, -⟩ := of_enterAll? hn hb
    obtain ⟨last, hall, hlast⟩ := enterAll?_reverse hn hb
    have hlength := hall.length_eq
    have haccess : access? source b = none := by
      apply access?_of_kind
      rw [himport.kind]
      decide
    rw [peel_of_base hinner haccess] at hbase hlast
    rw [hbase, hlast, List.nil_append]
    refine ⟨?_, ?_, ?_⟩
    · rw [hproperties, List.length_cons, hlength]
    · rw [hproperties]
      rintro t ⟨⟩
      exact himport
    · rw [hproperties]
      exact hall
  · rintro ⟨hcount, himport, haccepted⟩
    rw [hproperties] at himport haccepted
    obtain ⟨b, hb, hkept⟩ := exists_enterAll?_reverse hn haccepted (List.nil_append _).symm
    obtain ⟨hinner, hbase, -⟩ := of_enterAll? hn hb
    rw [hbase, base_of_names_eq_nil hinner hkept] at himport
    exact ⟨b, hb, himport s rfl⟩

/-! ## Call paths as they are written -/

/-- Whether a call path goes through a meta-property can be read off its first letters. -/
theorem throughMeta_iff_isPrefix {raw : String} {p : CallPath} (h : CallPath.parse? raw = some p) :
    p.throughMeta = true ↔ "import.".toList <+: raw.toList := by
  constructor
  · exact starts_with_import h
  · rintro ⟨rest, hrest⟩
    have hfields : Text.fields '.' raw.toList = "import".toList :: Text.fields '.' rest := by
      rw [← hrest]
      exact Text.fields_append '.' "import".toList rest
    have hsegments := CallPath.exists_fields h
    rw [hfields, parseSegments?] at hsegments
    obtain ⟨s, hs, hsegments⟩ := Option.bind_eq_some_iff.1 hsegments
    obtain ⟨properties, hproperties, heq⟩ := Option.map_eq_some_iff.1 hsegments
    obtain ⟨rfl, rfl⟩ := List.cons.inj heq
    have hword : Segment.parse? "import".toList = some (.word "import".toList) := by decide
    refine CallPath.throughMeta_iff.2 ⟨Option.some.inj (hs.symm.trans hword), ?_⟩
    obtain ⟨field, fields, hrest⟩ := List.exists_cons_of_ne_nil (Text.fields_ne_nil '.' rest)
    rw [hrest, parseSegments?] at hproperties
    obtain ⟨t, -, hproperties⟩ := Option.bind_eq_some_iff.1 hproperties
    obtain ⟨others, -, heq⟩ := Option.map_eq_some_iff.1 hproperties
    rw [← heq]
    exact List.cons_ne_nil t others

/-- A well-formed entry matches as its path does. -/
theorem rawMatches_of_parse? {raw : String} {p : CallPath} (h : CallPath.parse? raw = some p)
    (source : List Char) (target : Node) :
    rawMatches raw source target = p.matches source target := by
  rw [rawMatches, h]

/-- A well-formed call path matches a target if and only if its segments fit the names of the target
and its base. The target may be taken apart with any idea of what to skip in parentheses, as long as
the parentheses on the way have the same inner expression if only nodes of kind `comment` are
skipped. A computed access behind which there are fewer names than properties is never matched. -/
theorem rawMatches_iff_dotted {raw : String} {p : CallPath} (hraw : CallPath.parse? raw = some p)
    (skips : Node → Bool) (source : List Char) (target : Node)
    (hway : ∀ m ∈ (peel skips source target).way, inner? skips m = inner? isPlainComment m) :
    let x := peel skips source target
    (¬ "import.".toList <+: raw.toList →
        (rawMatches raw source target = true ↔ EndsIn p source x.names x.base)) ∧
      ("import.".toList <+: raw.toList →
        (rawMatches raw source target = true ↔ StartsAtImport p source x.names x.base)) ∧
      (x.base.kind = "subscript_expression" → x.names.length < p.properties.length →
        rawMatches raw source target = false) := by
  intro x
  have hx : x = peel isPlainComment source target := peel_congr hway
  have hplain : ¬ "import.".toList <+: raw.toList →
      (rawMatches raw source target = true ↔ EndsIn p source x.names x.base) := by
    intro hnot
    rw [rawMatches_of_parse? hraw, hx]
    apply matches_iff_endsIn
    rw [← throughMeta_iff_isPrefix hraw] at hnot
    simpa using hnot
  have himport : "import.".toList <+: raw.toList →
      (rawMatches raw source target = true ↔ StartsAtImport p source x.names x.base) := by
    intro hprefix
    rw [rawMatches_of_parse? hraw, hx]
    exact matches_iff_startsAtImport ((throughMeta_iff_isPrefix hraw).2 hprefix) source target
  refine ⟨hplain, himport, fun hcomputed hfew => ?_⟩
  rw [Bool.eq_false_iff]
  intro hmatch
  by_cases hprefix : "import.".toList <+: raw.toList
  · -- The base would have to be a meta-property.
    have hstarts := (himport hprefix).1 hmatch
    obtain ⟨s, segments, hproperties⟩ : ∃ s segments, p.properties = s :: segments :=
      List.exists_cons_of_length_pos (by omega)
    have hkind := (hstarts.base s (by rw [hproperties]; rfl)).kind
    rw [hcomputed] at hkind
    exact absurd hkind (by decide)
  · have henough := ((hplain hprefix).1 hmatch).enough
    omega

/-- The text of a call of `x.f` with a comment of nine bytes and a line end before `x`. -/
def commentedText (comment : String) : List Char :=
  "(".toList ++ comment.toList ++ "\n x).f();".toList

/-- The object of the call, with the kind of the comment. -/
def commentedObject (kind : String) : Node :=
  sampleNode "parenthesized_expression" 0 14 (some .object)
    [sampleToken "(" 0, sampleNode kind 1 10 none [], sampleNode "identifier" 12 13 none [],
      sampleToken ")" 13]

/-- The target of the call. -/
def commentedTarget (kind : String) : Node :=
  sampleNode "member_expression" 0 16 (some .function)
    [commentedObject kind, sampleToken "." 14,
      sampleNode "property_identifier" 15 16 (some .property) []]

/-- The call path `x.f`. -/
def memberPath : CallPath := ⟨.word "x".toList, [.word "f".toList]⟩

theorem parse?_memberPath : CallPath.parse? "x.f" = some memberPath := by decide +kernel

/-- A comment of either kind. -/
def CommentSample (kind comment : String) : Prop :=
  kind = "comment" ∧ comment = "// plain." ∨ kind = "html_comment" ∧ comment = "<!-- html"

/-- What is left of the target is what is taken for the expression in parentheses. -/
theorem peel_commentedTarget {skips : Node → Bool} {kind comment : String} {inner : Node}
    (h : CommentSample kind comment) (hinner : inner? skips (commentedObject kind) = some inner)
    (hparens : inner.kind ≠ "parenthesized_expression")
    (hmember : inner.kind ≠ "member_expression") :
    peel skips (commentedText comment) (commentedTarget kind) =
      ⟨["f".toList], inner, [commentedTarget kind, commentedObject kind, inner]⟩ := by
  have haccess : access? (commentedText comment) (commentedTarget kind) =
      some ("f".toList, commentedObject kind) := by
    rcases h with ⟨rfl, rfl⟩ | ⟨rfl, rfl⟩
    · rfl
    · rfl
  have htarget : (commentedTarget kind).kind ≠ "parenthesized_expression" := by
    show "member_expression" ≠ "parenthesized_expression"
    decide
  rw [peel_of_access (inner?_of_kind htarget) haccess, peel_of_inner hinner,
    peel_of_base (inner?_of_kind hparens) (access?_of_kind hmember)]
  rfl

/-- With all comments skipped there is `x.f`, whichever kind the comment has. -/
theorem peel_isComment_commentedTarget {kind comment : String} (h : CommentSample kind comment) :
    peel Node.isComment (commentedText comment) (commentedTarget kind) =
      ⟨["f".toList], sampleNode "identifier" 12 13 none [],
        [commentedTarget kind, commentedObject kind, sampleNode "identifier" 12 13 none []]⟩ := by
  apply peel_commentedTarget h
  · rcases h with ⟨rfl, rfl⟩ | ⟨rfl, rfl⟩
    · rfl
    · rfl
  · decide
  · decide

theorem endsIn_memberPath {kind comment : String} (h : CommentSample kind comment) :
    EndsIn memberPath (commentedText comment) ["f".toList]
      (sampleNode "identifier" 12 13 none []) := by
  have hname : nameOf? (commentedText comment) (sampleNode "identifier" 12 13 none []) =
      some "x".toList := by
    rcases h with ⟨rfl, rfl⟩ | ⟨rfl, rfl⟩
    · rfl
    · rfl
  refine ⟨Nat.le_refl 1, List.Forall₂.cons rfl List.Forall₂.nil, Or.inr ⟨rfl, "x".toList, rfl, ?_⟩⟩
  exact hname

/-- A comment of the plain kind does not matter. -/
theorem rawMatches_iff_dotted_plainComment :
    CallPath.parse? "x.f" = some memberPath ∧
      (∀ m ∈ (peel Node.isComment (commentedText "// plain.") (commentedTarget "comment")).way,
        inner? Node.isComment m = inner? isPlainComment m) ∧
      rawMatches "x.f" (commentedText "// plain.") (commentedTarget "comment") = true := by
  have hsample : CommentSample "comment" "// plain." := Or.inl ⟨rfl, rfl⟩
  have hpeel := peel_isComment_commentedTarget hsample
  have hway : ∀ m ∈ (peel Node.isComment (commentedText "// plain.")
      (commentedTarget "comment")).way, inner? Node.isComment m = inner? isPlainComment m := by
    rw [hpeel]
    intro m hm
    simp only [List.mem_cons, List.not_mem_nil, or_false] at hm
    rcases hm with rfl | rfl | rfl
    · rfl
    · rfl
    · rfl
  have hdotted := (rawMatches_iff_dotted parse?_memberPath Node.isComment
    (commentedText "// plain.") (commentedTarget "comment") hway).1 (by decide)
  rw [hpeel] at hdotted
  exact ⟨parse?_memberPath, hway, hdotted.2 (endsIn_memberPath hsample)⟩

/-- A comment of the other kind hides the object, and `x.f` is not matched. -/
theorem commentedObject_not_matched :
    CallPath.parse? "x.f" = some memberPath ∧ ¬ "import.".toList <+: "x.f".toList ∧
      EndsIn memberPath (commentedText "<!-- html")
        (peel Node.isComment (commentedText "<!-- html") (commentedTarget "html_comment")).names
        (peel Node.isComment (commentedText "<!-- html") (commentedTarget "html_comment")).base ∧
      rawMatches "x.f" (commentedText "<!-- html") (commentedTarget "html_comment") = false := by
  have hsample : CommentSample "html_comment" "<!-- html" := Or.inr ⟨rfl, rfl⟩
  refine ⟨parse?_memberPath, by decide, ?_, by decide +kernel⟩
  rw [peel_isComment_commentedTarget hsample]
  exact endsIn_memberPath hsample

end Purity

end ModulePurity
