import ModulePurity.Proofs.MarkedText
import ModulePurity.Proofs.Walk
import ModulePurity.Purity.Rule

/-!
# The tree of a text with pure marks

What a parser gives for a text after pure marks were put in: the same tree with its spans moved, and
for each mark one more leaf, a comment, right before the topmost node that starts there. This file
defines that tree (`Node.regrow`) and shows that everything the rule asks of a node, short of reading
text, has the same answer in it: kinds and fields, the child of a field, what parentheses contain,
shields, and the effect of a node.
-/

namespace ModulePurity

open Purity (pureMark)

/-! ## Definition -/

/-- The label of a node in the text with marks. An empty span moves behind a mark at its place. -/
def Label.moved (offsets : List Nat) (l : Label) : Label :=
  { l with
    start := Text.startIn pureMark.toList offsets l.start
    stop :=
      if l.start = l.stop then Text.startIn pureMark.toList offsets l.start
      else Text.stopIn pureMark.toList offsets l.stop }

@[simp] theorem Label.named_moved (offsets : List Nat) (l : Label) :
    (l.moved offsets).named = l.named := rfl

@[simp] theorem Label.field_moved (offsets : List Nat) (l : Label) :
    (l.moved offsets).field = l.field := rfl

namespace Node

/-- The comment leaf over the mark put in at an offset, without the blank that ends the mark. -/
def markLeaf (offsets : List Nat) (offset : Nat) : Node :=
  let start := Text.stopIn pureMark.toList offsets offset
  .mk ⟨"comment", true, false, false, false, start,
    start + Text.byteLength "/* #__PURE__ */".toList, none⟩ []

/-- The leaf that comes right before a node whose parent starts at `above`: that of the mark at its
start, unless the parent starts there as well. -/
def lead (offsets : List Nat) (above : Option Nat) (n : Node) : List Node :=
  if n.start ∈ offsets ∧ n.start < n.stop ∧ above ≠ some n.start then [markLeaf offsets n.start]
  else []

mutual

/-- The subtree of a node in the text with marks at the given offsets. -/
def regrow (offsets : List Nat) : Node → Node
  | .mk label children => .mk (label.moved offsets) (regrowAll offsets (some label.start) children)

/-- The children of a node that starts at `above`, in the text with marks. -/
def regrowAll (offsets : List Nat) (above : Option Nat) : List Node → List Node
  | [] => []
  | c :: cs => lead offsets above c ++ regrow offsets c :: regrowAll offsets above cs

end

variable {offsets : List Nat} {above : Option Nat}

/-! ## Labels -/

@[simp] theorem label_regrow (n : Node) : (n.regrow offsets).label = n.label.moved offsets := by
  cases n
  rfl

/-- The children of a regrown node are the regrown children, with marks put in between. -/
@[simp] theorem children_regrow (n : Node) :
    (n.regrow offsets).children = regrowAll offsets (some n.start) n.children := by
  cases n
  rfl

@[simp] theorem kind_regrow (n : Node) : (n.regrow offsets).kind = n.kind := by
  cases n
  rfl

theorem start_regrow (n : Node) :
    (n.regrow offsets).start = Text.startIn pureMark.toList offsets n.start := by
  cases n
  rfl

/-- The end of a node that is not empty moves by the marks before it, but not by one right behind
it. -/
theorem stop_regrow {n : Node} (h : n.start ≠ n.stop) :
    (n.regrow offsets).stop = Text.stopIn pureMark.toList offsets n.stop := by
  cases n
  exact if_neg h

/-- An empty node stays empty: its end moves with its start. -/
theorem stop_regrow_of_eq {n : Node} (h : n.start = n.stop) :
    (n.regrow offsets).stop = Text.startIn pureMark.toList offsets n.start := by
  cases n
  exact if_pos h

/-! ## Children -/

theorem regrowAll_eq_flatMap (cs : List Node) :
    regrowAll offsets above cs =
      cs.flatMap fun c => lead offsets above c ++ [c.regrow offsets] := by
  induction cs with
  | nil => rfl
  | cons c cs ih => rw [regrowAll, ih, List.flatMap_cons, List.append_assoc]; rfl

/-- A node at a marked offset gets the leaf of the mark, unless its parent starts there as well. -/
theorem lead_of_mem {n : Node} (ho : n.start ∈ offsets) (hsolid : n.start < n.stop) :
    lead offsets none n = [markLeaf offsets n.start] :=
  if_pos ⟨ho, hsolid, by simp⟩

theorem lead_of_not_mem {n : Node} (ho : n.start ∉ offsets) : lead offsets above n = [] :=
  if_neg fun h => ho h.1

/-- An empty node gets no mark. -/
theorem lead_of_empty {n : Node} (hempty : n.start = n.stop) : lead offsets above n = [] :=
  if_neg fun h => Nat.ne_of_lt h.2.1 hempty

/-- Only marks come before a node. -/
theorem eq_markLeaf_of_mem_lead {m n : Node} (h : m ∈ lead offsets above n) :
    m = markLeaf offsets n.start := by
  rw [lead] at h
  split at h
  · exact List.mem_singleton.1 h
  · cases h

/-- What marks contribute nothing to is collected from the moved children alone. -/
theorem flatMap_regrowAll {α : Type} {F : Node → List α} (hmark : ∀ o, F (markLeaf offsets o) = [])
    (cs : List Node) :
    (regrowAll offsets above cs).flatMap F = cs.flatMap fun c => F (c.regrow offsets) := by
  rw [regrowAll_eq_flatMap, List.flatMap_assoc]
  refine List.flatMap_congr fun c _ => ?_
  have hlead : (lead offsets above c).flatMap F = [] := by
    rw [lead]
    split
    · rw [List.flatMap_singleton, hmark]
    · rfl
  rw [List.flatMap_append, hlead, List.nil_append, List.flatMap_singleton]

/-- A search that no mark answers finds what it found before. -/
theorem find?_regrowAll {p : Node → Bool} (hmark : ∀ o, p (markLeaf offsets o) = false)
    (cs : List Node) (hp : ∀ c ∈ cs, p (c.regrow offsets) = p c) :
    (regrowAll offsets above cs).find? p = (cs.find? p).map (regrow offsets) := by
  induction cs with
  | nil => rfl
  | cons c cs ih =>
    have hlead : (lead offsets above c).find? p = none := by
      refine List.find?_eq_none.2 fun m hm => ?_
      rw [eq_markLeaf_of_mem_lead hm, hmark]
      simp
    have htail := ih fun d hd => hp d (List.mem_cons_of_mem c hd)
    rw [regrowAll, List.find?_append, hlead, Option.none_or, List.find?_cons,
      hp c List.mem_cons_self, List.find?_cons, htail]
    cases p c <;> rfl

/-- Marks have no field, so that the child of a field is found among the same nodes. -/
@[simp] theorem child?_regrow (n : Node) (f : Field) :
    (n.regrow offsets).child? f = (n.child? f).map (regrow offsets) := by
  rw [child?, children_regrow, child?]
  exact find?_regrowAll (fun _ => rfl) n.children fun c _ => by simp

/-- A test that no mark passes gives the same answer before and after. -/
theorem any_regrowAll {p : Node → Bool} (hmark : ∀ o, p (markLeaf offsets o) = false)
    (cs : List Node) (hp : ∀ c ∈ cs, p (c.regrow offsets) = p c) :
    (regrowAll offsets above cs).any p = cs.any p := by
  rw [← List.isSome_find?, find?_regrowAll hmark cs hp, Option.isSome_map, List.isSome_find?]

/-- A mark comes before a node, never last. -/
theorem getLast?_regrowAll (cs : List Node) :
    (regrowAll offsets above cs).getLast? = cs.getLast?.map (regrow offsets) := by
  induction cs with
  | nil => rfl
  | cons c cs ih =>
    rw [regrowAll, List.getLast?_append, List.getLast?_cons, ih]
    cases cs with
    | nil => rfl
    | cons d cs => simp [List.getLast?_cons]

/-- A first child that starts with its parent stays the first one. -/
theorem head?_regrowAll (cs : List Node) (h : ∀ c ∈ cs.head?, above = some c.start) :
    (regrowAll offsets above cs).head? = cs.head?.map (regrow offsets) := by
  cases cs with
  | nil => rfl
  | cons c cs =>
    -- The mark at its start, if there is one, stands before the parent or higher up.
    have hlead : lead offsets above c = [] := if_neg fun hc => hc.2.2 (h c rfl)
    rw [regrowAll, hlead]
    rfl

end Node

namespace Purity

open Node

variable {offsets : List Nat} {above : Option Nat}

/-! ## Parentheses, shields and effects -/

/-- Skipping comments in parentheses skips the marks too. -/
theorem unwrapFirst_regrowAll (outer : Node) (cs : List Node)
    (ih : ∀ c ∈ cs, unwrapParens (c.regrow offsets) = (unwrapParens c).regrow offsets) :
    unwrapFirst (outer.regrow offsets) (regrowAll offsets above cs) =
      (unwrapFirst outer cs).regrow offsets := by
  induction cs with
  | nil => rfl
  | cons c cs ihcs =>
    have htail := ihcs fun d hd => ih d (List.mem_cons_of_mem c hd)
    have hlead : ∀ rest, unwrapFirst (outer.regrow offsets) (lead offsets above c ++ rest) =
        unwrapFirst (outer.regrow offsets) rest := by
      intro rest
      rw [lead]
      split <;> rfl
    rw [regrowAll, hlead, unwrapFirst, unwrapFirst, htail, ih c List.mem_cons_self, label_regrow, Label.named_moved, kind_regrow]
    split <;> rfl

/-- Marks between the parentheses are comments and are skipped like others. -/
@[simp] theorem unwrapParens_regrow (n : Node) :
    unwrapParens (n.regrow offsets) = (unwrapParens n).regrow offsets := by
  induction n using Node.induct with
  | step label children ih =>
    have hkind : (label.moved offsets).kind = label.kind := rfl
    rw [regrow, unwrapParens, unwrapParens, hkind]
    split
    · exact unwrapFirst_regrowAll (.mk label children) children ih
    · rfl

@[simp] theorem isStatic_regrow (n : Node) : isStatic (n.regrow offsets) = isStatic n := by
  rw [isStatic, children_regrow, isStatic]
  exact any_regrowAll (fun _ => rfl) n.children fun c _ => by simp

/-- Marks do not change what a node shields; of its own parent only the kind matters. -/
theorem shields_regrow (o : Options) {parent parent' : Option Node}
    (hparent : parent'.map Node.kind = parent.map Node.kind) (n c : Node) :
    shields o parent' (n.regrow offsets) (c.regrow offsets) = shields o parent n c := by
  simp [shields, isFunction, isClassField, isObjectMethodKey, hparent]

/-- The effect of a node in the text with marks. -/
def Effect.regrow (offsets : List Nat) : Effect → Effect
  | taggedTemplate tag => taggedTemplate (tag.regrow offsets)
  | call target => call (target.regrow offsets)
  | effect => effect

/-- Whether an effect can be marked as pure depends on its kind only. -/
@[simp] theorem acceptsPureMark_regrow (effect : Effect) :
    (effect.regrow offsets).acceptsPureMark = effect.acceptsPureMark := by
  cases effect <;> rfl

theorem ofCall?_regrow (n : Node) :
    Effect.ofCall? (n.regrow offsets) = (Effect.ofCall? n).map (Effect.regrow offsets) := by
  rw [Effect.ofCall?, child?_regrow, child?_regrow, Effect.ofCall?]
  cases n.child? .function with
  | none => rfl
  | some target =>
    cases n.child? .arguments with
    | none => rfl
    | some arguments =>
      simp only [Option.map_some, kind_regrow]
      split
      · rfl
      · split <;> rfl

/-- A node has the effect that it had. -/
theorem ofNode?_regrow (n : Node) :
    Effect.ofNode? (n.regrow offsets) = (Effect.ofNode? n).map (Effect.regrow offsets) := by
  have hoperator : ((n.regrow offsets).child? .operator).map Node.kind =
      (n.child? .operator).map Node.kind := by
    rw [child?_regrow, Option.map_map]
    congr 1
    funext c
    exact kind_regrow c
  unfold Effect.ofNode?
  rw [kind_regrow, hoperator]
  split
  · rfl
  · rfl
  · rfl
  · rfl
  · split <;> rfl
  · rfl
  · rfl
  · exact ofCall?_regrow n
  · rfl

/-! ## Call targets -/

/-- The kinds of nodes whose text is a name. -/
def isName (n : Node) : Bool :=
  ["identifier", "property_identifier", "private_property_identifier"].contains n.kind

/-- All names in a subtree read the same in the text with marks, and its inner nodes start where their
first children do. -/
def ReadsAlike (source source' : List Char) (offsets : List Nat) (n : Node) : Prop :=
  ∀ k ∈ n.nodes,
    (isName k → nodeChars? source' (k.regrow offsets) = nodeChars? source k) ∧
      ∀ c ∈ k.children.head?, c.start = k.start

section

variable {source source' : List Char} {n : Node}

theorem ReadsAlike.child (h : ReadsAlike source source' offsets n) {c : Node}
    (hc : c ∈ n.children) : ReadsAlike source source' offsets c :=
  fun k hk => h k (mem_nodes_of_mem_child hc hk)

/-- Two texts that agree on the names in a node agree on those in its parentheses. -/
theorem ReadsAlike.unwrapParens (h : ReadsAlike source source' offsets n) :
    ReadsAlike source source' offsets (unwrapParens n) := by
  induction n using Node.induct with
  | step label children ih =>
    have hfirst : ∀ cs, (∀ c ∈ cs, c ∈ children) →
        ReadsAlike source source' offsets (unwrapFirst (.mk label children) cs) := by
      intro cs hcs
      induction cs with
      | nil => exact h
      | cons c cs ihcs =>
        have hc := hcs c List.mem_cons_self
        rw [unwrapFirst]
        split
        · exact ih c hc (h.child hc)
        · exact ihcs fun d hd => hcs d (List.mem_cons_of_mem c hd)
    rw [Purity.unwrapParens]
    split
    · exact hfirst children fun _ hc => hc
    · exact h

theorem mem_children_of_child? {f : Field} {c : Node} (h : n.child? f = some c) :
    c ∈ n.children :=
  List.mem_of_find?_eq_some h

/-- The name of a node depends on its kind and, if that is a kind of name, on its text. -/
theorem nameOf?_congr {n' : Node} (hkind : n'.kind = n.kind)
    (hread : isName n = true → nodeChars? source' n' = nodeChars? source n) :
    nameOf? source' n' = nameOf? source n := by
  unfold nameOf?
  rw [hkind]
  split
  · next hkind => exact hread (by simp [isName, hkind])
  · next hkind => exact hread (by simp [isName, hkind])
  · next hkind => rw [hread (by simp [isName, hkind])]
  · rfl
  · rfl
  · rfl

/-- The name that a node holds is the same in both texts. -/
theorem nameOf?_regrow (h : ReadsAlike source source' offsets n) :
    nameOf? source' (n.regrow offsets) = nameOf? source n :=
  nameOf?_congr (kind_regrow n) (h n n.mem_nodes_self).1

/-- The name of the accessed property is the same in both texts. -/
theorem propertyName?_regrow (h : ReadsAlike source source' offsets n) :
    propertyName? source' (n.regrow offsets) = propertyName? source n := by
  unfold propertyName?
  rw [kind_regrow]
  split
  · rw [child?_regrow]
    cases hc : n.child? .property with
    | none => rfl
    | some c => exact nameOf?_regrow (h.child (mem_children_of_child? hc))
  · rw [children_regrow, getLast?_regrowAll]
    cases n.children.getLast? with
    | none => rfl
    | some last => simp only [Option.map_some, Option.bind_some, kind_regrow]
  · rfl

theorem objectOf?_regrow : objectOf? (n.regrow offsets) = (objectOf? n).map (regrow offsets) := by
  rw [objectOf?, kind_regrow, child?_regrow, objectOf?]
  split <;> rfl

theorem metaOf?_regrow (h : ReadsAlike source source' offsets n) :
    metaOf? (n.regrow offsets) = (metaOf? n).map (regrow offsets) := by
  have hhead : (n.regrow offsets).children.head? = n.children.head?.map (regrow offsets) := by
    rw [children_regrow]
    refine head?_regrowAll n.children fun c hc => ?_
    rw [(h n n.mem_nodes_self).2 c hc]
  rw [metaOf?, kind_regrow, hhead, metaOf?]
  split <;> rfl

/-- One step of matching inwards comes to the regrown node of where it came to before. -/
theorem enter?_regrow (h : ReadsAlike source source' offsets n) (s : Segment)
    {inner : Node → Option Node}
    (hinner : inner (n.regrow offsets) = (inner n).map (regrow offsets)) :
    enter? source' s inner (n.regrow offsets) =
      (enter? source s inner n).map (regrow offsets) := by
  rw [enter?, propertyName?_regrow h, hinner, enter?]
  cases propertyName? source n with
  | none => rfl
  | some name =>
    simp only [Option.bind_some]
    split
    · cases inner n <;> simp
    · rfl

/-- Going inwards stays in the subtree. -/
theorem ReadsAlike.enter? (h : ReadsAlike source source' offsets n) {s : Segment}
    {inner : Node → Option Node} (hinner : ∀ c, inner n = some c → c ∈ n.children) {m : Node}
    (hm : Purity.enter? source s inner n = some m) : ReadsAlike source source' offsets m := by
  obtain ⟨name, -, hm⟩ := Option.bind_eq_some_iff.1 hm
  split at hm
  · obtain ⟨c, hc, rfl⟩ := Option.map_eq_some_iff.1 hm
    exact (h.child (hinner c hc)).unwrapParens
  · cases hm

theorem mem_children_of_objectOf? {c : Node} (h : objectOf? n = some c) : c ∈ n.children := by
  rw [objectOf?] at h
  split at h
  · exact mem_children_of_child? h
  · cases h

theorem mem_children_of_metaOf? {c : Node} (h : metaOf? n = some c) : c ∈ n.children := by
  rw [metaOf?] at h
  split at h
  · exact List.mem_of_head? h
  · cases h

/-- The last step, at the anchor of the path, has the same outcome in both texts. -/
theorem anchorMatches_regrow (h : ReadsAlike source source' offsets n) (anchor : Segment) :
    anchorMatches anchor source' (n.regrow offsets) = anchorMatches anchor source n := by
  cases anchor with
  | any => rfl
  | word w => rw [anchorMatches, nameOf?_regrow h, anchorMatches]

/-- Matching a call path against a callee does not see the marks. -/
theorem matchInwards_regrow (throughMeta : Bool) (anchor : Segment) (segments : List Segment)
    (h : ReadsAlike source source' offsets n) :
    matchInwards throughMeta anchor source' segments (n.regrow offsets) =
      matchInwards throughMeta anchor source segments n := by
  induction segments generalizing n with
  | nil => exact anchorMatches_regrow h anchor
  | cons s rest ih =>
    cases rest with
    | nil =>
      have hinner : (if throughMeta then metaOf? else objectOf?) (n.regrow offsets) =
          ((if throughMeta then metaOf? else objectOf?) n).map (regrow offsets) := by
        cases throughMeta
        · exact objectOf?_regrow
        · exact metaOf?_regrow h
      have hmem : ∀ c, (if throughMeta then metaOf? else objectOf?) n = some c →
          c ∈ n.children := by
        intro c hc
        cases throughMeta
        · exact mem_children_of_objectOf? hc
        · exact mem_children_of_metaOf? hc
      rw [matchInwards, matchInwards, enter?_regrow h s hinner]
      cases hm : enter? source s (if throughMeta then metaOf? else objectOf?) n with
      | none => rfl
      | some m => exact anchorMatches_regrow (h.enter? hmem hm) anchor
    | cons t rest =>
      rw [matchInwards, matchInwards, enter?_regrow h s objectOf?_regrow]
      cases hm : enter? source s objectOf? n with
      | none => rfl
      | some m => exact ih (h.enter? (fun c => mem_children_of_objectOf?) hm)

/-- A call target matches the call paths that it matched. -/
theorem rawMatches_regrow (h : ReadsAlike source source' offsets n) (raw : String) :
    rawMatches raw source' (n.regrow offsets) = rawMatches raw source n := by
  rw [rawMatches, rawMatches]
  cases CallPath.parse? raw with
  | none => rfl
  | some p =>
    show matchInwards _ _ source' _ (unwrapParens (n.regrow offsets)) = _
    rw [unwrapParens_regrow]
    exact matchInwards_regrow p.throughMeta p.anchor p.properties.reverse h.unwrapParens

end

end Purity

end ModulePurity
