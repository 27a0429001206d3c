import ModulePurity.Proofs.DottedPaths
import ModulePurity.Proofs.Regrowth

/-!
# Parentheses around call targets

Parentheses around a call target, or around an object along its chain of accesses, should not matter
to call paths, and neither should comments in them. `Wrapped` relates an expression to one in
another text that has more parentheses in such places. A call path sees a target through the names
and the base that `peel` gives. More parentheses change neither (`Wrapped.alikeUnlessHidden`),
unless matching arrives at an `html_comment`, which it takes for the expression in parentheses
(`Hidden`). Then a call path that does not start with a star no longer matches
(`matches_iff_of_hidden`).
-/

namespace ModulePurity.Purity

/-! ## Definitions -/

/-- Whether parentheses may be put around a child, given that they may be put around its parent: the
parent is parentheses, or the child is the object of a member access or of a computed access. -/
def mayWrap (parent child : Node) : Bool :=
  parent.kind == "parenthesized_expression" ||
    ((parent.kind == "member_expression" || parent.kind == "subscript_expression") &&
      child.label.field == some .object)

/-- Two nodes that read the same, each in its own text, whatever their children are. -/
structure ReadsSame (source source' : List Char) (n n' : Node) : Prop where
  kind : n.kind = n'.kind
  named : n.label.named = n'.label.named
  text : isName n = true → nodeChars? source n = nodeChars? source' n'
  fields : List.Forall₂ (fun c c' => c.label.field = c'.label.field) n.children n'.children

/-- Parentheses around an expression, with comments of all kinds before and behind it. -/
structure Encloses (parens inner : Node) : Prop where
  kind : parens.kind = "parenthesized_expression"
  named : parens.label.named = true
  expression : inner.label.named = true ∧ inner.isComment = false
  children : ∃ before after, parens.children = before ++ inner :: after ∧
    ∀ c ∈ before ++ after, c.label.named = true → c.isComment = true

/-- The same expression in another text. If it is `free`, there may be any number of parentheses
around the whole and around the objects along its chain of accesses. -/
inductive Wrapped (source source' : List Char) : Bool → Node → Node → Prop
  | node {free : Bool} {n n' : Node} (same : ReadsSame source source' n n')
      (children : ∀ c c', (c, c') ∈ n.children.zip n'.children →
        Wrapped source source' (free && mayWrap n c) c c') :
      Wrapped source source' free n n'
  | parens {n n' inner : Node} (encloses : Encloses n' inner)
      (wrapped : Wrapped source source' true n inner) :
      Wrapped source source' true n n'

/-- Matching arrives at an `html_comment`. -/
def Hidden (source : List Char) (n : Node) : Prop :=
  (peel isPlainComment source n).base.kind = "html_comment"

/-- Two targets taken apart that no call path tells apart, each read in its own text. -/
structure LooksAlike (source source' : List Char) (x x' : Peeled) : Prop where
  names : x.names = x'.names
  name : nameOf? source x.base = nameOf? source' x'.base
  importMeta : ∀ s, ImportMeta source s x.base ↔ ImportMeta source' s x'.base

/-- Two targets look alike, unless there may be new parentheses and the second target is hidden. -/
def AlikeUnlessHidden (free : Bool) (source source' : List Char) (n n' : Node) : Prop :=
  (free = true → ¬ Hidden source' n') →
    LooksAlike source source' (peel isPlainComment source n) (peel isPlainComment source' n')

variable {free : Bool} {source source' : List Char} {n n' : Node}

/-! ## Single nodes -/

/-- There are two kinds of comments, and the one that is not plain is that of HTML. -/
theorem kind_of_isComment (h : n.isComment = true) (hplain : isPlainComment n = false) :
    n.kind = "html_comment" := by
  rw [Node.isComment, Bool.or_eq_true] at h
  rcases h with h | h
  · rw [isPlainComment, h] at hplain
    cases hplain
  · exact beq_iff_eq.1 h

/-- There is nothing to take off a comment. -/
theorem hidden_of_kind (h : n.kind = "html_comment") : Hidden source n := by
  have hparens : n.kind ≠ "parenthesized_expression" := by
    rw [h]
    decide
  have hmember : n.kind ≠ "member_expression" := by
    rw [h]
    decide
  rw [Hidden, peel_of_base (inner?_of_kind hparens) (access?_of_kind hmember)]
  exact h

/-- Parentheses are passed, unless a comment is taken for the expression in them. -/
theorem Encloses.inner?_eq {inner : Node} (h : Encloses n inner) :
    inner? isPlainComment n = some inner ∨ Hidden source n := by
  obtain ⟨hkind, -, ⟨hnamed, hcomment⟩, before, after, hchildren, hcomments⟩ := h
  have hplain : isPlainComment inner = false := by
    rw [Node.isComment, Bool.or_eq_false_iff] at hcomment
    exact hcomment.1
  have hinner : inner? isPlainComment n =
      ((before.find? fun c => c.label.named && !isPlainComment c).or (some inner)) := by
    rw [inner?, hkind, if_pos (by decide), hchildren, List.find?_append,
      List.find?_cons_of_pos (by simp [hnamed, hplain])]
  cases hbefore : before.find? fun c => c.label.named && !isPlainComment c with
  | none =>
    rw [hbefore] at hinner
    exact Or.inl hinner
  | some c =>
    rw [hbefore] at hinner
    have hfound := List.find?_some hbefore
    rw [Bool.and_eq_true, Bool.not_eq_true'] at hfound
    have hmem := List.mem_append_left after (List.mem_of_find?_eq_some hbefore)
    right
    rw [Hidden, peel_of_inner hinner]
    exact hidden_of_kind (kind_of_isComment (hcomments c hmem hfound.1) hfound.2)

/-- Whether a node counts as the expression in parentheses. -/
theorem Wrapped.isInner_eq (h : Wrapped source source' free n n') :
    (n.label.named && !isPlainComment n) = (n'.label.named && !isPlainComment n') := by
  induction h with
  | node same _ _ => rw [same.named, isPlainComment, isPlainComment, same.kind]
  | parens encloses _ ih =>
    obtain ⟨hkind, hnamed, ⟨hnamed', hcomment⟩, -⟩ := encloses
    rw [Node.isComment, Bool.or_eq_false_iff] at hcomment
    rw [ih, hnamed, hnamed', isPlainComment, isPlainComment, hcomment.1, hkind]
    decide

theorem Wrapped.kind_eq (h : Wrapped source source' false n n') : n.kind = n'.kind := by
  cases h with
  | node same _ => exact same.kind

/-- Nodes that read the same hold the same name. -/
theorem ReadsSame.nameOf?_eq (h : ReadsSame source source' n n') :
    nameOf? source n = nameOf? source' n' :=
  (nameOf?_congr h.kind.symm fun hname => (h.text hname).symm).symm

theorem Wrapped.nameOf?_eq (h : Wrapped source source' false n n') :
    nameOf? source n = nameOf? source' n' := by
  cases h with
  | node same _ => exact same.nameOf?_eq

/-- The name of an expression in parentheses is that of its base, if it accesses no member. -/
theorem nameOf?_unwrapParens_eq_some_iff {w : List Char} :
    nameOf? source (unwrapParens n) = some w ↔
      (peel isPlainComment source n).names = [] ∧
        nameOf? source (peel isPlainComment source n).base = some w := by
  obtain ⟨hnames, hbase⟩ := peel_unwrapParens source n
  have hinner := inner?_unwrapParens n
  rw [← hnames, ← hbase]
  constructor
  · intro hw
    rw [peel_of_base hinner (access?_of_name hw)]
    exact ⟨rfl, hw⟩
  · rintro ⟨hnil, hw⟩
    rwa [base_of_names_eq_nil hinner hnil] at hw

/-- Two targets that look alike have the same name, if any, apart from parentheses. -/
theorem LooksAlike.nameOf?_unwrapParens_eq
    (h : LooksAlike source source' (peel isPlainComment source n)
      (peel isPlainComment source' n')) :
    nameOf? source (unwrapParens n) = nameOf? source' (unwrapParens n') := by
  apply Option.ext
  intro w
  rw [nameOf?_unwrapParens_eq_some_iff, nameOf?_unwrapParens_eq_some_iff, h.names, h.name]

/-! ## Children -/

section

variable {R S : Node → Node → Prop} {cs cs' : List Node}

/-- Two searches through lists that agree entry by entry come to entries that agree, or both to
none. -/
theorem rel_find? {p : Node → Bool} (h : List.Forall₂ R cs cs')
    (hp : ∀ c c', R c c' → p c = p c') (hS : ∀ c c', R c c' → p c = true → S c c') :
    Option.Rel S (cs.find? p) (cs'.find? p) := by
  induction h with
  | nil => exact Option.Rel.none
  | @cons c c' cs cs' hc _ ih =>
    rw [List.find?_cons, List.find?_cons, ← hp c c' hc]
    cases hpc : p c with
    | true => exact Option.Rel.some (hS c c' hc hpc)
    | false => exact ih

theorem rel_head? (h : List.Forall₂ R cs cs') : Option.Rel R cs.head? cs'.head? := by
  cases h with
  | nil => exact Option.Rel.none
  | cons hc _ => exact Option.Rel.some hc

theorem rel_getLast? (h : List.Forall₂ R cs cs') : Option.Rel R cs.getLast? cs'.getLast? := by
  rw [← List.head?_reverse, ← List.head?_reverse]
  exact rel_head? (List.forall₂_reverse_iff.2 h)

/-- Results that agree satisfy the same properties. -/
theorem exists_iff_of_rel {o o' : Option Node} {A B : Node → Prop} (h : Option.Rel R o o')
    (hR : ∀ c c', R c c' → (A c ↔ B c')) :
    (∃ c, o = some c ∧ A c) ↔ ∃ c', o' = some c' ∧ B c' := by
  cases h with
  | none => simp
  | some hc => simpa using hR _ _ hc

end

/-- Two children at the same place of a parent, of which the second may have more parentheses. -/
structure ChildAlike (free : Bool) (source source' : List Char) (parent c c' : Node) : Prop where
  field : c.label.field = c'.label.field
  wrapped : Wrapped source source' (free && mayWrap parent c) c c'
  looks : AlikeUnlessHidden (free && mayWrap parent c) source source' c c'

section

variable {parent c c' : Node} (h : ChildAlike free source source' parent c c')

include h

/-- Children at the same place look alike, unless new parentheses hide the second one. -/
theorem ChildAlike.alikeUnlessHidden : AlikeUnlessHidden free source source' c c' :=
  fun hnot => h.looks fun hfree => hnot (Bool.and_eq_true_iff.1 hfree).1

/-- Where no parentheses may be put, nothing can hide an expression. -/
theorem ChildAlike.of_mayWrap_eq_false (hmay : mayWrap parent c = false) :
    Wrapped source source' false c c' ∧ LooksAlike source source' (peel isPlainComment source c)
      (peel isPlainComment source' c') := by
  have hwrapped := h.wrapped
  have hlooks := h.looks
  rw [hmay, Bool.and_false] at hwrapped hlooks
  exact ⟨hwrapped, hlooks fun hfalse => Bool.noConfusion hfalse⟩

end

section

variable (same : ReadsSame source source' n n')
  (hs : List.Forall₂ (ChildAlike free source source' n) n.children n'.children)

include same hs

/-- What parentheses enclose looks alike on both sides, or there are none on both. -/
theorem rel_inner? :
    Option.Rel (AlikeUnlessHidden free source source') (inner? isPlainComment n)
      (inner? isPlainComment n') := by
  unfold inner?
  rw [← same.kind]
  split
  · apply rel_find? hs
    · exact fun c c' hc => hc.wrapped.isInner_eq
    · exact fun c c' hc _ => hc.alikeUnlessHidden
  · exact Option.Rel.none

/-- Accesses on both sides have the same property and objects that look alike. -/
theorem rel_access? :
    Option.Rel (fun found found' => found.1 = found'.1 ∧
        AlikeUnlessHidden free source source' found.2 found'.2)
      (access? source n) (access? source' n') := by
  by_cases hkind : n.kind = "member_expression"
  · have hobject : Option.Rel (AlikeUnlessHidden free source source') (n.child? .object)
        (n'.child? .object) := by
      apply rel_find? hs
      · exact fun c c' hc => by rw [hc.field]
      · exact fun c c' hc _ => hc.alikeUnlessHidden
    have hproperty : Option.Rel (fun c c' => nameOf? source c = nameOf? source' c')
        (n.child? .property) (n'.child? .property) := by
      apply rel_find? hs
      · exact fun c c' hc => by rw [hc.field]
      · intro c c' hc hfield
        have hmay : mayWrap n c = false := by
          simp [mayWrap, hkind, beq_iff_eq.1 hfield]
        exact (hc.of_mayWrap_eq_false hmay).1.nameOf?_eq
    rw [access?, access?, ← same.kind, hkind, if_pos (by decide), if_pos (by decide)]
    generalize n.child? .object = object at hobject ⊢
    generalize n'.child? .object = object' at hobject ⊢
    generalize n.child? .property = property at hproperty ⊢
    generalize n'.child? .property = property' at hproperty ⊢
    cases hproperty with
    | none => exact Option.Rel.none
    | @some c c' hname =>
      rw [Option.bind_some, Option.bind_some, hname]
      cases nameOf? source' c' with
      | none => exact Option.Rel.none
      | some name =>
        cases hobject with
        | none => exact Option.Rel.none
        | some halike => exact Option.Rel.some ⟨rfl, halike⟩
  · rw [access?_of_kind hkind, access?_of_kind (same.kind ▸ hkind)]
    exact Option.Rel.none

/-- A meta-property is read alike on both sides. -/
theorem importMeta_iff (s : Segment) : ImportMeta source s n ↔ ImportMeta source' s n' := by
  by_cases hkind : n.kind = "meta_property"
  · have hmay : ∀ c, mayWrap n c = false := by
      intro c
      simp [mayWrap, hkind]
    have hlast := exists_iff_of_rel (rel_getLast? hs)
      (A := fun c => (c.kind = "meta" ∨ c.kind = "target") ∧ s.accepts c.kind.toList = true)
      (B := fun c => (c.kind = "meta" ∨ c.kind = "target") ∧ s.accepts c.kind.toList = true)
      fun c c' hc => by rw [(hc.of_mayWrap_eq_false (hmay c)).1.kind_eq]
    have hfirst := exists_iff_of_rel (rel_head? hs)
      (A := fun c => nameOf? source (unwrapParens c) = some "import".toList)
      (B := fun c => nameOf? source' (unwrapParens c) = some "import".toList)
      fun c c' hc => by rw [(hc.of_mayWrap_eq_false (hmay c)).2.nameOf?_unwrapParens_eq]
    constructor
    · rintro ⟨-, hkeyword, himport⟩
      exact ⟨same.kind ▸ hkind, hlast.1 hkeyword, hfirst.1 himport⟩
    · rintro ⟨-, hkeyword, himport⟩
      exact ⟨hkind, hlast.2 hkeyword, hfirst.2 himport⟩
  · exact iff_of_false (fun h => hkind h.kind) fun h => hkind (same.kind.trans h.kind)

/-- Nodes that read the same look alike if their children do. -/
theorem alikeUnlessHidden_of_children : AlikeUnlessHidden free source source' n n' := by
  have hinner := rel_inner? same hs
  have haccess := rel_access? same hs
  intro hnot
  unfold Hidden at hnot
  generalize hn : inner? isPlainComment n = o at hinner
  generalize hn' : inner? isPlainComment n' = o' at hinner
  cases hinner with
  | some halike =>
    rw [peel_of_inner hn'] at hnot
    obtain ⟨hnames, hname, himport⟩ := halike hnot
    rw [peel_of_inner hn, peel_of_inner hn']
    exact ⟨hnames, hname, himport⟩
  | none =>
    generalize ha : access? source n = found at haccess
    generalize ha' : access? source' n' = found' at haccess
    cases haccess with
    | @some found found' hfound =>
      obtain ⟨hlast, halike⟩ := hfound
      rw [peel_of_access hn' ha'] at hnot
      obtain ⟨hnames, hname, himport⟩ := halike hnot
      rw [peel_of_access hn ha, peel_of_access hn' ha', hnames, hlast]
      exact ⟨rfl, hname, himport⟩
    | none =>
      rw [peel_of_base hn ha, peel_of_base hn' ha']
      exact ⟨rfl, same.nameOf?_eq, importMeta_iff same hs⟩

end

/-! ## Whole targets -/

/-- More parentheses leave names and base as they are, unless they hide an expression. -/
theorem Wrapped.alikeUnlessHidden (h : Wrapped source source' free n n') :
    AlikeUnlessHidden free source source' n n' := by
  induction h with
  | node same children ih =>
    apply alikeUnlessHidden_of_children same
    rw [List.forall₂_iff_zip]
    refine ⟨same.fields.length_eq, fun {c c'} hmem => ?_⟩
    exact ⟨(List.forall₂_iff_zip.1 same.fields).2 hmem, children c c' hmem, ih c c' hmem⟩
  | @parens n n' inner encloses _ ih =>
    intro hnot
    rcases encloses.inner?_eq with hinner | hhidden
    · unfold Hidden at hnot
      rw [peel_of_inner hinner] at hnot ⊢
      obtain ⟨hnames, hname, himport⟩ := ih hnot
      exact ⟨hnames, hname, himport⟩
    · exact absurd hhidden (hnot rfl)

/-- Names and bases that look alike fit the same call paths. -/
theorem LooksAlike.endsIn_iff {x x' : Peeled} (h : LooksAlike source source' x x') (p : CallPath) :
    EndsIn p source x.names x.base ↔ EndsIn p source' x'.names x'.base := by
  constructor
  · rintro ⟨henough, haccepted, hanchored⟩
    rw [h.names] at henough haccepted hanchored
    rw [h.name] at hanchored
    exact ⟨henough, haccepted, hanchored⟩
  · rintro ⟨henough, haccepted, hanchored⟩
    rw [← h.names] at henough haccepted hanchored
    rw [← h.name] at hanchored
    exact ⟨henough, haccepted, hanchored⟩

theorem LooksAlike.startsAtImport_iff {x x' : Peeled} (h : LooksAlike source source' x x')
    (p : CallPath) :
    StartsAtImport p source x.names x.base ↔ StartsAtImport p source' x'.names x'.base := by
  constructor
  · rintro ⟨hcount, hbase, haccepted⟩
    rw [h.names] at hcount haccepted
    exact ⟨hcount, fun s hs => (h.importMeta s).1 (hbase s hs), haccepted⟩
  · rintro ⟨hcount, hbase, haccepted⟩
    rw [← h.names] at hcount haccepted
    exact ⟨hcount, fun s hs => (h.importMeta s).2 (hbase s hs), haccepted⟩

/-- No call path tells two targets apart that look alike once they are peeled. -/
theorem LooksAlike.matches_eq
    (h : LooksAlike source source' (peel isPlainComment source n) (peel isPlainComment source' n'))
    (p : CallPath) : p.matches source n = p.matches source' n' := by
  rw [Bool.eq_iff_iff]
  cases hp : p.throughMeta with
  | false =>
    rw [matches_iff_endsIn hp, matches_iff_endsIn hp]
    exact h.endsIn_iff p
  | true =>
    rw [matches_iff_startsAtImport hp, matches_iff_startsAtImport hp]
    exact h.startsAtImport_iff p

/-- Where a comment hides the expression, only the names outside and a star in front are left. -/
theorem matches_iff_of_hidden (h : Hidden source n) (p : CallPath) :
    p.matches source n = true ↔
      p.anchor = .any ∧ EndsIn p source (peel isPlainComment source n).names
        (peel isPlainComment source n).base := by
  have hname : nameOf? source (peel isPlainComment source n).base = none := by
    rw [nameOf?, h]
    rfl
  cases hp : p.throughMeta with
  | false =>
    rw [matches_iff_endsIn hp]
    constructor
    · intro hfits
      refine ⟨?_, hfits⟩
      rcases hfits.anchored with hany | ⟨-, w, -, hw⟩
      · exact hany
      · rw [hname] at hw
        cases hw
    · exact fun hfits => hfits.2
  | true =>
    -- The base is no meta-property, and `import` is no star.
    obtain ⟨hanchor, hne⟩ := CallPath.throughMeta_iff.1 hp
    rw [matches_iff_startsAtImport hp]
    constructor
    · intro hstarts
      obtain ⟨s, segments, hproperties⟩ := List.exists_cons_of_ne_nil hne
      have hkind := (hstarts.base s (by rw [hproperties]; rfl)).kind
      rw [h] at hkind
      exact absurd hkind (by decide)
    · rintro ⟨hany, -⟩
      rw [hanchor] at hany
      cases hany

/-- Parentheses around a target and around objects along its chain of accesses do not matter to a
call path, and neither do comments in them, as long as matching does not arrive at an
`html_comment`. If it does, the call paths that match are those that start with a star and fit the
names outside. -/
theorem rawMatches_wrapped (raw : String) (source source' : List Char) (target target' : Node) :
    (Wrapped source source' true target target' → ¬ Hidden source' target' →
        rawMatches raw source target = rawMatches raw source' target') ∧
      (Hidden source' target' →
        (rawMatches raw source' target' = true ↔
          ∃ p, CallPath.parse? raw = some p ∧ p.anchor = .any ∧
            EndsIn p source' (peel isPlainComment source' target').names
              (peel isPlainComment source' target').base)) := by
  cases hraw : CallPath.parse? raw with
  | none => simp [rawMatches, hraw]
  | some p =>
    rw [rawMatches_of_parse? hraw, rawMatches_of_parse? hraw]
    constructor
    · intro hwrapped hnot
      exact (hwrapped.alikeUnlessHidden fun _ => hnot).matches_eq p
    · intro hhidden
      rw [matches_iff_of_hidden hhidden]
      simp

/-- The text of a call of `x.f` without parentheses. -/
def plainText : List Char := "x.f();".toList

/-- The target of that call. -/
def plainTarget : Node :=
  sampleNode "member_expression" 0 3 (some .function)
    [sampleNode "identifier" 0 1 (some .object) [], sampleToken "." 1,
      sampleNode "property_identifier" 2 3 (some .property) []]

theorem Wrapped.leaf (same : ReadsSame source source' n n') (h : n.children = []) :
    Wrapped source source' free n n' := by
  apply Wrapped.node same
  intro c c' hmem
  rw [h] at hmem
  cases hmem

theorem encloses_commentedObject {kind comment : String} (h : CommentSample kind comment) :
    Encloses (commentedObject kind) (sampleNode "identifier" 12 13 none []) := by
  refine ⟨rfl, rfl, by decide, [sampleToken "(" 0, sampleNode kind 1 10 none []],
    [sampleToken ")" 13], rfl, ?_⟩
  intro c hc hnamed
  simp only [List.mem_append, List.mem_cons, List.not_mem_nil, or_false] at hc
  rcases hc with (rfl | rfl) | rfl
  · cases hnamed
  · rcases h with ⟨rfl, -⟩ | ⟨rfl, -⟩
    · rfl
    · rfl
  · cases hnamed

theorem wrapped_commentedTarget {kind comment : String} (h : CommentSample kind comment) :
    Wrapped plainText (commentedText comment) true plainTarget (commentedTarget kind) := by
  have hname : ReadsSame plainText (commentedText comment)
      (sampleNode "identifier" 0 1 (some .object) []) (sampleNode "identifier" 12 13 none []) := by
    refine ⟨rfl, rfl, fun _ => ?_, List.Forall₂.nil⟩
    rcases h with ⟨rfl, rfl⟩ | ⟨rfl, rfl⟩
    · rfl
    · rfl
  have hdot : ReadsSame plainText (commentedText comment) (sampleToken "." 1)
      (sampleToken "." 14) := by
    refine ⟨rfl, rfl, fun hisName => ?_, List.Forall₂.nil⟩
    exact absurd hisName (by decide)
  have hproperty : ReadsSame plainText (commentedText comment)
      (sampleNode "property_identifier" 2 3 (some .property) [])
      (sampleNode "property_identifier" 15 16 (some .property) []) := by
    refine ⟨rfl, rfl, fun _ => ?_, List.Forall₂.nil⟩
    rcases h with ⟨rfl, rfl⟩ | ⟨rfl, rfl⟩
    · rfl
    · rfl
  have htarget : ReadsSame plainText (commentedText comment) plainTarget
      (commentedTarget kind) := by
    refine ⟨rfl, rfl, fun hisName => absurd hisName (by decide), ?_⟩
    exact .cons rfl (.cons rfl (.cons rfl .nil))
  apply Wrapped.node htarget
  intro c c' hmem
  have hzip : plainTarget.children.zip (commentedTarget kind).children =
      [(sampleNode "identifier" 0 1 (some .object) [], commentedObject kind),
        (sampleToken "." 1, sampleToken "." 14),
        (sampleNode "property_identifier" 2 3 (some .property) [],
          sampleNode "property_identifier" 15 16 (some .property) [])] := rfl
  rw [hzip] at hmem
  simp only [List.mem_cons, List.not_mem_nil, or_false, Prod.mk.injEq] at hmem
  rcases hmem with ⟨rfl, rfl⟩ | ⟨rfl, rfl⟩ | ⟨rfl, rfl⟩
  · exact Wrapped.parens (encloses_commentedObject h) (Wrapped.leaf hname rfl)
  · exact Wrapped.leaf hdot rfl
  · exact Wrapped.leaf hproperty rfl

/-- A comment of the plain kind is passed, and one of the other kind is taken for the object. -/
theorem peel_isPlainComment_commentedTarget :
    (peel isPlainComment (commentedText "// plain.") (commentedTarget "comment")).base =
        sampleNode "identifier" 12 13 none [] ∧
      peel isPlainComment (commentedText "<!-- html") (commentedTarget "html_comment") =
        ⟨["f".toList], sampleNode "html_comment" 1 10 none [],
          [commentedTarget "html_comment", commentedObject "html_comment",
            sampleNode "html_comment" 1 10 none []]⟩ := by
  have hplain : inner? isPlainComment (commentedObject "comment") =
      some (sampleNode "identifier" 12 13 none []) := rfl
  have hhtml : inner? isPlainComment (commentedObject "html_comment") =
      some (sampleNode "html_comment" 1 10 none []) := rfl
  constructor
  · rw [peel_commentedTarget (Or.inl ⟨rfl, rfl⟩) hplain (by decide) (by decide)]
  · exact peel_commentedTarget (Or.inr ⟨rfl, rfl⟩) hhtml (by decide) (by decide)

/-- Parentheses with a comment of the plain kind do not matter to `x.f`. With one of the other kind
they leave `*.f`. -/
theorem rawMatches_wrapped_comments :
    (Wrapped plainText (commentedText "// plain.") true plainTarget (commentedTarget "comment") ∧
        ¬ Hidden (commentedText "// plain.") (commentedTarget "comment") ∧
        rawMatches "x.f" plainText plainTarget =
          rawMatches "x.f" (commentedText "// plain.") (commentedTarget "comment")) ∧
      Hidden (commentedText "<!-- html") (commentedTarget "html_comment") ∧
      rawMatches "*.f" (commentedText "<!-- html") (commentedTarget "html_comment") = true := by
  obtain ⟨hplain, hhtml⟩ := peel_isPlainComment_commentedTarget
  have hsample : CommentSample "comment" "// plain." := Or.inl ⟨rfl, rfl⟩
  have hwrapped := wrapped_commentedTarget hsample
  have hnot : ¬ Hidden (commentedText "// plain.") (commentedTarget "comment") := by
    rw [Hidden, hplain]
    decide
  have hhidden : Hidden (commentedText "<!-- html") (commentedTarget "html_comment") := by
    rw [Hidden, hhtml]
    rfl
  refine ⟨⟨hwrapped, hnot, (rawMatches_wrapped _ _ _ _ _).1 hwrapped hnot⟩, hhidden, ?_⟩
  rw [(rawMatches_wrapped _ plainText _ plainTarget _).2 hhidden, hhtml]
  refine ⟨⟨.any, [.word "f".toList]⟩, by decide +kernel, rfl, Nat.le_refl 1, ?_, Or.inl rfl⟩
  exact List.Forall₂.cons rfl List.Forall₂.nil

/-- With a comment of the other kind in front of `x`, parentheses around `x` matter to `x.f`. -/
theorem wrappedByHtmlComment :
    CallPath.parse? "x.f" = some memberPath ∧
      Wrapped plainText (commentedText "<!-- html") true plainTarget
        (commentedTarget "html_comment") ∧
      rawMatches "x.f" plainText plainTarget = true ∧
      rawMatches "x.f" (commentedText "<!-- html") (commentedTarget "html_comment") = false :=
  ⟨parse?_memberPath, wrapped_commentedTarget (Or.inr ⟨rfl, rfl⟩), by decide +kernel,
    by decide +kernel⟩

end ModulePurity.Purity
