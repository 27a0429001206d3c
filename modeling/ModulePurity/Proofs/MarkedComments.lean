import ModulePurity.Proofs.CommentRuns
import ModulePurity.Proofs.Layout

/-!
# The comments of a text with pure marks

A pure mark is a comment, so it enters both indexes of the regrown tree. This file says what they
answer there, given that every mark stands right before a token (`Markable`):

* the comments that were there keep their text, their lines and whether they stand alone
  (`ofNode_regrow`), and no mark is a waiver, so the waivers are the same (`entries_regrown`);
* a token counts as marked if it did before or if a mark was put in at its start
  (`pureBefore_regrown`).
-/

namespace ModulePurity

open Purity (pureMark)

/-- A leaf without text covers nothing. -/
theorem Comment.text_ofNode_of_empty {leaf : Node} (h : leaf.start = leaf.stop)
    (source : List Char) : (Comment.ofNode source leaf).text = "" := by
  have hslice : (Text.slice? source leaf.start leaf.stop).getD [] = [] := by
    rw [Text.slice?, h, if_pos (Nat.le_refl _), Nat.sub_self]
    cases Text.splitAt? source leaf.stop <;> simp
  rw [Comment.ofNode, hslice]

namespace CommentIndex

/-! ## Pure marks before a token -/

/-- Whether a pure mark stands right before a token that starts at `offset`, where `seen` tells about
the comments since the last token. -/
def pureBefore (source : List Char) (offset : Nat) (seen : Bool) : List Node → Bool
  | [] => false
  | leaf :: rest =>
    if leaf.isComment then
      pureBefore source offset (seen || (Comment.ofNode source leaf).isPureMark) rest
    else if leaf.start = leaf.stop then pureBefore source offset seen rest
    else (leaf.start == offset && seen) || pureBefore source offset false rest

/-- A leaf with some text that is no comment. -/
def isToken (leaf : Node) : Bool := !leaf.isComment && leaf.start != leaf.stop

variable {source : List Char} {offset : Nat}

/-- Before an offset where no token starts there is no run. -/
theorem runBefore_eq_nil (run leaves : List Node)
    (h : ∀ leaf ∈ leaves.filter isToken, leaf.start ≠ offset) :
    runBefore offset run leaves = [] := by
  induction leaves generalizing run with
  | nil => rfl
  | cons leaf rest ih =>
    have hrest : ∀ l ∈ rest.filter isToken, l.start ≠ offset := by
      intro l hl
      refine h l ?_
      rw [List.filter_cons]
      split
      · exact List.mem_cons_of_mem _ hl
      · exact hl
    rw [runBefore]
    by_cases hc : leaf.isComment = true
    · rw [if_pos hc, ih _ hrest]
    · rw [if_neg hc]
      by_cases ht : leaf.start = leaf.stop
      · rw [if_pos ht, ih _ hrest]
      · have hne : leaf.start ≠ offset := by
          refine h leaf (List.mem_filter.2 ⟨List.mem_cons_self, ?_⟩)
          simp [isToken, hc, ht]
        rw [if_neg ht, ih _ hrest]
        exact if_neg hne

/-- If tokens start at different offsets, asking the run before an offset for a pure mark takes no
more than one bit on the way. -/
theorem any_runBefore (run leaves : List Node)
    (h : (leaves.filter isToken).Pairwise fun a b => a.start ≠ b.start) :
    (runBefore offset run leaves).any (fun c => (Comment.ofNode source c).isPureMark) =
      pureBefore source offset (run.any fun c => (Comment.ofNode source c).isPureMark) leaves := by
  induction leaves generalizing run with
  | nil => rfl
  | cons leaf rest ih =>
    rw [runBefore, pureBefore]
    by_cases hc : leaf.isComment = true
    · have hrest : (rest.filter isToken).Pairwise fun a b => a.start ≠ b.start := by
        simpa [isToken, hc] using h
      rw [if_pos hc, if_pos hc, ih _ hrest, List.any_append]
      simp
    · rw [if_neg hc, if_neg hc]
      by_cases ht : leaf.start = leaf.stop
      · have hrest : (rest.filter isToken).Pairwise fun a b => a.start ≠ b.start := by
          simpa [isToken, ht] using h
        rw [if_pos ht, if_pos ht, ih _ hrest]
      · have htoken : isToken leaf = true := by simp [isToken, hc, ht]
        rw [List.filter_cons_of_pos htoken, List.pairwise_cons] at h
        rw [if_neg ht, if_neg ht]
        have htail := ih [] h.2
        by_cases hs : leaf.start = offset
        · -- No later token starts here, so the run before this one is the answer.
          have hnil := runBefore_eq_nil [] rest fun l hl hl' => h.1 l hl (hs.trans hl'.symm)
          rw [hnil] at htail ⊢
          rw [List.any_nil] at htail
          simp [hs, ← htail]
        · have hs' : (leaf.start == offset) = false := by simpa using hs
          rw [hs', Bool.false_and, Bool.false_or, ← List.any_nil, ← htail]
          cases runBefore offset [] rest with
          | nil => simp [hs]
          | cons c cs => rfl

/-- A comment without text is no pure mark. -/
theorem isPureMark_of_empty {leaf : Node} (h : leaf.start = leaf.stop) :
    (Comment.ofNode source leaf).isPureMark = false := by
  rw [Comment.isPureMark, Comment.text_ofNode_of_empty h]
  decide

/-- Leaves without text do not matter. -/
theorem pureBefore_filter (seen : Bool) (leaves : List Node) :
    pureBefore source offset seen (leaves.filter fun l => l.start != l.stop) =
      pureBefore source offset seen leaves := by
  induction leaves generalizing seen with
  | nil => rfl
  | cons leaf rest ih =>
    by_cases ht : leaf.start = leaf.stop
    · rw [List.filter_cons_of_neg (by simp [ht]), pureBefore, ih, isPureMark_of_empty ht,
        Bool.or_false, if_pos ht]
      split <;> rfl
    · rw [List.filter_cons_of_pos (by simp [ht]), pureBefore, pureBefore]
      simp only [ih]

/-- What the index says about pure marks, from the leaves with text. -/
theorem any_before_ofTree {root : Node}
    (h : (root.leaves.filter isToken).Pairwise fun a b => a.start ≠ b.start) :
    ((ofTree source root).before offset).any Comment.isPureMark =
      pureBefore source offset false root.solidLeaves := by
  rw [before_ofTree, List.any_map, Node.solidLeaves, pureBefore_filter]
  exact any_runBefore [] root.leaves h

end CommentIndex

/-! ## Where marks are put in -/

/-- A text with pure marks put in at the given offsets. -/
abbrev pureMarked (offsets : List Nat) (source : List Char) : List Char :=
  Text.marked pureMark.toList offsets source

/-- A tree with nested spans over a text, and offsets for marks: at each of them a token starts, and
the character there is no blank. -/
structure Markable (source : List Char) (root : Node) (offsets : List Nat) : Prop where
  nested : root.Nested
  boundary : ∀ n ∈ root.nodes, Text.IsBoundary source n.start
  token : ∀ o ∈ offsets,
    ∃ f ∈ root.leaves, f.isComment = false ∧ f.start = o ∧ f.start < f.stop
  char : ∀ o ∈ offsets, ∀ x c y, source = x ++ c :: y → Text.byteLength x = o →
    Text.isAsciiBlank c = false

namespace Markable

variable {source : List Char} {root f : Node} {offsets : List Nat}

/-- Marks are put between characters. -/
theorem boundary_offset (h : Markable source root offsets) :
    ∀ o ∈ offsets, Text.IsBoundary source o := by
  intro o ho
  obtain ⟨f, hf, -, rfl, -⟩ := h.token o ho
  exact h.boundary f (Node.mem_nodes_of_mem_leaves hf)

theorem covered (h : Markable source root offsets) : root.Covered offsets := by
  intro o ho _ _
  obtain ⟨f, hf, -, hstart, hsolid⟩ := h.token o ho
  exact ⟨f, hf, hstart, hsolid⟩

/-- No mark falls inside a leaf. -/
theorem not_inside (h : Markable source root offsets) (hf : f ∈ root.leaves) :
    ∀ o ∈ offsets, o ≤ f.start ∨ f.stop ≤ o := by
  intro o ho
  obtain ⟨g, hg, -, rfl, hsolid⟩ := h.token o ho
  exact h.nested.not_inside_leaf hf hg hsolid

/-- No mark is put in front of a comment. -/
theorem start_comment_not_mem (h : Markable source root offsets) (hf : f ∈ root.leaves)
    (hc : f.isComment = true) (hsolid : f.start < f.stop) : f.start ∉ offsets := by
  intro ho
  obtain ⟨g, hg, hgc, hstart, hgsolid⟩ := h.token _ ho
  rcases Node.eq_or_apart h.nested.leaves_apart hf hg with rfl | hfg | hgf
  · rw [hc] at hgc
    cases hgc
  · omega
  · omega

/-! ## Leaves read in the text with marks -/

/-- A leaf keeps its length. -/
theorem stop_regrow (h : Markable source root offsets) (hf : f ∈ root.leaves) :
    (f.regrow offsets).stop = (f.regrow offsets).start + f.length := by
  have hbound := h.nested.leaf_within hf
  rw [Node.start_regrow, Node.length]
  by_cases hempty : f.start = f.stop
  · rw [Node.stop_regrow_of_eq hempty, hempty, Nat.sub_self, Nat.add_zero]
  · rw [Node.stop_regrow hempty, Text.stopIn_eq (by omega) (h.not_inside hf)]

/-- No mark falls inside a leaf. -/
theorem no_mark_along (h : Markable source root offsets) (hf : f ∈ root.leaves) :
    ∀ o ∈ offsets, o ≤ f.start ∨ f.start + f.length ≤ o := by
  intro o ho
  have hbound := h.nested.leaf_within hf
  have := h.not_inside hf o ho
  rw [Node.length]
  omega

/-- The text that a leaf covers is the same. -/
theorem slice?_regrow (h : Markable source root offsets) (hf : f ∈ root.leaves) :
    Text.slice? (pureMarked offsets source) (f.regrow offsets).start (f.regrow offsets).stop =
      Text.slice? source f.start f.stop := by
  have hbound := h.nested.leaf_within hf
  have hstop : f.start + f.length = f.stop := by
    rw [Node.length]
    omega
  rw [h.stop_regrow hf, Node.start_regrow, Text.slice?_marked f.length h.boundary_offset
    (h.boundary f (Node.mem_nodes_of_mem_leaves hf)) (h.no_mark_along hf), hstop]

/-- A comment with some text changes its place only. -/
theorem ofNode_regrow (h : Markable source root offsets) (hf : f ∈ root.leaves)
    (hc : f.isComment = true) (hsolid : f.start < f.stop) :
    Comment.ofNode (pureMarked offsets source) (f.regrow offsets) =
      { Comment.ofNode source f with
        start := (f.regrow offsets).start
        stop := (f.regrow offsets).stop } := by
  have hstart := h.boundary f (Node.mem_nodes_of_mem_leaves hf)
  have hstop : f.start + f.length = f.stop := by
    rw [Node.length]
    omega
  have hnewline : '\n' ∉ pureMark.toList := by decide
  have hline : (Text.position (pureMarked offsets source)
      (f.regrow offsets).start).line = (Text.position source f.start).line := by
    rw [Node.start_regrow]
    exact Text.line_marked 0 hnewline h.boundary_offset hstart fun o _ => by omega
  have hendLine : (Text.position (pureMarked offsets source)
      (f.regrow offsets).stop).line = (Text.position source f.stop).line := by
    rw [h.stop_regrow hf, Node.start_regrow, Text.line_marked f.length hnewline h.boundary_offset
      hstart (h.no_mark_along hf), hstop]
  have hown : (Text.lineLead (pureMarked offsets source)
      (f.regrow offsets).start).all Text.isAsciiBlank =
        (Text.lineLead source f.start).all Text.isAsciiBlank := by
    rw [Node.start_regrow]
    exact Text.lead_marked h.boundary_offset hstart (h.start_comment_not_mem hf hc hsolid) h.char
  simp only [Comment.ofNode, h.slice?_regrow hf, hline, hendLine, hown]

/-- A mark reads as the pure mark without its blank. -/
theorem text_markLeaf (h : Markable source root offsets) {o : Nat} (ho : o ∈ offsets) :
    (Comment.ofNode (pureMarked offsets source) (Node.markLeaf offsets o)).text =
      "/* #__PURE__ */" := by
  have hslice : Text.slice? (pureMarked offsets source)
      (Node.markLeaf offsets o).start (Node.markLeaf offsets o).stop =
        some "/* #__PURE__ */".toList :=
    Text.slice?_mark h.boundary_offset ho (y := " ".toList) rfl
  rw [Comment.ofNode, hslice]
  rfl

/-! ## The indexes -/

theorem isComment_regrow : (f.regrow offsets).isComment = f.isComment := by
  rw [Node.isComment, Node.kind_regrow, Node.isComment]

/-- The waivers that one leaf contributes. -/
def entriesAt (source : List Char) (f : Node) : List (Nat × Waiver) :=
  if f.isComment then WaiverIndex.entriesOf (Comment.ofNode source f) else []

theorem entriesAt_of_empty {f : Node} (h : f.start = f.stop) (source : List Char) :
    entriesAt source f = [] := by
  rw [entriesAt, WaiverIndex.entriesOf, Comment.text_ofNode_of_empty h]
  split <;> rfl

/-- The waivers of a tree come from its leaves with text. -/
theorem entries_ofTree (source : List Char) (root : Node) :
    WaiverIndex.ofComments (CommentIndex.ofTree source root).comments =
      ⟨root.solidLeaves.flatMap (entriesAt source)⟩ := by
  rw [CommentIndex.comments_ofTree, WaiverIndex.ofComments, Node.solidLeaves]
  congr 1
  induction root.leaves with
  | nil => rfl
  | cons f rest ih =>
    have hleft : (((f :: rest).filter Node.isComment).map (Comment.ofNode source)).flatMap
        WaiverIndex.entriesOf = entriesAt source f ++
          (rest.filter fun l => l.start != l.stop).flatMap (entriesAt source) := by
      rw [← ih, List.filter_cons, entriesAt]
      split <;> rfl
    rw [hleft, List.filter_cons]
    split
    · rfl
    · next hempty => rw [entriesAt_of_empty (by simpa using hempty), List.nil_append]

/-- No mark is a waiver, and the waivers that were there cover the lines that they covered. -/
theorem entries_regrown (h : Markable source root offsets) :
    (root.solidLeaves.flatMap (Node.withMark offsets)).flatMap
      (entriesAt (pureMarked offsets source)) = root.solidLeaves.flatMap (entriesAt source) := by
  rw [List.flatMap_assoc]
  refine List.flatMap_congr fun f hf => ?_
  obtain ⟨hf, hne⟩ := Node.mem_solidLeaves.1 hf
  have hbound := h.nested.leaf_within hf
  have hparse : Waiver.parse? "/* #__PURE__ */".toList = none := by decide
  have hmark : (Node.lead offsets none f).flatMap (entriesAt (pureMarked offsets source)) = [] := by
    rw [Node.lead]
    split
    · next hlead =>
      rw [List.flatMap_singleton, entriesAt, WaiverIndex.entriesOf, h.text_markLeaf hlead.1, hparse]
      rfl
    · rfl
  rw [Node.withMark, List.flatMap_append, hmark, List.nil_append, List.flatMap_singleton,
    entriesAt, isComment_regrow, entriesAt]
  split
  · next hc =>
    rw [h.ofNode_regrow hf hc (by omega)]
    rfl
  · rfl

section

variable {o : Nat} {seen : Bool} {rest : List Node}

/-- A comment that was there counts as before. -/
theorem pureBefore_comment (h : Markable source root offsets) (hf : f ∈ root.leaves)
    (hc : f.isComment = true) (hsolid : f.start < f.stop) :
    CommentIndex.pureBefore (pureMarked offsets source) o seen
        (Node.withMark offsets f ++ rest) =
      CommentIndex.pureBefore (pureMarked offsets source) o
        (seen || (Comment.ofNode source f).isPureMark) rest := by
  rw [Node.withMark, Node.lead_of_not_mem (h.start_comment_not_mem hf hc hsolid), List.nil_append,
    List.singleton_append, CommentIndex.pureBefore, isComment_regrow, if_pos hc,
    h.ofNode_regrow hf hc hsolid]
  rfl

/-- A token is seen with the mark in front of it, if there is one. -/
theorem pureBefore_token (h : Markable source root offsets) (hc : f.isComment = false)
    (hsolid : f.start < f.stop) :
    CommentIndex.pureBefore (pureMarked offsets source) (Text.startIn pureMark.toList offsets o)
        seen (Node.withMark offsets f ++ rest) =
      ((f.start == o && (seen || decide (f.start ∈ offsets))) ||
        CommentIndex.pureBefore (pureMarked offsets source)
          (Text.startIn pureMark.toList offsets o) false rest) := by
  have hne : (f.regrow offsets).start ≠ (f.regrow offsets).stop := by
    rw [Ne, Node.empty_regrow offsets (Nat.le_of_lt hsolid)]
    exact Nat.ne_of_lt hsolid
  have hstart : ((f.regrow offsets).start == Text.startIn pureMark.toList offsets o) =
      (f.start == o) := by
    rw [Node.start_regrow, Bool.eq_iff_iff, beq_iff_eq, beq_iff_eq]
    exact Text.startIn_inj
  have hmoved : ∀ s, CommentIndex.pureBefore (pureMarked offsets source)
      (Text.startIn pureMark.toList offsets o) s (f.regrow offsets :: rest) =
        ((f.start == o && s) || CommentIndex.pureBefore (pureMarked offsets source)
          (Text.startIn pureMark.toList offsets o) false rest) := by
    intro s
    rw [CommentIndex.pureBefore, isComment_regrow, hc, if_neg (by simp), if_neg hne, hstart]
  by_cases ho : f.start ∈ offsets
  · have hcomment : (Node.markLeaf offsets f.start).isComment = true := rfl
    have hpure : (Comment.ofNode (pureMarked offsets source)
        (Node.markLeaf offsets f.start)).isPureMark = true := by
      rw [Comment.isPureMark, h.text_markLeaf ho]
      decide
    rw [Node.withMark, Node.lead_of_mem ho hsolid, List.singleton_append, List.cons_append,
      CommentIndex.pureBefore, if_pos hcomment, hpure, List.singleton_append, hmoved,
      decide_eq_true ho]
  · rw [Node.withMark, Node.lead_of_not_mem ho, List.nil_append, List.singleton_append, hmoved,
      decide_eq_false ho, Bool.or_false]

end

/-- In the text with marks, a token counts as marked if it did, or if a mark was put in before it. -/
theorem pureBefore_regrown (h : Markable source root offsets) (o : Nat) (seen : Bool)
    (leaves : List Node) (hleaves : ∀ f ∈ leaves, f ∈ root.solidLeaves) :
    CommentIndex.pureBefore (pureMarked offsets source) (Text.startIn pureMark.toList offsets o) seen
        (leaves.flatMap (Node.withMark offsets)) =
      (CommentIndex.pureBefore source o seen leaves ||
        leaves.any fun f => !f.isComment && f.start == o && decide (f.start ∈ offsets)) := by
  induction leaves generalizing seen with
  | nil => rfl
  | cons f rest ih =>
    have hrest := fun s => ih s fun g hg => hleaves g (List.mem_cons_of_mem f hg)
    obtain ⟨hf, hne⟩ := Node.mem_solidLeaves.1 (hleaves f List.mem_cons_self)
    have hbound := h.nested.leaf_within hf
    have hsolid : f.start < f.stop := by omega
    rw [List.flatMap_cons, List.any_cons, CommentIndex.pureBefore]
    cases hc : f.isComment with
    | true =>
      rw [h.pureBefore_comment hf hc hsolid, hrest, if_pos rfl]
      simp
    | false =>
      rw [h.pureBefore_token hc hsolid, hrest, if_neg (by simp), if_neg hne]
      cases f.start == o <;> cases seen <;> cases decide (f.start ∈ offsets) <;> simp

theorem tokens_eq (n : Node) :
    n.leaves.filter CommentIndex.isToken = n.solidLeaves.filter fun f => !f.isComment := by
  rw [Node.solidLeaves, List.filter_filter]
  rfl

theorem tokens_apart (h : Markable source root offsets) :
    (root.leaves.filter CommentIndex.isToken).Pairwise fun a b => a.start ≠ b.start := by
  rw [tokens_eq]
  exact (h.nested.solidLeaves_strict.filter _).imp fun hab => Nat.ne_of_lt hab

/-- The tokens of the regrown tree are those of the tree. -/
theorem tokens_regrown (leaves : List Node) :
    (leaves.flatMap (Node.withMark offsets)).filter (fun f => !f.isComment) =
      (leaves.filter fun f => !f.isComment).map (Node.regrow offsets) := by
  induction leaves with
  | nil => rfl
  | cons f rest ih =>
    have hlead : (Node.lead offsets none f).filter (fun f => !f.isComment) = [] := by
      rw [Node.lead]
      split <;> rfl
    rw [List.flatMap_cons, Node.withMark, List.filter_append, List.filter_append, hlead, ih,
      List.nil_append, List.filter_cons, List.filter_cons, isComment_regrow]
    cases f.isComment <;> rfl

/-- What the index of the regrown tree says about pure marks. -/
theorem any_before_regrown {root' : Node} (h : Markable source root offsets)
    (hleaves : root'.solidLeaves = root.solidLeaves.flatMap (Node.withMark offsets)) (o : Nat) :
    ((CommentIndex.ofTree (pureMarked offsets source) root').before
        (Text.startIn pureMark.toList offsets o)).any Comment.isPureMark =
      (((CommentIndex.ofTree source root).before o).any Comment.isPureMark ||
        decide (o ∈ offsets)) := by
  have happart : (root'.leaves.filter CommentIndex.isToken).Pairwise
      fun a b => a.start ≠ b.start := by
    rw [tokens_eq, hleaves, tokens_regrown, ← tokens_eq, List.pairwise_map]
    refine h.tokens_apart.imp fun {a b} hab => ?_
    rw [Node.start_regrow, Node.start_regrow]
    exact mt Text.startIn_inj.1 hab
  have hany : (root.solidLeaves.any fun f =>
      !f.isComment && f.start == o && decide (f.start ∈ offsets)) = decide (o ∈ offsets) := by
    rw [Bool.eq_iff_iff, List.any_eq_true, decide_eq_true_eq]
    constructor
    · rintro ⟨f, -, hf⟩
      simp only [Bool.and_eq_true, beq_iff_eq, decide_eq_true_eq] at hf
      exact hf.1.2 ▸ hf.2
    · intro ho
      obtain ⟨f, hf, hc, rfl, hsolid⟩ := h.token o ho
      exact ⟨f, Node.mem_solidLeaves.2 ⟨hf, Nat.ne_of_lt hsolid⟩, by simp [hc, ho]⟩
  rw [CommentIndex.any_before_ofTree happart, CommentIndex.any_before_ofTree h.tokens_apart, hleaves,
    h.pureBefore_regrown o false root.solidLeaves fun f hf => hf, hany]

end Markable

end ModulePurity
