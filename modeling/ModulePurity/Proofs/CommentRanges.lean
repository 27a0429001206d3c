import Mathlib.Data.List.DropRight
import ModulePurity.Proofs.MarkedComments
import ModulePurity.Proofs.PureMarks
import ModulePurity.Tree.Module

/-!
# How the runs cut up the comments

The comment index keeps its runs as ranges of numbers into the list of comments. This file says what
they are in a tree whose leaves come in order:

* `CutUp`: the ranges are in bounds and apart, and leave no comment out up to the last token;
* `before_of_split`: a token is told the comments since the token before it;
* `indexes_ofTree`: the whole index (`Indexes`), and what a node learns about the comments before it.

The pass is followed from the left, leaf by leaf. What it knows in between (`Stored`) is said with two
parts of the comments seen so far: those up to the last token and those since.
-/

namespace ModulePurity

/-- The leaves of a tree come in order and do not overlap. -/
structure Node.LeavesInOrder (n : Node) : Prop where
  ordered : ∀ f ∈ n.leaves, f.start ≤ f.stop
  apart : n.leaves.Pairwise fun a b => a.stop ≤ b.start

/-- Whether a run holds the comment with a given number. -/
def CommentRun.Holds (r : CommentRun) (i : Nat) : Prop :=
  r.first ≤ i ∧ i < r.last

namespace CommentIndex

variable {f : Node} {source : List Char} {p : Progress} {seen : List Node}

/-! ## Comments up to the last token and since -/

/-- The comments among some leaves that come after the last token. -/
def sinceToken (leaves : List Node) : List Node :=
  (leaves.rtakeWhile fun f => !isToken f).filter Node.isComment

/-- The comments among some leaves that come before the last token. -/
def upToToken (leaves : List Node) : List Node :=
  (leaves.rdropWhile fun f => !isToken f).filter Node.isComment

/-- The comments up to the last token and those since make up all the comments. -/
theorem upToToken_append_sinceToken (leaves : List Node) :
    upToToken leaves ++ sinceToken leaves = leaves.filter Node.isComment := by
  rw [upToToken, sinceToken, ← List.filter_append, List.rdropWhile_append_rtakeWhile]

/-- A token is a leaf that is no comment and not empty. -/
theorem isToken_iff : isToken f = true ↔ f.isComment = false ∧ f.start ≠ f.stop := by
  simp [isToken]

/-- Nothing stands behind a token that has just been read. -/
theorem sinceToken_concat_token (leaves : List Node) (h : isToken f = true) :
    sinceToken (leaves ++ [f]) = [] := by
  simp [sinceToken, h]

theorem upToToken_concat_token (leaves : List Node) (h : isToken f = true) :
    upToToken (leaves ++ [f]) = leaves.filter Node.isComment := by
  have hcomment := (isToken_iff.1 h).1
  simp [upToToken, h, hcomment]

/-- What is no token joins the comments since the last one if it is a comment. -/
theorem sinceToken_concat (leaves : List Node) (h : isToken f = false) :
    sinceToken (leaves ++ [f]) = sinceToken leaves ++ [f].filter Node.isComment := by
  rw [sinceToken, List.rtakeWhile_concat, if_pos (by simp [h]), List.filter_append, sinceToken]

theorem upToToken_concat (leaves : List Node) (h : isToken f = false) :
    upToToken (leaves ++ [f]) = upToToken leaves := by
  rw [upToToken, List.rdropWhile_concat, if_pos (by simp [h]), upToToken]

/-- Later tokens start further to the right. -/
def Rising (leaves : List Node) : Prop :=
  leaves.Pairwise fun a b => isToken a = true → isToken b = true → a.start < b.start

theorem rising_leaves {root : Node} (h : root.LeavesInOrder) : Rising root.leaves := by
  apply h.apart.imp_of_mem
  intro a b ha _ hab htoken _
  have hle := h.ordered a ha
  have hne := (isToken_iff.1 htoken).2
  omega

/-! ## Ranges that cut up a list -/

/-- The runs, the latest first, cut up the first `n` comments: each one is in exactly one of them. -/
structure CutUp (runs : List CommentRun) (n : Nat) : Prop where
  bounds : ∀ r ∈ runs, r.first < r.last ∧ r.last ≤ n
  apart : runs.Pairwise fun later earlier => earlier.last ≤ later.first
  complete : ∀ i < n, ∃ r ∈ runs, r.Holds i

theorem cutUp_nil : CutUp [] 0 where
  bounds := by simp
  apart := List.Pairwise.nil
  complete := by simp

/-- The next run begins where the others end. -/
theorem CutUp.cons {runs : List CommentRun} {n m : Nat} (h : CutUp runs n) (hm : n < m)
    (token : Nat) : CutUp (⟨token, n, m⟩ :: runs) m where
  bounds := by
    intro r hr
    rcases List.mem_cons.1 hr with rfl | hr
    · exact ⟨hm, Nat.le_refl m⟩
    · have := h.bounds r hr
      omega
  apart := List.pairwise_cons.2 ⟨fun r hr => (h.bounds r hr).2, h.apart⟩
  complete := by
    intro i hi
    by_cases hin : i < n
    · obtain ⟨r, hr, hholds⟩ := h.complete i hin
      exact ⟨r, List.mem_cons_of_mem _ hr, hholds⟩
    · refine ⟨_, List.mem_cons_self, ?_⟩
      show n ≤ i ∧ i < m
      omega

/-- The comments that no run holds are those after the first `n`. -/
theorem CutUp.not_held_iff {runs : List CommentRun} {n : Nat} (h : CutUp runs n) (i : Nat) :
    (∀ r ∈ runs, ¬ r.Holds i) ↔ n ≤ i := by
  constructor
  · intro hnone
    apply Nat.le_of_not_lt
    intro hi
    obtain ⟨r, hr, hholds⟩ := h.complete i hi
    exact hnone r hr hholds
  · intro hi r hr hholds
    have hlast := (h.bounds r hr).2
    have hbelow : i < r.last := hholds.2
    omega

/-! ## What the pass has stored -/

/-- What is stored after some leaves: the comments since the last token make up the open run, those
before are cut up, and each run belongs to a token of its own. -/
structure Stored (p : Progress) (seen : List Node) : Prop where
  counted : p.index.comments.length = (upToToken seen).length + (sinceToken seen).length
  opened : p.openRun = if sinceToken seen = [] then none else some (upToToken seen).length
  cutUp : CutUp p.index.runs (upToToken seen).length
  owned : ∀ r ∈ p.index.runs, ∃ t ∈ seen, isToken t = true ∧ t.start = r.token
  tokens : p.index.runs.Pairwise fun later earlier => earlier.token < later.token

theorem stored_empty : Stored Progress.empty [] where
  counted := rfl
  opened := rfl
  cutUp := cutUp_nil
  owned := by simp [Progress.empty]
  tokens := List.Pairwise.nil

theorem Stored.owned_concat (h : Stored p seen) (f : Node) :
    ∀ r ∈ p.index.runs, ∃ t ∈ seen ++ [f], isToken t = true ∧ t.start = r.token := by
  intro r hr
  obtain ⟨t, ht, hrest⟩ := h.owned r hr
  exact ⟨t, List.mem_append_left _ ht, hrest⟩

/-- A comment opens a run or joins the open one. -/
theorem Stored.read_comment (h : Stored p seen) (hc : f.isComment = true) :
    Stored (p.read source f) (seen ++ [f]) := by
  have htoken : isToken f = false := by simp [isToken, hc]
  have hread : p.read source f =
      ⟨⟨p.index.comments ++ [Comment.ofNode source f], p.index.runs⟩,
        some (p.openRun.getD p.index.comments.length)⟩ := by
    simp [Progress.read, hc]
  have hsince : sinceToken (seen ++ [f]) = sinceToken seen ++ [f] := by
    rw [sinceToken_concat seen htoken, List.filter_cons_of_pos hc, List.filter_nil]
  have hcounted := h.counted
  have hopened := h.opened
  rw [hread]
  constructor
  · simp only [hsince, upToToken_concat seen htoken, List.length_append, List.length_singleton]
    omega
  · rw [hsince, upToToken_concat seen htoken, if_neg (by simp), hopened]
    -- If no run was open, the new one begins behind all the comments so far.
    by_cases hnil : sinceToken seen = []
    · rw [hnil, List.length_nil] at hcounted
      rw [if_pos hnil, Option.getD_none, hcounted, Nat.add_zero]
    · rw [if_neg hnil, Option.getD_some]
  · rw [upToToken_concat seen htoken]
    exact h.cutUp
  · exact h.owned_concat f
  · exact h.tokens

/-- A token ends the open run, if there is one, and takes it. -/
theorem Stored.read_token (h : Stored p seen) (ht : isToken f = true)
    (hlast : ∀ t ∈ seen, isToken t = true → t.start < f.start) :
    Stored (p.read source f) (seen ++ [f]) := by
  obtain ⟨hc, hwidth⟩ := isToken_iff.1 ht
  have hall : (upToToken (seen ++ [f])).length = p.index.comments.length := by
    rw [upToToken_concat_token seen ht, ← upToToken_append_sinceToken, List.length_append, h.counted]
  have hopened := h.opened
  by_cases hnil : sinceToken seen = []
  · -- No run is open: the comments up to this token are those up to the one before it.
    have hcounted := h.counted
    rw [hnil, List.length_nil, Nat.add_zero] at hcounted
    rw [if_pos hnil] at hopened
    have hread : p.read source f = p := by simp [Progress.read, hc, hwidth, hopened]
    rw [hread]
    constructor
    · rw [hall, sinceToken_concat_token seen ht]
      rfl
    · rw [hopened, sinceToken_concat_token seen ht, if_pos rfl]
    · rw [hall, hcounted]
      exact h.cutUp
    · exact h.owned_concat f
    · exact h.tokens
  · -- The open run reaches from the last token to here, and no earlier run belongs to this token.
    rw [if_neg hnil] at hopened
    have hread : p.read source f =
        ⟨⟨p.index.comments, ⟨f.start, (upToToken seen).length, p.index.comments.length⟩ ::
          p.index.runs⟩, none⟩ := by
      simp [Progress.read, hc, hwidth, hopened]
    have hpos : 0 < (sinceToken seen).length := List.length_pos_iff.2 hnil
    rw [hread]
    constructor
    · rw [hall, sinceToken_concat_token seen ht]
      rfl
    · rw [sinceToken_concat_token seen ht, if_pos rfl]
    · rw [hall]
      apply h.cutUp.cons
      have := h.counted
      omega
    · intro r hr
      rcases List.mem_cons.1 hr with rfl | hr
      · exact ⟨f, by simp, ht, rfl⟩
      · exact h.owned_concat f r hr
    · apply List.pairwise_cons.2
      refine ⟨?_, h.tokens⟩
      intro r hr
      obtain ⟨t, hmem, htoken, hstart⟩ := h.owned r hr
      have := hlast t hmem htoken
      show r.token < f.start
      omega

/-- A leaf without text that is no comment leaves no trace. -/
theorem read_of_empty (p : Progress) (hc : f.isComment = false) (ht : isToken f = false) :
    p.read source f = p := by
  have hwidth : f.start = f.stop := by simpa [isToken, hc] using ht
  simp [Progress.read, hc, hwidth]

theorem Stored.read_empty (h : Stored p seen) (hc : f.isComment = false) (ht : isToken f = false) :
    Stored (p.read source f) (seen ++ [f]) := by
  have hsince : sinceToken (seen ++ [f]) = sinceToken seen := by
    rw [sinceToken_concat seen ht]
    simp [hc]
  rw [read_of_empty p hc ht]
  constructor
  · rw [hsince, upToToken_concat seen ht]
    exact h.counted
  · rw [hsince, upToToken_concat seen ht]
    exact h.opened
  · rw [upToToken_concat seen ht]
    exact h.cutUp
  · exact h.owned_concat f
  · exact h.tokens

/-- After reading a list of leaves, the index describes exactly that list. -/
theorem stored_foldl (source : List Char) {leaves : List Node} (h : Rising leaves) :
    Stored (leaves.foldl (Progress.read source) Progress.empty) leaves := by
  induction leaves using List.reverseRecOn with
  | nil => exact stored_empty
  | append_singleton seen f ih =>
    obtain ⟨hseen, -, hlast⟩ := List.pairwise_append.1 h
    have hstored := ih hseen
    rw [List.foldl_append, List.foldl_cons, List.foldl_nil]
    -- One case for each kind of leaf that the pass tells apart.
    by_cases hc : f.isComment = true
    · exact hstored.read_comment hc
    · by_cases ht : isToken f = true
      · apply hstored.read_token ht
        intro t hmem htoken
        exact hlast t hmem f List.mem_cons_self htoken ht
      · exact hstored.read_empty (by simpa using hc) (by simpa using ht)

/-! ## What stands before a token -/

/-- The pass has the comments since the last token at hand. -/
theorem follows_foldl (source : List Char) (leaves : List Node) :
    Follows source (leaves.foldl (Progress.read source) Progress.empty) (sinceToken leaves) := by
  induction leaves using List.reverseRecOn with
  | nil => exact follows_empty source
  | append_singleton seen f ih =>
    rw [List.foldl_append, List.foldl_cons, List.foldl_nil]
    by_cases ht : isToken f = true
    · rw [sinceToken_concat_token seen ht]
      exact ih.read_token (isToken_iff.1 ht).1 (isToken_iff.1 ht).2
    · have ht : isToken f = false := by simpa using ht
      rw [sinceToken_concat seen ht]
      by_cases hc : f.isComment = true
      · rw [List.filter_cons_of_pos hc]
        exact ih.read_comment hc
      · have hc : f.isComment = false := by simpa using hc
        rw [read_of_empty _ hc ht, List.filter_cons_of_neg (by simp [hc]), List.filter_nil,
          List.append_nil]
        exact ih

/-- Leaves among which no token starts at an offset do not change what stands before it. -/
theorem before_foldl_of_ne {run : List Node} (h : Follows source p run) {offset : Nat}
    {leaves : List Node} (hne : ∀ t ∈ leaves, isToken t = true → t.start ≠ offset) :
    (leaves.foldl (Progress.read source) p).index.before offset = p.index.before offset := by
  have hnil : runBefore offset run leaves = [] := by
    apply runBefore_eq_nil
    intro t ht
    obtain ⟨hmem, htoken⟩ := List.mem_filter.1 ht
    exact hne t hmem htoken
  rw [before_foldl_read offset leaves h, hnil]

variable {root : Node} {pre post : List Node} {t : Node}

/-- Right before a token stand the comments since the token before it. -/
theorem before_of_split (h : Rising root.leaves) (hsplit : root.leaves = pre ++ t :: post)
    (ht : isToken t = true) :
    (ofTree source root).before t.start = (sinceToken pre).map (Comment.ofNode source) := by
  obtain ⟨hc, hwidth⟩ := isToken_iff.1 ht
  have hfollows := follows_foldl source pre
  rw [hsplit] at h
  obtain ⟨-, hrest, hacross⟩ := List.pairwise_append.1 h
  have hpre : ∀ u ∈ pre, isToken u = true → u.start ≠ t.start := by
    intro u hu htoken
    exact Nat.ne_of_lt (hacross u hu t List.mem_cons_self htoken ht)
  have hpost : ∀ u ∈ post, isToken u = true → u.start ≠ t.start := by
    intro u hu htoken
    exact Nat.ne_of_gt ((List.pairwise_cons.1 hrest).1 u hu ht htoken)
  have hfirst : (pre.foldl (Progress.read source) Progress.empty).index.before t.start = [] :=
    before_foldl_of_ne (follows_empty source) hpre
  rw [ofTree, hsplit, List.foldl_append, List.foldl_cons,
    before_foldl_of_ne (hfollows.read_token hc hwidth) hpost,
    hfollows.before_read_token hc hwidth, hfirst]
  -- Without comments since the token before it no run is stored, and the answer is empty as well.
  by_cases hnil : sinceToken pre = []
  · simp [hnil]
  · simp [hnil]

/-- Nothing stands before an offset where no token starts. -/
theorem before_of_ne {offset : Nat}
    (hne : ∀ t ∈ root.leaves, isToken t = true → t.start ≠ offset) :
    (ofTree source root).before offset = [] :=
  before_foldl_of_ne (follows_empty source) hne

/-! ## The whole index -/

/-- What an index says about a tree. -/
structure Indexes (index : CommentIndex) (source : List Char) (root : Node) : Prop where
  /-- Every comment leaf is listed once, in document order. -/
  listed : index.comments = (root.leaves.filter Node.isComment).map (Comment.ofNode source)
  /-- A token has before it the comments since the token before it, or since the beginning. -/
  before_token : ∀ pre t post, root.leaves = pre ++ t :: post → isToken t = true →
    index.before t.start = (sinceToken pre).map (Comment.ofNode source)
  /-- No other offset has comments before it. -/
  before_other : ∀ offset, (∀ t ∈ root.leaves, isToken t = true → t.start ≠ offset) →
    index.before offset = []
  bounds : ∀ r ∈ index.runs, r.first < r.last ∧ r.last ≤ index.comments.length
  apart : index.runs.Pairwise fun later earlier =>
    earlier.last ≤ later.first ∧ earlier.token < later.token
  /-- The comments that are in no run are those after the last token. -/
  trailing : ∃ done, index.comments = done ++ (sinceToken root.leaves).map (Comment.ofNode source) ∧
    ∀ i < index.comments.length, (∀ r ∈ index.runs, ¬ r.Holds i) ↔ done.length ≤ i

theorem indexes_of_rising (h : Rising root.leaves) : Indexes (ofTree source root) source root := by
  have hstored : Stored _ root.leaves := stored_foldl source h
  have hcut : CutUp (ofTree source root).runs (upToToken root.leaves).length := hstored.cutUp
  have hcomments : (ofTree source root).comments =
      (upToToken root.leaves).map (Comment.ofNode source) ++
        (sinceToken root.leaves).map (Comment.ofNode source) := by
    rw [comments_ofTree, ← upToToken_append_sinceToken, List.map_append]
  constructor
  · exact comments_ofTree source root
  · intro pre t post hsplit ht
    exact before_of_split h hsplit ht
  · intro offset hne
    exact before_of_ne hne
  · intro r hr
    have hbounds := hcut.bounds r hr
    rw [hcomments, List.length_append, List.length_map]
    omega
  · exact hcut.apart.and hstored.tokens
  · refine ⟨_, hcomments, ?_⟩
    intro i _
    rw [List.length_map]
    exact hcut.not_held_iff i

/-- In a tree whose leaves come in order, the index lists the comments, tells every token the comments
since the token before it and no other offset any, and cuts up the comments up to the last token into
runs. A node that starts where a token does is told the same as the token; this is every node whose
first leaf the token is, if nodes start where their first child does. -/
theorem indexes_ofTree (source : String) (language : Language) (root : Node)
    (h : root.LeavesInOrder) :
    Indexes (SourceModule.ofTree source language root).comments source.toList root ∧
      ∀ pre t post, root.leaves = pre ++ t :: post → isToken t = true →
        (∀ n : Node, n.start = t.start →
          (SourceModule.ofTree source language root).commentsBefore n =
            (sinceToken pre).map (Comment.ofNode source.toList)) ∧
        ∀ n ∈ root.nodes, n.Flush → t ∈ n.leaves.head? →
          (SourceModule.ofTree source language root).commentsBefore n =
            (sinceToken pre).map (Comment.ofNode source.toList) := by
  have hindexes : Indexes (ofTree source.toList root) source.toList root :=
    indexes_of_rising (rising_leaves h)
  refine ⟨hindexes, ?_⟩
  intro pre t post hsplit ht
  have hbefore : ∀ n : Node, n.start = t.start →
      (SourceModule.ofTree source language root).commentsBefore n =
        (sinceToken pre).map (Comment.ofNode source.toList) := by
    intro n hn
    rw [SourceModule.commentsBefore, hn]
    exact hindexes.before_token pre t post hsplit ht
  refine ⟨hbefore, ?_⟩
  intro n _ hflush hfirst
  exact hbefore n (hflush.start_firstLeaf hfirst).symm

open Purity (sampleNode sampleToken)

/-- The call in `/* a */ f(/* b */); // c`. -/
def commentedCall : Node :=
  sampleNode "call_expression" 8 18 none
    [sampleNode "identifier" 8 9 (some .function) [],
      sampleNode "arguments" 9 18 (some .arguments)
        [sampleToken "(" 9, sampleNode "comment" 10 17 none [], sampleToken ")" 17]]

/-- The tree of `/* a */ f(/* b */); // c`. -/
def commentedModule : Node :=
  sampleNode "program" 0 24 none
    [sampleNode "comment" 0 7 none [],
      sampleNode "expression_statement" 8 19 none [commentedCall, sampleToken ";" 18],
      sampleNode "comment" 20 24 none []]

/-- The call is told the comment before its first token, and the closing parenthesis the one before
it. -/
theorem indexes_ofTree_commentedModule :
    commentedModule.LeavesInOrder ∧
      (SourceModule.ofTree "/* a */ f(/* b */); // c" .javascript commentedModule).commentsBefore
        commentedCall = [⟨"/* a */", 0, 7, 1, 1, true⟩] ∧
      (SourceModule.ofTree "/* a */ f(/* b */); // c" .javascript commentedModule).comments.before
        17 = [⟨"/* b */", 10, 17, 1, 1, false⟩] := by
  have h : commentedModule.LeavesInOrder := ⟨by decide +kernel, by decide +kernel⟩
  have hall := indexes_ofTree "/* a */ f(/* b */); // c" .javascript commentedModule h
  have hcall := (hall.2 [sampleNode "comment" 0 7 none []] _ _ rfl (by decide)).2 commentedCall
    (by simp [commentedModule, Node.nodes, Node.forestNodes, sampleNode, commentedCall])
    (by unfold Node.Flush; decide +kernel) rfl
  have hparen := hall.1.before_token [sampleNode "comment" 0 7 none [],
    sampleNode "identifier" 8 9 (some .function) [], sampleToken "(" 9,
    sampleNode "comment" 10 17 none []] (sampleToken ")" 17) _ rfl (by decide)
  refine ⟨h, hcall.trans ?_, hparen.trans ?_⟩
  · decide +kernel
  · decide +kernel

end CommentIndex

end ModulePurity
