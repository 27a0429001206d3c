import ModulePurity.Tree.Comment

/-!
# What the comment index holds

The index is built by one pass over the leaves that numbers the comments and stores runs of numbers.
Here both of its answers are given back as lists of leaves:

* `comments_ofTree`: the comments are the comment leaves in document order;
* `before_ofTree`: the comments before an offset are those since the token before it (`runBefore`).

The pass is followed leaf by leaf. `Follows` says what is known between two leaves: the comments of
the open run are the last ones listed, and no stored run reaches beyond the list.
-/

namespace ModulePurity

namespace CommentIndex

/-! ## Comments before a token, without an index -/

/-- The comment leaves right before the token that starts at `offset`, where `run` are the comment
leaves since the last token. A leaf without text is no token. Should several tokens start at the
offset, the last one with comments before it counts. -/
def runBefore (offset : Nat) (run : List Node) : List Node → List Node
  | [] => []
  | leaf :: rest =>
    if leaf.isComment then runBefore offset (run ++ [leaf]) rest
    else if leaf.start = leaf.stop then runBefore offset run rest
    else
      match runBefore offset [] rest with
      | [] => if leaf.start = offset then run else []
      | c :: cs => c :: cs

/-! ## Following the pass -/

/-- After some leaves, `run` are the comment leaves since the last token. -/
structure Follows (source : List Char) (p : Progress) (run : List Node) : Prop where
  listed : ∃ done, p.index.comments = done ++ run.map (Comment.ofNode source) ∧
    p.openRun = if run = [] then none else some done.length
  bounded : ∀ r ∈ p.index.runs, r.last ≤ p.index.comments.length

theorem follows_empty (source : List Char) : Follows source Progress.empty [] where
  listed := ⟨[], rfl, rfl⟩
  bounded := by simp [Progress.empty]

variable {source : List Char} {p : Progress} {run : List Node} {leaf : Node}

theorem Follows.read_comment (h : Follows source p run) (hc : leaf.isComment = true) :
    Follows source (p.read source leaf) (run ++ [leaf]) := by
  obtain ⟨done, hdone, hopen⟩ := h.listed
  constructor
  · refine ⟨done, by simp [Progress.read, hc, hdone], ?_⟩
    cases run with
    | nil => simp [Progress.read, hc, hopen, hdone]
    | cons c cs => simp [Progress.read, hc, hopen]
  · intro r hr
    have hr' : r ∈ p.index.runs := by simpa [Progress.read, hc] using hr
    have := h.bounded r hr'
    simp only [Progress.read, hc, if_true, List.length_append, List.length_singleton]
    omega

theorem Follows.read_token (h : Follows source p run) (hc : leaf.isComment = false)
    (ht : leaf.start ≠ leaf.stop) : Follows source (p.read source leaf) [] := by
  obtain ⟨done, hdone, hopen⟩ := h.listed
  cases run with
  | nil =>
    have hopen : p.openRun = none := by simpa using hopen
    have hread : p.read source leaf = p := by simp [Progress.read, hc, ht, hopen]
    rw [hread]
    exact h
  | cons c cs =>
    have hopen : p.openRun = some done.length := by simpa using hopen
    constructor
    · exact ⟨p.index.comments, by simp [Progress.read, hc, ht, hopen],
        by simp [Progress.read, hc, ht, hopen]⟩
    · intro r hr
      simp only [Progress.read, hc, ht, hopen, Bool.false_eq_true, if_false, List.mem_cons]
        at hr ⊢
      rcases hr with rfl | hr
      · exact Nat.le_refl _
      · exact h.bounded r hr

/-- A comment more does not change what stands before an offset: no stored run reaches it. -/
theorem Follows.before_read_comment (h : Follows source p run) (hc : leaf.isComment = true)
    (offset : Nat) :
    (p.read source leaf).index.before offset = p.index.before offset := by
  have hindex : (p.read source leaf).index =
      ⟨p.index.comments ++ [Comment.ofNode source leaf], p.index.runs⟩ := by
    simp [Progress.read, hc]
  rw [hindex, before, before]
  cases hf : p.index.runs.find? fun r => r.token == offset with
  | none => rfl
  | some r =>
    have hr : r.last ≤ p.index.comments.length := h.bounded r (List.mem_of_find?_eq_some hf)
    simp only [commentsOf]
    -- The run ends inside the list, so one more comment behind the list is out of its reach.
    by_cases hfirst : r.first ≤ p.index.comments.length
    · rw [List.drop_append_of_le_length hfirst, List.take_append_of_le_length]
      rw [List.length_drop]
      omega
    · have hzero : r.last - r.first = 0 := by omega
      rw [hzero, List.take_zero, List.take_zero]

/-- A token gets the open run, if there is one. -/
theorem Follows.before_read_token (h : Follows source p run) (hc : leaf.isComment = false)
    (ht : leaf.start ≠ leaf.stop) (offset : Nat) :
    (p.read source leaf).index.before offset =
      if leaf.start = offset ∧ run ≠ [] then run.map (Comment.ofNode source)
      else p.index.before offset := by
  obtain ⟨done, hdone, hopen⟩ := h.listed
  cases run with
  | nil =>
    have hopen : p.openRun = none := by simpa using hopen
    simp [Progress.read, hc, ht, hopen]
  | cons c cs =>
    have hopen : p.openRun = some done.length := by simpa using hopen
    have hindex : (p.read source leaf).index =
        ⟨p.index.comments, ⟨leaf.start, done.length, p.index.comments.length⟩ :: p.index.runs⟩ := by
      simp [Progress.read, hc, ht, hopen]
    have hrun : commentsOf ⟨p.index.comments, ⟨leaf.start, done.length, p.index.comments.length⟩ ::
        p.index.runs⟩ ⟨leaf.start, done.length, p.index.comments.length⟩ =
          (c :: cs).map (Comment.ofNode source) := by
      rw [commentsOf, hdone, List.drop_left, List.take_of_length_le]
      simp
    rw [hindex, before]
    by_cases hs : leaf.start = offset
    · simp [← hs, hrun]
    · have hs' : (leaf.start == offset) = false := by simpa using hs
      simp [hs, hs', before, commentsOf]

/-- The pass over some leaves, from any state that it can be in. -/
theorem before_foldl_read (offset : Nat) (leaves : List Node) (h : Follows source p run) :
    (leaves.foldl (Progress.read source) p).index.before offset =
      match runBefore offset run leaves with
      | [] => p.index.before offset
      | c :: cs => (c :: cs).map (Comment.ofNode source) := by
  induction leaves generalizing p run with
  | nil => rfl
  | cons leaf rest ih =>
    rw [List.foldl_cons, runBefore]
    by_cases hc : leaf.isComment = true
    · rw [if_pos hc, ih (h.read_comment hc), h.before_read_comment hc]
    · have hc : leaf.isComment = false := by simpa using hc
      rw [if_neg (by simp [hc])]
      by_cases ht : leaf.start = leaf.stop
      · have hread : p.read source leaf = p := by simp [Progress.read, hc, ht]
        rw [if_pos ht, hread, ih h]
      · -- Runs are searched from the latest, so a later one wins over that of this token.
        rw [if_neg ht, ih (h.read_token hc ht), h.before_read_token hc ht]
        cases runBefore offset [] rest with
        | cons c cs => rfl
        | nil =>
          by_cases hs : leaf.start = offset
          · cases run <;> simp [hs]
          · simp [hs]

/-! ## The index of a tree -/

/-- The comments right before a token are the comment leaves since the token before it. -/
theorem before_ofTree (source : List Char) (root : Node) (offset : Nat) :
    (ofTree source root).before offset =
      (runBefore offset [] root.leaves).map (Comment.ofNode source) := by
  rw [ofTree, before_foldl_read offset root.leaves (follows_empty source)]
  cases runBefore offset [] root.leaves with
  | nil => rfl
  | cons c cs => rfl

theorem comments_foldl_read (leaves : List Node) (p : Progress) :
    (leaves.foldl (Progress.read source) p).index.comments =
      p.index.comments ++ (leaves.filter Node.isComment).map (Comment.ofNode source) := by
  induction leaves generalizing p with
  | nil => simp
  | cons leaf rest ih =>
    rw [List.foldl_cons, ih, List.filter_cons]
    by_cases hc : leaf.isComment = true
    · simp [Progress.read, hc]
    · have hkept : (p.read source leaf).index.comments = p.index.comments := by
        simp only [Progress.read, if_neg hc]
        split
        · rfl
        · split <;> rfl
      rw [hkept, if_neg hc]

/-- The comments of a tree are its comment leaves. -/
theorem comments_ofTree (source : List Char) (root : Node) :
    (ofTree source root).comments =
      (root.leaves.filter Node.isComment).map (Comment.ofNode source) := by
  rw [ofTree, comments_foldl_read]
  rfl

end CommentIndex

end ModulePurity
