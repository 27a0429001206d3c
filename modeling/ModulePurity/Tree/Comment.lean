import ModulePurity.Text.Blank
import ModulePurity.Text.Bytes
import ModulePurity.Text.Cut
import ModulePurity.Tree.Node

/-!
# Comments and the tokens that follow them

A comment index lists the comments of a module in document order and tells, for the token starting
at a given offset, which comments stand right before it. It is built in one pass over the leaves of
the tree: comments gather in a run until a token with some text ends the run.
-/

namespace ModulePurity

/-- A comment of a source text. -/
structure Comment where
  /-- The whole text with its delimiters. -/
  text : String
  start : Nat
  stop : Nat
  /-- The line of its first character, from one. -/
  line : Nat
  /-- The line that it ends on, from one. -/
  endLine : Nat
  /-- Only blanks stand before it on its first line. -/
  ownLine : Bool
deriving DecidableEq, Repr

namespace Comment

/-- The comment that a leaf of a tree over `source` covers. -/
def ofNode (source : List Char) (n : Node) : Comment where
  text := String.ofList ((Text.slice? source n.start n.stop).getD [])
  start := n.start
  stop := n.stop
  line := (Text.position source n.start).line
  endLine := (Text.position source n.stop).line
  ownLine := (Text.lineLead source n.start).all Text.isAsciiBlank

/-- Whether the comment declares the expression after it to be free of side effects. -/
def isPureMark (c : Comment) : Bool :=
  Text.occursIn "#__PURE__".toList c.text.toList || Text.occursIn "@__PURE__".toList c.text.toList

end Comment

/-- Whether a node is a comment. -/
def Node.isComment (n : Node) : Bool :=
  n.kind == "comment" || n.kind == "html_comment"

/-- The comments numbered `first` up to `last`, excluded, stand right before the token that starts
at offset `token`. -/
structure CommentRun where
  token : Nat
  first : Nat
  last : Nat
deriving DecidableEq, Repr

/-- The comments of a module and the runs of them that stand before a token. -/
structure CommentIndex where
  comments : List Comment
  /-- The runs, the latest first. -/
  runs : List CommentRun
deriving Repr

namespace CommentIndex

/-- What is known after some leaves: the index so far and where the open run of comments begins. -/
structure Progress where
  index : CommentIndex
  openRun : Option Nat

/-- Nothing read yet. -/
def Progress.empty : Progress := ⟨⟨[], []⟩, none⟩

/-- Takes one more leaf into account. A comment joins the open run or opens one; any other leaf ends
it, unless the leaf has no text. -/
def Progress.read (source : List Char) (p : Progress) (leaf : Node) : Progress :=
  let count := p.index.comments.length
  if leaf.isComment then
    ⟨⟨p.index.comments ++ [Comment.ofNode source leaf], p.index.runs⟩, some (p.openRun.getD count)⟩
  else if leaf.start = leaf.stop then p
  else
    match p.openRun with
    | none => p
    | some first => ⟨⟨p.index.comments, ⟨leaf.start, first, count⟩ :: p.index.runs⟩, none⟩

/-- The index of the comments of a tree over `source`. -/
def ofTree (source : List Char) (root : Node) : CommentIndex :=
  (root.leaves.foldl (Progress.read source) Progress.empty).index

/-- The comments of a run. -/
def commentsOf (index : CommentIndex) (run : CommentRun) : List Comment :=
  (index.comments.drop run.first).take (run.last - run.first)

/-- The comments right before the token that starts at an offset. -/
def before (index : CommentIndex) (offset : Nat) : List Comment :=
  match index.runs.find? fun run => run.token == offset with
  | none => []
  | some run => index.commentsOf run

/-- The number of comments. -/
def size (index : CommentIndex) : Nat := index.comments.length

end CommentIndex

end ModulePurity
