import ModulePurity.Tree.Cursor
import ModulePurity.Tree.Language
import ModulePurity.Tree.Address
import ModulePurity.Waiver

/-!
# Parsed modules

A source text with its syntax tree and the two indexes over its comments. The tree may contain
faults, where error recovery put in or skipped something; a strict reading refuses such a tree and
tells the place of the first fault in pre-order.
-/

namespace ModulePurity

/-- A parser: the tree of a text in a language. -/
abbrev Grammar := Language → String → Node

/-- A source text that is no sentence of its language. -/
structure SyntaxFault where
  position : Text.Position
deriving DecidableEq, Repr

/-- The wording of a fault. -/
def SyntaxFault.message (e : SyntaxFault) : String :=
  "syntax error at " ++ toString e.position.line ++ ":" ++ toString e.position.column

/-- A parsed source text. -/
structure SourceModule where
  source : String
  language : Language
  root : Node
  comments : CommentIndex
  waivers : WaiverIndex

namespace SourceModule

/-- The module of a text and its tree, whatever faults the tree has. -/
def ofTree (source : String) (language : Language) (root : Node) : SourceModule :=
  let comments := CommentIndex.ofTree source.toList root
  { source, language, root, comments, waivers := WaiverIndex.ofComments comments.comments }

/-- The text that a node covers. -/
def text (m : SourceModule) (n : Node) : String :=
  String.ofList ((Text.slice? m.source.toList n.start n.stop).getD [])

/-- The place where a node starts. -/
def position (m : SourceModule) (n : Node) : Text.Position :=
  Text.position m.source.toList n.start

/-- The comments right before a node. -/
def commentsBefore (m : SourceModule) (n : Node) : List Comment :=
  m.comments.before n.start

/-- Every node in pre-order with its ancestors. -/
def walk (m : SourceModule) : List Visit :=
  m.root.walk

/-- The ancestors of the node at an address, the root first, looked up through parent links. -/
def ancestorsOf (m : SourceModule) (a : Address) : List Node :=
  (a.parents.filterMap m.root.at?).reverse

/-- The node to blame if the tree has a fault: the first faulty or missing one in pre-order, or else
the root. -/
def firstFault? (m : SourceModule) : Option Node :=
  if m.root.label.containsFault then
    match m.walk.find? fun v => v.node.label.faulty || v.node.label.missing with
    | some v => some v.node
    | none => some m.root
  else none

/-- Refuses a tree with a fault. -/
def refuseFault (m : SourceModule) : Except SyntaxFault SourceModule :=
  match m.firstFault? with
  | none => .ok m
  | some n => .error ⟨m.position n⟩

/-- Parses a text and keeps whatever tree comes out. -/
def parseLenient (grammar : Grammar) (language : Language) (source : String) : SourceModule :=
  ofTree source language (grammar language source)

/-- Parses a text and refuses a tree with a fault. -/
def parse (grammar : Grammar) (language : Language) (source : String) :
    Except SyntaxFault SourceModule :=
  (parseLenient grammar language source).refuseFault

end SourceModule

end ModulePurity
