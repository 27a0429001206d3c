/-!
# Syntax trees

A node of a concrete syntax tree: its label (kind, flags, byte span, the field of the parent that it
fills) and its children in document order, named and anonymous ones alike. Trees come from a parser
outside this library, as a list of labels in pre-order with the number of children of each.
-/

namespace ModulePurity

/-- The fields under which a parent can be asked for a child. -/
inductive Field where
  | operator
  | function
  | arguments
  | property
  | object
  | name
deriving DecidableEq, Repr

/-- The name of a field. -/
def Field.text : Field → String
  | operator => "operator"
  | function => "function"
  | arguments => "arguments"
  | property => "property"
  | object => "object"
  | name => "name"

/-- The field with the given name. -/
def Field.ofText? (s : String) : Option Field :=
  [operator, function, arguments, property, object, name].find? fun f => f.text == s

/-- What a node says about itself. -/
structure Label where
  kind : String
  /-- Named in the grammar, unlike punctuation and keywords. -/
  named : Bool
  /-- Put in by error recovery without any text. -/
  missing : Bool
  /-- Covers text that the grammar has no place for. -/
  faulty : Bool
  /-- The subtree contains a missing or faulty node. -/
  containsFault : Bool
  start : Nat
  stop : Nat
  field : Option Field
deriving DecidableEq, Repr

/-- A node with its subtree. -/
inductive Node where
  | mk (label : Label) (children : List Node)

namespace Node

/-! ## Reading a node -/

/-- The label of a node. -/
def label : Node → Label
  | mk label _ => label

/-- The children of a node in document order. -/
def children : Node → List Node
  | mk _ children => children

@[simp] theorem label_mk (l : Label) (cs : List Node) : (mk l cs).label = l := rfl

@[simp] theorem children_mk (l : Label) (cs : List Node) : (mk l cs).children = cs := rfl

/-- The kind of a node. -/
def kind (n : Node) : String := n.label.kind

/-- The offset of the first byte of a node. -/
def start (n : Node) : Nat := n.label.start

/-- The offset right after the last byte of a node. -/
def stop (n : Node) : Nat := n.label.stop

/-- The number of bytes that a node covers. -/
def length (n : Node) : Nat := n.stop - n.start

/-- Whether a node has no children. -/
def isLeaf (n : Node) : Bool := n.children.isEmpty

/-- The child that fills a field. -/
def child? (n : Node) (f : Field) : Option Node :=
  n.children.find? fun c => c.label.field == some f

/-! ## Whole trees -/

mutual

/-- The number of nodes of a tree. -/
def size : Node → Nat
  | mk _ children => 1 + sizes children

/-- The number of nodes of some trees together. -/
def sizes : List Node → Nat
  | [] => 0
  | n :: ns => size n + sizes ns

end

mutual

/-- The nodes without children, in document order. -/
def leaves : Node → List Node
  | mk label [] => [mk label []]
  | mk _ (c :: cs) => leaves c ++ forestLeaves cs

/-- The leaves of some trees together. -/
def forestLeaves : List Node → List Node
  | [] => []
  | n :: ns => leaves n ++ forestLeaves ns

end

/-! ## Trees from labels in pre-order -/

/-- Puts a label with `count` children on top of the finished trees that follow it. -/
def plant (entry : Label × Nat) (later : List Node) : List Node :=
  mk entry.1 (later.take entry.2) :: later.drop entry.2

/-- The tree whose labels in pre-order, each with its number of children, are the given ones. -/
def ofPreorder? (entries : List (Label × Nat)) : Option Node :=
  match entries.foldr plant [] with
  | [root] => some root
  | _ => none

end Node

end ModulePurity
