import ModulePurity.Purity.Options
import ModulePurity.Tree.Cursor

/-!
# Shields

Code is shielded if it does not run when the module is evaluated. Functions and methods shield what
they contain, and so do the initializers of instance fields; static fields do not, and static blocks
do only by option. The key of a method in an object literal runs with the literal, so the method does
not shield it.
-/

namespace ModulePurity.Purity

/-- A function or method, whose body runs only when it is called. -/
def isFunction (n : Node) : Bool :=
  ["function_declaration", "function_expression", "arrow_function",
    "generator_function_declaration", "generator_function", "method_definition"].contains n.kind

/-- A field of a class. -/
def isClassField (n : Node) : Bool :=
  n.kind == "field_definition" || n.kind == "public_field_definition"

/-- Whether a class member carries the keyword `static`. -/
def isStatic (n : Node) : Bool :=
  n.children.any fun c => !c.label.named && c.kind == "static"

/-- Whether `child` is the key of the method `n` in an object literal. -/
def isObjectMethodKey (parent : Option Node) (n child : Node) : Bool :=
  n.kind == "method_definition" && (parent.map Node.kind) == some "object" &&
    child.label.field == some .name

/-- Whether a node, whose own parent is `parent`, shields its child. -/
def shields (o : Options) (parent : Option Node) (n child : Node) : Bool :=
  (isFunction n && !isObjectMethodKey parent n child) ||
    (isClassField n && !isStatic n) ||
    (n.kind == "class_static_block" && o.allowInStaticBlock)

/-- Whether a node on the way down from `parent` through `ancestors` to `node` shields what is below
it on the way. -/
def shieldedBelow (o : Options) (parent : Option Node) : (ancestors : List Node) → (node : Node) → Bool
  | [], _ => false
  | [a], node => shields o parent a node
  | a :: b :: rest, node => shields o parent a b || shieldedBelow o (some a) (b :: rest) node

/-- Whether a visited node does not run when the module is evaluated. -/
def isShielded (o : Options) (v : Visit) : Bool :=
  shieldedBelow o none v.ancestors v.node

end ModulePurity.Purity
