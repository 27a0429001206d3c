import ModulePurity.Purity.CallPath
import ModulePurity.Purity.Options
import ModulePurity.Tree.Module

/-!
# Effects

An effect is an expression or statement that may do something when it is evaluated. Options, pure
marks in comments and the known pure functions exempt an effect.
-/

namespace ModulePurity.Purity

/-- What a node may do when it is evaluated. -/
inductive Effect where
  | await
  /-- An increment or decrement. -/
  | update
  | assignment
  | delete
  /-- A unary operator without an effect of its own. -/
  | unary
  | throw
  | construction
  | taggedTemplate (tag : Node)
  | call (target : Node)

namespace Effect

/-- The name of an effect's kind. -/
def name : Effect → String
  | await => "await"
  | update => "update"
  | assignment => "assignment"
  | delete => "delete"
  | unary => "unary"
  | throw => "throw"
  | construction => "new"
  | taggedTemplate _ => "tagged_template"
  | call _ => "call"

/-- Whether a pure mark in front of it exempts the effect. -/
def acceptsPureMark : Effect → Bool
  | construction | taggedTemplate _ | call _ => true
  | _ => false

/-- The effect of a call expression. Loading a module by a call of `import` is not a call. -/
def ofCall? (n : Node) : Option Effect :=
  match n.child? .function, n.child? .arguments with
  | some target, some arguments =>
    if arguments.kind == "template_string" then some (taggedTemplate target)
    else if target.kind == "import" then none
    else some (call target)
  | _, _ => none

/-- The effect of a node by its kind. -/
def ofNode? (n : Node) : Option Effect :=
  match n.kind with
  | "await_expression" => some await
  | "update_expression" => some update
  | "assignment_expression" | "augmented_assignment_expression" => some assignment
  | "unary_expression" =>
    if ((n.child? .operator).map Node.kind) == some "delete" then some delete else some unary
  | "throw_statement" => some throw
  | "new_expression" => some construction
  | "call_expression" => ofCall? n
  | _ => none

end Effect

/-- Whether a comment right before the node declares it pure. -/
def hasPureMark (m : SourceModule) (n : Node) : Bool :=
  (m.commentsBefore n).any Comment.isPureMark

/-- Whether a call target is among the functions known to be pure. -/
def isPureFunction (o : Options) (m : SourceModule) (target : Node) : Bool :=
  o.pureFunctions.any fun raw => rawMatches raw m.source.toList target

/-- Whether the effect of a node is exempt wherever it stands. -/
def isExempt (o : Options) (m : SourceModule) (n : Node) : Effect → Bool
  | .await => o.allowAwait
  | .update | .assignment => o.allowAssign
  | .delete => o.allowDelete
  | .unary => true
  | .throw => o.allowThrow
  | .construction => o.allowNew || hasPureMark m n
  | .taggedTemplate tag => o.taggedTemplateAllowed || hasPureMark m n || isPureFunction o m tag
  | .call target =>
    o.allowCall || hasPureMark m n || target.kind == "super" || isPureFunction o m target

end ModulePurity.Purity
