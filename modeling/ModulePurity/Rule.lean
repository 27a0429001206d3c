import ModulePurity.Finding.Basic
import ModulePurity.Tree.Module

/-!
# Rules

A rule looks at one parsed module and reports findings. It knows the file only through its context,
which gives the path that the findings carry.
-/

namespace ModulePurity

/-- The file that a module was read from. -/
structure FileContext where
  /-- The path that findings carry. -/
  relative : Path
deriving DecidableEq, Repr

namespace FileContext

/-- The context of a file in a project: its path is given relative to the project's root, if it lies
below it. -/
def ofPath (path root : Path) : FileContext := ⟨path.relativeTo root⟩

/-- The location of a node. -/
def locate (ctx : FileContext) (m : SourceModule) (n : Node) : Location :=
  let place := m.position n
  ⟨ctx.relative, place.line, place.column, n.start, n.length⟩

end FileContext

/-- A check of one module. -/
structure Rule where
  name : String
  code : String
  description : String
  severity : Severity
  check : FileContext → SourceModule → List Finding

/-- Whether a waiver of the rule has to give a reason. -/
def Rule.requiresReason (r : Rule) : Bool := r.severity = .error

end ModulePurity
