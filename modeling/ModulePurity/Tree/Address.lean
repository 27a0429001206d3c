import ModulePurity.Tree.Node

/-!
# Addresses in a tree

Two nodes of a tree may look alike. What tells them apart is the way that leads to them from the
root. An address is such a way; the parent of a node is one step back on it.
-/

namespace ModulePurity

/-- The way from the root of a tree to one of its nodes: which child to take on each level. -/
abbrev Address := List Nat

namespace Address

/-- The address of the parent. The root has none. -/
def parent? : Address → Option Address
  | [] => none
  | i :: is => some (i :: is).dropLast

theorem length_of_parent? {a b : Address} (h : parent? a = some b) : b.length + 1 = a.length := by
  cases a with
  | nil => cases h
  | cons i is =>
    cases h
    simp

/-- The addresses above an address, by one parent link after the other, the nearest first. -/
def parents (a : Address) : List Address :=
  match _h : parent? a with
  | none => []
  | some b => b :: parents b
termination_by a.length
decreasing_by
  have := length_of_parent? _h
  omega

end Address

/-- The node at an address. -/
def Node.at? (root : Node) : Address → Option Node
  | [] => some root
  | i :: is => root.children[i]?.bind fun c => c.at? is

end ModulePurity
