import ModulePurity.Tree.Node

/-!
# Walking a tree

A cursor stands on one node of a tree and remembers, for each ancestor, the siblings still to come.
Moving it to the first child, else to the next sibling of the nearest node that has one, visits the
nodes in pre-order. Each visit comes with the ancestors of the node, the root first: the walk keeps
them on a stack of its own, which grows on the way down and shrinks on the way up.

A walk is a sequence of turns (`Walker.step?`). It ends because every turn leaves fewer of them
(`Walker.turns`).
-/

namespace ModulePurity

/-- One level above a cursor: the node there and the siblings that follow on the level below. -/
structure Frame where
  node : Node
  later : List Node

/-- A node of a tree and the levels above it. -/
structure Cursor where
  focus : Node
  /-- The levels above the focus, nearest first. -/
  path : List Frame

/-- A node met on a walk, with its ancestors from the root down. -/
structure Visit where
  node : Node
  ancestors : List Node

/-- The direct parent of a visited node. -/
def Visit.parent? (v : Visit) : Option Node := v.ancestors.getLast?

/-- The number of ancestors of a visited node. -/
def Visit.depth (v : Visit) : Nat := v.ancestors.length

namespace Cursor

/-- A cursor on the root of a tree. -/
def ofRoot (root : Node) : Cursor := ⟨root, []⟩

/-! ## Moves -/

/-- Down to the first child. -/
def firstChild? (c : Cursor) : Option Cursor :=
  match c.focus.children with
  | [] => none
  | n :: ns => some ⟨n, ⟨c.focus, ns⟩ :: c.path⟩

/-- Right to the next sibling. -/
def nextSibling? (c : Cursor) : Option Cursor :=
  match c.path with
  | ⟨parent, n :: ns⟩ :: above => some ⟨n, ⟨parent, ns⟩ :: above⟩
  | _ => none

/-- Up to the parent. -/
def parent? (c : Cursor) : Option Cursor :=
  match c.path with
  | [] => none
  | ⟨parent, _⟩ :: above => some ⟨parent, above⟩

end Cursor

/-! ## The walk -/

/-- Whether a walk has just come to the node under the cursor, or is done with the node and with all
that is below it. -/
inductive Phase where
  | arriving
  | leaving
deriving DecidableEq, Repr

/-- The state of a walk. -/
structure Walker where
  phase : Phase
  cursor : Cursor
  /-- The ancestors of the node under the cursor, the nearest on top. -/
  stack : List Node

namespace Walker

/-- A walk that has come to the root of a tree. -/
def ofRoot (root : Node) : Walker := ⟨.arriving, Cursor.ofRoot root, []⟩

/-- One turn. A node that is arrived at goes on the stack if it has children; on the way up, every
level takes one node off again. Nothing is left to do once the root has been left. -/
def step? (w : Walker) : Option Walker :=
  match w.phase with
  | .arriving =>
    match w.cursor.firstChild? with
    | some child => some ⟨.arriving, child, w.cursor.focus :: w.stack⟩
    | none => some ⟨.leaving, w.cursor, w.stack⟩
  | .leaving =>
    match w.cursor.nextSibling? with
    | some sibling => some ⟨.arriving, sibling, w.stack⟩
    | none =>
      match w.cursor.parent? with
      | some parent => some ⟨.leaving, parent, w.stack.tail⟩
      | none => none

/-- The four kinds of turns. -/
inductive Step : Walker → Walker → Prop where
  | down (label : Label) (n : Node) (ns : List Node) (path : List Frame) (stack : List Node) :
    Step ⟨.arriving, ⟨.mk label (n :: ns), path⟩, stack⟩
      ⟨.arriving, ⟨n, ⟨.mk label (n :: ns), ns⟩ :: path⟩, .mk label (n :: ns) :: stack⟩
  | leaf (label : Label) (path : List Frame) (stack : List Node) :
    Step ⟨.arriving, ⟨.mk label [], path⟩, stack⟩ ⟨.leaving, ⟨.mk label [], path⟩, stack⟩
  | right (focus parent n : Node) (ns : List Node) (path : List Frame) (stack : List Node) :
    Step ⟨.leaving, ⟨focus, ⟨parent, n :: ns⟩ :: path⟩, stack⟩
      ⟨.arriving, ⟨n, ⟨parent, ns⟩ :: path⟩, stack⟩
  | up (focus parent : Node) (path : List Frame) (stack : List Node) :
    Step ⟨.leaving, ⟨focus, ⟨parent, []⟩ :: path⟩, stack⟩ ⟨.leaving, ⟨parent, path⟩, stack.tail⟩

theorem step_of_step? {w w' : Walker} (h : w.step? = some w') : Step w w' := by
  obtain ⟨phase, ⟨⟨label, children⟩, path⟩, stack⟩ := w
  cases phase with
  | arriving =>
    cases children with
    | nil =>
      cases h
      exact .leaf label path stack
    | cons n ns =>
      cases h
      exact .down label n ns path stack
  | leaving =>
    match path with
    | [] => cases h
    | ⟨parent, []⟩ :: above =>
      cases h
      exact .up _ parent above stack
    | ⟨parent, n :: ns⟩ :: above =>
      cases h
      exact .right _ parent n ns above stack

/-- A walk is over once the root has been left. -/
theorem leaving_of_step?_eq_none {w : Walker} (h : w.step? = none) :
    w.phase = .leaving ∧ w.cursor.path = [] := by
  obtain ⟨phase, ⟨⟨label, children⟩, path⟩, stack⟩ := w
  cases phase with
  | arriving => cases children <;> cases h
  | leaving =>
    match path with
    | [] => exact ⟨rfl, rfl⟩
    | ⟨parent, []⟩ :: above => cases h
    | ⟨parent, n :: ns⟩ :: above => cases h

/-- The number of turns above a node that is done: each later sibling, with all that is below it, is
arrived at and left, and each level above is left. -/
def turnsAbove : List Frame → Nat
  | [] => 0
  | f :: fs => 2 * Node.sizes f.later + 1 + turnsAbove fs

/-- The number of turns still to take, the present one included. -/
def turns (w : Walker) : Nat :=
  match w.phase with
  | .arriving => 2 * w.cursor.focus.size + turnsAbove w.cursor.path
  | .leaving => 1 + turnsAbove w.cursor.path

theorem turns_of_step {w w' : Walker} (h : Step w w') : w'.turns + 1 = w.turns := by
  cases h with
  | down label n ns path stack =>
    simp only [turns, turnsAbove, Node.size, Node.sizes]
    omega
  | leaf label path stack =>
    simp only [turns, Node.size, Node.sizes]
    omega
  | right focus parent n ns path stack =>
    simp only [turns, turnsAbove, Node.sizes]
    omega
  | up focus parent path stack =>
    simp only [turns, turnsAbove, Node.sizes]
    omega

/-- The states of a walk from the present one to the last. -/
def run (w : Walker) : List Walker :=
  match _h : w.step? with
  | none => [w]
  | some w' => w :: w'.run
termination_by w.turns
decreasing_by
  have := turns_of_step (step_of_step? _h)
  omega

/-- Whether a walk has just come to the node under the cursor. -/
def isArriving (w : Walker) : Bool := w.phase == .arriving

/-- The node under the cursor with the ancestors from the stack. -/
def visit (w : Walker) : Visit := ⟨w.cursor.focus, w.stack.reverse⟩

end Walker

/-- The visits of all nodes of a tree in pre-order. -/
def Node.walk (root : Node) : List Visit :=
  ((Walker.ofRoot root).run.filter Walker.isArriving).map Walker.visit

end ModulePurity
