import Mathlib.Data.List.Basic
import ModulePurity.Tree.Cursor

/-!
# The walk as a recursion

The loop of `Node.walk` moves a cursor and keeps the ancestors on a stack. This file replaces it by
plain recursion over the tree, which is what every later proof about a whole tree starts from:

* `Walker.ahead`, the arrivals that are left in any state, and `filter_run`;
* `Node.visits`, the visits of a subtree below given ancestors, and `walk_eq_visits`;
* `Node.nodes`, the nodes of a tree, closed under taking children;
* `Node.sweep`, one pass that hands a flag down from parent to child.
-/

namespace ModulePurity

namespace Node

/-! ## Induction and pre-order -/

/-- A property that passes from all children to their parent holds of every tree. -/
@[elab_as_elim]
theorem induct {P : Node → Prop}
    (step : ∀ label children, (∀ c ∈ children, P c) → P (.mk label children)) : ∀ n, P n
  | .mk label children => step label children fun c _ => induct step c

mutual

/-- The visits of a subtree in pre-order, given the ancestors of its top node. -/
def visits (above : List Node) : Node → List Visit
  | .mk label children =>
    ⟨.mk label children, above⟩ :: forestVisits (above ++ [.mk label children]) children

/-- The visits of some subtrees with the same ancestors. -/
def forestVisits (above : List Node) : List Node → List Visit
  | [] => []
  | n :: ns => visits above n ++ forestVisits above ns

end

end Node

namespace Walker

/-! ## The turns that arrive at a node -/

mutual

/-- The states in which a walk arrives at the nodes of a subtree, in pre-order, given the levels
above the subtree and the stack on arriving at its top node. -/
def arrivals (path : List Frame) (stack : List Node) : Node → List Walker
  | .mk label children =>
    ⟨.arriving, ⟨.mk label children, path⟩, stack⟩ ::
      forestArrivals (.mk label children) path (.mk label children :: stack) children

/-- The same for some children of `parent`, the last of them being its last child. -/
def forestArrivals (parent : Node) (path : List Frame) (stack : List Node) :
    List Node → List Walker
  | [] => []
  | n :: ns => arrivals (⟨parent, ns⟩ :: path) stack n ++ forestArrivals parent path stack ns

end

/-- The arrivals that are left when a subtree is done: at the later siblings on each level, the
nearest level first. -/
def laterArrivals : List Frame → List Node → List Walker
  | [], _ => []
  | f :: fs, stack => forestArrivals f.node fs stack f.later ++ laterArrivals fs stack.tail

/-- The arrivals that are still ahead of a walk, the present one included. -/
def ahead (w : Walker) : List Walker :=
  match w.phase with
  | .arriving =>
    arrivals w.cursor.path w.stack w.cursor.focus ++ laterArrivals w.cursor.path w.stack
  | .leaving => laterArrivals w.cursor.path w.stack

/-- One turn leaves the arrivals ahead as they are, less the present one. -/
theorem ahead_of_step {w w' : Walker} (h : Step w w') :
    w.ahead = [w].filter isArriving ++ w'.ahead := by
  cases h with
  | down label n ns path stack =>
    -- The other children wait in a new frame, under the same stack.
    simp [ahead, arrivals, forestArrivals, laterArrivals, isArriving]
  | leaf label path stack => simp [ahead, arrivals, forestArrivals, isArriving]
  | right focus parent n ns path stack =>
    simp [ahead, forestArrivals, laterArrivals, isArriving]
  | up focus parent path stack => simp [ahead, forestArrivals, laterArrivals, isArriving]

/-- A walk arrives at what is ahead of it, in this order. -/
theorem filter_run (w : Walker) : w.run.filter isArriving = w.ahead := by
  fun_induction run w with
  | case1 w h =>
    obtain ⟨hphase, hpath⟩ := leaving_of_step?_eq_none h
    simp [ahead, isArriving, hphase, hpath, laterArrivals]
  | case2 w w' h ih =>
    rw [ahead_of_step (step_of_step? h), ← ih, ← List.filter_append, List.singleton_append]

end Walker

namespace Node

mutual

/-- What is visited on the arrivals in a subtree: its nodes, with the stack as their ancestors. -/
theorem map_visit_arrivals (path : List Frame) (stack : List Node) :
    ∀ n : Node, (Walker.arrivals path stack n).map Walker.visit = n.visits stack.reverse
  | .mk label children => by
    rw [Walker.arrivals, visits, List.map_cons, map_visit_forestArrivals, List.reverse_cons]
    rfl

theorem map_visit_forestArrivals (parent : Node) (path : List Frame) (stack : List Node) :
    ∀ ns : List Node, (Walker.forestArrivals parent path stack ns).map Walker.visit =
      forestVisits stack.reverse ns
  | [] => rfl
  | n :: ns => by
    rw [Walker.forestArrivals, forestVisits, List.map_append, map_visit_arrivals,
      map_visit_forestArrivals]

end

/-- The loop visits a tree in recursive pre-order. -/
theorem walk_eq_visits (root : Node) : root.walk = root.visits [] := by
  rw [walk, Walker.filter_run]
  simp [Walker.ahead, Walker.ofRoot, Cursor.ofRoot, Walker.laterArrivals, map_visit_arrivals]

theorem forestVisits_eq_flatMap (above ns : List Node) :
    forestVisits above ns = ns.flatMap (visits above) := by
  induction ns with
  | nil => rfl
  | cons n ns ih => rw [forestVisits, ih, List.flatMap_cons]

/-! ## The nodes of a tree -/

mutual

/-- The nodes of a tree in pre-order, its top node first. -/
def nodes : Node → List Node
  | .mk label children => .mk label children :: forestNodes children

/-- The nodes of some trees. -/
def forestNodes : List Node → List Node
  | [] => []
  | n :: ns => nodes n ++ forestNodes ns

end

theorem forestNodes_eq_flatMap (ns : List Node) : forestNodes ns = ns.flatMap nodes := by
  induction ns with
  | nil => rfl
  | cons n ns ih => rw [forestNodes, ih, List.flatMap_cons]

theorem mem_forestNodes {m : Node} {ns : List Node} :
    m ∈ forestNodes ns ↔ ∃ n ∈ ns, m ∈ n.nodes := by
  rw [forestNodes_eq_flatMap, List.mem_flatMap]

theorem mem_nodes_self (n : Node) : n ∈ n.nodes := by
  cases n
  simp [nodes]

/-- What lies below a child lies below the parent. -/
theorem mem_nodes_of_mem_child {m c n : Node} (hc : c ∈ n.children) (hm : m ∈ c.nodes) :
    m ∈ n.nodes := by
  obtain ⟨label, children⟩ := n
  rw [nodes]
  exact List.mem_cons_of_mem _ (mem_forestNodes.2 ⟨c, hc, hm⟩)

/-- What lies below a node of a tree lies in the tree. -/
theorem mem_nodes_trans {k m n : Node} (hk : k ∈ m.nodes) (hm : m ∈ n.nodes) : k ∈ n.nodes := by
  induction n using induct with
  | step label children ih =>
    rw [nodes, List.mem_cons] at hm
    rcases hm with rfl | hm
    · exact hk
    · obtain ⟨c, hc, hm⟩ := mem_forestNodes.1 hm
      exact mem_nodes_of_mem_child hc (ih c hc hm)

/-- The visited nodes are the nodes of the tree, whatever stands above it. -/
theorem map_node_visits (above : List Node) (n : Node) :
    (n.visits above).map Visit.node = n.nodes := by
  induction n using induct generalizing above with
  | step label children ih =>
    rw [visits, nodes, List.map_cons, forestVisits_eq_flatMap, forestNodes_eq_flatMap,
      List.map_flatMap]
    congr 1
    exact List.flatMap_congr fun c hc => ih c hc _

theorem map_node_walk (root : Node) : root.walk.map Visit.node = root.nodes := by
  rw [walk_eq_visits, map_node_visits]

/-! ## One pass with a flag -/

mutual

/-- One pass over a tree in pre-order that carries a flag down: a node is hidden if its parent is, or
if its parent hides it. What hides a child may depend on the parent's own parent. Only nodes that are
not hidden are reported on. -/
def sweep {α : Type} (hides : Option Node → Node → Node → Bool) (report : Node → List α)
    (parent : Option Node) (hidden : Bool) : Node → List α
  | .mk label children =>
    (if hidden then [] else report (.mk label children)) ++
      sweepAll hides report parent (.mk label children) hidden children

/-- The same pass over the children of `parent`. -/
def sweepAll {α : Type} (hides : Option Node → Node → Node → Bool) (report : Node → List α)
    (grand : Option Node) (parent : Node) (hidden : Bool) : List Node → List α
  | [] => []
  | c :: cs =>
    sweep hides report (some parent) (hidden || hides grand parent c) c ++
      sweepAll hides report grand parent hidden cs

end

theorem sweepAll_eq_flatMap {α : Type} (hides : Option Node → Node → Node → Bool)
    (report : Node → List α) (grand : Option Node) (parent : Node) (hidden : Bool)
    (cs : List Node) :
    sweepAll hides report grand parent hidden cs =
      cs.flatMap fun c => sweep hides report (some parent) (hidden || hides grand parent c) c := by
  induction cs with
  | nil => rfl
  | cons c cs ih => rw [sweepAll, ih, List.flatMap_cons]

/-- A sweep reports on the top node and goes on below it. -/
theorem sweep_eq {α : Type} (hides : Option Node → Node → Node → Bool) (report : Node → List α)
    (parent : Option Node) (hidden : Bool) (n : Node) :
    n.sweep hides report parent hidden =
      (if hidden then [] else report n) ++
        n.children.flatMap fun c => c.sweep hides report (some n) (hidden || hides parent n c) := by
  obtain ⟨label, children⟩ := n
  rw [sweep, sweepAll_eq_flatMap, children_mk]

end Node

end ModulePurity
