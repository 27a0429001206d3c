import Mathlib.Data.List.Chain
import Mathlib.Data.List.Induction
import ModulePurity.Proofs.Walk
import ModulePurity.Tree.Module

/-!
# The addresses that a walk comes to

A walk moves a cursor over a tree and keeps the ancestors of the node under it on a stack. Here the
two are held against the tree itself, in which a node is known by its address:

* `Node.addresses`, all addresses of a tree in pre-order, none twice and none left out;
* `Node.way`, the nodes on the way down to an address, which the parent links give back from below;
* `Walker.Within`, what every turn keeps: the cursor stands in the tree and the stack holds the
  nodes of its path;
* `SourceModule.TraversedBy`, the whole run, from the root with an empty stack to the same again.
-/

namespace ModulePurity

namespace Node

/-! ## The addresses of a tree -/

/-- One more number leads from the node at an address to one of its children. -/
theorem at?_concat (n : Node) (a : Address) (i : Nat) :
    n.at? (a ++ [i]) = (n.at? a).bind fun m => m.children[i]? := by
  induction a generalizing n with
  | nil =>
    rw [List.nil_append, at?]
    cases h : n.children[i]? <;> simp [at?, h]
  | cons j a ih =>
    rw [List.cons_append, at?, at?]
    cases n.children[j]? with
    | none => rfl
    | some c => exact ih c

mutual

/-- The addresses of a tree in pre-order, its root first. -/
def addresses : Node → List Address
  | .mk _ children => [] :: forestAddresses 0 children

/-- The addresses in some children of one node, which are numbered from `i` on. -/
def forestAddresses (i : Nat) : List Node → List Address
  | [] => []
  | n :: ns => (addresses n).map (i :: ·) ++ forestAddresses (i + 1) ns

end

/-- An address in some children is the number of a child, followed by an address in it. -/
theorem mem_forestAddresses {i : Nat} {ns : List Node} {a : Address} :
    a ∈ forestAddresses i ns ↔ ∃ j n b, ns[j]? = some n ∧ b ∈ n.addresses ∧ a = (i + j) :: b := by
  induction ns generalizing i with
  | nil => simp [forestAddresses]
  | cons n ns ih =>
    rw [forestAddresses, List.mem_append, List.mem_map, ih]
    constructor
    · rintro (⟨b, hb, rfl⟩ | ⟨j, m, b, hm, hb, rfl⟩)
      · exact ⟨0, n, b, rfl, hb, rfl⟩
      · exact ⟨j + 1, m, b, hm, hb, congrArg (· :: b) (Nat.add_right_comm i 1 j)⟩
    · rintro ⟨j, m, b, hm, hb, rfl⟩
      cases j with
      | zero =>
        cases hm
        exact Or.inl ⟨b, hb, rfl⟩
      | succ j => exact Or.inr ⟨j, m, b, hm, hb, congrArg (· :: b) (Nat.add_right_comm i j 1)⟩

/-- The addresses of a tree are the addresses where it has a node. -/
theorem mem_addresses {n : Node} {a : Address} : a ∈ n.addresses ↔ (n.at? a).isSome := by
  induction n using induct generalizing a with
  | step label children ih =>
    cases a with
    | nil => simp [addresses, at?]
    | cons i a =>
      have hcons : i :: a ∈ (mk label children).addresses ↔
          i :: a ∈ forestAddresses 0 children := by
        simp [addresses]
      rw [hcons, mem_forestAddresses, at?, children_mk]
      constructor
      · rintro ⟨j, c, b, hc, hb, heq⟩
        rw [Nat.zero_add] at heq
        cases heq
        rw [hc, Option.bind_some]
        exact (ih c (List.mem_of_getElem? hc)).1 hb
      · intro h
        cases hc : children[i]? with
        | none => simp [hc] at h
        | some c =>
          rw [hc, Option.bind_some] at h
          exact ⟨i, c, a, hc, (ih c (List.mem_of_getElem? hc)).2 h, by rw [Nat.zero_add]⟩

mutual

/-- Pre-order is the lexicographic order of the addresses: a node comes before what is below it, and
all of a child before its later siblings. -/
theorem pairwise_addresses : ∀ n : Node, n.addresses.Pairwise (· < ·)
  | .mk _ children => by
    rw [addresses, List.pairwise_cons]
    refine ⟨?_, pairwise_forestAddresses 0 children⟩
    intro a ha
    obtain ⟨j, n, b, -, -, rfl⟩ := mem_forestAddresses.1 ha
    exact List.nil_lt_cons _ _

/-- The addresses in some children come in ascending order, child by child. -/
theorem pairwise_forestAddresses (i : Nat) :
    ∀ ns : List Node, (forestAddresses i ns).Pairwise (· < ·)
  | [] => List.Pairwise.nil
  | n :: ns => by
    rw [forestAddresses, List.pairwise_append]
    refine ⟨?_, pairwise_forestAddresses (i + 1) ns, ?_⟩
    · rw [List.pairwise_map]
      exact (pairwise_addresses n).imp fun h => List.cons_lt_cons_iff.2 (Or.inr ⟨rfl, h⟩)
    · intro a ha a' ha'
      obtain ⟨b, -, rfl⟩ := List.mem_map.1 ha
      obtain ⟨j, m, b', -, -, rfl⟩ := mem_forestAddresses.1 ha'
      exact List.cons_lt_cons_iff.2 (Or.inl (by omega))

end

example (l : Label) :
    addresses (.mk l [.mk l [.mk l [], .mk l []], .mk l []]) = [[], [0], [0, 0], [0, 1], [1]] := rfl

/-! ## The way to an address -/

/-- The nodes on the way down to an address, the root first and the node at the address left out. -/
def way (root : Node) : Address → List Node
  | [] => []
  | i :: is =>
    root :: match root.children[i]? with
      | none => []
      | some c => c.way is

/-- On the way to a child stands its parent last. -/
theorem way_concat {root n : Node} {a : Address} (h : root.at? a = some n) (i : Nat) :
    root.way (a ++ [i]) = root.way a ++ [n] := by
  induction a generalizing root with
  | nil =>
    cases h
    simp only [List.nil_append, way]
    cases n.children[i]? <;> rfl
  | cons j a ih =>
    obtain ⟨c, hc, h⟩ := Option.bind_eq_some_iff.1 h
    simp only [List.cons_append, way, hc]
    rw [ih h]

end Node

/-- The addresses above that of a child are that of its parent and those above it. -/
theorem Address.parents_concat (a : Address) (i : Nat) : parents (a ++ [i]) = a :: parents a := by
  have hparent : parent? (a ++ [i]) = some a := by
    cases a with
    | nil => rfl
    | cons j a =>
      change some ((j :: a) ++ [i]).dropLast = _
      rw [List.dropLast_concat]
  rw [parents]
  split
  · next h =>
    rw [hparent] at h
    cases h
  · next b h =>
    rw [hparent] at h
    cases h
    rfl

/-- Parent links lead back over the nodes that the way down goes through. -/
theorem SourceModule.ancestorsOf_eq_way {m : SourceModule} {a : Address}
    (h : (m.root.at? a).isSome) : m.ancestorsOf a = m.root.way a := by
  induction a using List.reverseRecOn with
  | nil => simp [ancestorsOf, Address.parents, Address.parent?, Node.way]
  | append_singleton a i ih =>
    rw [Node.at?_concat] at h
    -- The parent is in the tree as well, and its own ancestors are known.
    obtain ⟨n, hn⟩ := Option.isSome_iff_exists.1 (Option.isSome_of_isSome_bind h)
    have ih' : ((Address.parents a).filterMap m.root.at?).reverse = m.root.way a :=
      ih (by simp [hn])
    rw [ancestorsOf, Address.parents_concat, List.filterMap_cons, hn, List.reverse_cons, ih',
      Node.way_concat hn]

/-! ## The cursor in the tree -/

/-- Which child of the node on this level the level below is. -/
def Frame.index (f : Frame) : Nat := f.node.children.length - (f.later.length + 1)

namespace Cursor

/-- The address below the levels of a path. -/
def addressBelow (path : List Frame) : Address := (path.map Frame.index).reverse

/-- The address where a cursor stands. -/
def address (c : Cursor) : Address := addressBelow c.path

/-- One level more below a path is one number more at the end of the address. -/
theorem addressBelow_cons (f : Frame) (path : List Frame) :
    addressBelow (f :: path) = addressBelow path ++ [f.index] := by
  simp [addressBelow]

/-- A node and the levels above it are a branch of the tree `root`: each is a child of the next, and
its later siblings are the ones that the frame holds. -/
def IsBranch (root : Node) : Node → List Frame → Prop
  | n, [] => n = root
  | n, f :: fs => (∃ earlier, f.node.children = earlier ++ n :: f.later) ∧ IsBranch root f.node fs

variable {root n : Node} {path : List Frame}

/-- The numbers of the frames lead from the root down to the node. -/
theorem IsBranch.at?_addressBelow (h : IsBranch root n path) :
    root.at? (addressBelow path) = some n := by
  induction path generalizing n with
  | nil =>
    cases h
    rfl
  | cons f path ih =>
    obtain ⟨⟨earlier, hchildren⟩, habove⟩ := h
    have hindex : f.index = earlier.length := by
      rw [Frame.index, hchildren, List.length_append, List.length_cons]
      omega
    rw [addressBelow_cons, Node.at?_concat, ih habove, Option.bind_some, hindex, hchildren]
    simp

/-- The frames hold the nodes on the way to the address, the nearest one first. -/
theorem IsBranch.way_addressBelow (h : IsBranch root n path) :
    root.way (addressBelow path) = (path.map Frame.node).reverse := by
  induction path generalizing n with
  | nil => rfl
  | cons f path ih =>
    have habove := h.2
    rw [addressBelow_cons, Node.way_concat habove.at?_addressBelow, ih habove, List.map_cons,
      List.reverse_cons]

end Cursor

namespace Walker

mutual

/-- A walk arrives at the addresses of a subtree in pre-order. -/
theorem map_address_arrivals (path : List Frame) (stack : List Node) :
    ∀ n : Node, (arrivals path stack n).map (fun w => w.cursor.address) =
      n.addresses.map (Cursor.addressBelow path ++ ·)
  | .mk label children => by
    rw [arrivals, Node.addresses, List.map_cons, List.map_cons, List.append_nil,
      map_address_forestArrivals path _ 0 (by simp)]
    rfl

/-- The arrivals in some children come at the addresses in these children, in pre-order. -/
theorem map_address_forestArrivals {parent : Node} (path : List Frame) (stack : List Node)
    (i : Nat) : ∀ {ns : List Node}, parent.children.length = i + ns.length →
      (forestArrivals parent path stack ns).map (fun w => w.cursor.address) =
        (Node.forestAddresses i ns).map (Cursor.addressBelow path ++ ·)
  | [], _ => rfl
  | n :: ns, h => by
    rw [List.length_cons] at h
    -- The frame holds the children after `n`, so the ones before are what is missing.
    have hindex : Frame.index ⟨parent, ns⟩ = i := by
      change parent.children.length - (ns.length + 1) = i
      omega
    rw [forestArrivals, Node.forestAddresses, List.map_append, List.map_append,
      map_address_arrivals, map_address_forestArrivals path stack (i + 1) (by omega),
      Cursor.addressBelow_cons, hindex, List.map_map]
    simp

end

/-! ## What every turn keeps -/

/-- The cursor stands in the tree `root`, and the stack holds the nodes of its path. -/
structure Within (root : Node) (w : Walker) : Prop where
  branch : Cursor.IsBranch root w.cursor.focus w.cursor.path
  stack_eq : w.stack = w.cursor.path.map Frame.node

theorem within_ofRoot (root : Node) : Within root (ofRoot root) := ⟨rfl, rfl⟩

variable {root : Node} {w w' : Walker}

/-- A step keeps the cursor on a branch of the tree and the stack equal to the way there. -/
theorem Within.step (hw : Within root w) (h : Step w w') : Within root w' := by
  obtain ⟨hbranch, hstack⟩ := hw
  cases h with
  | down label n ns path stack => exact ⟨⟨⟨[], rfl⟩, hbranch⟩, congrArg _ hstack⟩
  | leaf label path stack => exact ⟨hbranch, hstack⟩
  | right focus parent n ns path stack =>
    -- The node that is left joins the earlier siblings.
    obtain ⟨⟨earlier, hchildren⟩, habove⟩ := hbranch
    refine ⟨⟨⟨earlier ++ [focus], ?_⟩, habove⟩, hstack⟩
    simpa using hchildren
  | up focus parent path stack => exact ⟨hbranch.2, congrArg List.tail hstack⟩

/-- From the root on, every walker of a run is within the tree. -/
theorem Within.run (hw : Within root w) : ∀ v ∈ w.run, Within root v := by
  fun_induction Walker.run w with
  | case1 w h => simpa using hw
  | case2 w w' h ih =>
    intro v hv
    rcases List.mem_cons.1 hv with rfl | hv
    · exact hw
    · exact ih (hw.step (step_of_step? h)) v hv

/-- On arriving at a node, the visit is the one that belongs to the address of the cursor. -/
theorem Within.visit (hw : Within root w) :
    root.at? w.cursor.address = some w.visit.node ∧
      w.visit.ancestors = root.way w.cursor.address := by
  have hway := hw.branch.way_addressBelow
  rw [← hw.stack_eq] at hway
  exact ⟨hw.branch.at?_addressBelow, hway.symm⟩

/-- The parent of the node under the cursor is on top of the stack. -/
theorem Within.exists_of_parent? (hw : Within root w) {parent : Cursor}
    (h : w.cursor.parent? = some parent) : ∃ below, w.stack = parent.focus :: below := by
  obtain ⟨phase, ⟨focus, path⟩, stack⟩ := w
  cases path with
  | nil => cases h
  | cons f path =>
    cases h
    exact ⟨_, hw.stack_eq⟩

/-! ## The run from beginning to end -/

/-- A run begins with the walker that it starts from. -/
theorem head?_run (w : Walker) : w.run.head? = some w := by
  fun_cases Walker.run w <;> rfl

/-- Each walker of a run is one step behind the one before it. -/
theorem isChain_run (w : Walker) : w.run.IsChain fun v v' => v.step? = some v' := by
  fun_induction Walker.run w with
  | case1 w h => exact List.isChain_singleton w
  | case2 w w' h ih =>
    rw [List.isChain_cons]
    refine ⟨?_, ih⟩
    intro v hv
    rw [head?_run] at hv
    cases hv
    exact h

/-- A run ends, at a walker that has no step left. -/
theorem exists_getLast?_run (w : Walker) : ∃ v, w.run.getLast? = some v ∧ v.step? = none := by
  fun_induction Walker.run w with
  | case1 w h => exact ⟨w, rfl, h⟩
  | case2 w w' h ih =>
    obtain ⟨v, hv, hend⟩ := ih
    exact ⟨v, by simp [List.getLast?_cons, hv], hend⟩

/-- The measure of a state is the exact number of states to come. -/
theorem length_run (w : Walker) : w.run.length = w.turns := by
  fun_induction Walker.run w with
  | case1 w h =>
    obtain ⟨hphase, hpath⟩ := leaving_of_step?_eq_none h
    simp [turns, hphase, hpath, turnsAbove]
  | case2 w w' h ih => rw [List.length_cons, ih, turns_of_step (step_of_step? h)]

/-- The arrivals of a run come at all addresses of the tree, once each and in pre-order. -/
theorem map_address_run (root : Node) :
    ((ofRoot root).run.filter isArriving).map (fun w => w.cursor.address) = root.addresses := by
  rw [filter_run]
  simp [ahead, ofRoot, Cursor.ofRoot, laterArrivals, map_address_arrivals, Cursor.addressBelow]

end Walker

namespace SourceModule

/-- What the states `run` have to be for a walk over a module. -/
structure TraversedBy (m : SourceModule) (run : List Walker) : Prop where
  starts : run.head? = some (Walker.ofRoot m.root)
  /-- Each state follows from the one before. -/
  proceeds : run.IsChain fun w w' => w.step? = some w'
  /-- The last state leaves nothing to do, and its stack is empty again. -/
  ends : ∃ w, run.getLast? = some w ∧ w.step? = none ∧ w.stack = []
  /-- Every node is arrived at and left. -/
  length_eq : run.length = 2 * m.root.size
  visits_eq : m.walk = (run.filter Walker.isArriving).map Walker.visit
  /-- The cursor arrives at the addresses of the tree in recursive pre-order. -/
  addresses_eq : (run.filter Walker.isArriving).map (fun w => w.cursor.address) = m.root.addresses
  /-- What is visited is the node at the address of the cursor, with the nodes on the way down to
  it, and these are also what the parent links give. -/
  visit_eq : ∀ w ∈ run, w.isArriving → m.root.at? w.cursor.address = some w.visit.node ∧
    w.visit.ancestors = m.root.way w.cursor.address ∧
    w.visit.ancestors = m.ancestorsOf w.cursor.address
  /-- A turn that takes a node off the stack finds one there: the parent that the cursor goes up
  to. -/
  pops : ∀ w ∈ run, ∀ parent, w.phase = .leaving → w.cursor.nextSibling? = none →
    w.cursor.parent? = some parent → ∃ below, w.stack = parent.focus :: below

/-- The walk over any module comes to an end, and on its way it visits every node of the tree
exactly once, in pre-order, with the ancestors that the tree gives the node. -/
theorem traversedBy_run (m : SourceModule) :
    m.TraversedBy (Walker.ofRoot m.root).run ∧ m.root.addresses.Pairwise (· < ·) ∧
      ∀ a, a ∈ m.root.addresses ↔ (m.root.at? a).isSome := by
  have hwithin : ∀ w ∈ (Walker.ofRoot m.root).run, w.Within m.root :=
    (Walker.within_ofRoot m.root).run
  refine ⟨?_, m.root.pairwise_addresses, fun a => Node.mem_addresses⟩
  constructor
  · exact Walker.head?_run _
  · exact Walker.isChain_run _
  · obtain ⟨w, hlast, hend⟩ := Walker.exists_getLast?_run (Walker.ofRoot m.root)
    refine ⟨w, hlast, hend, ?_⟩
    -- The walk ends at the root, whose path is empty.
    have hstack := (hwithin w (List.mem_of_getLast? hlast)).stack_eq
    rw [hstack, (Walker.leaving_of_step?_eq_none hend).2, List.map_nil]
  · rw [Walker.length_run]
    simp [Walker.turns, Walker.ofRoot, Cursor.ofRoot, Walker.turnsAbove]
  · rfl
  · exact Walker.map_address_run m.root
  · intro w hw _
    obtain ⟨hnode, hway⟩ := (hwithin w hw).visit
    refine ⟨hnode, hway, ?_⟩
    rw [hway, ancestorsOf_eq_way (by simp [hnode])]
  · intro w hw parent _ _ hparent
    exact (hwithin w hw).exists_of_parent? hparent

end SourceModule

end ModulePurity
