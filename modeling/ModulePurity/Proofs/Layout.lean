import Mathlib.Data.List.Basic
import Mathlib.Data.List.Pairwise
import ModulePurity.Proofs.Regrowth

/-!
# The leaves of a well laid out tree

In a tree whose children lie within their parents, in order and without overlap, the leaves tile the
text from left to right. So a leaf has no other leaf with text inside it, and a node starts where its
first leaf does.

The main statement of this file, `solidLeaves_regrow`, follows the leaves into the text with marks:
however deep the node is that a mark was placed before, among the leaves with text the mark comes
right before the one that starts at its offset.
-/

namespace ModulePurity.Node

/-! ## Leaves -/

theorem forestLeaves_eq_flatMap (ns : List Node) : forestLeaves ns = ns.flatMap leaves := by
  induction ns with
  | nil => rfl
  | cons n ns ih => rw [forestLeaves, ih, List.flatMap_cons]

/-- The leaves of an inner node are those of its children. -/
theorem leaves_of_children_ne_nil {n : Node} (h : n.children ≠ []) :
    n.leaves = n.children.flatMap leaves := by
  obtain ⟨label, children⟩ := n
  cases children with
  | nil => exact absurd rfl h
  | cons c cs => rw [leaves, forestLeaves_eq_flatMap, children_mk, List.flatMap_cons]

/-- A node without children is its own only leaf. -/
theorem leaves_of_children_eq_nil {n : Node} (h : n.children = []) : n.leaves = [n] := by
  obtain ⟨label, children⟩ := n
  cases h
  rfl

/-- A leaf is the node itself or a leaf of one of its children. -/
theorem mem_leaves {f n : Node} :
    f ∈ n.leaves ↔ (n.children = [] ∧ f = n) ∨ ∃ c ∈ n.children, f ∈ c.leaves := by
  by_cases h : n.children = []
  · rw [leaves_of_children_eq_nil h]
    simp [h]
  · rw [leaves_of_children_ne_nil h, List.mem_flatMap]
    simp [h]

theorem mem_nodes_of_mem_leaves {f n : Node} (h : f ∈ n.leaves) : f ∈ n.nodes := by
  induction n using induct with
  | step label children ih =>
    rcases mem_leaves.1 h with ⟨-, rfl⟩ | ⟨c, hc, hf⟩
    · exact mem_nodes_self _
    · exact mem_nodes_of_mem_child hc (ih c hc hf)

theorem children_of_mem_leaves {f n : Node} (h : f ∈ n.leaves) : f.children = [] := by
  induction n using induct with
  | step label children ih =>
    rcases mem_leaves.1 h with ⟨hnil, rfl⟩ | ⟨c, hc, hf⟩
    · exact hnil
    · exact ih c hc hf

/-- The leaves are the nodes without children. -/
theorem mem_leaves_of_mem_nodes {k n : Node} (hk : k ∈ n.nodes) (hnil : k.children = []) :
    k ∈ n.leaves := by
  induction n using induct with
  | step label children ih =>
    rw [nodes, List.mem_cons] at hk
    rcases hk with rfl | hk
    · exact mem_leaves.2 (Or.inl ⟨hnil, rfl⟩)
    · obtain ⟨c, hc, hk⟩ := mem_forestNodes.1 hk
      exact mem_leaves.2 (Or.inr ⟨c, hc, ih c hc hk⟩)

/-! ## Nested spans -/

/-- The spans of a tree are nested: children lie within their parent, in order and apart. -/
structure Nested (n : Node) : Prop where
  ordered : ∀ k ∈ n.nodes, k.start ≤ k.stop
  within : ∀ k ∈ n.nodes, ∀ c ∈ k.children, k.start ≤ c.start ∧ c.stop ≤ k.stop
  apart : ∀ k ∈ n.nodes, k.children.Pairwise fun a b => a.stop ≤ b.start

/-- Every inner node of a subtree starts where its first child does. -/
def Flush (n : Node) : Prop :=
  ∀ k ∈ n.nodes, ∀ c ∈ k.children.head?, c.start = k.start

variable {n c f g : Node}

/-- Nesting is passed on to every node of the tree. -/
theorem Nested.of_mem (h : Nested n) (hc : c ∈ n.nodes) : Nested c where
  ordered k hk := h.ordered k (mem_nodes_trans hk hc)
  within k hk := h.within k (mem_nodes_trans hk hc)
  apart k hk := h.apart k (mem_nodes_trans hk hc)

theorem Nested.child (h : Nested n) (hc : c ∈ n.children) : Nested c :=
  h.of_mem (mem_nodes_of_mem_child hc (mem_nodes_self c))

theorem Flush.child (h : Flush n) (hc : c ∈ n.children) : Flush c :=
  fun k hk => h k (mem_nodes_of_mem_child hc hk)

/-- A leaf lies within the node that it belongs to. -/
theorem Nested.leaf_within (h : Nested n) (hf : f ∈ n.leaves) :
    n.start ≤ f.start ∧ f.start ≤ f.stop ∧ f.stop ≤ n.stop := by
  induction n using induct with
  | step label children ih =>
    rcases mem_leaves.1 hf with ⟨-, rfl⟩ | ⟨c, hc, hf⟩
    · exact ⟨Nat.le_refl _, h.ordered _ (mem_nodes_self _), Nat.le_refl _⟩
    · have hchild := h.within _ (mem_nodes_self _) c hc
      have hleaf := ih c hc (h.child hc) hf
      omega

/-- The leaves of a nested tree come in order and do not overlap. -/
theorem Nested.leaves_apart (h : Nested n) :
    n.leaves.Pairwise fun a b => a.stop ≤ b.start := by
  induction n using induct with
  | step label children ih =>
    by_cases hnil : (Node.mk label children).children = []
    · rw [leaves_of_children_eq_nil hnil]
      exact List.pairwise_singleton _ _
    · rw [leaves_of_children_ne_nil hnil, List.pairwise_flatMap]
      refine ⟨fun c hc => ih c hc (h.child hc), ?_⟩
      refine (h.apart _ (mem_nodes_self _)).imp_of_mem fun {c d} hc hd hcd f hf g hg => ?_
      have hleft := (h.child hc).leaf_within hf
      have hright := (h.child hd).leaf_within hg
      omega

/-- Of two members of a list in order, one comes first unless they are the same. -/
theorem eq_or_apart {ns : List Node} (h : ns.Pairwise fun a b => a.stop ≤ b.start)
    (hf : f ∈ ns) (hg : g ∈ ns) : f = g ∨ f.stop ≤ g.start ∨ g.stop ≤ f.start := by
  have hsymm : ns.Pairwise fun a b => a = b ∨ a.stop ≤ b.start ∨ b.stop ≤ a.start :=
    h.imp fun hab => Or.inr (Or.inl hab)
  have hflip : ns.Pairwise (flip fun a b => a = b ∨ a.stop ≤ b.start ∨ b.stop ≤ a.start) :=
    h.imp fun hab => Or.inr (Or.inr hab)
  refine List.Pairwise.forall_of_forall_of_flip ?_ hsymm hflip hf hg
  exact fun _ _ => Or.inl rfl

/-- A leaf with text starts nowhere inside another leaf. -/
theorem Nested.not_inside_leaf (h : Nested n) (hf : f ∈ n.leaves) (hg : g ∈ n.leaves)
    (hsolid : g.start < g.stop) : g.start ≤ f.start ∨ f.stop ≤ g.start := by
  have hbound := h.leaf_within hf
  rcases eq_or_apart h.leaves_apart hf hg with rfl | hfg | hgf <;> omega

theorem leaves_ne_nil (n : Node) : n.leaves ≠ [] := by
  induction n using induct with
  | step label children ih =>
    cases children with
    | nil => simp [leaves]
    | cons c cs =>
      have := ih c List.mem_cons_self
      simp [leaves, this]

/-- A node starts where its first leaf does. -/
theorem Flush.start_firstLeaf (h : Flush n) (hf : f ∈ n.leaves.head?) : f.start = n.start := by
  induction n using induct with
  | step label children ih =>
    cases children with
    | nil =>
      cases hf
      rfl
    | cons c cs =>
      have hc : c ∈ (Node.mk label (c :: cs)).children := List.mem_cons_self
      have hfc : f ∈ c.leaves.head? := by
        obtain ⟨g, gs, hg⟩ := List.exists_cons_of_ne_nil (leaves_ne_nil c)
        rw [leaves, hg] at hf
        rw [hg]
        exact hf
      rw [ih c hc (h.child hc) hfc]
      exact h _ (mem_nodes_self _) c rfl

/-! ## Leaves with text -/

/-- The leaves that have some text. -/
def solidLeaves (n : Node) : List Node :=
  n.leaves.filter fun f => f.start != f.stop

theorem mem_solidLeaves : f ∈ n.solidLeaves ↔ f ∈ n.leaves ∧ f.start ≠ f.stop := by
  simp [solidLeaves]

theorem solidLeaves_of_children_ne_nil (h : n.children ≠ []) :
    n.solidLeaves = n.children.flatMap solidLeaves := by
  rw [solidLeaves, leaves_of_children_ne_nil h, List.filter_flatMap]
  rfl

/-- No two leaves with text start at the same offset. -/
theorem Nested.solidLeaves_strict (h : Nested n) :
    n.solidLeaves.Pairwise fun a b => a.start < b.start := by
  refine (h.leaves_apart.filter _).imp_of_mem fun {f g} hf _ hfg => ?_
  obtain ⟨hf, hsolid⟩ := mem_solidLeaves.1 hf
  have hbound := h.leaf_within hf
  omega

theorem Nested.solidLeaves_of_empty (h : Nested n) (hempty : n.start = n.stop) :
    n.solidLeaves = [] := by
  refine List.filter_eq_nil_iff.2 fun f hf => ?_
  have hbound := h.leaf_within hf
  have : f.start = f.stop := by omega
  simp [this]

/-- Wherever a mark falls within a node, a leaf of the node with some text starts there. -/
def Covered (offsets : List Nat) (n : Node) : Prop :=
  ∀ o ∈ offsets, n.start ≤ o → o < n.stop → ∃ f ∈ n.leaves, f.start = o ∧ f.start < f.stop

variable {offsets : List Nat}

/-- The leaf that starts within a child is one of its own, since siblings are apart. -/
theorem Covered.child (hcovered : Covered offsets n) (h : Nested n) (hc : c ∈ n.children) :
    Covered offsets c := by
  intro o ho hlow hhigh
  have hwithin := h.within n (mem_nodes_self n) c hc
  obtain ⟨f, hf, rfl, hsolid⟩ := hcovered o ho (by omega) (by omega)
  rcases mem_leaves.1 hf with ⟨hnil, -⟩ | ⟨d, hd, hfd⟩
  · rw [hnil] at hc
    cases hc
  · -- The leaf lies in `d` and starts within `c`, so the two siblings are the same.
    have hbound := (h.child hd).leaf_within hfd
    rcases eq_or_apart (h.apart n (mem_nodes_self n)) hc hd with rfl | hcd | hdc
    · exact ⟨f, hfd, rfl, hsolid⟩
    · omega
    · omega

/-! ## Leaves in the text with marks -/

/-- A leaf in the text with marks, with the mark before it if there is one. -/
def withMark (offsets : List Nat) (f : Node) : List Node :=
  lead offsets none f ++ [f.regrow offsets]

/-- A node is empty in the text with marks exactly if it was before. -/
theorem empty_regrow (offsets : List Nat) (h : n.start ≤ n.stop) :
    (n.regrow offsets).start = (n.regrow offsets).stop ↔ n.start = n.stop := by
  by_cases hsolid : n.start = n.stop
  · rw [start_regrow, stop_regrow_of_eq hsolid]
    simp [hsolid]
  · have hlt : n.start < n.stop := by omega
    have hmoved : Text.startIn Purity.pureMark.toList offsets n.start <
        Text.stopIn Purity.pureMark.toList offsets n.stop := Text.startIn_lt_stopIn hlt
    rw [start_regrow, stop_regrow hsolid]
    omega

theorem solidLeaves_markLeaf (o : Nat) :
    (markLeaf offsets o).solidLeaves = [markLeaf offsets o] := by
  refine List.filter_eq_self.2 fun f hf => ?_
  rw [List.mem_singleton.1 hf]
  have : 0 < Text.byteLength "/* #__PURE__ */".toList := by decide
  simp only [start, stop, label_mk, bne_iff_ne, ne_eq]
  omega

/-- The leaf of a mark has text, so that it is among the leaves that count. -/
theorem solidLeaves_lead (above : Option Nat) (n : Node) :
    (lead offsets above n).flatMap solidLeaves = lead offsets above n := by
  rw [lead]
  split
  · simp [solidLeaves_markLeaf]
  · rfl

/-- If the parent starts elsewhere, or no mark is at its start, nothing is withheld from a child. -/
theorem lead_eq_lead_none {s : Nat} (h : n.start = s → n.start < n.stop → s ∉ offsets) :
    lead offsets (some s) n = lead offsets none n := by
  rw [lead, lead]
  by_cases hs : n.start = s
  · by_cases hlt : n.start < n.stop
    · have hnot : n.start ∉ offsets := by rw [hs]; exact h hs hlt
      simp [hnot]
    · simp [hlt]
  · have hs' : s ≠ n.start := fun heq => hs heq.symm
    simp [hs']

/-- Among siblings from `s` on, the mark at `s` that the parent has taken over is withheld from the
first one with text; put back in front of all, it stands before the same leaf. -/
theorem flatMap_lead {s : Nat} (hs : s ∈ offsets) (rest : Node → List Node) (cs : List Node)
    (hapart : cs.Pairwise fun a b => a.stop ≤ b.start) (hlow : ∀ c ∈ cs, s ≤ c.start)
    (hordered : ∀ c ∈ cs, c.start ≤ c.stop) (hempty : ∀ c ∈ cs, c.start = c.stop → rest c = [])
    (hfirst : ∃ c ∈ cs, c.start = s ∧ c.start < c.stop) :
    markLeaf offsets s :: (cs.flatMap fun c => lead offsets (some s) c ++ rest c) =
      cs.flatMap fun c => lead offsets none c ++ rest c := by
  induction cs with
  | nil =>
    obtain ⟨c, hc, -⟩ := hfirst
    cases hc
  | cons c cs ih =>
    obtain ⟨hafter, hapart⟩ := List.pairwise_cons.1 hapart
    have hcs : ∀ d ∈ cs, d ∈ c :: cs := fun d hd => List.mem_cons_of_mem c hd
    have hc := hlow c List.mem_cons_self
    have hcle := hordered c List.mem_cons_self
    rw [List.flatMap_cons, List.flatMap_cons]
    by_cases hempt : c.start = c.stop
    · -- An empty sibling has neither a mark nor leaves with text; go on to the next.
      have hlater : ∃ d ∈ cs, d.start = s ∧ d.start < d.stop := by
        obtain ⟨d, hd, hstart, hlt⟩ := hfirst
        rcases List.mem_cons.1 hd with rfl | hd
        · omega
        · exact ⟨d, hd, hstart, hlt⟩
      rw [lead_of_empty hempt, lead_of_empty hempt, hempty c List.mem_cons_self hempt,
        List.append_nil, List.nil_append, List.nil_append]
      exact ih hapart (fun d hd => hlow d (hcs d hd)) (fun d hd => hordered d (hcs d hd))
        (fun d hd => hempty d (hcs d hd)) hlater
    · -- The first sibling with text is the one that starts at `s`; the others start later.
      have hstart : c.start = s := by
        obtain ⟨d, hd, hstart, hlt⟩ := hfirst
        rcases List.mem_cons.1 hd with rfl | hd
        · exact hstart
        · have := hafter d hd
          omega
      have htail : (cs.flatMap fun d => lead offsets (some s) d ++ rest d) =
          cs.flatMap fun d => lead offsets none d ++ rest d := by
        refine List.flatMap_congr fun d hd => ?_
        rw [lead_eq_lead_none fun hds => ?_]
        have := hafter d hd
        omega
      have htaken : lead offsets (some s) c = [] := if_neg fun h => h.2.2 (by rw [hstart])
      have hgiven : lead offsets none c = [markLeaf offsets s] := by
        rw [← hstart] at hs ⊢
        exact lead_of_mem hs (by omega)
      rw [htail, htaken, hgiven]
      rfl

theorem regrowAll_ne_nil {cs : List Node} (h : cs ≠ []) (above : Option Nat) :
    regrowAll offsets above cs ≠ [] := by
  obtain ⟨c, cs, rfl⟩ := List.exists_cons_of_ne_nil h
  rw [regrowAll]
  simp

/-- The leaves with text of some siblings, each with the mark in front of it. -/
theorem solidLeaves_regrowAll (above : Option Nat) (cs : List Node) :
    (regrowAll offsets above cs).flatMap solidLeaves =
      cs.flatMap fun c => lead offsets above c ++ (c.regrow offsets).solidLeaves := by
  rw [regrowAll_eq_flatMap, List.flatMap_assoc]
  refine List.flatMap_congr fun c _ => ?_
  rw [List.flatMap_append, solidLeaves_lead]
  simp

/-- A leaf comes back as itself, with the mark before it if there is one. -/
theorem solidLeaves_regrow_leaf (hnil : n.children = []) (hle : n.start ≤ n.stop) :
    lead offsets none n ++ (n.regrow offsets).solidLeaves =
      n.solidLeaves.flatMap (withMark offsets) := by
  have hleaf : (n.regrow offsets).children = [] := by
    rw [children_regrow, hnil]
    rfl
  rw [solidLeaves, leaves_of_children_eq_nil hleaf, solidLeaves, leaves_of_children_eq_nil hnil]
  by_cases hempty : n.start = n.stop
  · have hempty' := (empty_regrow offsets hle).2 hempty
    simp [hempty, hempty', lead_of_empty hempty]
  · have hempty' := mt (empty_regrow offsets hle).1 hempty
    simp [hempty, hempty', withMark]

/-- The mark at the start of a node, put back in front of its children, is the one that they would
have without their parent. -/
theorem lead_append_children (h : Nested n) (hcovered : Covered offsets n) (hne : n.children ≠ [])
    (rest : Node → List Node) (hempty : ∀ c ∈ n.children, c.start = c.stop → rest c = []) :
    lead offsets none n ++ (n.children.flatMap fun c => lead offsets (some n.start) c ++ rest c) =
      n.children.flatMap fun c => lead offsets none c ++ rest c := by
  have hself := mem_nodes_self n
  by_cases hmark : n.start ∈ offsets ∧ n.start < n.stop
  · have hfirst : ∃ c ∈ n.children, c.start = n.start ∧ c.start < c.stop := by
      obtain ⟨f, hf, hstart, hsolid⟩ := hcovered _ hmark.1 (Nat.le_refl _) hmark.2
      rcases mem_leaves.1 hf with ⟨hnil, -⟩ | ⟨c, hc, hfc⟩
      · exact absurd hnil hne
      · have hwithin := h.within n hself c hc
        have hbound := (h.child hc).leaf_within hfc
        exact ⟨c, hc, by omega, by omega⟩
    rw [lead_of_mem hmark.1 hmark.2]
    exact flatMap_lead hmark.1 rest n.children (h.apart n hself)
      (fun c hc => (h.within n hself c hc).1)
      (fun c hc => (h.child hc).ordered c (mem_nodes_self c)) hempty hfirst
  · have hlead : lead offsets none n = [] := if_neg fun hc => hmark ⟨hc.1, hc.2.1⟩
    rw [hlead, List.nil_append]
    refine List.flatMap_congr fun c hc => ?_
    rw [lead_eq_lead_none fun hs hlt ho => hmark ⟨ho, ?_⟩]
    have hwithin := h.within n hself c hc
    omega

/-- In the text with marks, the leaves with text are the moved ones, each with its mark before it;
the mark at the start of the subtree stands outside of it. -/
theorem solidLeaves_regrow (h : Nested n) (hcovered : Covered offsets n) :
    lead offsets none n ++ (n.regrow offsets).solidLeaves =
      n.solidLeaves.flatMap (withMark offsets) := by
  induction n using induct with
  | step label children ih =>
    by_cases hne : (Node.mk label children).children = []
    · exact solidLeaves_regrow_leaf hne (h.ordered _ (mem_nodes_self _))
    · have hchild : ∀ c ∈ children, lead offsets none c ++ (c.regrow offsets).solidLeaves =
          c.solidLeaves.flatMap (withMark offsets) := fun c hc =>
        ih c hc (h.child hc) (hcovered.child h hc)
      have hne' : ((Node.mk label children).regrow offsets).children ≠ [] := by
        rw [children_regrow]
        exact regrowAll_ne_nil hne _
      rw [solidLeaves_of_children_ne_nil hne, List.flatMap_assoc,
        solidLeaves_of_children_ne_nil hne', children_regrow, solidLeaves_regrowAll,
        lead_append_children h hcovered hne]
      · exact List.flatMap_congr hchild
      · intro c hc hempty
        have hnone := hchild c hc
        rw [(h.child hc).solidLeaves_of_empty hempty] at hnone
        exact (List.append_eq_nil_iff.1 hnone).2

/-- The same for a whole tree, whose top node never takes a mark over. -/
theorem solidLeaves_regrown {root' : Node} (h : Nested n) (hcovered : Covered offsets n)
    (hne : n.children ≠ []) (hchildren : root'.children = regrowAll offsets none n.children) :
    root'.solidLeaves = n.solidLeaves.flatMap (withMark offsets) := by
  have hne' : root'.children ≠ [] := by
    rw [hchildren]
    exact regrowAll_ne_nil hne none
  rw [solidLeaves_of_children_ne_nil hne', hchildren, solidLeaves_regrowAll,
    solidLeaves_of_children_ne_nil hne, List.flatMap_assoc]
  exact List.flatMap_congr fun c hc => solidLeaves_regrow (h.child hc) (hcovered.child h hc)

end ModulePurity.Node
