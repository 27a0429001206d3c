import ModulePurity.Proofs.FileBlocks

/-!
# Findings in document order

The rule meets the nodes of a tree in pre-order and reports on them as it goes. As long as no node
starts before its parent or before something in an earlier sibling (`Node.StartsInOrder`), pre-order
is the order of offsets. Lines and columns give the same order, because the place of an offset only
moves forward, whatever newlines and wide characters stand in between (`Text.compare_position`). So
the findings of one file need no sorting, and where two effects begin together the outer one is
reported first: `Purity.check_inDocumentOrder`.
-/

namespace ModulePurity

/-! ## Places in a text -/

namespace Text

/-- Whether a place comes before another one: on an earlier line, or further left on the same. -/
def Position.Precedes (p q : Position) : Prop :=
  p.line < q.line ∨ (p.line = q.line ∧ p.column < q.column)

/-- Going on in a text never leads back behind the place where it starts. -/
theorem positionFrom_not_before (cs : List Char) (p : Position) (n : Nat) :
    p.line < (positionFrom p cs n).line ∨
      (p.line = (positionFrom p cs n).line ∧ p.column ≤ (positionFrom p cs n).column) := by
  induction cs generalizing p n with
  | nil =>
    rw [positionFrom]
    dsimp only
    omega
  | cons c cs ih =>
    rw [positionFrom]
    split
    · dsimp only
      omega
    · have hrest := ih (p.advance c) (n - c.utf8Size)
      -- One character further is the next line, or further right.
      have hstep : p.line < (p.advance c).line ∨
          (p.line = (p.advance c).line ∧ p.column ≤ (p.advance c).column) := by
        unfold Position.advance
        split
        · dsimp only
          omega
        · dsimp only
          omega
      omega

/-- A larger offset lies at a later place. -/
theorem positionFrom_precedes (cs : List Char) (p : Position) {n k : Nat} (h : n < k) :
    (positionFrom p cs n).Precedes (positionFrom p cs k) := by
  induction cs generalizing p n k with
  | nil =>
    rw [positionFrom, positionFrom, Position.Precedes]
    dsimp only
    omega
  | cons c cs ih =>
    rw [positionFrom, positionFrom]
    by_cases hn : n < c.utf8Size
    · rw [if_pos hn]
      by_cases hk : k < c.utf8Size
      · rw [if_pos hk, Position.Precedes]
        dsimp only
        omega
      · -- The first offset lies inside the character, and the second one behind it.
        rw [if_neg hk]
        have hrest := positionFrom_not_before cs (p.advance c) (k - c.utf8Size)
        have hstep : (⟨p.line, p.column + n⟩ : Position).Precedes (p.advance c) := by
          unfold Position.advance Position.Precedes
          split
          · dsimp only
            omega
          · dsimp only
            omega
        unfold Position.Precedes at hstep ⊢
        omega
    · rw [if_neg hn, if_neg (by omega)]
      exact ih (p.advance c) (by omega)

theorem Position.Precedes.compare_eq_lt {p q : Position} (h : p.Precedes q) :
    (compare p.line q.line).then (compare p.column q.column) = .lt := by
  rcases h with hline | ⟨hline, hcolumn⟩
  · rw [Nat.compare_eq_lt.2 hline]
    rfl
  · rw [Nat.compare_eq_eq.2 hline, Nat.compare_eq_lt.2 hcolumn]
    rfl

/-- Places are in the order of their offsets. -/
theorem compare_position (cs : List Char) (n k : Nat) :
    (compare (position cs n).line (position cs k).line).then
      (compare (position cs n).column (position cs k).column) = compare n k := by
  rcases Nat.lt_trichotomy n k with h | rfl | h
  · rw [Nat.compare_eq_lt.2 h]
    exact (positionFrom_precedes cs .first h).compare_eq_lt
  · rw [Nat.compare_eq_eq.2 rfl, Nat.compare_eq_eq.2 rfl, Nat.compare_eq_eq.2 rfl]
    rfl
  · rw [← Nat.compare_swap (position cs k).line, ← Nat.compare_swap (position cs k).column,
      ← Ordering.swap_then, Nat.compare_eq_gt.2 h]
    exact congrArg Ordering.swap (positionFrom_precedes cs .first h).compare_eq_lt

end Text

/-! ## Trees in document order -/

namespace Node

/-- The starts of a tree are in order: no node starts before its parent, nor before any node in the
subtree of an earlier sibling. -/
structure StartsInOrder (n : Node) : Prop where
  inside : ∀ k ∈ n.nodes, ∀ c ∈ k.children, k.start ≤ c.start
  behind : ∀ k ∈ n.nodes, k.children.Pairwise fun a b => ∀ d ∈ a.nodes, d.start ≤ b.start

variable {n : Node}

theorem StartsInOrder.child (h : n.StartsInOrder) {c : Node} (hc : c ∈ n.children) :
    c.StartsInOrder :=
  ⟨fun k hk => h.inside k (mem_nodes_of_mem_child hc hk),
    fun k hk => h.behind k (mem_nodes_of_mem_child hc hk)⟩

/-- A tree starts where its first node does. -/
theorem StartsInOrder.start_le (h : n.StartsInOrder) {k : Node} (hk : k ∈ n.nodes) :
    n.start ≤ k.start := by
  induction n using induct with
  | step label children ih =>
    rw [nodes, List.mem_cons] at hk
    rcases hk with rfl | hk
    · exact Nat.le_refl _
    · obtain ⟨c, hc, hk⟩ := mem_forestNodes.1 hk
      have hchild := h.inside _ (mem_nodes_self _) c hc
      have hbelow := ih c hc (h.child hc) hk
      omega

/-- Pre-order is the order of the starts. -/
theorem StartsInOrder.nodes_sorted (h : n.StartsInOrder) :
    n.nodes.Pairwise fun a b => a.start ≤ b.start := by
  induction n using induct with
  | step label children ih =>
    have htop : ∀ k ∈ forestNodes children, (Node.mk label children).start ≤ k.start := by
      intro k hk
      exact h.start_le (List.mem_cons_of_mem _ hk)
    rw [nodes]
    refine List.Pairwise.cons htop ?_
    rw [forestNodes_eq_flatMap, List.pairwise_flatMap]
    refine ⟨fun c hc => ih c hc (h.child hc), ?_⟩
    -- A later sibling starts behind the earlier one's nodes, and its own nodes start no earlier.
    refine (h.behind _ (mem_nodes_self _)).imp_of_mem ?_
    intro a b _ hb hab x hx y hy
    have hsibling := hab x hx
    have hbelow := (h.child hb).start_le hy
    omega

/-! ## Enclosing nodes -/

/-- The ancestors of a visit begin with those that the walk started below. -/
theorem exists_ancestors_of_mem_visits {above : List Node} {v : Visit} (hv : v ∈ n.visits above) :
    ∃ below, v.ancestors = above ++ below := by
  induction n using induct generalizing above with
  | step label children ih =>
    rw [visits, List.mem_cons, forestVisits_eq_flatMap, List.mem_flatMap] at hv
    rcases hv with rfl | ⟨c, hc, hv⟩
    · exact ⟨[], (List.append_nil _).symm⟩
    · obtain ⟨below, hbelow⟩ := ih c hc hv
      exact ⟨mk label children :: below, by rw [hbelow, List.append_assoc]; rfl⟩

/-- An ancestor inside the walked subtree is visited before the nodes below it. -/
theorem sublist_visits {above front rest : List Node} {outer : Node} {v : Visit}
    (hv : v ∈ n.visits above) (hancestors : v.ancestors = front ++ outer :: rest)
    (hlength : above.length ≤ front.length) : [⟨outer, front⟩, v].Sublist (n.visits above) := by
  induction n using induct generalizing above with
  | step label children ih =>
    rw [visits, forestVisits_eq_flatMap]
    rw [visits, List.mem_cons, forestVisits_eq_flatMap, List.mem_flatMap] at hv
    rcases hv with rfl | ⟨c, hc, hv⟩
    · -- The top node has no ancestor inside.
      have hcount := congrArg List.length hancestors
      rw [List.length_append, List.length_cons] at hcount
      dsimp only at hcount
      omega
    · have hmem : v ∈ children.flatMap (visits (above ++ [mk label children])) :=
        List.mem_flatMap.2 ⟨c, hc, hv⟩
      by_cases htop : front.length = above.length
      · obtain ⟨below, hbelow⟩ := exists_ancestors_of_mem_visits hv
        rw [hancestors, List.append_assoc] at hbelow
        obtain ⟨rfl, hrest⟩ := List.append_inj hbelow htop
        obtain ⟨rfl, -⟩ := List.cons.inj hrest
        exact (List.singleton_sublist.2 hmem).cons_cons _
      · have hdeeper : (above ++ [mk label children]).length ≤ front.length := by
          rw [List.length_append, List.length_singleton]
          omega
        have hchild := ih c hc hv hdeeper
        have hforest : (c.visits (above ++ [mk label children])).Sublist
            (children.flatMap (visits (above ++ [mk label children]))) :=
          List.sublist_flatten_of_mem (List.mem_map_of_mem hc)
        exact (hchild.trans hforest).cons _

end Node

/-! ## The findings of the rule -/

namespace Purity

variable {o : Options} {severity : Severity} {ctx : FileContext} {m : SourceModule}

/-- What is found at a visit lies where its node does. -/
theorem location_of_findingAt? {v : Visit} {f : Finding}
    (h : findingAt? o severity ctx m v = some f) : f.location = ctx.locate m v.node := by
  rw [findingAt?_eq] at h
  split at h
  · cases h
  · exact location_of_findingHere? h

theorem exists_visit_of_mem_check {f : Finding} (h : f ∈ check o severity ctx m) :
    ∃ v : Visit, f.location = ctx.locate m v.node := by
  obtain ⟨v, -, hv⟩ := List.mem_filterMap.1 h
  exact ⟨v, location_of_findingAt? hv⟩

/-- Lines and columns of findings are in the order of their offsets. -/
theorem comparePlace_of_mem_check {f f' : Finding} (hf : f ∈ check o severity ctx m)
    (hf' : f' ∈ check o severity ctx m) :
    f.comparePlace f' = compare f.location.offset f'.location.offset := by
  obtain ⟨v, hv⟩ := exists_visit_of_mem_check hf
  obtain ⟨v', hv'⟩ := exists_visit_of_mem_check hf'
  rw [Finding.comparePlace, hv, hv']
  exact Text.compare_position m.source.toList v.node.start v'.node.start

theorem offsets_sorted (h : m.root.StartsInOrder) :
    (check o severity ctx m).Pairwise fun a b => a.location.offset ≤ b.location.offset := by
  have hwalk : m.walk.Pairwise fun v w => v.node.start ≤ w.node.start := by
    have hnodes := h.nodes_sorted
    rw [← Node.map_node_walk] at hnodes
    exact hnodes.of_map Visit.node fun _ _ hvw => hvw
  refine List.Pairwise.filterMap _ ?_ hwalk
  intro v w hvw f hf f' hf'
  rw [location_of_findingAt? hf, location_of_findingAt? hf']
  exact hvw

/-- The findings of the rule are in order, so that sorting a report on one file changes nothing. -/
theorem sort_check (h : m.root.StartsInOrder) (filesChecked : Nat) :
    Report.sort ⟨check o severity ctx m, filesChecked⟩ =
      ⟨check o severity ctx m, filesChecked⟩ := by
  have hsorted : (check o severity ctx m).Pairwise fun a b =>
      (Report.order a b).isLE = true := by
    refine (offsets_sorted h).imp_of_mem ?_
    intro a b ha hb hab
    have hfile : a.location.file = b.location.file := by
      obtain ⟨v, hv⟩ := exists_visit_of_mem_check ha
      obtain ⟨w, hw⟩ := exists_visit_of_mem_check hb
      rw [hv, hw]
      rfl
    rw [Report.order_of_file_eq hfile, comparePlace_of_mem_check ha hb, Nat.isLE_compare]
    exact hab
  unfold Report.sort
  rw [List.mergeSort_of_pairwise hsorted]

/-- What is found at a node is reported before what is found below it. -/
theorem sublist_check {v : Visit} (hv : v ∈ m.walk) {above between : List Node} {outer : Node}
    (hancestors : v.ancestors = above ++ outer :: between) {f f' : Finding}
    (hf : findingAt? o severity ctx m ⟨outer, above⟩ = some f)
    (hf' : findingAt? o severity ctx m v = some f') :
    [f, f'].Sublist (check o severity ctx m) := by
  rw [SourceModule.walk, Node.walk_eq_visits] at hv
  have hvisits := Node.sublist_visits hv hancestors (Nat.zero_le _)
  rw [← Node.walk_eq_visits] at hvisits
  have hfound := hvisits.filterMap (findingAt? o severity ctx m)
  rwa [List.filterMap_cons_some hf, List.filterMap_cons_some hf'] at hfound

/-- In a tree in document order, the findings of the rule come by line and column, which is the
order of their offsets. Sorting them changes nothing, and what is found at a node stands before what
is found below it, also where both start at the same place. -/
theorem check_inDocumentOrder (o : Options) (severity : Severity) (ctx : FileContext)
    (m : SourceModule) (h : m.root.StartsInOrder) :
    let findings := check o severity ctx m
    (findings.Pairwise fun a b => (a.comparePlace b).isLE = true) ∧
      (findings.Pairwise fun a b => a.location.offset ≤ b.location.offset) ∧
      (∀ a ∈ findings, ∀ b ∈ findings,
        a.comparePlace b = compare a.location.offset b.location.offset) ∧
      (∀ filesChecked, Report.sort ⟨findings, filesChecked⟩ = ⟨findings, filesChecked⟩) ∧
      ∀ v ∈ m.walk, ∀ above outer between, v.ancestors = above ++ outer :: between →
        ∀ f f', findingAt? o severity ctx m ⟨outer, above⟩ = some f →
          findingAt? o severity ctx m v = some f' →
            [f, f'].Sublist (Report.sort ⟨findings, 1⟩).findings := by
  intro findings
  have hoffsets : findings.Pairwise fun a b => a.location.offset ≤ b.location.offset :=
    offsets_sorted h
  refine ⟨?_, hoffsets, ?_, sort_check h, ?_⟩
  · refine hoffsets.imp_of_mem ?_
    intro a b ha hb hab
    rw [comparePlace_of_mem_check ha hb, Nat.isLE_compare]
    exact hab
  · intro a ha b hb
    exact comparePlace_of_mem_check ha hb
  · intro v hv above outer between hancestors f f' hf hf'
    rw [sort_check h]
    exact sublist_check hv hancestors hf hf'

/-- The two calls of `f()();` start together, and the outer one is reported first. -/
theorem check_inDocumentOrder_nestedCalls :
    nestedCalls.root.StartsInOrder ∧
      (check {} .error ⟨⟨"test.js"⟩⟩ nestedCalls).map (fun f => f.location.length) = [5, 3] ∧
      ∀ filesChecked, Report.sort ⟨check {} .error ⟨⟨"test.js"⟩⟩ nestedCalls, filesChecked⟩ =
        ⟨check {} .error ⟨⟨"test.js"⟩⟩ nestedCalls, filesChecked⟩ := by
  have horder : nestedCalls.root.StartsInOrder := ⟨by decide +kernel, by decide +kernel⟩
  refine ⟨horder, ?_, (check_inDocumentOrder {} .error ⟨⟨"test.js"⟩⟩ nestedCalls horder).2.2.2.1⟩
  rw [check_eq_sweep]
  decide +kernel

end Purity

end ModulePurity
