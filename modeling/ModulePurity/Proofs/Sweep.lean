import ModulePurity.Proofs.Walk
import ModulePurity.Purity.Rule

/-!
# The rule as one sweep

`check` looks, at every visit of the walk, through the whole chain of ancestors for a shield. Since a
node is shielded as soon as its parent is, the same findings come out of one `Node.sweep` that hands
the verdict on the parent down to its children.
-/

namespace ModulePurity.Purity

/-- What to report for a node that is not shielded. -/
def findingHere? (o : Options) (severity : Severity) (ctx : FileContext) (m : SourceModule)
    (n : Node) : Option Finding :=
  (Effect.ofNode? n).bind fun effect =>
    if isExempt o m n effect then none
    else
      judge severity effect (ctx.locate m n) (m.waivers.check (m.position n).line ruleName)

theorem findingHere?_of_effect {o : Options} {severity : Severity} {ctx : FileContext}
    {m : SourceModule} {n : Node} {effect : Effect} (h : Effect.ofNode? n = some effect) :
    findingHere? o severity ctx m n =
      if isExempt o m n effect then none
      else
        judge severity effect (ctx.locate m n)
          (m.waivers.check (m.position n).line ruleName) := by
  rw [findingHere?, h, Option.bind_some]

theorem findingAt?_eq (o : Options) (severity : Severity) (ctx : FileContext) (m : SourceModule)
    (v : Visit) :
    findingAt? o severity ctx m v =
      if isShielded o v then none else findingHere? o severity ctx m v.node := by
  rw [findingAt?, findingHere?]
  cases Effect.ofNode? v.node with
  | none => simp
  | some effect =>
    have hline : (ctx.locate m v.node).line = (m.position v.node).line := rfl
    cases he : isExempt o m v.node effect <;> cases isShielded o v <;> simp [he, hline]

/-! ## What a finding can be -/

section

variable {o : Options} {severity : Severity} {ctx : FileContext} {m : SourceModule} {n : Node}
  {f : Finding}

/-- A finding reports an effect on a line that no waiver covers, or else a waiver that lacks its
reason; in both cases the effect is not exempt. -/
theorem findingHere?_cases (h : findingHere? o severity ctx m n = some f) :
    ∃ effect, Effect.ofNode? n = some effect ∧ isExempt o m n effect = false ∧
      ((m.waivers.check (m.position n).line ruleName = .denied ∧
          f = effectFinding severity effect (ctx.locate m n)) ∨
        (m.waivers.check (m.position n).line ruleName = .allowed none ∧ severity = .error ∧
          f = missingReasonFinding (ctx.locate m n))) := by
  obtain ⟨effect, heffect, h⟩ := Option.bind_eq_some_iff.1 h
  refine ⟨effect, heffect, ?_⟩
  cases hexempt : isExempt o m n effect with
  | true => simp [hexempt] at h
  | false =>
    refine ⟨rfl, ?_⟩
    rw [hexempt, if_neg (by simp)] at h
    cases hcheck : m.waivers.check (m.position n).line ruleName with
    | denied =>
      rw [hcheck] at h
      exact Or.inl ⟨rfl, (Option.some.inj h).symm⟩
    | allowed reason =>
      rw [hcheck] at h
      cases reason with
      | some reason => cases h
      | none =>
        rw [judge] at h
        split at h
        · next hsev => exact Or.inr ⟨rfl, hsev, (Option.some.inj h).symm⟩
        · cases h

theorem edit?_effectFinding (effect : Effect) (location : Location) :
    (effectFinding severity effect location).edit? =
      if effect.acceptsPureMark then some (Edit.insertBefore location pureMark) else none := by
  rw [Finding.edit?, effectFinding]
  cases effect.acceptsPureMark <;> rfl

/-- A finding lies where its node does. -/
theorem location_of_findingHere? (h : findingHere? o severity ctx m n = some f) :
    f.location = ctx.locate m n := by
  obtain ⟨effect, -, -, ⟨-, rfl⟩ | ⟨-, -, rfl⟩⟩ := findingHere?_cases h <;> rfl

/-- The edit of a finding puts a pure mark in front of its node, on a line that no waiver covers. -/
theorem edit_of_findingHere? {e : Edit} (h : findingHere? o severity ctx m n = some f)
    (he : f.edit? = some e) :
    e = Edit.insertBefore (ctx.locate m n) pureMark ∧
      m.waivers.check (m.position n).line ruleName = .denied := by
  obtain ⟨effect, -, -, ⟨hcheck, rfl⟩ | ⟨-, -, rfl⟩⟩ := findingHere?_cases h
  · rw [edit?_effectFinding] at he
    split at he
    · exact ⟨(Option.some.inj he).symm, hcheck⟩
    · cases he
  · cases he

/-- Every finding of the rule is a finding at some node of the tree. -/
theorem exists_node_of_mem_check (h : f ∈ check o severity ctx m) :
    ∃ n ∈ m.root.nodes, findingHere? o severity ctx m n = some f := by
  obtain ⟨v, hv, hf⟩ := List.mem_filterMap.1 h
  rw [findingAt?_eq] at hf
  split at hf
  · cases hf
  · refine ⟨v.node, ?_, hf⟩
    rw [← Node.map_node_walk]
    exact List.mem_map_of_mem hv

end

/-! ## Shields along the way down -/

/-- One ancestor more on the way down: the way was shielded before, or the new ancestor shields. -/
theorem shieldedBelow_concat (o : Options) (parent : Option Node) (above : List Node) (a n : Node) :
    shieldedBelow o parent (above ++ [a]) n =
      (shieldedBelow o parent above a || shields o (above.getLast?.or parent) a n) := by
  induction above generalizing parent with
  | nil => simp [shieldedBelow]
  | cons b rest ih =>
    cases rest with
    | nil => simp [shieldedBelow]
    | cons c rest =>
      have hlast : ((b :: c :: rest).getLast?).or parent = ((c :: rest).getLast?).or (some b) := by
        simp [List.getLast?_cons]
      have ih' := ih (some b)
      rw [List.cons_append] at ih'
      rw [List.cons_append, List.cons_append, shieldedBelow, shieldedBelow, hlast, ih',
        Bool.or_assoc]

/-- The visits that nothing shields, seen as a sweep from any place in a tree. -/
theorem filterMap_visits {α : Type} (o : Options) (report : Node → Option α) (n : Node)
    (above : List Node) :
    (n.visits above).filterMap (fun v => if isShielded o v then none else report v.node) =
      n.sweep (shields o) (fun m => (report m).toList) above.getLast?
        (shieldedBelow o none above n) := by
  induction n using Node.induct generalizing above with
  | step label children ih =>
    rw [Node.visits, Node.sweep, Node.forestVisits_eq_flatMap, Node.sweepAll_eq_flatMap,
      List.filterMap_cons]
    have hchildren : (children.flatMap (Node.visits (above ++ [.mk label children]))).filterMap
        (fun v => if isShielded o v then none else report v.node) =
        children.flatMap fun c => c.sweep (shields o) (fun m => (report m).toList)
          (some (.mk label children))
          (shieldedBelow o none above (.mk label children) ||
            shields o above.getLast? (.mk label children) c) := by
      rw [List.filterMap_flatMap]
      refine List.flatMap_congr fun c hc => ?_
      -- The verdict on a child is the one on its parent, or the parent's own.
      rw [ih c hc, shieldedBelow_concat]
      simp
    rw [hchildren]
    have htop : isShielded o ⟨.mk label children, above⟩ =
        shieldedBelow o none above (.mk label children) := rfl
    simp only [htop]
    cases shieldedBelow o none above (.mk label children) with
    | true => rfl
    | false => cases report (.mk label children) <;> rfl

/-- The findings of the rule come out of one sweep. -/
theorem check_eq_sweep (o : Options) (severity : Severity) (ctx : FileContext) (m : SourceModule) :
    check o severity ctx m =
      m.root.sweep (shields o) (fun n => (findingHere? o severity ctx m n).toList) none false := by
  have hfun : findingAt? o severity ctx m =
      fun v => if isShielded o v then none else findingHere? o severity ctx m v.node :=
    funext (findingAt?_eq o severity ctx m)
  rw [check, SourceModule.walk, Node.walk_eq_visits, hfun, filterMap_visits]
  rfl

end ModulePurity.Purity
