import ModulePurity.Proofs.MarkedComments
import ModulePurity.Proofs.PureMarks

/-!
# One round of remedies is enough

After the remedies of the purity rule were applied, the rule finds in the new text exactly what no
remedy could resolve, in the same order and on the same lines. A parser stands between the two texts;
what it is trusted with is written down as two properties of trees:

* `LaidOut`, the shape of the tree of the first text;
* `Regrown`, how the tree of the second text follows from it.

The proof compares the answers to each question that the rule asks about a node (`Alike`), then the
findings at a node, and then two sweeps, one over each tree.
-/

namespace ModulePurity.Purity

open Node (regrow regrowAll markLeaf lead)

/-! ## What is asked of the parser -/

/-- The shape of a syntax tree over a text. Spans are nested, inner nodes below the root start where
their first child does, nodes start between characters, the first leaf of a node with an effect is a
token that begins with no blank, and a name is a single token. -/
structure LaidOut (source : List Char) (root : Node) : Prop where
  nested : root.Nested
  flush : ∀ n ∈ Node.forestNodes root.children, ∀ c ∈ n.children.head?, c.start = n.start
  boundary : ∀ n ∈ root.nodes, Text.IsBoundary source n.start
  token : ∀ n ∈ root.nodes, (Effect.ofNode? n).isSome → ∀ leaf ∈ n.leaves.head?,
    leaf.isComment = false ∧ leaf.start < leaf.stop ∧
      (Text.charAt? source leaf.start).any (fun c => !Text.isAsciiBlank c) = true
  name : ∀ n ∈ root.nodes, isName n → n.isLeaf

/-- The tree of a text after pure marks were put in: below the root, spans are moved, and each mark is
a comment right before the topmost node that starts at its offset. -/
structure Regrown (offsets : List Nat) (root root' : Node) : Prop where
  kind : root'.kind = root.kind
  children : root'.children = regrowAll offsets none root.children

/-! ## One finding in two texts -/

/-- A location in the text with marks; the line is the same. -/
def movedLocation (offsets : List Nat) (source' : List Char) (l : Location) : Location :=
  let start := Text.startIn pureMark.toList offsets l.offset
  { l with
    column := (Text.position source' start).column
    offset := start
    length := Text.stopIn pureMark.toList offsets (l.offset + l.length) - start }

/-- A finding in the text with marks: only its place has moved. -/
def movedFinding (offsets : List Nat) (source' : List Char) (f : Finding) : Finding :=
  { f with location := movedLocation offsets source' f.location }

/-- A node has the same answers in two modules, the second being the first with pure marks put in. -/
structure Alike (offsets : List Nat) (m m' : SourceModule) (n : Node) : Prop where
  line : (m'.position (n.regrow offsets)).line = (m.position n).line
  waivers : m'.waivers = m.waivers
  mark : hasPureMark m' (n.regrow offsets) = (hasPureMark m n || decide (n.start ∈ offsets))
  reads : ReadsAlike m.source.toList m'.source.toList offsets n

section

variable {o : Options} {severity : Severity} {ctx : FileContext} {offsets : List Nat}
  {m m' : SourceModule} {n : Node}

/-- The target of a call and the tag of a template are children of the node. -/
theorem target_mem_children {target : Node}
    (h : Effect.ofNode? n = some (.call target) ∨
      Effect.ofNode? n = some (.taggedTemplate target)) :
    target ∈ n.children := by
  have hcall : Effect.ofCall? n = some (.call target) ∨
      Effect.ofCall? n = some (.taggedTemplate target) := by
    unfold Effect.ofNode? at h
    split at h
    case h_5 => split at h <;> simp at h
    case h_8 => exact h
    all_goals simp at h
  unfold Effect.ofCall? at hcall
  split at hcall
  · next function arguments hfunction harguments =>
    have heq : function = target := by
      split at hcall
      · simpa using hcall
      · split at hcall
        · simp at hcall
        · simpa using hcall
    exact heq ▸ mem_children_of_child? hfunction
  · simp at hcall

theorem isPureFunction_regrow {target : Node} (h : Alike offsets m m' n)
    (htarget : target ∈ n.children) :
    isPureFunction o m' (target.regrow offsets) = isPureFunction o m target := by
  rw [isPureFunction, isPureFunction]
  congr 1
  funext raw
  exact rawMatches_regrow (h.reads.child htarget) raw

/-- An effect is exempt if it was, or if it accepts a mark and got one. -/
theorem isExempt_regrow {effect : Effect} (h : Alike offsets m m' n)
    (heffect : Effect.ofNode? n = some effect) :
    isExempt o m' (n.regrow offsets) (effect.regrow offsets) =
      (isExempt o m n effect || (effect.acceptsPureMark && decide (n.start ∈ offsets))) := by
  cases effect with
  | await | update | assignment | delete | unary | throw =>
    -- No mark helps these, so none of their exemptions looks at one.
    simp [Effect.regrow, isExempt, Effect.acceptsPureMark]
  | construction => simp [Effect.regrow, isExempt, Effect.acceptsPureMark, h.mark, Bool.or_assoc]
  | taggedTemplate tag =>
    have hpure := isPureFunction_regrow (o := o) h (target_mem_children (Or.inr heffect))
    rw [Effect.regrow, isExempt, isExempt, Effect.acceptsPureMark, h.mark, hpure]
    ac_rfl
  | call target =>
    have hpure := isPureFunction_regrow (o := o) h (target_mem_children (Or.inl heffect))
    rw [Effect.regrow, isExempt, isExempt, Effect.acceptsPureMark, h.mark, hpure,
      Node.kind_regrow]
    ac_rfl

theorem locate_regrow (h : Alike offsets m m' n) (hsolid : n.start < n.stop) :
    ctx.locate m' (n.regrow offsets) =
      movedLocation offsets m'.source.toList (ctx.locate m n) := by
  have hstop : n.start + (n.stop - n.start) = n.stop := by omega
  have hline := h.line
  simp only [SourceModule.position, Node.start_regrow] at hline
  simp only [FileContext.locate, movedLocation, SourceModule.position, Node.length,
    Node.start_regrow, Node.stop_regrow (Nat.ne_of_lt hsolid), hstop, hline]

/-- What is judged without an edit is judged the same at the new place. -/
theorem judge_regrow {effect : Effect} {allowance : Allowance} (location : Location)
    (source' : List Char) (h : allowance = .denied → effect.acceptsPureMark = false) :
    (judge severity (effect.regrow offsets) (movedLocation offsets source' location)
      allowance).toList =
      ((judge severity effect location allowance).toList.filter fun f => f.edit?.isNone).map
        (movedFinding offsets source') := by
  cases allowance with
  | denied =>
    have haccepts := h rfl
    simp [judge, effectFinding, movedFinding, Finding.edit?, haccepts]
  | allowed reason =>
    cases reason with
    | some reason => rfl
    | none =>
      rw [judge, judge]
      split <;> rfl

/-- At a node that the rule reports on, the finding stays exactly if it has no edit. -/
theorem findingHere?_regrow (h : Alike offsets m m' n)
    (hsolid : (Effect.ofNode? n).isSome → n.start < n.stop)
    (hdenied : n.start ∈ offsets → m.waivers.check (m.position n).line ruleName = .denied)
    (hlisted : ∀ f ∈ findingHere? o severity ctx m n, f.edit?.isSome → n.start ∈ offsets) :
    (findingHere? o severity ctx m' (n.regrow offsets)).toList =
      ((findingHere? o severity ctx m n).toList.filter fun f => f.edit?.isNone).map
        (movedFinding offsets m'.source.toList) := by
  cases heffect : Effect.ofNode? n with
  | none => simp [findingHere?, ofNode?_regrow, heffect]
  | some effect =>
    have hlocate : ctx.locate m' (n.regrow offsets) = _ :=
      locate_regrow h (hsolid (by simp [heffect]))
    have hbefore : findingHere? o severity ctx m n = _ := findingHere?_of_effect heffect
    have hmoved : Effect.ofNode? (n.regrow offsets) = some (effect.regrow offsets) := by
      rw [ofNode?_regrow, heffect, Option.map_some]
    have hafter : findingHere? o severity ctx m' (n.regrow offsets) =
        if isExempt o m n effect || (effect.acceptsPureMark && decide (n.start ∈ offsets)) then none
        else judge severity (effect.regrow offsets)
          (movedLocation offsets m'.source.toList (ctx.locate m n))
          (m.waivers.check (m.position n).line ruleName) := by
      rw [findingHere?_of_effect hmoved, isExempt_regrow h heffect, hlocate, h.waivers, h.line]
    cases hexempt : isExempt o m n effect with
    | true => simp [hbefore, hafter, hexempt]
    | false =>
      rw [hexempt, if_neg (by simp)] at hbefore
      by_cases hmark : effect.acceptsPureMark = true ∧ n.start ∈ offsets
      · -- The mark that was put in exempts the effect, and the finding had an edit.
        have hedit : (effectFinding severity effect (ctx.locate m n)).edit? =
            some (Edit.insertBefore (ctx.locate m n) pureMark) := by
          rw [edit?_effectFinding, if_pos hmark.1]
        rw [hdenied hmark.2, judge] at hbefore
        simp [hbefore, hafter, hmark, hedit]
      · -- Nothing was put in for this node, so what it reports had no edit.
        have hkept : (false || (effect.acceptsPureMark && decide (n.start ∈ offsets))) = false := by
          simpa using hmark
        rw [hafter, hexempt, hkept, if_neg (by simp), hbefore]
        refine judge_regrow (ctx.locate m n) m'.source.toList fun hcheck => ?_
        cases haccepts : effect.acceptsPureMark with
        | false => rfl
        | true =>
          rw [hcheck, judge] at hbefore
          refine absurd ⟨haccepts, hlisted _ hbefore ?_⟩ hmark
          rw [edit?_effectFinding, if_pos haccepts]
          rfl

end

/-! ## Two sweeps -/

/-- A mark has nothing below it. -/
theorem sweep_markLeaf {o : Options} {offsets : List Nat} {report : Node → List Finding} {q : Nat}
    (h : report (markLeaf offsets q) = []) (parent : Option Node) (hidden : Bool) :
    (markLeaf offsets q).sweep (shields o) report parent hidden = [] := by
  rw [Node.sweep_eq, h]
  cases hidden <;> rfl

/-- If each report in the second tree is the kept part of the one in the first, so is the outcome of
the whole sweep. The reports are compared only where the first sweep makes them, and there they are
known to be among `listed`. -/
theorem sweep_regrow {o : Options} {offsets : List Nat} {report report' : Node → List Finding}
    {listed : List Finding} {keep : Finding → Bool} {move : Finding → Finding}
    (hmark : ∀ q, report' (markLeaf offsets q) = []) (n : Node)
    (hreport : ∀ k ∈ n.nodes, (∀ f ∈ report k, f ∈ listed) →
      report' (k.regrow offsets) = ((report k).filter keep).map move)
    {parent parent' : Option Node} (hparent : parent'.map Node.kind = parent.map Node.kind)
    (hidden : Bool)
    (hlisted : ∀ f ∈ n.sweep (shields o) report parent hidden, f ∈ listed) :
    (n.regrow offsets).sweep (shields o) report' parent' hidden =
      ((n.sweep (shields o) report parent hidden).filter keep).map move := by
  induction n using Node.induct generalizing parent parent' hidden with
  | step label children ih =>
    rw [Node.sweep_eq] at hlisted ⊢
    rw [Node.sweep_eq, Node.children_regrow,
      Node.flatMap_regrowAll fun q => by exact sweep_markLeaf (hmark q) _ _,
      List.filter_append, List.map_append, List.filter_flatMap, List.map_flatMap]
    congr 1
    · cases hidden with
      | true => rfl
      | false =>
        refine hreport _ (Node.mem_nodes_self _) fun f hf => hlisted f ?_
        exact List.mem_append_left _ hf
    · refine List.flatMap_congr fun c hc => ?_
      rw [shields_regrow o hparent]
      refine ih c hc (fun k hk => hreport k (Node.mem_nodes_of_mem_child hc hk)) (by simp) _ ?_
      exact fun f hf => hlisted f (List.mem_append_right _ (List.mem_flatMap.2 ⟨c, hc, hf⟩))

/-! ## The marks of a laid out tree -/

theorem ofNode?_of_program {n : Node} (h : n.kind = "program") : Effect.ofNode? n = none := by
  simp [Effect.ofNode?, h]

theorem shields_of_program {o : Options} {n : Node} (h : n.kind = "program") (parent : Option Node)
    (c : Node) : shields o parent n c = false := by
  simp [shields, isFunction, isClassField, h]

/-- A mark goes before an effect, on a line without a waiver. -/
theorem exists_effect_of_mem_markOffsets {o : Options} {severity : Severity} {ctx : FileContext}
    {m : SourceModule} {q : Nat} (h : q ∈ markOffsets (check o severity ctx m)) :
    ∃ n ∈ m.root.nodes, (Effect.ofNode? n).isSome ∧ n.start = q ∧
      m.waivers.check (m.position n).line ruleName = .denied := by
  obtain ⟨f, hf, hedit, rfl⟩ := (mem_markOffsets (fun f hf => hf) q).1 h
  obtain ⟨n, hn, hfound⟩ := exists_node_of_mem_check hf
  obtain ⟨effect, heffect, -⟩ := findingHere?_cases hfound
  obtain ⟨e, he⟩ := Option.isSome_iff_exists.1 hedit
  refine ⟨n, hn, by simp [heffect], ?_, (edit_of_findingHere? hfound he).2⟩
  rw [location_of_findingHere? hfound]
  rfl

section

variable {source : List Char} {root n : Node}

/-- An effect is below the root, starts with a token and has some text. -/
theorem LaidOut.exists_token (h : LaidOut source root) (hprogram : root.kind = "program")
    (hn : n ∈ root.nodes) (heffect : (Effect.ofNode? n).isSome) :
    ∃ leaf ∈ root.leaves, leaf.isComment = false ∧ leaf.start = n.start ∧
      leaf.start < leaf.stop ∧ leaf.stop ≤ n.stop ∧
      (Text.charAt? source n.start).any (fun c => !Text.isAsciiBlank c) = true := by
  obtain ⟨leaf, leaves, hleaves⟩ := List.exists_cons_of_ne_nil n.leaves_ne_nil
  have hhead : leaf ∈ n.leaves.head? := by rw [hleaves]; rfl
  have hleaf : leaf ∈ n.leaves := by rw [hleaves]; exact List.mem_cons_self
  have hflush : n.Flush := by
    intro k hk
    obtain ⟨label, children⟩ := root
    rw [Node.nodes, List.mem_cons] at hn
    rcases hn with rfl | hn
    · rw [ofNode?_of_program hprogram] at heffect
      cases heffect
    · obtain ⟨c, hc, hnc⟩ := Node.mem_forestNodes.1 hn
      exact h.flush k (Node.mem_forestNodes.2 ⟨c, hc, Node.mem_nodes_trans hk hnc⟩)
  obtain ⟨hcomment, hsolid, hchar⟩ := h.token n hn heffect leaf hhead
  have hstart := hflush.start_firstLeaf hhead
  refine ⟨leaf, ?_, hcomment, hstart, hsolid, ((h.nested.of_mem hn).leaf_within hleaf).2.2, ?_⟩
  · exact Node.mem_leaves_of_mem_nodes (Node.mem_nodes_trans (Node.mem_nodes_of_mem_leaves hleaf) hn)
      (Node.children_of_mem_leaves hleaf)
  · rw [← hstart]
    exact hchar

/-- The marks of the rule stand before tokens of the tree. -/
theorem LaidOut.markable {o : Options} {severity : Severity} {ctx : FileContext} {m : SourceModule}
    (h : LaidOut source m.root) (hprogram : m.root.kind = "program") :
    Markable source m.root (markOffsets (check o severity ctx m)) where
  nested := h.nested
  boundary := h.boundary
  token := by
    intro q hq
    obtain ⟨n, hn, heffect, rfl, -⟩ := exists_effect_of_mem_markOffsets hq
    obtain ⟨leaf, hleaf, hcomment, hstart, hsolid, -⟩ := h.exists_token hprogram hn heffect
    exact ⟨leaf, hleaf, hcomment, hstart, hsolid⟩
  char := by
    intro q hq x c y hxy hx
    obtain ⟨n, hn, heffect, rfl, -⟩ := exists_effect_of_mem_markOffsets hq
    obtain ⟨-, -, -, -, -, -, hchar⟩ := h.exists_token hprogram hn heffect
    rw [hxy, ← hx, Text.charAt?_append] at hchar
    simpa using hchar

end

/-! ## The fixed point -/

section

variable {o : Options} {severity : Severity} {ctx : FileContext} {source fixed : String}
  {language : Language} {offsets : List Nat} {root root' n : Node}

/-- The questions that the rule asks about a node below the root have the expected answers. -/
theorem alike_of_regrown (h : LaidOut source.toList root)
    (hmarkable : Markable source.toList root offsets)
    (hregrown : Regrown offsets root root')
    (hfixed : fixed.toList = pureMarked offsets source.toList)
    (hn : n ∈ Node.forestNodes root.children) :
    Alike offsets (.ofTree source language root) (.ofTree fixed language root') n := by
  obtain ⟨c, hc, hnc⟩ := Node.mem_forestNodes.1 hn
  have hroot : n ∈ root.nodes := Node.mem_nodes_of_mem_child hc hnc
  have hleaves := Node.solidLeaves_regrown hmarkable.nested hmarkable.covered
    (List.ne_nil_of_mem hc) hregrown.children
  constructor
  · -- A pure mark holds no line end.
    have hnewline : '\n' ∉ pureMark.toList := by decide
    show (Text.position fixed.toList (n.regrow offsets).start).line = _
    rw [hfixed, Node.start_regrow]
    exact Text.line_marked 0 hnewline hmarkable.boundary_offset (h.boundary n hroot)
      fun q _ => by omega
  · -- Waivers are read off the leaves with text, where no mark counts.
    show WaiverIndex.ofComments (CommentIndex.ofTree fixed.toList root').comments =
      WaiverIndex.ofComments (CommentIndex.ofTree source.toList root).comments
    rw [Markable.entries_ofTree, Markable.entries_ofTree, hleaves, hfixed,
      hmarkable.entries_regrown]
  · show ((CommentIndex.ofTree fixed.toList root').before (n.regrow offsets).start).any _ = _
    rw [hfixed, Node.start_regrow]
    exact hmarkable.any_before_regrown hleaves n.start
  · intro k hk
    have hkroot : k ∈ root.nodes := Node.mem_nodes_trans hk hroot
    refine ⟨fun hname => ?_, ?_⟩
    · -- A name is a leaf, and no mark falls inside a leaf.
      have hleaf : k.children = [] := List.isEmpty_iff.1 (h.name k hkroot hname)
      show Text.slice? fixed.toList _ _ = _
      rw [hfixed]
      exact hmarkable.slice?_regrow (Node.mem_leaves_of_mem_nodes hkroot hleaf)
    · exact h.flush k (Node.mem_forestNodes.2 ⟨c, hc, Node.mem_nodes_trans hk hnc⟩)

/-- The root of a program is no effect and shields nothing. -/
theorem check_eq_children {m : SourceModule} (hprogram : m.root.kind = "program") :
    check o severity ctx m = m.root.children.flatMap fun c =>
      c.sweep (shields o) (fun n => (findingHere? o severity ctx m n).toList)
        (some m.root) false := by
  have hroot : findingHere? o severity ctx m m.root = none := by
    rw [findingHere?, ofNode?_of_program hprogram, Option.bind_none]
  rw [check_eq_sweep, Node.sweep_eq, hroot]
  simp only [shields_of_program hprogram, Bool.or_false]
  rfl

/-- The remedies of all findings put in the marks. -/
theorem applyRemedies?_check (h : LaidOut source.toList root) :
    Finding.applyRemedies? source (check o severity ctx (.ofTree source language root)) =
      some (String.ofList (pureMarked
        (markOffsets (check o severity ctx (.ofTree source language root))) source.toList)) :=
  applyRemedies?_eq_marked (m := .ofTree source language root) h.boundary fun _ hf => hf

/-- Findings without edits leave the text as it is. -/
theorem applyRemedies?_of_no_edit {text : String} {findings : List Finding}
    (h : ∀ f ∈ findings, f.edit? = none) : Finding.applyRemedies? text findings = some text := by
  have hnone : findings.filterMap Finding.edit? = [] := List.filterMap_eq_nil_iff.2 h
  rw [Finding.applyRemedies?, hnone, Edit.applyAll?_nil]

variable {m m' : SourceModule}

/-- Where the rule reports, it reports in the second text what had no edit in the first. -/
theorem report_regrown (hlaid : LaidOut m.source.toList m.root)
    (hprogram : m.root.kind = "program")
    (halike : Alike (markOffsets (check o severity ctx m)) m m' n)
    (hn : n ∈ Node.forestNodes m.root.children)
    (hlisted : ∀ f ∈ (findingHere? o severity ctx m n).toList, f ∈ check o severity ctx m) :
    (findingHere? o severity ctx m' (n.regrow (markOffsets (check o severity ctx m)))).toList =
      ((findingHere? o severity ctx m n).toList.filter fun f => f.edit?.isNone).map
        (movedFinding (markOffsets (check o severity ctx m)) m'.source.toList) := by
  obtain ⟨c, hc, hnc⟩ := Node.mem_forestNodes.1 hn
  have hroot : n ∈ m.root.nodes := Node.mem_nodes_of_mem_child hc hnc
  refine findingHere?_regrow halike (fun heffect => ?_) (fun hmem => ?_) fun f hf hedit => ?_
  · obtain ⟨leaf, -, -, hstart, hsolid, hstop, -⟩ := hlaid.exists_token hprogram hroot heffect
    omega
  · -- The waivers look at the line only, which is that of the effect the mark was put in for.
    obtain ⟨k, -, -, hstart, hdenied⟩ := exists_effect_of_mem_markOffsets hmem
    rw [SourceModule.position, ← hstart]
    exact hdenied
  · have hmem := hlisted f (Option.mem_toList.2 hf)
    refine (mem_markOffsets (fun f hf => hf) _).2 ⟨f, hmem, hedit, ?_⟩
    rw [location_of_findingHere? hf]
    rfl

/-- The findings in the second text are those in the first that had no edit. -/
theorem check_regrown (hlaid : LaidOut m.source.toList m.root)
    (hprogram : m.root.kind = "program")
    (hregrown : Regrown (markOffsets (check o severity ctx m)) m.root m'.root)
    (halike : ∀ n ∈ Node.forestNodes m.root.children,
      Alike (markOffsets (check o severity ctx m)) m m' n) :
    check o severity ctx m' =
      ((check o severity ctx m).filter fun f => f.edit?.isNone).map
        (movedFinding (markOffsets (check o severity ctx m)) m'.source.toList) := by
  have hprogram' : m'.root.kind = "program" := hregrown.kind.trans hprogram
  have hreport : ∀ n ∈ Node.forestNodes m.root.children,
      (∀ f ∈ (findingHere? o severity ctx m n).toList, f ∈ check o severity ctx m) → _ :=
    fun n hn => report_regrown hlaid hprogram (halike n hn) hn
  have hlisted : ∀ c ∈ m.root.children, ∀ f ∈ c.sweep (shields o)
      (fun n => (findingHere? o severity ctx m n).toList) (some m.root) false,
        f ∈ check o severity ctx m := by
    intro c hc f hf
    rw [check_eq_children hprogram]
    exact List.mem_flatMap.2 ⟨c, hc, hf⟩
  -- The offsets come from the first run; from here on only their role as offsets matters.
  have hchildren := hregrown.children
  have hkind := hregrown.kind
  generalize markOffsets (check o severity ctx m) = offsets at hreport hchildren ⊢
  have hmark : ∀ q, (findingHere? o severity ctx m' (markLeaf offsets q)).toList = [] :=
    fun q => rfl
  rw [check_eq_children hprogram', hchildren,
    Node.flatMap_regrowAll fun q => sweep_markLeaf (hmark q) _ _]
  have hsplit : ((check o severity ctx m).filter fun f => f.edit?.isNone).map
      (movedFinding offsets m'.source.toList) = m.root.children.flatMap fun c =>
        ((c.sweep (shields o) (fun n => (findingHere? o severity ctx m n).toList) (some m.root)
          false).filter fun f => f.edit?.isNone).map (movedFinding offsets m'.source.toList) := by
    rw [check_eq_children hprogram, List.filter_flatMap, List.map_flatMap]
  rw [hsplit]
  refine List.flatMap_congr fun c hc => sweep_regrow hmark c (fun k hk hkf => ?_) ?_ false
    (hlisted c hc)
  · exact hreport k (Node.mem_forestNodes.2 ⟨c, hc, hk⟩) hkf
  · simp [hkind]

end

/-- One round of remedies is enough. The edits of all findings can be applied, and the rule finds in the
new text those findings that had no edit, in the same order, on the same lines and with the same
code, message, severity and advice, and nothing else; to apply remedies again changes nothing. -/
theorem check_after_remedies (o : Options) (severity : Severity) (ctx : FileContext)
    (source : String) (language : Language) (root root' : Node)
    (hprogram : root.kind = "program") (hlaid : LaidOut source.toList root)
    (hregrown : Regrown (markOffsets (check o severity ctx (.ofTree source language root)))
      root root') :
    let findings := check o severity ctx (.ofTree source language root)
    ∃ fixed, Finding.applyRemedies? source findings = some fixed ∧
      let again := check o severity ctx (.ofTree fixed language root')
      again = (findings.filter fun f => f.edit?.isNone).map
          (movedFinding (markOffsets findings) fixed.toList) ∧
        Finding.applyRemedies? fixed again = some fixed := by
  have hmarkable : Markable source.toList root
      (markOffsets (check o severity ctx (.ofTree source language root))) :=
    LaidOut.markable (m := .ofTree source language root) hlaid hprogram
  obtain ⟨fixed, hfixed, hmarked⟩ : ∃ fixed,
      Finding.applyRemedies? source (check o severity ctx (.ofTree source language root)) =
        some fixed ∧
      fixed.toList = pureMarked
        (markOffsets (check o severity ctx (.ofTree source language root))) source.toList :=
    ⟨_, applyRemedies?_check hlaid, String.toList_ofList⟩
  have hagain : check o severity ctx (.ofTree fixed language root') = _ :=
    check_regrown (m := .ofTree source language root) hlaid hprogram hregrown fun n hn =>
      alike_of_regrown hlaid hmarkable hregrown hmarked hn
  refine ⟨fixed, hfixed, hagain, applyRemedies?_of_no_edit fun f hf => ?_⟩
  rw [hagain] at hf
  obtain ⟨g, hg, rfl⟩ := List.mem_map.1 hf
  obtain ⟨-, hnone⟩ := List.mem_filter.1 hg
  exact Option.isNone_iff_eq_none.1 hnone

/-- The tree of `x = f()();`, where an assignment can only be reported and two calls that begin
together can be marked. -/
def assignedCall : Node :=
  sampleNode "program" 0 10 none
    [sampleNode "expression_statement" 0 10 none
      [sampleNode "assignment_expression" 0 9 none
        [sampleNode "identifier" 0 1 none [], sampleToken "=" 2,
          sampleNode "call_expression" 4 9 none
            [sampleNode "call_expression" 4 7 (some .function)
              [sampleNode "identifier" 4 5 (some .function) [],
                sampleNode "arguments" 5 7 (some .arguments) [sampleToken "(" 5, sampleToken ")" 6]],
              sampleNode "arguments" 7 9 (some .arguments) [sampleToken "(" 7, sampleToken ")" 8]]],
        sampleToken ";" 9]]

/-- The tree of `x = /* #__PURE__ */ f()();`. -/
def assignedCallMarked : Node :=
  sampleNode "program" 0 26 none
    [sampleNode "expression_statement" 0 26 none
      [sampleNode "assignment_expression" 0 25 none
        [sampleNode "identifier" 0 1 none [], sampleToken "=" 2, sampleNode "comment" 4 19 none [],
          sampleNode "call_expression" 20 25 none
            [sampleNode "call_expression" 20 23 (some .function)
              [sampleNode "identifier" 20 21 (some .function) [],
                sampleNode "arguments" 21 23 (some .arguments) [sampleToken "(" 21, sampleToken ")" 22]],
              sampleNode "arguments" 23 25 (some .arguments) [sampleToken "(" 23, sampleToken ")" 24]]],
        sampleToken ";" 25]]

theorem laidOut_assignedCall : LaidOut "x = f()();".toList assignedCall where
  nested := ⟨by decide +kernel, by decide +kernel, by decide +kernel⟩
  flush := by decide +kernel
  boundary := by decide +kernel
  token := by decide +kernel
  name := by decide +kernel

theorem markOffsets_assignedCall :
    markOffsets (check {} .error ⟨⟨"test.js"⟩⟩ (.ofTree "x = f()();" .javascript assignedCall)) =
      [4, 4] := by
  rw [check_eq_sweep]
  decide +kernel

/-- The text of `assignedCall` with its mark, once for both calls. -/
theorem applyRemedies?_assignedCall :
    Finding.applyRemedies? "x = f()();"
        (check {} .error ⟨⟨"test.js"⟩⟩ (.ofTree "x = f()();" .javascript assignedCall)) =
      some "x = /* #__PURE__ */ f()();" := by
  rw [applyRemedies?_check laidOut_assignedCall, markOffsets_assignedCall]
  decide +kernel

/-- Of three findings the one on the assignment is left, and the marked text stays as it is. -/
theorem check_after_remedies_assignedCall :
    let findings := check {} .error ⟨⟨"test.js"⟩⟩ (.ofTree "x = f()();" .javascript assignedCall)
    let fixed := "x = /* #__PURE__ */ f()();"
    let again := check {} .error ⟨⟨"test.js"⟩⟩ (.ofTree fixed .javascript assignedCallMarked)
    (findings.map fun f => f.edit?.isNone) = [true, false, false] ∧
      Finding.applyRemedies? "x = f()();" findings = some fixed ∧
      again = (findings.filter fun f => f.edit?.isNone).map
        (movedFinding (markOffsets findings) fixed.toList) ∧
      Finding.applyRemedies? fixed again = some fixed := by
  intro findings fixed again
  have hregrown : Regrown (markOffsets findings) assignedCall assignedCallMarked := by
    rw [markOffsets_assignedCall]
    exact ⟨rfl, rfl⟩
  obtain ⟨text, htext, hagain⟩ := check_after_remedies {} .error ⟨⟨"test.js"⟩⟩ "x = f()();"
    .javascript assignedCall assignedCallMarked rfl laidOut_assignedCall hregrown
  obtain rfl : text = fixed := Option.some.inj (htext.symm.trans applyRemedies?_assignedCall)
  refine ⟨?_, htext, hagain⟩
  show (check _ _ _ _).map _ = _
  rw [check_eq_sweep]
  decide +kernel

end ModulePurity.Purity
