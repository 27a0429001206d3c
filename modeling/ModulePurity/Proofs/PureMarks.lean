import ModulePurity.Proofs.Insertions
import ModulePurity.Proofs.Sweep

/-!
# The remedies of the purity rule

Every edit of the rule inserts the pure mark in front of a node, and the place, file and text of that
edit depend on the start of the node only. So the edits of findings that were collected in any order
and with any repetition come down to one mark at each offset, wherever nested calls begin together.
-/

namespace ModulePurity.Purity

/-- The offsets at which some findings want a pure mark. -/
def markOffsets (findings : List Finding) : List Nat :=
  (findings.filterMap Finding.edit?).map Edit.start

variable {o : Options} {severity : Severity} {ctx : FileContext} {m : SourceModule}
  {findings : List Finding}

/-- The edit of a finding goes to the finding's own offset. -/
theorem edit_eq_of_mem_check {f : Finding} {e : Edit} (hf : f ∈ check o severity ctx m)
    (he : f.edit? = some e) :
    ∃ n ∈ m.root.nodes, e = Edit.insertBefore (ctx.locate m n) pureMark ∧
      f.location = ctx.locate m n := by
  obtain ⟨n, hn, hfound⟩ := exists_node_of_mem_check hf
  exact ⟨n, hn, (edit_of_findingHere? hfound he).1, location_of_findingHere? hfound⟩

theorem mem_markOffsets (hdrawn : ∀ f ∈ findings, f ∈ check o severity ctx m) (p : Nat) :
    p ∈ markOffsets findings ↔ ∃ f ∈ findings, f.edit?.isSome ∧ f.location.offset = p := by
  constructor
  · intro hp
    obtain ⟨e, he, rfl⟩ := List.mem_map.1 hp
    obtain ⟨f, hf, hedit⟩ := List.mem_filterMap.1 he
    obtain ⟨n, -, rfl, hlocation⟩ := edit_eq_of_mem_check (hdrawn f hf) hedit
    exact ⟨f, hf, by simp [hedit], by rw [hlocation]; rfl⟩
  · rintro ⟨f, hf, hsome, rfl⟩
    obtain ⟨e, hedit⟩ := Option.isSome_iff_exists.1 hsome
    obtain ⟨n, -, rfl, hlocation⟩ := edit_eq_of_mem_check (hdrawn f hf) hedit
    rw [hlocation]
    exact List.mem_map_of_mem (List.mem_filterMap.2 ⟨f, hf, hedit⟩)

/-- The edits of the rule insert the pure mark only, and agree as soon as they start together. -/
theorem insertOnly_of_check (hstart : ∀ n ∈ m.root.nodes, Text.IsBoundary m.source.toList n.start)
    (hdrawn : ∀ f ∈ findings, f ∈ check o severity ctx m) :
    Edit.InsertOnly pureMark.toList m.source.toList (findings.filterMap Finding.edit?) := by
  have hedit : ∀ e ∈ findings.filterMap Finding.edit?,
      ∃ n ∈ m.root.nodes, e = Edit.insertBefore (ctx.locate m n) pureMark := by
    intro e he
    obtain ⟨f, hf, hfe⟩ := List.mem_filterMap.1 he
    obtain ⟨n, hn, heq, -⟩ := edit_eq_of_mem_check (hdrawn f hf) hfe
    exact ⟨n, hn, heq⟩
  refine ⟨fun e he => ?_, fun e he => ?_, fun e he => ?_, fun a ha b hb hab => ?_⟩
  · obtain ⟨n, -, rfl⟩ := hedit e he
    rfl
  · obtain ⟨n, -, rfl⟩ := hedit e he
    rfl
  · obtain ⟨n, hn, rfl⟩ := hedit e he
    exact hstart n hn
  · obtain ⟨n, -, rfl⟩ := hedit a ha
    obtain ⟨k, -, rfl⟩ := hedit b hb
    -- Line and column are those of the start, and the inserted stretch is empty.
    have hnk : n.start = k.start := hab
    simp [Edit.insertBefore, FileContext.locate, SourceModule.position, Location.atStart, hnk]

/-- Resolving findings of the rule weaves the pure mark into the text, and never stops. -/
theorem applyRemedies?_eq_marked
    (hstart : ∀ n ∈ m.root.nodes, Text.IsBoundary m.source.toList n.start)
    (hdrawn : ∀ f ∈ findings, f ∈ check o severity ctx m) :
    Finding.applyRemedies? m.source findings =
      some (String.ofList (Text.marked pureMark.toList (markOffsets findings) m.source.toList)) :=
  Edit.applyAll?_eq_marked (insertOnly_of_check hstart hdrawn)

/-- Findings of the rule, taken in any order and any number of times, are resolved by cutting the text
at the places where those with an edit start and joining the pieces with one pure mark between
neighbours. Each place is cut once, and without the marks the pieces are the text that was there. -/
theorem applyRemedies?_joins_pieces (o : Options) (severity : Severity) (ctx : FileContext)
    (m : SourceModule) (findings : List Finding)
    (hstart : ∀ n ∈ m.root.nodes, Text.IsBoundary m.source.toList n.start)
    (hdrawn : ∀ f ∈ findings, f ∈ check o severity ctx m) :
    ∃ pieces : List (List Char),
      pieces.flatten = m.source.toList ∧
      Finding.applyRemedies? m.source findings =
        some (String.ofList ("/* #__PURE__ */ ".toList.intercalate pieces)) ∧
      (Text.cuts 0 pieces).Pairwise (· < ·) ∧
      ∀ p, p ∈ Text.cuts 0 pieces ↔ ∃ f ∈ findings, f.edit?.isSome ∧ f.location.offset = p := by
  have hinsert := insertOnly_of_check hstart hdrawn
  -- The scheduled edits list the offsets once each and in order.
  let offsets := (Edit.schedule (Text.byteLength m.source.toList)
    (findings.filterMap Finding.edit?)).map Edit.start
  have hmem : ∀ p, p ∈ offsets ↔ p ∈ markOffsets findings := hinsert.mem_starts_schedule
  have hsorted : offsets.Pairwise (· < ·) := List.pairwise_map.2 hinsert.schedule_strict
  have hbound : ∀ p ∈ offsets, 0 ≤ p ∧ Text.IsBoundary m.source.toList (p - 0) := by
    intro p hp
    obtain ⟨e, he, rfl⟩ := List.mem_map.1 hp
    exact ⟨Nat.zero_le _, hinsert.boundary e (hinsert.schedule_subset he)⟩
  obtain ⟨pieces, -, hflat, hcuts, hjoin⟩ :=
    Text.exists_pieces pureMark.toList offsets 0 m.source.toList hsorted hbound
  refine ⟨pieces, hflat, ?_, hcuts ▸ hsorted, fun p => ?_⟩
  · rw [Nat.zero_add] at hjoin
    rw [applyRemedies?_eq_marked hstart hdrawn, Text.marked_congr m.source.toList fun p =>
      (hmem p).symm, Text.marked, ← hjoin]
    rfl
  · rw [hcuts, hmem, mem_markOffsets hdrawn]

/-- A node of the grammar in a sample tree. -/
def sampleNode (kind : String) (start stop : Nat) (field : Option Field) (children : List Node) :
    Node :=
  .mk ⟨kind, true, false, false, false, start, stop, field⟩ children

/-- A punctuation mark of one byte in a sample tree. -/
def sampleToken (kind : String) (start : Nat) : Node :=
  .mk ⟨kind, false, false, false, false, start, start + 1, none⟩ []

/-- A module of one statement in which two calls begin together. -/
def nestedCalls : SourceModule :=
  SourceModule.ofTree "f()();" .javascript <|
    sampleNode "program" 0 6 none
      [sampleNode "expression_statement" 0 6 none
        [sampleNode "call_expression" 0 5 none
          [sampleNode "call_expression" 0 3 (some .function)
            [sampleNode "identifier" 0 1 (some .function) [],
              sampleNode "arguments" 1 3 (some .arguments) [sampleToken "(" 1, sampleToken ")" 2]],
            sampleNode "arguments" 3 5 (some .arguments) [sampleToken "(" 3, sampleToken ")" 4]],
          sampleToken ";" 5]]

/-- Both calls are found, twice each if the rule runs twice, and one mark resolves them all. -/
theorem applyRemedies?_nestedCalls :
    let findings := check {} .error ⟨⟨"test.js"⟩⟩ nestedCalls
    findings.length = 2 ∧
      ∃ pieces : List (List Char),
        pieces.flatten = "f()();".toList ∧
        Finding.applyRemedies? "f()();" (findings ++ findings) =
          some (String.ofList ("/* #__PURE__ */ ".toList.intercalate pieces)) ∧
        (Text.cuts 0 pieces).Pairwise (· < ·) ∧
        ∀ p, p ∈ Text.cuts 0 pieces ↔
          ∃ f ∈ findings ++ findings, f.edit?.isSome ∧ f.location.offset = p := by
  refine ⟨?_, applyRemedies?_joins_pieces {} .error ⟨⟨"test.js"⟩⟩ nestedCalls _ ?_ ?_⟩
  · rw [check_eq_sweep]
    decide +kernel
  · decide +kernel
  · intro f hf
    exact (List.mem_append.1 hf).elim id id

end ModulePurity.Purity
