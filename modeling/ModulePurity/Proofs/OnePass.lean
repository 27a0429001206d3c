import ModulePurity.Proofs.CommentRuns
import ModulePurity.Proofs.Sweep
import ModulePurity.Proofs.WaiverLookup

/-!
# The purity rule in one pass

The rule written down once more, as a document would give it: a table of the node kinds that may have
an effect, a table of the node kinds that keep their contents from running, the first waiver that
covers a line, and one pass over the tree that hands down whether the code runs when the module is
loaded. Nothing here looks into the effects, shields or indexes that `check` works with; the main
statement is that `check` reports the same list.
-/

namespace ModulePurity.Purity

/-! ## The specification -/

/-- A row of the table of candidates, read for one node. -/
structure Site where
  exempt : Bool
  /-- A pure mark in front of the node helps. -/
  fixable : Bool

/-- The table of candidates. `marked` says whether a pure mark stands right before the node, `listed`
whether a call target is known to be pure. Other nodes have no row. -/
def site? (o : Options) (marked : Bool) (listed : Node → Bool) (n : Node) : Option Site :=
  match n.kind with
  | "await_expression" => some ⟨o.allowAwait, false⟩
  | "update_expression" | "assignment_expression" | "augmented_assignment_expression" =>
    some ⟨o.allowAssign, false⟩
  | "unary_expression" =>
    some ⟨o.allowDelete || (n.child? .operator).map Node.kind != some "delete", false⟩
  | "throw_statement" => some ⟨o.allowThrow, false⟩
  | "new_expression" => some ⟨o.allowNew || marked, true⟩
  | "call_expression" =>
    match n.child? .function, n.child? .arguments with
    | some target, some arguments =>
      if arguments.kind == "template_string" then
        some ⟨o.allowTaggedTemplate.getD o.allowCall || marked || listed target, true⟩
      else if target.kind == "import" then none
      else some ⟨o.allowCall || marked || target.kind == "super" || listed target, true⟩
    | _, _ => none
  | _ => none

/-- The table of kinds whose contents do not run with the module, for a child of `parent`, whose own
parent is `grand`. The name of a method in an object literal does run. -/
def runsLater (o : Options) (grand : Option Node) (parent child : Node) : Bool :=
  match parent.kind with
  | "function_declaration" | "function_expression" | "arrow_function"
  | "generator_function_declaration" | "generator_function" => true
  | "method_definition" =>
    !(grand.map Node.kind == some "object" && child.label.field == some .name)
  | "field_definition" | "public_field_definition" =>
    !parent.children.any fun c => !c.label.named && c.kind == "static"
  | "class_static_block" => o.allowInStaticBlock
  | _ => false

/-- What is reported at a place: an effect that no waiver covers, or a waiver that lacks a reason that
it has to give. -/
def verdictAt (severity : Severity) (location : Location) (fixable : Bool) :
    Option Waiver → List Finding
  | none =>
    [{ code := "PM001"
       rule := "pure-module"
       severity := severity
       location := location
       message := "Toplevel side effect."
       remedy :=
        if fixable then
          some ⟨"Insert __PURE__ comment", some ⟨{ location with length := 0 }, "/* #__PURE__ */ "⟩⟩
        else none }]
  | some w =>
    if w.reason.isSome || severity ≠ .error then []
    else
      [{ code := "PM001"
         rule := "pure-module"
         severity := .warning
         location := location
         message := "Allow directive for 'pure-module' is missing required reason"
         remedy :=
          some ⟨"Add reason=\"...\" to explain why this side effect is necessary", none⟩ }]

/-- What is reported for a node of the tree `root` over `source` that runs with the module. -/
def reportAt (o : Options) (severity : Severity) (ctx : FileContext) (source : List Char)
    (root n : Node) : List Finding :=
  let comments := (root.leaves.filter Node.isComment).map (Comment.ofNode source)
  let before := (CommentIndex.runBefore n.start [] root.leaves).map (Comment.ofNode source)
  let listed := fun target => o.pureFunctions.any fun raw => rawMatches raw source target
  let place := Text.position source n.start
  let location : Location := ⟨ctx.relative, place.line, place.column, n.start, n.stop - n.start⟩
  match site? o (before.any Comment.isPureMark) listed n with
  | none => []
  | some site =>
    if site.exempt then []
    else
      verdictAt severity location site.fixable
        (WaiverIndex.firstWaiver? comments place.line "pure-module")

/-- The findings of one pass over a tree. -/
def onePass (o : Options) (severity : Severity) (ctx : FileContext) (source : List Char)
    (root : Node) : List Finding :=
  root.sweep (runsLater o) (reportAt o severity ctx source root) none false

/-! ## The tables are the ones in use -/

theorem shields_eq_runsLater (o : Options) (grand : Option Node) (parent child : Node) :
    shields o grand parent child = runsLater o grand parent child := by
  unfold shields runsLater
  split <;>
    simp_all [isFunction, isClassField, isStatic, isObjectMethodKey]

/-- The table of candidates is the classification into effects with their exemptions. -/
theorem site?_eq (o : Options) (m : SourceModule) (n : Node) :
    site? o (hasPureMark m n) (isPureFunction o m) n =
      (Effect.ofNode? n).map fun effect => ⟨isExempt o m n effect, effect.acceptsPureMark⟩ := by
  unfold site? Effect.ofNode?
  generalize n.kind = kind
  split
  · rfl
  · rfl
  · rfl
  · rfl
  · cases hd : (n.child? .operator).map Node.kind == some "delete" <;>
      simp [isExempt, Effect.acceptsPureMark, bne, hd]
  · rfl
  · rfl
  · simp only [Effect.ofCall?]
    cases n.child? .function with
    | none => rfl
    | some target =>
      cases n.child? .arguments with
      | none => rfl
      | some arguments =>
        cases harg : arguments.kind == "template_string" with
        | true => simp [harg, isExempt, Effect.acceptsPureMark, Options.taggedTemplateAllowed]
        | false =>
          cases htarget : target.kind == "import" <;>
            simp [harg, htarget, isExempt, Effect.acceptsPureMark]
  · simp_all

/-- What the document reports about a waived or unwaived place is what the rule judges. -/
theorem verdictAt_eq (severity : Severity) (effect : Effect) (location : Location)
    (waiver : Option Waiver) :
    verdictAt severity location effect.acceptsPureMark waiver =
      (judge severity effect location (WaiverIndex.decision waiver)).toList := by
  cases waiver with
  | none => rfl
  | some w =>
    obtain ⟨rules, reason⟩ := w
    cases reason with
    | some reason => rfl
    | none => cases severity <;> rfl

/-- The report at a node, from the leaves of the tree alone, is the one that the indexes give. -/
theorem reportAt_eq (o : Options) (severity : Severity) (ctx : FileContext) (source : String)
    (language : Language) (root n : Node) :
    reportAt o severity ctx source.toList root n =
      (findingHere? o severity ctx (SourceModule.ofTree source language root) n).toList := by
  let m := SourceModule.ofTree source language root
  have hmark : hasPureMark m n = ((CommentIndex.runBefore n.start [] root.leaves).map
      (Comment.ofNode source.toList)).any Comment.isPureMark := by
    rw [← CommentIndex.before_ofTree]
    rfl
  have hwaiver : m.waivers.check (m.position n).line ruleName =
      WaiverIndex.decision (WaiverIndex.firstWaiver? ((root.leaves.filter Node.isComment).map
        (Comment.ofNode source.toList)) (m.position n).line ruleName) := by
    rw [← CommentIndex.comments_ofTree, ← WaiverIndex.check_ofComments]
    rfl
  -- Both indexes are gone now; what is left is the table of candidates and the verdict.
  have hsite := site?_eq o m n
  rw [hmark] at hsite
  rw [reportAt, findingHere?, hwaiver]
  change (match site? o _ (isPureFunction o m) n with
    | none => []
    | some site => _) = _
  rw [hsite]
  cases Effect.ofNode? n with
  | none => rfl
  | some effect =>
    simp only [Option.map_some, Option.bind_some]
    cases isExempt o m n effect with
    | true => rfl
    | false => exact verdictAt_eq severity effect (ctx.locate m n) _

/-! ## The rule is the specification -/

/-- The rule reports exactly the findings of one pass over the tree, for every tree and text, all
options, every severity and every file. -/
theorem check_eq_onePass (o : Options) (severity : Severity) (ctx : FileContext) (source : String)
    (language : Language) (root : Node) :
    check o severity ctx (SourceModule.ofTree source language root) =
      onePass o severity ctx source.toList root := by
  have hides : shields o = runsLater o := by
    funext grand parent child
    exact shields_eq_runsLater o grand parent child
  have hreport : (fun n => (findingHere? o severity ctx
      (SourceModule.ofTree source language root) n).toList) =
        reportAt o severity ctx source.toList root := by
    funext n
    exact (reportAt_eq o severity ctx source language root n).symm
  rw [check_eq_sweep, hides, hreport, onePass]
  rfl

end ModulePurity.Purity
