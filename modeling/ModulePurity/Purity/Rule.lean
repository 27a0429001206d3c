import ModulePurity.Purity.Effect
import ModulePurity.Purity.Shield
import ModulePurity.Rule

/-!
# The purity rule

A module should do nothing when it is merely loaded, so that a bundler may drop it. The rule reports
every effect that is neither exempt nor shielded. Where a pure mark helps, the finding carries an edit
that inserts one. A waiver on the line of the effect silences the rule, but if the rule reports errors
a waiver without a reason is itself reported.
-/

namespace ModulePurity.Purity

/-- The name of the rule. -/
def ruleName : String := "pure-module"

/-- The code of the rule. -/
def ruleCode : String := "PM001"

/-- What the rule does. -/
def ruleDescription : String := "Disallow side effects at the top level of the module"

/-- The text that marks an expression as pure. -/
def pureMark : String := "/* #__PURE__ */ "

/-- The finding for an effect. -/
def effectFinding (severity : Severity) (effect : Effect) (location : Location) : Finding where
  code := ruleCode
  rule := ruleName
  severity := severity
  location := location
  message := "Toplevel side effect."
  remedy :=
    if effect.acceptsPureMark then
      some ⟨"Insert __PURE__ comment", some (Edit.insertBefore location pureMark)⟩
    else none

/-- The finding for a waiver that has to give a reason and does not. -/
def missingReasonFinding (location : Location) : Finding where
  code := ruleCode
  rule := ruleName
  severity := .warning
  location := location
  message := "Allow directive for 'pure-module' is missing required reason"
  remedy := some ⟨"Add reason=\"...\" to explain why this side effect is necessary", none⟩

/-- What to report for an effect, given what the waivers say about its line. -/
def judge (severity : Severity) (effect : Effect) (location : Location) :
    Allowance → Option Finding
  | .denied => some (effectFinding severity effect location)
  | .allowed (some _) => none
  | .allowed none => if severity = .error then some (missingReasonFinding location) else none

/-- What to report at one visit of the walk. -/
def findingAt? (o : Options) (severity : Severity) (ctx : FileContext) (m : SourceModule)
    (v : Visit) : Option Finding :=
  match Effect.ofNode? v.node with
  | none => none
  | some effect =>
    if isExempt o m v.node effect || isShielded o v then none
    else
      let location := ctx.locate m v.node
      judge severity effect location (m.waivers.check location.line ruleName)

/-- The findings of the rule in a module, in pre-order of their nodes. -/
def check (o : Options) (severity : Severity) (ctx : FileContext) (m : SourceModule) :
    List Finding :=
  m.walk.filterMap (findingAt? o severity ctx m)

/-- The purity rule with the given options and severity. -/
def rule (o : Options) (severity : Severity) : Rule where
  name := ruleName
  code := ruleCode
  description := ruleDescription
  severity := severity
  check := check o severity

end ModulePurity.Purity
