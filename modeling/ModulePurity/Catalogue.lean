import ModulePurity.Purity.Rule
import ModulePurity.Settings

/-!
# The catalogue of rules

Every rule there is, by default and as the settings make it. A rule is found by its name or by its
code, letter for letter.
-/

namespace ModulePurity

/-- Every rule with default options. -/
def Rule.all : List Rule := [Purity.rule {} .error]

namespace Settings

/-- The options that the settings give to the purity rule. -/
def purityOptions (s : Settings) : Except SettingsFault Purity.Options :=
  match s.section? Purity.ruleName with
  | none => .ok {}
  | some part => part.purityOptions Purity.ruleName

/-- The purity rule as the settings make it. -/
def purityRule (s : Settings) : Except SettingsFault Rule :=
  s.purityOptions.map fun options => Purity.rule options .error

/-- Every rule as the settings make it. -/
def allRules (s : Settings) : Except SettingsFault (List Rule) :=
  s.purityRule.map fun rule => [rule]

/-- The rule with a name or code as the settings make it. Options are only read for a known rule. -/
def rule? (s : Settings) (name : String) : Except SettingsFault (Option Rule) :=
  if name == Purity.ruleName || name == Purity.ruleCode then s.purityRule.map some else .ok none

end Settings

end ModulePurity
