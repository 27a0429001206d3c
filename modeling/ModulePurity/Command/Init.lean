import ModulePurity.Command.Check

/-!
# First settings, and the list of rules

The init command writes a settings file with every option explained into the working folder, and
leaves an existing one alone unless it is forced. The other command of this module lists the rules.
-/

namespace ModulePurity.Command

/-- The settings file that is written at first. -/
def settingsTemplate : String :=
  "# pure-lint configuration

# Lowest severity that makes `pure-lint check` exit non-zero
fail_on = \"error\"

[analyzer]
# Root directory to analyze (default: current directory)
# root = \"./src\"

# Glob patterns to exclude from analysis
exclude = [
    \"**/node_modules/**\",
    \"**/dist/**\",
    \"**/build/**\",
]

# Respect .gitignore files
respect_gitignore = true

[rules.pure-module]
enabled = true
# severity = \"warning\"  # Override default severity

# Call targets known to be pure (\"*\" matches any name)
pure_functions = []

# allow_call = false
# allow_tagged_template = false  # defaults to allow_call
# allow_new = true
# allow_assign = false
# allow_delete = false
# allow_throw = false
# allow_await = false
# allow_in_static_block = true
"

/-- The settings file of the working folder. -/
def settingsFile : Path := Path.join ⟨"."⟩ ⟨settingsFileName⟩

/-- What is told after the settings file was written. -/
def initAdvice : String :=
  "Created " ++ settingsFileName ++ "\n\nNext steps:\n  1. Edit " ++ settingsFileName ++
    " to configure rules\n  2. Run: pure-lint check\n"

/-- Writes the first settings file. -/
def init (w : Workspace) (force : Bool) : Outcome :=
  if w.contains settingsFile && !force then .failed w.files [] (.settingsExist settingsFile)
  else
    match w.write settingsFile settingsTemplate with
    | .error e => .failed w.files [] (.unwritable settingsFile e)
    | .ok written => ⟨0, initAdvice, [], none, written.files⟩

/-- A text with blanks after it, up to a width. -/
def padRight (width : Nat) (s : String) : String :=
  s ++ String.ofList (List.replicate (width - s.length) ' ')

/-- One row of the list of rules. -/
def ruleRow (code name description : String) : String :=
  padRight 10 code ++ " " ++ padRight 25 name ++ " " ++ description ++ "\n"

/-- The list of rules. -/
def ruleList : String :=
  "Available rules:\n\n" ++ ruleRow "Code" "Name" "Description" ++
    String.ofList (List.replicate 80 '-') ++ "\n" ++
    String.join (Rule.all.map fun r => ruleRow r.code r.name r.description) ++
    "\nConfigure rules under [rules.<name>] in pure-lint.toml, e.g.:\n" ++
    "  [rules.pure-module]\n" ++
    "  pure_functions = [\"Object.freeze\"]\n" ++
    "\nUse --rules to filter specific rules, e.g.:\n" ++
    "  pure-lint check --rules pure-module\n"

/-- Lists the rules. -/
def listRules (w : Workspace) : Outcome := ⟨0, ruleList, [], none, w.files⟩

end ModulePurity.Command
