import ModulePurity.Data.Toml.Document
import ModulePurity.Finding.Codec
import ModulePurity.Purity.Options

/-!
# Settings

What a settings file decides: from which severity on a run fails, which files are looked at, and per
rule whether it runs, with which severity it reports and with which options. Unknown keys are
ignored. A file without the `analyzer` table leaves out `node_modules` directories, while a table
without `exclude` leaves out nothing.
-/

namespace ModulePurity

/-! ## Types -/

/-- Which files are looked at. -/
structure Search where
  root : Path := ⟨"."⟩
  /-- Glob patterns of the files that are left out. -/
  exclude : List String := []
  respectGitignore : Bool := true
deriving DecidableEq, Repr

/-- The pattern that leaves out installed packages. -/
def Search.installedPackages : String := "**/node_modules/**"

/-- The search without settings. -/
def Search.standard : Search := { exclude := [installedPackages] }

/-- The settings of one rule. -/
structure RuleSection where
  enabled : Option Bool := none
  severity : Option Severity := none
  /-- All other entries. -/
  options : List (String × Value) := []

/-- The settings of a run. -/
structure Settings where
  failOn : Option Severity := none
  search : Search := Search.standard
  /-- The rules with a section, by name. -/
  rules : List (String × RuleSection) := []

/-- What can be wrong with settings. -/
inductive SettingsFault where
  /-- The text is no settings file. -/
  | malformed
  /-- An option of a rule has the wrong shape. -/
  | badOptions (rule : String)
deriving DecidableEq, Repr

/-- The wording of a fault. -/
def SettingsFault.message : SettingsFault → String
  | malformed => "Failed to parse config: "
  | badOptions rule => "Invalid options for rule '" ++ rule ++ "': "

/-! ## Reading -/

/-- Reads a field of a record that has a default. -/
def Value.fieldOr? {α : Type} (entries : List (String × Value)) (key : String)
    (read : Value → Option α) (default : α) : Option α :=
  match Value.member? key entries with
  | some none => some default
  | some (some v) => read v
  | none => none

/-- The reserved key: a table in which it comes first stands for a moment. -/
def Value.momentKey : String := "$__toml_private_datetime"

/-- The entries of a table. A moment counts as a table with its text under the reserved key. -/
def Value.toEntries? : Value → Option (List (String × Value))
  | table entries => some entries
  | moment m => some [(momentKey, .text m.text)]
  | _ => none

mutual

/-- The value with moments in the place of tables that stand for them. Such a table has a single
entry, which holds a moment as text. -/
def Value.withMoments? : Value → Option Value
  | .table [] => some (.table [])
  | .table ((key, v) :: rest) =>
    if key = Value.momentKey then
      match v, rest with
      | .text s, [] => (Toml.momentOfText? s).map .moment
      | _, _ => none
    else
      v.withMoments?.bind fun v => (Value.entriesWithMoments? rest).map fun rest =>
        .table ((key, v) :: rest)
  | .sequence items => (Value.itemsWithMoments? items).map .sequence
  | v => some v

/-- Entries with moments in the place of tables that stand for them. -/
def Value.entriesWithMoments? : List (String × Value) → Option (List (String × Value))
  | [] => some []
  | (key, v) :: rest =>
    v.withMoments?.bind fun v => (Value.entriesWithMoments? rest).map ((key, v) :: ·)

/-- Items with moments in the place of tables that stand for them. -/
def Value.itemsWithMoments? : List Value → Option (List Value)
  | [] => some []
  | v :: rest => v.withMoments?.bind fun v => (Value.itemsWithMoments? rest).map (v :: ·)

end

/-- Reads the search from a table, or from a sequence that gives its fields in order. -/
def Search.ofValue? (v : Value) : Option Search := do
  let entries ←
    match v with
    | .sequence items => some (["root", "exclude", "respect_gitignore"].zip items)
    | v => v.toEntries?
  let root ← Value.fieldOr? entries "root" Value.toText? "."
  let exclude ← Value.fieldOr? entries "exclude" (Value.toList? Value.toText?) []
  let respectGitignore ← Value.fieldOr? entries "respect_gitignore" Value.toBool? true
  return ⟨⟨root⟩, exclude, respectGitignore⟩

/-- Reads a severity that may be missing. -/
def Severity.setting? (entries : List (String × Value)) (key : String) :
    Option (Option Severity) :=
  Value.fieldOr? entries key (fun v => (ofSetting? v).map some) none

/-- Reads the section of a rule. -/
def RuleSection.ofValue? (v : Value) : Option RuleSection := do
  let entries ← v.toEntries?
  let enabled ← Value.fieldOr? entries "enabled" (fun v => v.toBool?.map some) none
  let severity ← Severity.setting? entries "severity"
  let options ← Value.entriesWithMoments?
    (entries.filter fun entry => entry.1 != "enabled" && entry.1 != "severity")
  return ⟨enabled, severity, options⟩

/-- Reads the sections of all rules. -/
def RuleSection.readAll? : List (String × Value) → Option (List (String × RuleSection))
  | [] => some []
  | (name, v) :: rest =>
    (ofValue? v).bind fun part => (readAll? rest).map ((name, part) :: ·)

namespace Settings

/-- Reads the entries of a settings file. -/
def ofEntries? (entries : List (String × Value)) : Option Settings := do
  let failOn ← Severity.setting? entries "fail_on"
  let search ← Value.fieldOr? entries "analyzer" Search.ofValue? Search.standard
  let rules ← Value.fieldOr? entries "rules" (fun v => v.toEntries?.bind RuleSection.readAll?) []
  return ⟨failOn, search, rules⟩

/-- Reads the text of a settings file. -/
def parse (text : String) : Except SettingsFault Settings :=
  match (Toml.parse? text).bind ofEntries? with
  | some settings => .ok settings
  | none => .error .malformed

/-! ## Asking -/

/-- The section of a rule. -/
def section? (s : Settings) (rule : String) : Option RuleSection :=
  (s.rules.find? fun entry => entry.1 == rule).map Prod.snd

/-- Whether a rule runs; only a section can switch it off. -/
def isEnabled (s : Settings) (rule : String) : Bool :=
  ((s.section? rule).bind RuleSection.enabled).getD true

/-- The severity that the settings impose on the findings of a rule. -/
def severity? (s : Settings) (rule : String) : Option Severity :=
  (s.section? rule).bind RuleSection.severity

/-- The severity from which on a run fails. -/
def threshold (s : Settings) : Severity := s.failOn.getD .error

end Settings

/-- The options of the purity rule in a section of the settings. -/
def RuleSection.purityOptions (part : RuleSection) (rule : String) :
    Except SettingsFault Purity.Options :=
  match Purity.Options.ofEntries? part.options with
  | some options => .ok options
  | none => .error (.badOptions rule)

end ModulePurity
