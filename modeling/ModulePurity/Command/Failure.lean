import ModulePurity.Project

/-!
# Failures of a command

Why a command could not do its work. A failure is told by a headline and the chain of its causes, and
has an exit code of its own if the program stops in the middle of its work.
-/

namespace ModulePurity.Command

/-- Why a command failed. -/
inductive Failure where
  | settingsUnreadable (file : Path) (fault : FileFault)
  | settingsMalformed (file : Path)
  | badOptions (fault : SettingsFault)
  | badPattern (fault : GlobFault)
  | lintFailed (fault : Project.Fault)
  | unreadable (file : Path) (fault : FileFault)
  | unwritable (file : Path) (fault : FileFault)
  /-- The program stops, since the end of an edit overflows. -/
  | overflow
  /-- A settings file is already there. -/
  | settingsExist (file : Path)
deriving DecidableEq, Repr

namespace Failure

/-- What the command could not do. -/
def headline : Failure → String
  | settingsUnreadable file _ => "Failed to load config: " ++ file.text
  | settingsMalformed file => "Failed to load config: " ++ file.text
  | badOptions _ => "Invalid rule options"
  | badPattern _ => "Failed to build analyzer"
  | lintFailed _ => "Analysis failed"
  | unreadable file _ => "Failed to read " ++ file.text
  | unwritable file _ => "Failed to write " ++ file.text
  | overflow => "attempt to add with overflow"
  | settingsExist file =>
    "Configuration file already exists at " ++ file.text ++ ". Use --force to overwrite."

/-- The causes of a failed analysis. -/
def lintCauses (fault : Project.Fault) : List String :=
  match fault with
  | .unreadable e => [fault.message, e.message]
  | .badSearch e => [fault.message, e.message]
  | .badSyntax _ e => [fault.message, e.message]

/-- Why the command could not do it, from the nearest cause to the last. -/
def causes : Failure → List String
  | settingsUnreadable file fault =>
    ["Failed to read config file " ++ file.text ++ ": " ++ fault.message, fault.message]
  | settingsMalformed _ => [SettingsFault.malformed.message]
  | badOptions fault => [fault.message]
  | badPattern fault => [ProjectPlan.patternMessage fault, fault.message]
  | lintFailed fault => lintCauses fault
  | unreadable _ fault => [fault.message]
  | unwritable _ fault => [fault.message]
  | overflow => []
  | settingsExist _ => []

/-- The exit code of a command that failed. -/
def exitCode : Failure → Nat
  | overflow => 101
  | _ => 1

/-- A cause after its label, with the further lines below its first one. -/
def labelled (label cause : String) : String :=
  let indent := String.ofList ('\n' :: List.replicate label.length ' ')
  label ++ indent.intercalate ((Text.fields '\n' cause.toList).map String.ofList)

/-- Causes with their numbers. -/
def numbered (first : Nat) : List String → List String
  | [] => []
  | cause :: causes =>
    labelled ("    " ++ toString first ++ ": ") cause :: numbered (first + 1) causes

/-- The failure with its causes; several of them are numbered. -/
def message (f : Failure) : String :=
  "Error: " ++ f.headline ++
    match f.causes with
    | [] => ""
    | [cause] => "\n\nCaused by:\n" ++ labelled "    " cause
    | causes => "\n\nCaused by:\n" ++ "\n".intercalate (numbered 0 causes)

end Failure

end ModulePurity.Command
