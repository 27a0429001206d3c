import ModulePurity.Command.Failure

/-!
# The workspace of a command

The files that a command sees and where it runs. Settings are taken from the file that is named, else
from the folder that is checked, else from the folder for settings of the user, else there are none.
-/

namespace ModulePurity.Command

/-- Where a command runs. -/
structure Workspace where
  files : FileTree
  /-- The working folder as an absolute path. -/
  folder : Path
  /-- The folder for settings, if one is given. -/
  settingsFolder : Option Path
  /-- The home folder of the user. -/
  home : Option Path

namespace Workspace

/-- The place of the working folder. -/
def base (w : Workspace) : Place := w.folder.place

/-- Whether a path leads to a file. -/
def isFile (w : Workspace) (p : Path) : Bool := w.files.isFile w.base p

/-- Whether a path leads to a file or folder. -/
def contains (w : Workspace) (p : Path) : Bool := w.files.contains w.base p

/-- The text of the file that a path leads to. -/
def read (w : Workspace) (p : Path) : Except FileFault String := w.files.read w.base p

/-- The workspace with a text written to a file. -/
def write (w : Workspace) (p : Path) (s : String) : Except FileFault Workspace :=
  (w.files.write w.base p s).map fun files => { w with files := files }

/-- The folder for the settings of the user. -/
def userFolder? (w : Workspace) : Option Path :=
  w.settingsFolder.or (w.home.map fun home => home.join ⟨".pure-lint"⟩)

end Workspace

/-- Where settings come from. -/
inductive SettingsSource where
  /-- A file named on the command line. -/
  | named (file : Path)
  /-- A file in the folder that is checked. -/
  | project (file : Path)
  /-- A file in the user's folder. -/
  | user (file : Path)
  | none
deriving DecidableEq, Repr

/-- The name of a settings file. -/
def settingsFileName : String := "pure-lint.toml"

/-- The names of settings files in the folder that is checked, best first. -/
def projectFileNames : List String := [settingsFileName, ".pure-lint.toml"]

namespace SettingsSource

/-- Finds the settings for checking a file or folder. -/
def find (w : Workspace) (target : Path) (file : Option Path) : SettingsSource :=
  match file with
  | some file => .named file
  | .none =>
    let folder := if w.isFile target then target.parent?.getD target else target
    match (projectFileNames.map fun name => folder.join ⟨name⟩).find? w.isFile with
    | some file => .project file
    | .none =>
      match (w.userFolder?.map fun folder => folder.join ⟨"config.toml"⟩).filter w.isFile with
      | some file => .user file
      | .none => .none

/-- Reads a settings file. -/
def loadFile (w : Workspace) (file : Path) : Except Failure Settings :=
  match w.read file with
  | .error e => .error (.settingsUnreadable file e)
  | .ok text => (Settings.parse text).mapError fun _ => .settingsMalformed file

/-- Loads the settings. That the user's are taken is logged. -/
def load (w : Workspace) : SettingsSource → Logged Failure Settings
  | .none => return {}
  | .named file => Logged.ofExcept (loadFile w file)
  | .project file => Logged.ofExcept (loadFile w file)
  | .user file => do
    Logged.say .info ("Using global config: " ++ file.text)
    Logged.ofExcept (loadFile w file)

end SettingsSource

end ModulePurity.Command
