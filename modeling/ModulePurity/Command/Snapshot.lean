import ModulePurity.Command.Run
import ModulePurity.Tree.Listing

/-!
# Snapshots

All that a run depends on besides its arguments, as one document in the format of settings files: the
working folder, the home folder and the folder for settings, the text of every file by its path, and
the parsed texts.
-/

namespace ModulePurity.Command

/-- A workspace with the trees of its texts. -/
structure Snapshot where
  workspace : Workspace
  grammar : Grammar

namespace Snapshot

/-- Puts files into a tree, each at its path seen from a folder. -/
def putFiles (folder : Path) (t : FileTree) : List (String × Value) → Option FileTree
  | [] => some t
  | (name, v) :: entries =>
    v.toText?.bind fun s => putFiles folder (t.put (folder.join ⟨name⟩).place (.text s)) entries

/-- Reads a snapshot. -/
def ofEntries? (entries : List (String × Value)) : Option Snapshot := do
  let folder ← Value.field? entries "folder" Value.toText?
  let home ← Value.optionalField? entries "home" Value.toText?
  let settingsFolder ← Value.optionalField? entries "settings_folder" Value.toText?
  let files ← Value.fieldOr? entries "files" Value.toEntries? []
  let texts ← Value.fieldOr? entries "trees" (Value.toList? ParsedText.ofValue?) []
  let folder : Path := ⟨folder⟩
  let tree ← putFiles folder (FileTree.empty.addFolder folder.place) files
  return ⟨⟨tree, folder, settingsFolder.map Path.mk, home.map Path.mk⟩, Grammar.ofTexts texts⟩

/-- Reads the text of a snapshot. -/
def parse? (text : String) : Option Snapshot :=
  (Toml.parse? text).bind ofEntries?

end Snapshot

/-- The text files of a tree that are not in another one, by their paths. -/
def newTexts (before after : FileTree) : List (String × String) :=
  after.files.filterMap fun (place, content) =>
    match content with
    | .text s =>
      if before.file? place = some content then none else some ((Place.path place).text, s)
    | .binary _ => none

end ModulePurity.Command
