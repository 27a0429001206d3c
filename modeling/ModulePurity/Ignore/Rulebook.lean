import ModulePurity.Ignore.UserFile

/-!
# Which paths are ignored

A folder has up to three ignore files, and each kind of file is asked from the nearest folder upwards
until one of its rules matches. The plain ignore file goes before the repository's ignore file, which
goes before the private excludes of a clone, and the user's own rules come last. What lies in an
ignored folder is never reached.
-/

namespace ModulePurity.Ignore

/-! ## Finding the files -/

/-- The files with a name, by the folders to which the name is added. -/
def filesNamed (t : FileTree) (name : Place) : List (Place × Content) :=
  t.files.filterMap fun (place, content) =>
    if name.isSuffixOf place then some (place.take (place.length - name.length), content) else none

/-- The rules in files with a name. -/
def ruleFilesNamed (t : FileTree) (name : Place) : List RuleFile :=
  (filesNamed t name).map fun (folder, content) =>
    .read folder (Place.path (folder ++ name)) content

/-- The first line of a file; there is none in an empty file. -/
def firstLine (content : Content) : Except FileFault (Option (List Char)) :=
  match content.lines with
  | ⟨[], true⟩ => .error .notText
  | ⟨lines, _⟩ => .ok lines.head?

/-- A rule file that could not be found because something on the way to it cannot be read. -/
def RuleFile.lost (folder : Place) (file : Path) (fault : FileFault) : RuleFile :=
  ⟨folder, [], [⟨file, none, .unreadable fault⟩]⟩

/-- The path of the folder that a repository shares with its clones: a path with a dot in front starts
at the repository. -/
def sharedFolder (repository : Path) (line : List Char) : Path :=
  if line.head? = some '.' then repository.join ⟨String.ofList line⟩ else ⟨String.ofList line⟩

/-- The private excludes of a repository, as rules about a folder. Paths start at a base folder. -/
def sharedExcludes (t : FileTree) (base folder : Place) (repository : Path) : Option RuleFile :=
  let pointer := repository.join ⟨"commondir"⟩
  match t.follow base pointer with
  | .error _ => none
  | .ok place =>
    if t.isFolderAt place then some (.lost folder pointer .isFolder)
    else
      (t.file? place).bind fun content =>
        match firstLine content with
        | .error fault => some (.lost folder pointer fault)
        | .ok none => none
        | .ok (some line) =>
          let file := (sharedFolder repository line).join ⟨"info/exclude"⟩
          match t.follow base file with
          | .error _ => none
          | .ok place => (t.file? place).map fun content => .read folder file content

/-- The private excludes of a working tree whose repository is elsewhere: a file takes the place of
the repository and names it. -/
def linkedExcludes (t : FileTree) (base folder : Place) (content : Content) : Option RuleFile :=
  match firstLine content with
  | .error fault => some (.lost folder (Place.path (folder ++ [".git"])) fault)
  | .ok none => none
  | .ok (some line) =>
    (Text.dropWord? "gitdir: ".toList line).bind fun repository =>
      sharedExcludes t base folder ⟨String.ofList repository⟩

/-- The private excludes of all folders. -/
def excludeFiles (t : FileTree) (base : Place) : List RuleFile :=
  ruleFilesNamed t [".git", "info", "exclude"] ++
    (filesNamed t [".git"]).filterMap fun (folder, content) => linkedExcludes t base folder content

/-! ## Rulebooks -/

/-- All rules that apply to a tree. -/
structure Rulebook where
  /-- The files of each kind, in the order in which the kinds decide. -/
  kinds : List (List RuleFile)
  /-- The working folder, from which the user's rules see paths. -/
  workingFolder : Path
  userRules : List Rule

namespace Rulebook

/-- Reads the rules of a tree. -/
def ofTree (t : FileTree) (respectGitignore : Bool) (workingFolder : Path) (home : Option Path) :
    Rulebook where
  kinds :=
    [ruleFilesNamed t [".ignore"]] ++
      (if respectGitignore then [ruleFilesNamed t [".gitignore"]] else []) ++
      [excludeFiles t workingFolder.place]
  workingFolder := workingFolder
  userRules := Ignore.userRules t workingFolder.place home

/-- A relative place as text. -/
def relativeText (place : Place) : String := "/".intercalate place

/-- The folders above a place, nearest first, each with the rest of the place. -/
def foldersAbove (place : Place) : List (Place × Place) :=
  ((List.range place.length).map fun n => (place.take n, place.drop n)).reverse

/-- What the files of one kind say about a place: the nearest folder with a match decides. -/
def verdictOfKind? (files : List RuleFile) (place : Place) (isFolder : Bool) : Option Verdict :=
  (foldersAbove place).findSome? fun (folder, rest) =>
    (files.find? fun file => file.folder == folder).bind fun file =>
      verdict? file.rules (relativeText rest) isFolder

/-- A path as the user's rules see it: without the working folder and a slash in front. -/
def seenFromWork (b : Rulebook) (path : Path) : String :=
  match Text.dropWord? b.workingFolder.text.toList path.text.toList with
  | none => path.text
  | some ('/' :: rest) => String.ofList rest
  | some rest => String.ofList rest

/-- Whether a place is ignored for its own sake. The path leads to it. -/
def ignores (b : Rulebook) (place : Place) (path : Path) (isFolder : Bool) : Bool :=
  let verdict :=
    match b.kinds.findSome? fun files => verdictOfKind? files place isFolder with
    | some v => some v
    | none => verdict? b.userRules (b.seenFromWork path) isFolder
  verdict == some .ignored

/-- The path of a place below a folder. -/
def pathBelow (folder : Path) (rest : Place) : Path :=
  rest.foldl (fun path name => path.join ⟨name⟩) folder

/-- Whether a file below a folder is reached: neither it nor a folder on the way is ignored. The path
leads to the folder. -/
def reaches (b : Rulebook) (folder : Place) (path : Path) (rest : Place) : Bool :=
  (List.range rest.length).all fun n =>
    let way := rest.take (n + 1)
    !b.ignores (folder ++ way) (pathBelow path way) (n + 1 < rest.length)

/-- The flaws of the files in the folders above a place, outermost first. -/
def flawsAbove (b : Rulebook) (place : Place) : List Flaw :=
  (List.range place.length).flatMap fun n =>
    b.kinds.flatMap fun files =>
      (files.filter fun file => file.folder == place.take n).flatMap RuleFile.flaws

end Rulebook

end ModulePurity.Ignore
