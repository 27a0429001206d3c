import ModulePurity.Path

/-!
# File trees

The files and folders that a run sees, as a value. A place is the list of names that leads to it from
the root. A path is followed segment by segment from a base folder: each segment but a name that
comes last has to start from a folder, `..` goes up, and `.` stays. Names have at most 255 bytes and
paths at most 4095.
-/

namespace ModulePurity

/-- What a file holds. -/
inductive Content where
  | text (s : String)
  /-- Bytes that are no UTF-8 text. -/
  | binary (bytes : List UInt8)
deriving DecidableEq, Repr

namespace Content

/-- The bytes of a file. -/
def bytes : Content → List UInt8
  | text s => s.toUTF8.toList
  | binary bs => bs

/-- The lines at the beginning of a file that are text, and whether one that is not follows. -/
structure Lines where
  lines : List (List Char)
  isBroken : Bool

/-- A line without the carriage return before its newline. -/
def dropReturn (line : List Char) : List Char :=
  (Text.dropLastWord? ['\r'] line).getD line

/-- Reads lines one by one; `fuel` bounds their number. Newlines end them, and the last one may lack
its end. -/
def linesOf : (fuel : Nat) → List UInt8 → Lines
  | 0, _ => ⟨[], false⟩
  | _, [] => ⟨[], false⟩
  | fuel + 1, bs =>
    let line := bs.takeWhile (· != 0x0A)
    match String.fromUTF8? ⟨line.toArray⟩ with
    | none => ⟨[], true⟩
    | some s =>
      match bs.drop line.length with
      | [] => ⟨[s.toList], false⟩
      | _ :: rest =>
        let more := linesOf fuel rest
        { more with lines := dropReturn s.toList :: more.lines }

/-- The lines of a file. -/
def lines (c : Content) : Lines := linesOf (c.bytes.length + 1) c.bytes

end Content

/-- The names that lead from the root to a file or folder. -/
abbrev Place := List String

/-- The absolute path of a place. -/
def Place.path (place : Place) : Path := ⟨"/" ++ "/".intercalate place⟩

/-- Files with what they hold, and folders that exist even if they hold no file. -/
structure FileTree where
  files : List (Place × Content)
  folders : List Place
deriving DecidableEq, Repr

/-- Why a path cannot be followed or read. -/
inductive FileFault where
  | missing
  | notFolder
  | isFolder
  | notText
  /-- A name or the whole path is too long. -/
  | tooLong
  /-- The path holds the character with number zero. -/
  | holdsNul
deriving DecidableEq, Repr

/-- The wording of a fault. -/
def FileFault.message : FileFault → String
  | missing => "No such file or directory (os error 2)"
  | notFolder => "Not a directory (os error 20)"
  | isFolder => "Is a directory (os error 21)"
  | notText => "stream did not contain valid UTF-8"
  | tooLong => "File name too long (os error 36)"
  | holdsNul => "file name contained an unexpected NUL byte"

namespace FileTree

/-- A tree without files. -/
def empty : FileTree := ⟨[], []⟩

/-! ## Places -/

/-- What the file at a place holds. -/
def file? (t : FileTree) (place : Place) : Option Content :=
  (t.files.find? fun entry => entry.1 == place).map Prod.snd

/-- Whether a place is a folder: the root, a listed folder or one above it, or one above a file. -/
def isFolderAt (t : FileTree) (place : Place) : Bool :=
  place.isEmpty || t.folders.any (fun folder => place.isPrefixOf folder) ||
    t.files.any fun entry => place.isPrefixOf entry.1 && place != entry.1

/-- The tree with a file put at a place. -/
def put (t : FileTree) (place : Place) (content : Content) : FileTree :=
  { t with
    files :=
      if (t.file? place).isSome then
        t.files.map fun entry => if entry.1 == place then (place, content) else entry
      else t.files ++ [(place, content)] }

/-- The tree without the file at a place; its folder stays. -/
def erase (t : FileTree) (place : Place) : FileTree where
  files := t.files.filter fun entry => entry.1 != place
  folders := if (t.file? place).isSome then t.folders ++ [place.dropLast] else t.folders

/-- The tree with a folder at a place. -/
def addFolder (t : FileTree) (place : Place) : FileTree :=
  { t with folders := t.folders ++ [place] }

/-! ## Paths -/

/-- The bytes of the longest name. -/
def nameLimit : Nat := 255

/-- The bytes of the longest path. -/
def pathLimit : Nat := 4095

/-- Follows one segment of a path. -/
def enter (t : FileTree) (place : Place) (segment : List Char) : Except FileFault Place :=
  if t.isFolderAt place then
    match Path.segmentComponent? segment with
    | none => .ok place
    | some (.name name) =>
      if nameLimit < name.utf8ByteSize then .error .tooLong else .ok (place ++ [name])
    | some _ => .ok place.dropLast
  else if (t.file? place).isSome then .error .notFolder
  else .error .missing

/-- Follows segments one after another. -/
def enterAll (t : FileTree) : Place → List (List Char) → Except FileFault Place
  | place, [] => .ok place
  | place, s :: ss =>
    match t.enter place s with
    | .ok next => t.enterAll next ss
    | .error e => .error e

/-- The place that a path leads to from a base folder, which need not exist. -/
def follow (t : FileTree) (base : Place) (p : Path) : Except FileFault Place :=
  if p.text.toList.contains '\x00' then .error .holdsNul
  else if pathLimit < p.text.utf8ByteSize then .error .tooLong
  else
    match p.text.toList with
    | [] => .error .missing
    | '/' :: rest => t.enterAll [] (Text.fields '/' rest)
    | cs => t.enterAll base (Text.fields '/' cs)

/-- Whether a path leads to a file. -/
def isFile (t : FileTree) (base : Place) (p : Path) : Bool :=
  match t.follow base p with
  | .ok place => (t.file? place).isSome
  | .error _ => false

/-- Whether a path leads to a file or folder. -/
def contains (t : FileTree) (base : Place) (p : Path) : Bool :=
  match t.follow base p with
  | .ok place => (t.file? place).isSome || t.isFolderAt place
  | .error _ => false

/-- The place of the file or folder that a path leads to. -/
def locate (t : FileTree) (base : Place) (p : Path) : Except FileFault Place :=
  match t.follow base p with
  | .error e => .error e
  | .ok place =>
    if (t.file? place).isSome || t.isFolderAt place then .ok place else .error .missing

/-- The text of the file that a path leads to. -/
def read (t : FileTree) (base : Place) (p : Path) : Except FileFault String :=
  match t.follow base p with
  | .error e => .error e
  | .ok place =>
    match t.file? place with
    | some (.text s) => .ok s
    | some (.binary _) => .error .notText
    | none => .error (if t.isFolderAt place then .isFolder else .missing)

/-- The tree with a text written to the file that a path leads to. -/
def write (t : FileTree) (base : Place) (p : Path) (s : String) : Except FileFault FileTree :=
  match t.follow base p with
  | .error e => .error e
  | .ok place => if t.isFolderAt place then .error .isFolder else .ok (t.put place (.text s))

/-! ## Files below a folder -/

/-- The places of the files below a folder, seen from that folder. -/
def below (t : FileTree) (folder : Place) : List Place :=
  t.files.filterMap fun entry =>
    if folder.isPrefixOf entry.1 && folder != entry.1 then some (entry.1.drop folder.length)
    else none

end FileTree

/-- The place that the names of an absolute path spell out. -/
def Path.place (p : Path) : Place :=
  p.components.filterMap fun
    | .name s => some s
    | _ => none

end ModulePurity
