import ModulePurity.FileTree
import ModulePurity.Ignore.Pattern
import ModulePurity.Text.Blank

/-!
# Ignore files

Each line of an ignore file is a rule about the paths below a folder; of several rules that match a
path, the last one decides. Comments and blank lines are no rules. A line with a malformed pattern is
a flaw of the file, and reading ends at a line that is no text.
-/

namespace ModulePurity.Ignore

/-! ## Lines -/

/-- One line of an ignore file. -/
structure Rule where
  pattern : Pattern
  /-- Whether the rule takes back what earlier ones ignore. -/
  takesBack : Bool
  onlyFolders : Bool

/-- A text without blanks at its end, unless the last one is a space after a backslash. -/
def trimLine (cs : List Char) : List Char :=
  match cs.reverse with
  | ' ' :: '\\' :: _ => cs
  | _ => Text.trimRight cs

/-- The marks in front of a pattern: whether the rule takes back, whether the pattern starts at the
folder, and what is left. -/
def leadingMarks (cs : List Char) : Bool × Bool × List Char :=
  match cs with
  | '\\' :: '!' :: rest => (false, false, '!' :: rest)
  | '\\' :: '#' :: rest => (false, false, '#' :: rest)
  | '!' :: '/' :: rest => (true, true, rest)
  | '!' :: rest => (true, false, rest)
  | '/' :: rest => (false, true, rest)
  | cs => (false, false, cs)

/-- Whether a pattern ends in a slash, and the pattern without it and a backslash before it. -/
def trailingSlash (cs : List Char) : Bool × List Char :=
  match cs.reverse with
  | '/' :: '\\' :: rest => (true, rest.reverse)
  | '/' :: rest => (true, rest.reverse)
  | _ => (false, cs)

/-- A pattern without a slash matches at any depth. -/
def atAnyDepth (anchored : Bool) (cs : List Char) : List Char :=
  if anchored || cs.contains '/' || cs == ['*', '*'] then cs
  else '*' :: '*' :: '/' :: cs

/-- A double star at the end matches what is in a folder and not the folder. -/
def insideFolder (cs : List Char) : List Char :=
  match cs.reverse with
  | '*' :: '*' :: '/' :: _ => cs ++ ['/', '*']
  | _ => cs

/-- What is wrong with a line. -/
inductive LineFault where
  | badPattern (line : String) (fault : PatternFault)
  | unreadable (fault : FileFault)
deriving DecidableEq, Repr

/-- The wording of a fault. -/
def LineFault.message : LineFault → String
  | badPattern line fault => "error parsing glob '" ++ line ++ "': " ++ fault.message
  | unreadable fault => fault.message

/-- Reads a line. Comments and blank lines give no rule. -/
def Rule.parse (line : List Char) : Except LineFault (Option Rule) :=
  let trimmed := trimLine line
  if line.head? = some '#' || trimmed.isEmpty then .ok none
  else
    let (takesBack, anchored, rest) := leadingMarks trimmed
    let (onlyFolders, rest) := trailingSlash rest
    match Pattern.parse (insideFolder (atAnyDepth anchored rest)) with
    | .ok pattern => .ok (some ⟨pattern, takesBack, onlyFolders⟩)
    | .error fault => .error (.badPattern (String.ofList trimmed) fault)

/-! ## Verdicts -/

/-- What rules say about a path. -/
inductive Verdict where
  | ignored
  | kept
deriving DecidableEq, Repr

/-- What rules say about a path below their folder: the last match decides. -/
def verdict? (rules : List Rule) (path : String) (isFolder : Bool) : Option Verdict :=
  (rules.reverse.find? fun r => (isFolder || !r.onlyFolders) && r.pattern.accepts path).map
    fun r => if r.takesBack then .kept else .ignored

/-! ## Files -/

/-- What is wrong with a file, at one of its lines or as a whole. -/
structure Flaw where
  file : Path
  /-- From one. -/
  line : Option Nat
  fault : LineFault
deriving DecidableEq, Repr

/-- The wording of a flaw. -/
def Flaw.message (f : Flaw) : String :=
  f.file.text ++ ": " ++
    (match f.line with
      | none => ""
      | some n => "line " ++ toString n ++ ": ") ++
    f.fault.message

/-- A file with rules about the paths below a folder. -/
structure RuleFile where
  folder : Place
  rules : List Rule
  flaws : List Flaw

/-- The byte order mark. -/
def byteOrderMark : Char := Char.ofNat 0xFEFF

/-- The lines of a file; byte order marks at the beginning of the file do not count. -/
def dropMarks : List (List Char) → List (List Char)
  | [] => []
  | line :: lines => line.dropWhile (· == byteOrderMark) :: lines

/-- The rules among some lines, and the flaws with their line numbers. -/
def readLines (file : Path) (n : Nat) : List (List Char) → List Rule × List Flaw
  | [] => ([], [])
  | line :: lines =>
    let (rules, flaws) := readLines file (n + 1) lines
    match Rule.parse line with
    | .ok none => (rules, flaws)
    | .ok (some rule) => (rule :: rules, flaws)
    | .error fault => (rules, ⟨file, some n, fault⟩ :: flaws)

/-- Reads a file with rules about a folder. That a file breaks off counts as a flaw beside others
only. -/
def RuleFile.read (folder : Place) (file : Path) (content : Content) : RuleFile :=
  let read := content.lines
  let (rules, flaws) := readLines file 1 (dropMarks read.lines)
  let broken : List Flaw :=
    if read.isBroken && !flaws.isEmpty then
      [⟨file, some (read.lines.length + 1), .unreadable .notText⟩]
    else []
  ⟨folder, rules, flaws ++ broken⟩

end ModulePurity.Ignore
