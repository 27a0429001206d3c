import ModulePurity.Finding.Severity
import ModulePurity.Path

/-!
# Findings

What a rule reports: where, how serious, in which words, and possibly a remedy with an edit of the
source text. Two edits are the same if they replace the same bytes of the same file, told from the
same place, by the same text; files are compared by the components of their paths.
-/

namespace ModulePurity

/-- A stretch of a source file. -/
structure Location where
  file : Path
  /-- The line of the first byte, from one. -/
  line : Nat
  /-- The column of the first byte, in bytes from one. -/
  column : Nat
  offset : Nat
  length : Nat
deriving DecidableEq, Repr

namespace Location

/-- The empty stretch at the beginning of a location. -/
def atStart (l : Location) : Location := { l with length := 0 }

/-- Whether two locations agree, with files compared by components. -/
def sameAs (a b : Location) : Bool :=
  a.file.sameAs b.file && a.line == b.line && a.column == b.column && a.offset == b.offset &&
    a.length == b.length

end Location

/-- A replacement of the text at a location. -/
structure Edit where
  location : Location
  newText : String
deriving DecidableEq, Repr

namespace Edit

/-- An edit that puts a text in front of a location. -/
def insertBefore (l : Location) (text : String) : Edit := ⟨l.atStart, text⟩

/-- Whether two edits agree, with files compared by components. -/
def sameAs (a b : Edit) : Bool :=
  a.location.sameAs b.location && a.newText == b.newText

/-- The offset of the first byte that the edit replaces. -/
def start (e : Edit) : Nat := e.location.offset

/-- The offset right after the last byte that the edit replaces. -/
def stop (e : Edit) : Nat := e.location.offset + e.location.length

end Edit

/-- Advice on how to resolve a finding. -/
structure Remedy where
  message : String
  edit : Option Edit
deriving DecidableEq, Repr

/-- One breach of a rule. -/
structure Finding where
  code : String
  rule : String
  severity : Severity
  location : Location
  message : String
  remedy : Option Remedy
deriving DecidableEq, Repr

namespace Finding

/-- The edit that resolves the finding. -/
def edit? (f : Finding) : Option Edit := f.remedy.bind Remedy.edit

/-- The finding on one line. -/
def summary (f : Finding) : String :=
  f.location.file.text ++ ":" ++ toString f.location.line ++ ":" ++ toString f.location.column ++
    ": " ++ f.severity.name ++ " [" ++ f.code ++ "] " ++ f.message

end Finding

end ModulePurity
