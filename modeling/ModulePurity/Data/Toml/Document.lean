import ModulePurity.Data.Toml.Scalar
import ModulePurity.Data.Toml.Table

/-!
# Settings files as data

Reads a whole settings file: lines with keys and values, headers of tables, comments. Arrays and
inline tables nest at most 79 deep, and a dotted key has at most 79 parts.
-/

namespace ModulePurity.Toml

/-! ## Keys -/

/-- A character of a key without quotes. -/
def isKeyChar (c : Char) : Bool :=
  c.isAlphanum || c == '_' || c == '-'

/-- Reads one part of a key with the blanks around it. -/
def keyPart : Reader String := fun cs =>
  (orElse basicString (orElse literalString (some1 isKeyChar)) (skipSpace cs)).map
    fun (part, rest) => (String.ofList part, skipSpace rest)

/-- Reads the parts of a dotted key after the first one. -/
def moreKeyParts : (fuel : Nat) → Reader (List String)
  | 0, cs => some ([], cs)
  | fuel + 1, cs =>
    match char '.' cs with
    | none => some ([], cs)
    | some (_, rest) =>
      (keyPart rest).bind fun (part, rest) => mapped (moreKeyParts fuel) (part :: ·) rest

/-- Reads a dotted key. -/
def key : Reader (List String) := fun cs =>
  (keyPart cs).bind fun (first, rest) =>
    (moreKeyParts rest.length rest).bind fun (parts, rest) =>
      if parts.length + 1 < 80 then some (first :: parts, rest) else none

/-- The last part of a dotted key, and the parts before it. -/
def splitKey (parts : List String) : List String × String :=
  (parts.dropLast, parts.getLast?.getD "")

/-! ## Values -/

/-- Reads the items of an array and its closing bracket. -/
def arrayItems (item : Reader Value) : (fuel : Nat) → Reader (List Value)
  | 0, _ => none
  | fuel + 1, cs =>
    match skipLines cs.length cs with
    | ']' :: rest => some ([], rest)
    | rest =>
      (item rest).bind fun (v, rest) =>
        match skipLines rest.length rest with
        | ',' :: rest => mapped (arrayItems item fuel) (v :: ·) rest
        | ']' :: rest => some ([v], rest)
        | _ => none

/-- Reads a key and its value. -/
def keyValue (value : Reader Value) : Reader (List String × Value) := fun cs =>
  (key cs).bind fun (parts, rest) =>
    (char '=' rest).bind fun (_, rest) =>
      (value (skipSpace rest)).map fun (v, rest) => ((parts, v), rest)

/-- Reads the remaining entries of an inline table and its closing brace. -/
def inlineEntries (value : Reader Value) : (fuel : Nat) → Entries → Reader Entries
  | 0, _, _ => none
  | fuel + 1, entries, cs =>
    (keyValue value cs).bind fun ((parts, v), rest) =>
      let (path, last) := splitKey parts
      (Entries.put? path last v entries).bind fun entries =>
        match skipSpace rest with
        | ',' :: rest => inlineEntries value fuel entries rest
        | '\x7d' :: rest => some (entries, rest)
        | _ => none

/-- Reads an inline table after its opening brace. -/
def inlineTable (value : Reader Value) : Reader Value := fun cs =>
  match skipSpace cs with
  | '\x7d' :: rest => some (.table [], rest)
  | rest =>
    mapped (inlineEntries value (rest.length + 1) []) (fun entries => .table (entryValues entries))
      rest

/-- Reads a value with at most `depth` levels of arrays and inline tables. -/
def valueWithin : (depth : Nat) → Reader Value
  | 0 => scalar
  | depth + 1 => fun cs =>
    match cs with
    | '[' :: rest => mapped (arrayItems (valueWithin depth) (rest.length + 1)) .sequence rest
    | '\x7b' :: rest => inlineTable (valueWithin depth) rest
    | cs => scalar cs

/-- Reads a value. -/
def value : Reader Value := valueWithin 79

/-! ## Lines -/

/-- What has been read: all tables, and the path of the open one. -/
structure Progress where
  root : Entries
  current : List String

/-- Reads a header between brackets. -/
def header (opening closing : List Char) : Reader (List String) := fun cs =>
  (word opening cs).bind fun (_, rest) =>
    (key rest).bind fun (parts, rest) =>
      (word closing rest).map fun (_, rest) => (parts, rest)

/-- Reads one line that is not blank. -/
def line (p : Progress) : Reader Progress := fun cs =>
  match cs with
  | '[' :: '[' :: _ =>
    (header ['[', '['] [']', ']'] cs).bind fun (parts, rest) =>
      (Entries.openTables? parts p.root).map fun root => (⟨root, parts⟩, rest)
  | '[' :: _ =>
    (header ['['] [']'] cs).bind fun (parts, rest) =>
      (Entries.openTable? parts p.root).map fun root => (⟨root, parts⟩, rest)
  | _ =>
    (keyValue value cs).bind fun ((parts, v), rest) =>
      let (path, last) := splitKey parts
      (Entries.within? p.current (Entries.put? path last v) p.root).map fun root =>
        (⟨root, p.current⟩, rest)

/-- Reads all lines. -/
def lines : (fuel : Nat) → Progress → List Char → Option Progress
  | 0, _, _ => none
  | fuel + 1, p, cs =>
    match skipLines cs.length cs with
    | [] => some p
    | rest =>
      (line p rest).bind fun (p, rest) =>
        (lineRest rest).bind fun (_, rest) => lines fuel p rest

/-- Reads the entries of a settings file. -/
def parse? (text : String) : Option (List (String × Value)) :=
  let cs := text.toList
  let body := if cs.head? == some (Char.ofNat 0xFEFF) then cs.drop 1 else cs
  (lines (body.length + 1) ⟨[], []⟩ body).map fun p => entryValues p.root

end ModulePurity.Toml
