import ModulePurity.Data.Value

/-!
# Values as JSON text

Values are written with two blanks of indentation per level, one item or entry a line. Empty
sequences and tables stay on one line.
-/

namespace ModulePurity.Json

/-- The digit for a number below sixteen. -/
def hexDigit (n : Nat) : Char := "0123456789abcdef".toList.getD n '0'

/-- A character inside a string. -/
def escape (c : Char) : List Char :=
  if c = '"' then ['\\', '"']
  else if c = '\\' then ['\\', '\\']
  else if c = '\n' then ['\\', 'n']
  else if c = '\r' then ['\\', 'r']
  else if c = '\t' then ['\\', 't']
  else if c = '\x08' then ['\\', 'b']
  else if c = '\x0c' then ['\\', 'f']
  else if c.toNat < 0x20 then
    ['\\', 'u', '0', '0', hexDigit (c.toNat / 16), hexDigit (c.toNat % 16)]
  else [c]

/-- A string between quotes. -/
def string (s : String) : String :=
  String.ofList ('"' :: s.toList.flatMap escape ++ ['"'])

/-- The beginning of a line at some depth. -/
def newLine (depth : Nat) : String :=
  "\n" ++ String.ofList (List.replicate (2 * depth) ' ')

mutual

/-- A value at some depth. -/
def write (depth : Nat) : Value → String
  | .null => "null"
  | .boolean b => if b then "true" else "false"
  | .integer n => toString n
  | .decimal s => s
  | .text s => string s
  | .moment m => string m.text
  | .sequence [] => "[]"
  | .sequence (v :: vs) =>
    "[" ++ newLine (depth + 1) ++ write (depth + 1) v ++ writeItems (depth + 1) vs ++
      newLine depth ++ "]"
  | .table [] => "\x7b\x7d"
  | .table ((key, v) :: entries) =>
    "\x7b" ++ newLine (depth + 1) ++ string key ++ ": " ++ write (depth + 1) v ++
      writeEntries (depth + 1) entries ++ newLine depth ++ "\x7d"

/-- Further items of a sequence. -/
def writeItems (depth : Nat) : List Value → String
  | [] => ""
  | v :: vs => "," ++ newLine depth ++ write depth v ++ writeItems depth vs

/-- Further entries of a table. -/
def writeEntries (depth : Nat) : List (String × Value) → String
  | [] => ""
  | (key, v) :: entries =>
    "," ++ newLine depth ++ string key ++ ": " ++ write depth v ++ writeEntries depth entries

end

/-- A value as text. -/
def pretty (v : Value) : String := write 0 v

end ModulePurity.Json
