import ModulePurity.Data.Json
import ModulePurity.Finding.Codec
import ModulePurity.Output.Snippet

/-!
# Report formats

Four ways to write a report: a block per finding with a summary, JSON, a line per finding, and a
snippet of source per finding with a summary. Colours are escape sequences of the terminal.
-/

namespace ModulePurity

/-- How a report is written. -/
inductive Format where
  | text
  | json
  | compact
  | pretty
deriving DecidableEq, Repr

/-- The format with a name. -/
def Format.ofName? : String → Option Format
  | "text" => some text
  | "json" => some json
  | "compact" => some compact
  | "pretty" => some pretty
  | _ => none

/-- A terminal colour. -/
inductive Colour where
  | red
  | green
  | yellow
  | blue
deriving DecidableEq, Repr

/-- A text in a colour. -/
def Colour.paint (c : Colour) (s : String) : String :=
  let code :=
    match c with
    | red => "31"
    | green => "32"
    | yellow => "33"
    | blue => "34"
  "\x1b[" ++ code ++ "m" ++ s ++ "\x1b[0m"

/-- The colour of a severity. -/
def Severity.colour : Severity → Colour
  | error => .red
  | warning => .yellow
  | info => .blue

/-- A finding as a block of lines, with a blank line after it. -/
def Finding.block (f : Finding) : String :=
  f.code ++ " " ++ f.rule ++ " at " ++ f.location.file.text ++ ":" ++ toString f.location.line ++
    ":" ++ toString f.location.column ++ "\n  " ++
    f.severity.colour.paint f.severity.name ++ ": " ++ f.message ++ "\n" ++
    (match f.remedy with
      | none => ""
      | some r => "  = help: " ++ r.message ++ "\n") ++
    "\n"

/-- A finding with its source, with a blank line after it; only a line if there is no source. -/
def Finding.drawn (f : Finding) (source : String) : String :=
  if source.isEmpty then f.summary ++ "\n" else f.diagnostic.draw source ++ "\n"

namespace Report

/-- The numbers of findings and files on one line, in the colour of the worst finding. -/
def totals (r : Report) : String :=
  let colour : Colour :=
    if 0 < r.count .error then .red else if 0 < r.count .warning then .yellow else .green
  colour.paint
    ("Found " ++ toString (r.count .error) ++ " error(s), " ++ toString (r.count .warning) ++
      " warning(s), " ++ toString (r.count .info) ++ " info(s) in " ++ toString r.filesChecked ++
      " file(s)") ++ "\n"

/-- The report in a format; `source` gives the text of a file, or nothing. -/
def write (r : Report) (source : Path → String) : Format → String
  | .text => String.join (r.findings.map Finding.block) ++ r.totals
  | .json => Json.pretty r.toValue ++ "\n"
  | .compact => String.join (r.findings.map fun f => f.summary ++ "\n")
  | .pretty => String.join (r.findings.map fun f => f.drawn (source f.location.file)) ++ r.totals

end Report

end ModulePurity
