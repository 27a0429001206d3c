import ModulePurity.Finding.Diagnostic
import ModulePurity.Text.Bytes
import ModulePurity.Text.Width

/-!
# Snippets

A diagnostic drawn with the lines of source around it. One line before and one after the labelled
stretch are shown. A stretch within one line is underlined with the label below its middle; a longer
one is marked at the left margin with the label after its last line.
-/

namespace ModulePurity

namespace Snippet

/-! ## Lines -/

/-- The lines of a text, each with its end: a newline, a carriage return, or both. -/
def linesWithEnds : List Char → List (List Char)
  | [] => []
  | '\r' :: '\n' :: cs => ['\r', '\n'] :: linesWithEnds cs
  | '\r' :: cs => ['\r'] :: linesWithEnds cs
  | '\n' :: cs => ['\n'] :: linesWithEnds cs
  | c :: cs =>
    match linesWithEnds cs with
    | [] => [[c]]
    | line :: lines => (c :: line) :: lines

/-- The number of lines among the given ones that end at a byte offset or before it. -/
def linesBefore : List (List Char) → Nat → Nat
  | [], _ => 0
  | line :: lines, n =>
    if Text.byteLength line ≤ n then 1 + linesBefore lines (n - Text.byteLength line) else 0

/-- A line as it is shown. -/
structure Line where
  /-- From one. -/
  number : Nat
  /-- The byte offset of the line in the source. -/
  offset : Nat
  /-- The bytes of the line with its end. -/
  length : Nat
  /-- The line without its end. -/
  text : List Char
deriving DecidableEq, Repr

/-- A line without the newline that ends it, and a carriage return before that. -/
def dropLineEnd (cs : List Char) : List Char :=
  match cs.reverse with
  | '\n' :: '\r' :: rest => rest.reverse
  | '\n' :: rest => rest.reverse
  | _ => cs

/-- Lines that only newlines end, each with its end. -/
def newlineLines : List Char → List (List Char)
  | [] => []
  | '\n' :: cs => ['\n'] :: newlineLines cs
  | c :: cs =>
    match newlineLines cs with
    | [] => [[c]]
    | line :: lines => (c :: line) :: lines

/-- The number of a line that has `before` lines before it. A last line that breaks off after a
carriage return does not count as one more. -/
def lineNumber (before : Nat) (line : List Char) : Nat :=
  if line.getLast? = some '\r' then before else before + 1

/-- Lines with their numbers and offsets, after `before` other lines. -/
def number (before offset : Nat) : List (List Char) → List Line
  | [] => []
  | line :: lines =>
    ⟨lineNumber before line, offset, Text.byteLength line, dropLineEnd line⟩ ::
      number (before + 1) (offset + Text.byteLength line) lines

/-- The part of a source that is shown. -/
structure Window where
  lines : List Line
  /-- The place of the labelled stretch. -/
  place : Text.Position

/-- The lines around a stretch of a source. -/
def window (source : List Char) (offset length : Nat) : Window :=
  let lines := linesWithEnds source
  let first := linesBefore lines offset
  let last := linesBefore lines (offset + length - 1)
  let start := Text.byteLength (lines.take first).flatten
  let skipped := lines.take (first - 1)
  let shown := (lines.take (last + 2)).drop (first - 1)
  { lines := number skipped.length (Text.byteLength skipped.flatten)
      (newlineLines shown.flatten)
    place := ⟨first + 1, offset - start + 1⟩ }

namespace Line

/-- The byte offset right after the line. -/
def stop (l : Line) : Nat := l.offset + l.length

/-- Whether a stretch lies within the line. -/
def holds (l : Line) (start stop : Nat) : Bool := l.offset ≤ start && stop ≤ l.stop

/-- Whether a stretch starts on the line. -/
def hasStart (l : Line) (start : Nat) : Bool := l.offset ≤ start && start < l.stop

/-- Whether a stretch ends on the line. -/
def hasStop (l : Line) (stop : Nat) : Bool := l.offset < stop && stop ≤ l.stop

/-- Whether a stretch goes through the line. -/
def isPassed (l : Line) (start stop : Nat) : Bool := start < l.offset && l.stop < stop

/-- The column of a byte offset on the line. What lies behind its text is one column further. -/
def column (l : Line) (offset : Nat) : Nat :=
  let inLine := offset - l.offset
  let columns := Text.width (Text.upTo l.text inLine)
  if Text.byteLength l.text < inLine then columns + 1 else columns

end Line

/-! ## Drawing -/

/-- A number of copies of a character. -/
def copies (n : Nat) (c : Char) : String := String.ofList (List.replicate n c)

/-- A number with blanks before it. -/
def padLeft (width n : Nat) : String :=
  copies (width - (toString n).length) ' ' ++ toString n

/-- What a snippet shows. -/
structure Drawing where
  /-- The columns that line numbers take. -/
  numberWidth : Nat
  start : Nat
  stop : Nat
  label : String

namespace Drawing

/-- The margin of a source line. -/
def numbered (f : Drawing) (n : Nat) : String := " " ++ padLeft f.numberWidth n ++ " │ "

/-- The margin of a line between source lines. -/
def unnumbered (f : Drawing) : String := " " ++ copies f.numberWidth ' ' ++ " · "

/-- The underline of a stretch within a line, and its label. -/
def underline (f : Drawing) (l : Line) : String :=
  let first := l.column f.start
  let last := if f.start = f.stop then first + 1 else max (l.column f.stop) (first + 1)
  let middle := (first + last) / 2
  f.unnumbered ++ copies first ' ' ++ copies (middle - first) '─' ++
    (if f.start = f.stop then "▲" else "┬") ++ copies (last - middle - 1) '─' ++ "\n" ++
    f.unnumbered ++ copies middle ' ' ++ "╰── " ++ f.label ++ "\n"

/-- A line with what is drawn below it, if the stretch lies within one line. -/
def flatLine (f : Drawing) (l : Line) : String :=
  f.numbered l.number ++ String.ofList (Text.expandTabs l.text) ++ "\n" ++
    (if l.holds f.start f.stop then f.underline l else "")

/-- The mark of a longer stretch at the margin of a line. -/
def marginMark (f : Drawing) (l : Line) : String :=
  if l.hasStart f.start then "╭─▶ "
  else if l.hasStop f.stop then "├─▶ "
  else if l.isPassed f.start f.stop then "│   "
  else "    "

/-- A line with what is drawn below it, if the stretch goes over several lines. -/
def tallLine (f : Drawing) (l : Line) : String :=
  f.numbered l.number ++ f.marginMark l ++ String.ofList (Text.expandTabs l.text) ++ "\n" ++
    (if l.hasStop f.stop then f.unnumbered ++ "╰──── " ++ f.label ++ "\n" else "")

end Drawing

end Snippet

open Snippet in
/-- The diagnostic drawn with its source. -/
def Diagnostic.draw (d : Diagnostic) (source : String) : String :=
  let w := window source.toList d.offset d.length
  let numberWidth := (toString ((w.lines.getLast?.map Line.number).getD 0)).length
  let frame : Drawing := ⟨numberWidth, d.offset, d.offset + d.length, d.label⟩
  let isFlat := w.lines.any fun l => l.holds frame.start frame.stop
  let margin := copies (numberWidth + 2) ' '
  let body := w.lines.map fun l => if isFlat then frame.flatLine l else frame.tallLine l
  "  × " ++ d.message ++ "\n" ++
    margin ++ "╭─[" ++ d.sourceName ++ ":" ++ toString w.place.line ++ ":" ++
    toString w.place.column ++ "]\n" ++
    String.join body ++
    margin ++ "╰────\n" ++
    (match d.help with
      | none => ""
      | some help => "  help: " ++ help ++ "\n")

end ModulePurity
