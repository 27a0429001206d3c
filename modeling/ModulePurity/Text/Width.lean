import ModulePurity.Text.Columns

/-!
# Columns

The columns that text takes on a terminal. A tab goes to the next multiple of four columns, and an
escape sequence, from the escape character to the letter `m`, takes none.
-/

namespace ModulePurity.Text

/-- The distance between tab stops. -/
def tabWidth : Nat := 4

/-- The columns of each character from a column on. `inEscape` tells that an escape sequence is not
yet over. -/
def widthsFrom (column : Nat) (inEscape : Bool) : List Char → List Nat
  | [] => []
  | c :: cs =>
    if inEscape then 0 :: widthsFrom column (c != 'm') cs
    else if c = '\x1b' then 0 :: widthsFrom column true cs
    else
      let width := if c = '\t' then tabWidth - column % tabWidth else charWidth c
      width :: widthsFrom (column + width) false cs

/-- The columns of each character of a line. -/
def widths (cs : List Char) : List Nat := widthsFrom 0 false cs

/-- The columns of a line. -/
def width (cs : List Char) : Nat := (widths cs).foldl (· + ·) 0

/-- A line with blanks in the place of tabs. -/
def expandTabs (cs : List Char) : List Char :=
  (cs.zip (widths cs)).flatMap fun (c, n) => if c = '\t' then List.replicate n ' ' else [c]

end ModulePurity.Text
