import ModulePurity.Text.Cut

/-!
# Readers

A reader takes something off the front of a text and gives it with the rest of the text, or fails.
-/

namespace ModulePurity.Toml

/-- Takes a value off the front of a text. -/
abbrev Reader (α : Type) := List Char → Option (α × List Char)

/-- Takes one given character. -/
def char (c : Char) : Reader Unit
  | [] => none
  | d :: ds => if c = d then some ((), ds) else none

/-- Takes one character of a class. -/
def charOf (p : Char → Bool) : Reader Char
  | [] => none
  | c :: cs => if p c then some (c, cs) else none

/-- Takes a given word. -/
def word (w : List Char) : Reader Unit := fun cs =>
  (Text.dropWord? w cs).map fun rest => ((), rest)

/-- Takes exactly `n` characters of a class. -/
def exactly (n : Nat) (p : Char → Bool) : Reader (List Char) := fun cs =>
  if (cs.take n).length = n ∧ (cs.take n).all p then some (cs.take n, cs.drop n) else none

/-- Takes the longest run of characters of a class, which must not be empty. -/
def some1 (p : Char → Bool) : Reader (List Char) := fun cs =>
  if (cs.takeWhile p).isEmpty then none else some (cs.takeWhile p, cs.dropWhile p)

/-- The first reader that succeeds. -/
def orElse {α : Type} (a b : Reader α) : Reader α := fun cs =>
  match a cs with
  | some r => some r
  | none => b cs

/-- Reads if possible, and takes nothing otherwise. -/
def optional {α : Type} (a : Reader α) : Reader (Option α) := fun cs =>
  match a cs with
  | some (x, rest) => some (some x, rest)
  | none => some (none, cs)

/-- Changes what is read. -/
def mapped {α β : Type} (a : Reader α) (f : α → β) : Reader β := fun cs =>
  (a cs).map fun (x, rest) => (f x, rest)

/-- Keeps the characters that a reader takes. -/
def spanned {α : Type} (a : Reader α) : Reader (List Char) := fun cs =>
  (a cs).map fun (_, rest) => (cs.take (cs.length - rest.length), rest)

/-! ## Blanks, comments and line ends -/

/-- A space or tab. -/
def isSpace (c : Char) : Bool := c == ' ' || c == '\t'

/-- A character that may stand in a comment. -/
def isCommentChar (c : Char) : Bool :=
  c == '\t' || (0x20 ≤ c.toNat && c.toNat ≤ 0x7E) || 0x80 ≤ c.toNat

/-- The text without spaces and tabs at its beginning. -/
def skipSpace (cs : List Char) : List Char := cs.dropWhile isSpace

/-- The text without a comment at its beginning. -/
def skipComment (cs : List Char) : List Char :=
  match cs with
  | '#' :: rest => rest.dropWhile isCommentChar
  | cs => cs

/-- Takes a line end. -/
def lineEnd : Reader Unit
  | '\n' :: cs => some ((), cs)
  | '\r' :: '\n' :: cs => some ((), cs)
  | _ => none

/-- Takes the rest of a line, which may hold a comment. -/
def lineRest : Reader Unit := fun cs =>
  match skipComment (skipSpace cs) with
  | [] => some ((), [])
  | rest => lineEnd rest

/-- The text without spaces, comments and line ends at its beginning; `fuel` bounds the number of
lines. -/
def skipLines : (fuel : Nat) → List Char → List Char
  | 0, cs => cs
  | fuel + 1, cs =>
    let rest := skipComment (skipSpace cs)
    match lineEnd rest with
    | some (_, after) => skipLines fuel after
    | none => rest

/-! ## Digits -/

/-- The value of a hexadecimal digit. -/
def hexValue (c : Char) : Nat :=
  if c.isDigit then c.toNat - 48
  else if 97 ≤ c.toNat then c.toNat - 87
  else c.toNat - 55

/-- A hexadecimal digit. -/
def isHexDigit (c : Char) : Bool :=
  c.isDigit || (97 ≤ c.toNat && c.toNat ≤ 102) || (65 ≤ c.toNat && c.toNat ≤ 70)

/-- The number written with the given digits. -/
def digitsValue (base : Nat) (digits : List Char) : Nat :=
  digits.foldl (fun n d => n * base + hexValue d) 0

end ModulePurity.Toml
