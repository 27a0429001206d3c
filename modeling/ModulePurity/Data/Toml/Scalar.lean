import ModulePurity.Data.Toml.Moment

/-!
# Scalars of settings files

Strings in their four forms, numbers, truth values and moments.
-/

namespace ModulePurity.Toml

/-! ## Characters and escapes -/

/-- A character that stands for itself between double quotes. -/
def isBasicChar (c : Char) : Bool :=
  isCommentChar c && c != '"' && c != '\\'

/-- A character that may stand between single quotes. -/
def isLiteralChar (c : Char) : Bool :=
  isCommentChar c && c.toNat != 0x27

/-- The character with a number, if there is one. -/
def charOfNumber? (n : Nat) : Option Char :=
  if n.isValidChar then some (Char.ofNat n) else none

/-- Reads a character given by `n` hexadecimal digits. -/
def codePoint (n : Nat) : Reader Char := fun cs =>
  (exactly n isHexDigit cs).bind fun (digits, rest) =>
    (charOfNumber? (digitsValue 16 digits)).map fun c => (c, rest)

/-- Reads what follows a backslash. -/
def escape : Reader Char
  | 'b' :: cs => some (Char.ofNat 8, cs)
  | 't' :: cs => some ('\t', cs)
  | 'n' :: cs => some ('\n', cs)
  | 'f' :: cs => some (Char.ofNat 12, cs)
  | 'r' :: cs => some ('\r', cs)
  | '"' :: cs => some ('"', cs)
  | '\\' :: cs => some ('\\', cs)
  | 'u' :: cs => codePoint 4 cs
  | 'U' :: cs => codePoint 8 cs
  | _ => none

/-! ## Strings -/

/-- Reads up to the closing double quote. -/
def basicTail : (fuel : Nat) → Reader (List Char)
  | 0, _ => none
  | fuel + 1, cs =>
    match cs with
    | [] => none
    | '"' :: rest => some ([], rest)
    | '\\' :: rest =>
      (escape rest).bind fun (c, rest) => mapped (basicTail fuel) (c :: ·) rest
    | c :: rest => if isBasicChar c then mapped (basicTail fuel) (c :: ·) rest else none

/-- Reads a string between double quotes on one line. -/
def basicString : Reader (List Char)
  | '"' :: cs => basicTail (cs.length + 1) cs
  | _ => none

/-- Reads a string between single quotes on one line. -/
def literalString : Reader (List Char) := fun cs =>
  (char (Char.ofNat 0x27) cs).bind fun (_, rest) =>
    (char (Char.ofNat 0x27) (rest.dropWhile isLiteralChar)).map fun (_, after) =>
      (rest.takeWhile isLiteralChar, after)

/-- The number of marks at the beginning of a text. -/
def countMarks (mark : Char) (cs : List Char) : Nat := (cs.takeWhile (· == mark)).length

/-- The end of a string over several lines: up to two of the three to five marks belong to it. -/
def closing? (mark : Char) (cs : List Char) : Option (List Char × List Char) :=
  let n := min (countMarks mark cs) 5
  if 3 ≤ n then some (List.replicate (n - 3) mark, cs.drop n) else none

/-- Whether an escape joins lines: after the backslash there are only blanks up to a line end. -/
def joinsLines (cs : List Char) : Bool := (lineEnd (skipSpace cs)).isSome

/-- The text without blanks and line ends at its beginning. -/
def skipBlankLines : (fuel : Nat) → List Char → List Char
  | 0, cs => cs
  | fuel + 1, cs =>
    match lineEnd (skipSpace cs) with
    | some (_, after) => skipBlankLines fuel after
    | none => skipSpace cs

/-- Reads up to the three closing double quotes. -/
def basicBlockTail : (fuel : Nat) → Reader (List Char)
  | 0, _ => none
  | fuel + 1, cs =>
    match closing? '"' cs with
    | some r => some r
    | none =>
      match lineEnd cs with
      | some (_, rest) => mapped (basicBlockTail fuel) ('\n' :: ·) rest
      | none =>
        match cs with
        | [] => none
        | '"' :: rest => mapped (basicBlockTail fuel) ('"' :: ·) rest
        | '\\' :: rest =>
          if joinsLines rest then basicBlockTail fuel (skipBlankLines rest.length rest)
          else (escape rest).bind fun (c, rest) => mapped (basicBlockTail fuel) (c :: ·) rest
        | c :: rest => if isBasicChar c then mapped (basicBlockTail fuel) (c :: ·) rest else none

/-- Reads up to the three closing single quotes. -/
def literalBlockTail : (fuel : Nat) → Reader (List Char)
  | 0, _ => none
  | fuel + 1, cs =>
    match closing? (Char.ofNat 0x27) cs with
    | some r => some r
    | none =>
      match lineEnd cs with
      | some (_, rest) => mapped (literalBlockTail fuel) ('\n' :: ·) rest
      | none =>
        match cs with
        | [] => none
        | c :: rest => if isCommentChar c then mapped (literalBlockTail fuel) (c :: ·) rest else none

/-- A text without one line end at its beginning. -/
def skipOneLineEnd (cs : List Char) : List Char :=
  match lineEnd cs with
  | some (_, rest) => rest
  | none => cs

/-- Reads a string in any of its four forms. -/
def string : Reader (List Char) := fun cs =>
  match word (List.replicate 3 '"') cs, word (List.replicate 3 (Char.ofNat 0x27)) cs with
  | some (_, rest), _ => basicBlockTail (rest.length + 1) (skipOneLineEnd rest)
  | none, some (_, rest) => literalBlockTail (rest.length + 1) (skipOneLineEnd rest)
  | none, none => orElse basicString literalString cs

/-! ## Numbers -/

/-- Reads the digits that follow the first one; an underscore may stand between two digits. -/
def moreDigits (isDigit : Char → Bool) : List Char → List Char × List Char
  | '_' :: d :: cs =>
    if isDigit d then
      let (digits, rest) := moreDigits isDigit cs
      (d :: digits, rest)
    else ([], '_' :: d :: cs)
  | d :: cs =>
    if isDigit d then
      let (digits, rest) := moreDigits isDigit cs
      (d :: digits, rest)
    else ([], d :: cs)
  | [] => ([], [])

/-- Reads digits with underscores between them. -/
def digits (isDigit : Char → Bool) : Reader (List Char) := fun cs =>
  (charOf isDigit cs).map fun (d, rest) =>
    let (ds, rest) := moreDigits isDigit rest
    (d :: ds, rest)

/-- Reads a sign; the answer says whether the number is negative. -/
def sign (cs : List Char) : Bool × List Char :=
  match cs with
  | '+' :: rest => (false, rest)
  | '-' :: rest => (true, rest)
  | rest => (false, rest)

/-- Reads the digits of a decimal number, which has no leading zero. -/
def decimalDigits : Reader (List Char)
  | '0' :: cs => some (['0'], cs)
  | cs => digits Char.isDigit cs

/-- The integer with a sign and a magnitude, if it fits into 64 bits. -/
def boundedInt? (negative : Bool) (magnitude : Nat) : Option Int :=
  if negative then if magnitude ≤ Nat.pow 2 63 then some (-(magnitude : Int)) else none
  else if magnitude < Nat.pow 2 63 then some magnitude else none

/-- Reads an integer in a base other than ten, which has no sign. -/
def basedInteger (mark : Char) (base : Nat) (isDigit : Char → Bool) : Reader Int := fun cs =>
  (word ['0', mark] cs).bind fun (_, rest) =>
    (digits isDigit rest).bind fun (ds, rest) =>
      (boundedInt? false (digitsValue base ds)).map fun n => (n, rest)

/-- Reads an integer in base ten. -/
def decimalInteger : Reader Int := fun cs =>
  let (negative, rest) := sign cs
  (decimalDigits rest).bind fun (ds, rest) =>
    (boundedInt? negative (digitsValue 10 ds)).map fun n => (n, rest)

/-- Reads an integer. -/
def integer : Reader Int :=
  orElse (basedInteger 'x' 16 isHexDigit)
    (orElse (basedInteger 'o' 8 fun c => 48 ≤ c.toNat && c.toNat ≤ 55)
      (orElse (basedInteger 'b' 2 fun c => c == '0' || c == '1') decimalInteger))

/-- Reads a fraction with its point. -/
def fraction : Reader (List Char)
  | '.' :: cs => digits Char.isDigit cs
  | _ => none

/-- Reads an exponent with its mark. -/
def exponent : Reader Int := fun cs =>
  (charOf (fun c => c == 'e' || c == 'E') cs).bind fun (_, rest) =>
    let (negative, rest) := sign rest
    (digits Char.isDigit rest).map fun (ds, rest) =>
      let n : Int := digitsValue 10 ds
      (if negative then -n else n, rest)

/-- The least number that is rounded to infinity by a format with 53 bits and exponents up to 1023. -/
def overflow : Nat := Nat.pow 2 1024 - Nat.pow 2 970

/-- Whether a decimal number, given by its significant digits and an exponent, is too large. -/
def isTooLarge (significant : List Char) (exponent : Int) : Bool :=
  let ds := significant.dropWhile (· == '0')
  let magnitude : Int := ds.length + exponent
  if ds.isEmpty || magnitude < 309 then false
  else if 309 < magnitude then true
  else
    match exponent with
    | .ofNat e => overflow ≤ digitsValue 10 ds * Nat.pow 10 e
    | .negSucc e => overflow * Nat.pow 10 (e + 1) ≤ digitsValue 10 ds

/-- Reads a number with a fraction or an exponent. A positive one must not be too large. -/
def plainDecimal : Reader Unit := fun cs =>
  let (negative, rest) := sign cs
  (decimalDigits rest).bind fun (whole, rest) =>
    match fraction rest with
    | some (part, rest) =>
      (optional exponent rest).bind fun (e, rest) =>
        if !negative && isTooLarge (whole ++ part) (e.getD 0 - part.length) then none
        else some ((), rest)
    | none =>
      (exponent rest).bind fun (e, rest) =>
        if !negative && isTooLarge whole e then none else some ((), rest)

/-- Reads a word for infinity or for no number. -/
def specialDecimal : Reader Unit := fun cs =>
  let (_, rest) := sign cs
  orElse (word "inf".toList) (word "nan".toList) rest

/-- Reads a number that is no integer and keeps its text. -/
def decimal : Reader String :=
  mapped (spanned (orElse plainDecimal specialDecimal)) String.ofList

/-! ## All scalars -/

/-- Reads a truth value. -/
def boolean : Reader Bool :=
  orElse (mapped (word "true".toList) fun _ => true) (mapped (word "false".toList) fun _ => false)

/-- Reads any scalar. -/
def scalar : Reader Value :=
  orElse (mapped string fun cs => .text (String.ofList cs))
    (orElse (mapped boolean .boolean)
      (orElse (mapped moment .moment)
        (orElse (mapped decimal .decimal) (mapped integer .integer))))

end ModulePurity.Toml
