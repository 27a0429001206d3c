import ModulePurity.Ignore.Rules

/-!
# The user's ignore file

The user can name a file with rules for all repositories in the version control settings of the home
folder. Of these settings only the line with the file is looked for: its key in any case, an equals
sign, and a path that may stand in quotes and in which a tilde stands for the home folder. Blanks may
stand between them and may include line ends, and nothing else may follow on the line.
-/

namespace ModulePurity.Ignore

/-! ## The line with the file -/

/-- A blank or a line end. -/
def isBlankByte (b : UInt8) : Bool := b == 0x20 || (0x09 ≤ b && b ≤ 0x0D)

/-- The byte of a double quote. -/
def quoteByte : UInt8 := 0x22

/-- The byte of a newline. -/
def newlineByte : UInt8 := 0x0A

/-- The key of the line in lower case. -/
def excludesKey : List UInt8 := "excludesfile".toUTF8.toList

/-- A letter in lower case. -/
def lowerByte (b : UInt8) : UInt8 := if 0x41 ≤ b && b ≤ 0x5A then b + 0x20 else b

/-- What follows the blanks at the beginning. -/
def skipBlankBytes (bs : List UInt8) : List UInt8 := bs.dropWhile isBlankByte

/-- Whether only blanks are left up to the end of a line. -/
def endsLine (bs : List UInt8) : Bool :=
  (skipBlankBytes bs).isEmpty || (bs.takeWhile isBlankByte).contains newlineByte

/-- Whether a closing quote is next, and only blanks are left after it. -/
def endsLineAfterQuote (bs : List UInt8) : Bool :=
  match bs with
  | b :: rest => b == quoteByte && endsLine rest
  | [] => false

/-- The word at the beginning, if it is all that is left on its line; a quote at its end is not part
of it. -/
def lastWord? (bs : List UInt8) : Option (List UInt8) :=
  let word := bs.takeWhile (!isBlankByte ·)
  let rest := bs.drop word.length
  if word.isEmpty then none
  else if 2 ≤ word.length && word.getLast? == some quoteByte && endsLine rest then
    some word.dropLast
  else if endsLine rest || endsLineAfterQuote (skipBlankBytes rest) then some word
  else none

/-- The value after the equals sign; a quote at its beginning is not part of it. -/
def quotedWord? (bs : List UInt8) : Option (List UInt8) :=
  match bs with
  | [] => none
  | b :: rest =>
    if b == quoteByte then (lastWord? (skipBlankBytes rest)).or (lastWord? bs) else lastWord? bs

/-- The value of the line that starts here. -/
def excludesHere? (bs : List UInt8) : Option (List UInt8) :=
  let line := skipBlankBytes bs
  if (line.take excludesKey.length).map lowerByte == excludesKey then
    match skipBlankBytes (line.drop excludesKey.length) with
    | 0x3D :: rest => quotedWord? (skipBlankBytes rest)
    | _ => none
  else none

/-- The value of the first line that has one. `isFresh` tells that a line starts here. -/
def findExcludes? (isFresh : Bool) : List UInt8 → Option (List UInt8)
  | [] => none
  | b :: bs =>
    match if isFresh then excludesHere? (b :: bs) else none with
    | some value => some value
    | none => findExcludes? (b == newlineByte) bs

/-! ## The file -/

/-- A path with the home folder in the place of tildes. -/
def expandHome (home : Path) (text : String) : Path :=
  ⟨String.join (text.toList.map fun c => if c = '~' then home.text else c.toString)⟩

/-- The path of the user's ignore file. -/
def userFile? (t : FileTree) (home : Path) : Option Path := do
  let place ← (t.follow [] (home.join ⟨".gitconfig"⟩)).toOption
  let settings ← t.file? place
  let value ← findExcludes? true settings.bytes
  let text ← String.fromUTF8? ⟨value.toArray⟩
  return expandHome home text

/-- The rules of the user, seen from a base folder. -/
def userRules (t : FileTree) (base : Place) (home : Option Path) : List Rule :=
  let rules? : Option (List Rule) := do
    let file ← userFile? t (← home)
    let place ← (t.follow base file).toOption
    let content ← t.file? place
    return (RuleFile.read base file content).rules
  rules?.getD []

end ModulePurity.Ignore
