import ModulePurity.Text.Cut
import ModulePurity.Text.Ends

/-!
# Patterns of ignore files

Patterns for relative paths, matched byte by byte. A star and a question mark never match a slash. A
double star between slashes stands for any number of folders, braces hold alternatives, a backslash
takes the next character as it is, and a class such as `[a-z]` or `[!x]` matches one byte. A bracket
that is never closed stands for itself, and so do all brackets after it.
-/

namespace ModulePurity.Ignore

/-- One element of a pattern. -/
inductive Piece where
  | literal (c : Char)
  | anyByte
  | anySequence
  /-- A double star at the beginning, with its slash. -/
  | leadingFolders
  /-- A double star at the end, with the slash before it. -/
  | trailingFolders
  /-- A double star between two slashes, with both. -/
  | innerFolders
  | byteClass (negated : Bool) (ranges : List (Char × Char))
  /-- Alternatives; none at all match the empty text. -/
  | choice (branches : List (List Piece))

/-- The bytes that a character takes. -/
def charBytes (c : Char) : List UInt8 := (String.singleton c).toUTF8.toList

/-- The byte of a slash. -/
def slash : UInt8 := 0x2F

/-! ## Matching -/

/-- Whether a range of a class contains a byte. The ends are taken byte by byte, and only the last
byte of the first end and the first byte of the second span a range. -/
def rangeContains (range : Char × Char) (b : UInt8) : Bool :=
  let first := charBytes range.1
  let last := charBytes range.2
  if range.1 = range.2 then first.contains b
  else
    first.contains b || last.contains b ||
      (first.getLastD 0 ≤ b && b ≤ last.headD 0)

/-- Whether a class matches a byte. -/
def classContains (negated : Bool) (ranges : List (Char × Char)) (b : UInt8) : Bool :=
  (ranges.any fun r => rangeContains r b) != negated

/-- Whether a predicate holds of a text, or of what follows one of its slashes. -/
def hereOrBelow (p : List UInt8 → Bool) (bs : List UInt8) : Bool :=
  p bs || Text.someEndAfter (· == slash) p bs

mutual

/-- Whether a text starts with a match of a piece, and a predicate holds of the rest. -/
def Piece.matchThen : Piece → (List UInt8 → Bool) → List UInt8 → Bool
  | .literal c, p, bs => Text.nextAre (charBytes c) p bs
  | .anyByte, p, bs => Text.next (· != slash) p bs
  | .anySequence, p, bs => Text.someEndPast (· != slash) p bs
  | .leadingFolders, p, bs => hereOrBelow p bs
  | .trailingFolders, p, bs => Text.next (· == slash) (Text.someEnd p) bs
  | .innerFolders, p, bs => Text.next (· == slash) (hereOrBelow p) bs
  | .byteClass negated ranges, p, bs => Text.next (classContains negated ranges) p bs
  | .choice [], p, bs => p bs
  | .choice (branch :: branches), p, bs =>
    matchAllThen branch p bs || matchSomeThen branches p bs

/-- Whether a text starts with matches of pieces one after another. -/
def matchAllThen : List Piece → (List UInt8 → Bool) → List UInt8 → Bool
  | [], p, bs => p bs
  | piece :: pieces, p, bs => piece.matchThen (matchAllThen pieces p) bs

/-- Whether a text starts with a match of one of several alternatives. -/
def matchSomeThen : List (List Piece) → (List UInt8 → Bool) → List UInt8 → Bool
  | [], _, _ => false
  | branch :: branches, p, bs => matchAllThen branch p bs || matchSomeThen branches p bs

end

/-! ## Matching all ends at once -/

/-- The table of `hereOrBelow`. -/
def hereOrBelowTable (bs : List UInt8) (t : List Bool) : List Bool :=
  Text.eitherTable t (Text.afterTable (· == slash) bs t)

mutual

/-- The table of `Piece.matchThen`. -/
def Piece.matchTable (bs : List UInt8) : Piece → List Bool → List Bool
  | .literal c, t => Text.nextAreTable (charBytes c) bs t
  | .anyByte, t => Text.nextTable (· != slash) bs t
  | .anySequence, t => Text.pastTable (· != slash) bs t
  | .leadingFolders, t => hereOrBelowTable bs t
  | .trailingFolders, t => Text.nextTable (· == slash) bs (Text.pastTable (fun _ => true) bs t)
  | .innerFolders, t => Text.nextTable (· == slash) bs (hereOrBelowTable bs t)
  | .byteClass negated ranges, t => Text.nextTable (classContains negated ranges) bs t
  | .choice [], t => t
  | .choice (branch :: branches), t =>
    Text.eitherTable (matchAllTable bs branch t) (matchSomeTable bs branches t)

/-- The table of `matchAllThen`. -/
def matchAllTable (bs : List UInt8) : List Piece → List Bool → List Bool
  | [], t => t
  | piece :: pieces, t => piece.matchTable bs (matchAllTable bs pieces t)

/-- The table of `matchSomeThen`. -/
def matchSomeTable (bs : List UInt8) : List (List Piece) → List Bool → List Bool
  | [], _ => Text.table (fun _ => false) bs
  | branch :: branches, t =>
    Text.eitherTable (matchAllTable bs branch t) (matchSomeTable bs branches t)

end

theorem hereOrBelowTable_table (p : List UInt8 → Bool) (bs : List UInt8) :
    hereOrBelowTable bs (Text.table p bs) = Text.table (hereOrBelow p) bs := by
  rw [hereOrBelowTable, Text.afterTable_table, Text.eitherTable_table]
  rfl

mutual

theorem matchTable_table (piece : Piece) (p : List UInt8 → Bool) (bs : List UInt8) :
    piece.matchTable bs (Text.table p bs) = Text.table (piece.matchThen p) bs := by
  cases piece with
  | literal c => rw [Piece.matchTable, Text.nextAreTable_table]; congr 1
  | anyByte => rw [Piece.matchTable, Text.nextTable_table]; congr 1
  | anySequence => rw [Piece.matchTable, Text.pastTable_table]; congr 1
  | leadingFolders => rw [Piece.matchTable, hereOrBelowTable_table]; congr 1
  | trailingFolders =>
    rw [Piece.matchTable, Text.pastTable_table, Text.nextTable_table]; congr 1
  | innerFolders => rw [Piece.matchTable, hereOrBelowTable_table, Text.nextTable_table]; congr 1
  | byteClass negated ranges => rw [Piece.matchTable, Text.nextTable_table]; congr 1
  | choice branches =>
    cases branches with
    | nil => rw [Piece.matchTable]; congr 1
    | cons branch branches =>
      rw [Piece.matchTable, matchAllTable_table, matchSomeTable_table, Text.eitherTable_table]
      congr 1

theorem matchAllTable_table (pieces : List Piece) (p : List UInt8 → Bool) (bs : List UInt8) :
    matchAllTable bs pieces (Text.table p bs) = Text.table (matchAllThen pieces p) bs := by
  cases pieces with
  | nil => rw [matchAllTable]; congr 1
  | cons piece pieces =>
    rw [matchAllTable, matchAllTable_table, matchTable_table]
    congr 1

theorem matchSomeTable_table (branches : List (List Piece)) (p : List UInt8 → Bool)
    (bs : List UInt8) :
    matchSomeTable bs branches (Text.table p bs) = Text.table (matchSomeThen branches p) bs := by
  cases branches with
  | nil => rw [matchSomeTable]; congr 1
  | cons branch branches =>
    rw [matchSomeTable, matchAllTable_table, matchSomeTable_table, Text.eitherTable_table]
    congr 1

end

/-- A pattern as its elements in order. -/
structure Pattern where
  pieces : List Piece

/-- Whether a pattern is a double star alone. -/
def Pattern.isUniversal (pattern : Pattern) : Bool :=
  match pattern.pieces with
  | [.leadingFolders] => true
  | _ => false

/-- Whether a pattern matches a whole relative path. A double star alone matches everything. -/
def Pattern.accepts (pattern : Pattern) (path : String) : Bool :=
  let bs := path.toUTF8.toList
  pattern.isUniversal || Text.atStart (matchAllTable bs pattern.pieces (Text.emptyTable bs))

/-- A pattern accepts what its pieces match one after another. -/
theorem Pattern.accepts_eq (pattern : Pattern) (path : String) :
    pattern.accepts path =
      (pattern.isUniversal || matchAllThen pattern.pieces List.isEmpty path.toUTF8.toList) := by
  rw [accepts, Text.emptyTable_eq, matchAllTable_table, Text.atStart_table]

/-! ## Reading -/

/-- Alternatives that are being read: those that are complete, and the pieces of the current one,
last first. -/
structure Draft where
  finished : List (List Piece)
  current : List Piece

/-- A draft with nothing in it. -/
def Draft.fresh : Draft := ⟨[], []⟩

/-- The draft with a piece added. -/
def Draft.add (d : Draft) (piece : Piece) : Draft := { d with current := piece :: d.current }

/-- The draft with its last piece replaced. -/
def Draft.replaceLast (d : Draft) (f : Option Piece → Piece) : Draft :=
  { d with current := f d.current.head? :: d.current.tail }

/-- Whether a piece stands for nothing at all. -/
def Piece.isNothing : Piece → Bool
  | .choice [] => true
  | _ => false

/-- The alternatives of a finished draft as one piece, without empty ones. -/
def Draft.close (d : Draft) : Piece :=
  .choice (((d.current.reverse :: d.finished).reverse).filter fun branch =>
    !branch.all Piece.isNothing)

/-- Why a text is no pattern. -/
inductive PatternFault where
  /-- A closing brace without an opening one. -/
  | unopenedBrace
  /-- An opening brace without a closing one. -/
  | unclosedBrace
  /-- The end of a range comes before its beginning. -/
  | badRange (first last : Char)
  /-- A backslash comes last. -/
  | loneBackslash
deriving DecidableEq, Repr

/-- The wording of a fault. -/
def PatternFault.message : PatternFault → String
  | unopenedBrace =>
    "unopened alternate group; missing '\x7b' (maybe escape '\x7d' with '[\x7d]'?)"
  | unclosedBrace =>
    "unclosed alternate group; missing '\x7d' (maybe escape '\x7b' with '[\x7b]'?)"
  | badRange first last =>
    "invalid range; '" ++ first.toString ++ "' > '" ++ last.toString ++ "'"
  | loneBackslash => "dangling '\\'"

/-- The class that is being read. -/
structure ClassDraft where
  /-- The ranges so far, last first. -/
  ranges : List (Char × Char)
  /-- Whether a hyphen waits for the end of the last range. -/
  pending : Bool

/-- The outcome of reading a class. -/
inductive ClassRead where
  | unclosed
  | badRange (first last : Char)
  | closed (ranges : List (Char × Char)) (rest : List Char)

/-- Where the last range starts, which is at a character unless there is none. -/
def ClassDraft.lastStart (d : ClassDraft) (c : Char) : Char := (d.ranges.head?.map Prod.fst).getD c

/-- Ends the last range at a character. -/
def ClassDraft.extend (d : ClassDraft) (c : Char) : ClassDraft :=
  ⟨(d.lastStart c, c) :: d.ranges.tail, false⟩

/-- Reads a class up to its closing bracket, which never comes first. -/
def readClass (first : Bool) (d : ClassDraft) : List Char → ClassRead
  | [] => .unclosed
  | c :: cs =>
    if c = ']' ∧ ¬ first then
      .closed (if d.pending then ('-', '-') :: d.ranges else d.ranges).reverse cs
    else if d.pending then
      if c < d.lastStart c then .badRange (d.lastStart c) c else readClass false (d.extend c) cs
    else if c = '-' ∧ ¬ first then readClass false { d with pending := true } cs
    else readClass false ⟨(c, c) :: d.ranges, false⟩ cs

/-- The state of a reader of patterns. -/
structure Reader where
  /-- The drafts of the alternatives that are open, innermost first. -/
  enclosing : List Draft
  draft : Draft
  /-- The character before the current one. -/
  previous : Option Char
  /-- Whether a bracket stands for itself. -/
  plainBrackets : Bool

/-- The reader with a piece added, after the character `c`. -/
def Reader.add (r : Reader) (piece : Piece) (c : Char) : Reader :=
  { r with draft := r.draft.add piece, previous := some c }

/-- Whether the reader is inside braces. -/
def Reader.inBraces (r : Reader) : Bool := !r.enclosing.isEmpty

/-- The reader after two stars that mean no more than one. -/
def Reader.addStars (r : Reader) : Reader :=
  (r.add .anySequence '*').add .anySequence '*'

/-- The reader after a double star that takes the place of the piece before it. -/
def Reader.addFolders (r : Reader) (atEnd : Bool) (c : Char) : Reader :=
  { r with
    previous := some c
    draft := r.draft.replaceLast fun
      | some .leadingFolders => .leadingFolders
      | some .trailingFolders => .trailingFolders
      | _ => if atEnd then .trailingFolders else .innerFolders }

/-- The reader after a double star, with what follows it. -/
def Reader.doubleStar (r : Reader) (cs : List Char) : Reader × List Char :=
  if r.draft.current.isEmpty then
    match cs with
    | [] => (r.add .leadingFolders '*', [])
    | '/' :: rest => (r.add .leadingFolders '/', rest)
    | cs => (r.addStars, cs)
  else if r.previous != some '/' &&
      !(r.inBraces && (r.previous == some ',' || r.previous == some '\x7b')) then
    (r.addStars, cs)
  else
    match cs with
    | [] => (r.addFolders true '*', [])
    | '/' :: rest => (r.addFolders false '/', rest)
    | c :: rest =>
      if r.inBraces && (c == ',' || c == '\x7d') then (r.addFolders true '*', c :: rest)
      else (r.addStars, c :: rest)

/-- What follows a double star is never longer. -/
theorem length_doubleStar (r : Reader) (cs : List Char) :
    (r.doubleStar cs).2.length ≤ cs.length := by
  unfold Reader.doubleStar
  split
  · split <;> simp
  · split
    · simp
    · split
      · simp
      · simp
      · split <;> simp

/-- A class after its opening bracket: whether it is negated, and how reading it ends. -/
def readBracket (cs : List Char) : Bool × ClassRead :=
  match cs with
  | '!' :: cs | '^' :: cs => (true, readClass true ⟨[], false⟩ cs)
  | cs => (false, readClass true ⟨[], false⟩ cs)

/-- What follows a closed class is shorter than the class with it. -/
theorem length_readClass {first : Bool} {d : ClassDraft} {cs rest : List Char}
    {ranges : List (Char × Char)} (h : readClass first d cs = .closed ranges rest) :
    rest.length < cs.length := by
  induction cs generalizing first d with
  | nil => cases h
  | cons c cs ih =>
    simp only [List.length_cons]
    rw [readClass] at h
    split at h
    · cases h; omega
    · split at h
      · split at h
        · cases h
        · have := ih h; omega
      · split at h
        · have := ih h; omega
        · have := ih h; omega

theorem length_readBracket {negated : Bool} {cs rest : List Char} {ranges : List (Char × Char)}
    (h : readBracket cs = (negated, .closed ranges rest)) : rest.length < cs.length := by
  unfold readBracket at h
  split at h
  · have := length_readClass (Prod.mk.inj h).2
    simp only [List.length_cons]
    omega
  · have := length_readClass (Prod.mk.inj h).2
    simp only [List.length_cons]
    omega
  · exact length_readClass (Prod.mk.inj h).2

/-- Reads a pattern to its end. -/
def Reader.run (r : Reader) : List Char → Except PatternFault Pattern
  | [] => if r.inBraces then .error .unclosedBrace else .ok ⟨r.draft.current.reverse⟩
  | '\\' :: c :: cs => (r.add (.literal c) c).run cs
  | ['\\'] => .error .loneBackslash
  | '?' :: cs => (r.add .anyByte '?').run cs
  | '*' :: '*' :: cs =>
    have := length_doubleStar r cs
    (r.doubleStar cs).1.run (r.doubleStar cs).2
  | '*' :: cs => (r.add .anySequence '*').run cs
  | '\x7b' :: cs =>
    Reader.run
      { r with enclosing := r.draft :: r.enclosing, draft := .fresh, previous := some '\x7b' } cs
  | '\x7d' :: cs =>
    match r.enclosing with
    | [] => .error .unopenedBrace
    | outer :: enclosing =>
      Reader.run
        { r with
          enclosing := enclosing, draft := outer.add r.draft.close, previous := some '\x7d' } cs
  | ',' :: cs =>
    if r.inBraces then
      Reader.run
        { r with
          draft := ⟨r.draft.current.reverse :: r.draft.finished, []⟩, previous := some ',' } cs
    else (r.add (.literal ',') ',').run cs
  | '[' :: cs =>
    if r.plainBrackets then (r.add (.literal '[') '[').run cs
    else
      match h : readBracket cs with
      | (_, .unclosed) =>
        Reader.run { r.add (.literal '[') '[' with plainBrackets := true } cs
      | (_, .badRange first last) => .error (.badRange first last)
      | (negated, .closed ranges rest) =>
        have := length_readBracket h
        (r.add (.byteClass negated ranges) ']').run rest
  | c :: cs => (r.add (.literal c) c).run cs
termination_by cs => cs.length

/-- Reads a pattern. -/
def Pattern.parse (cs : List Char) : Except PatternFault Pattern :=
  Reader.run ⟨[], .fresh, none, false⟩ cs

end ModulePurity.Ignore
