import ModulePurity.Text.Cut
import ModulePurity.Text.Ends

/-!
# Glob patterns

Patterns for whole paths, matched character by character. A single star and a question mark also
match slashes. A double star has to be a whole segment of the pattern and goes on at the current
place, after any later slash, or at the end of the path. A class such as `[a-z]` or `[!x]` matches
one character.
-/

namespace ModulePurity

/-- The characters that a class lists. -/
inductive CharRange where
  | one (c : Char)
  | between (first last : Char)
deriving DecidableEq, Repr

namespace CharRange

/-- Whether a character is in the range. -/
def contains : CharRange → Char → Bool
  | one a, c => a == c
  | between a b, c => a ≤ c && c ≤ b

/-- Reads what stands between the brackets of a class. A hyphen between two characters makes a
range. -/
def readAll : List Char → List CharRange
  | a :: '-' :: b :: cs => between a b :: readAll cs
  | a :: cs => one a :: readAll cs
  | [] => []

end CharRange

/-- One element of a pattern. -/
inductive GlobToken where
  | literal (c : Char)
  | anyChar
  | anySequence
  /-- A double star with the slash that follows it. -/
  | anyFolders
  | oneOf (ranges : List CharRange)
  | noneOf (ranges : List CharRange)
deriving DecidableEq, Repr

/-- Why a text is no pattern. -/
inductive GlobFault.Reason where
  | tooManyStars
  | loneDoubleStar
  | badClass
deriving DecidableEq, Repr

/-- Where and why a text is no pattern; the position counts characters from zero. -/
structure GlobFault where
  position : Nat
  reason : GlobFault.Reason
deriving DecidableEq, Repr

namespace GlobFault

/-- The wording of a reason. -/
def Reason.message : Reason → String
  | tooManyStars => "wildcards are either regular `*` or recursive `**`"
  | loneDoubleStar => "recursive wildcards must form a single path component"
  | badClass => "invalid range pattern"

/-- The wording of a fault. -/
def message (e : GlobFault) : String :=
  "Pattern syntax error near position " ++ toString e.position ++ ": " ++ e.reason.message

end GlobFault

/-- A pattern as its elements in order. -/
structure Glob where
  tokens : List GlobToken
deriving DecidableEq, Repr

namespace Glob

/-! ## Reading -/

/-- A class that was read: its element, its length in characters, and what follows it. -/
structure ClassRead where
  token : GlobToken
  width : Nat
  rest : List Char

/-- Reads a class after its opening bracket. The first character never closes it. -/
def readClass? : List Char → Option ClassRead
  | '!' :: a :: cs =>
    (Text.cutAt? ']' cs).map fun (body, rest) =>
      ⟨.noneOf (CharRange.readAll (a :: body)), body.length + 4, rest⟩
  | '!' :: _ => none
  | a :: cs =>
    (Text.cutAt? ']' cs).map fun (body, rest) =>
      ⟨.oneOf (CharRange.readAll (a :: body)), body.length + 3, rest⟩
  | [] => none

/-- What follows a class is shorter than the class with it. -/
theorem length_readClass? {cs : List Char} {r : ClassRead} (h : readClass? cs = some r) :
    r.rest.length < cs.length := by
  unfold readClass? at h
  split at h
  · obtain ⟨⟨body, rest⟩, hcut, rfl⟩ := Option.map_eq_some_iff.1 h
    have := Text.length_of_cutAt? hcut
    simp only [List.length_cons]
    omega
  · cases h
  · obtain ⟨⟨body, rest⟩, hcut, rfl⟩ := Option.map_eq_some_iff.1 h
    have := Text.length_of_cutAt? hcut
    simp only [List.length_cons]
    omega
  · cases h

/-- Adds a double star to the elements read so far, given in reverse. A repeated one is dropped
unless it is the second element. -/
def addFolders : List GlobToken → List GlobToken
  | .anyFolders :: t :: ts => .anyFolders :: t :: ts
  | ts => .anyFolders :: ts

/-- Reads a pattern from character `pos` on. `fresh` tells that a segment starts here, and `done`
holds the elements read so far in reverse. -/
def parseFrom (pos : Nat) (fresh : Bool) (done : List GlobToken) :
    List Char → Except GlobFault (List GlobToken)
  | [] => .ok done.reverse
  | '*' :: '*' :: '*' :: _ => .error ⟨pos + 2, .tooManyStars⟩
  | '*' :: '*' :: cs =>
    if fresh then
      match cs with
      | [] => .ok (addFolders done).reverse
      | '/' :: cs => parseFrom (pos + 3) true (addFolders done) cs
      | _ => .error ⟨pos + 2, .loneDoubleStar⟩
    else .error ⟨pos - 1, .loneDoubleStar⟩
  | '*' :: cs => parseFrom (pos + 1) false (.anySequence :: done) cs
  | '?' :: cs => parseFrom (pos + 1) false (.anyChar :: done) cs
  | '[' :: cs =>
    match h : readClass? cs with
    | none => .error ⟨pos, .badClass⟩
    | some r =>
      have := length_readClass? h
      parseFrom (pos + r.width) false (r.token :: done) r.rest
  | c :: cs => parseFrom (pos + 1) (c == '/') (.literal c :: done) cs
termination_by cs => cs.length

/-- Reads a pattern. -/
def parse (text : String) : Except GlobFault Glob :=
  (parseFrom 0 true [] text.toList).map Glob.mk

/-! ## Matching -/

/-- Whether elements match a whole text. -/
def matchTokens : List GlobToken → List Char → Bool
  | [], cs => cs.isEmpty
  | .literal a :: ts, cs => Text.next (· == a) (matchTokens ts) cs
  | .anyChar :: ts, cs => Text.next (fun _ => true) (matchTokens ts) cs
  | .oneOf ranges :: ts, cs => Text.next (fun c => ranges.any (·.contains c)) (matchTokens ts) cs
  | .noneOf ranges :: ts, cs => Text.next (fun c => !ranges.any (·.contains c)) (matchTokens ts) cs
  | .anySequence :: ts, cs => Text.someEnd (matchTokens ts) cs
  | .anyFolders :: ts, cs =>
    matchTokens ts cs || (Text.someEndAfter (· == '/') (matchTokens ts) cs || matchTokens ts [])

/-- The answers of `matchTokens` for all ends of a text. -/
def matchTable : List GlobToken → List Char → List Bool
  | [], cs => Text.emptyTable cs
  | .literal a :: ts, cs => Text.nextTable (· == a) cs (matchTable ts cs)
  | .anyChar :: ts, cs => Text.nextTable (fun _ => true) cs (matchTable ts cs)
  | .oneOf ranges :: ts, cs =>
    Text.nextTable (fun c => ranges.any (·.contains c)) cs (matchTable ts cs)
  | .noneOf ranges :: ts, cs =>
    Text.nextTable (fun c => !ranges.any (·.contains c)) cs (matchTable ts cs)
  | .anySequence :: ts, cs => Text.pastTable (fun _ => true) cs (matchTable ts cs)
  | .anyFolders :: ts, cs =>
    let rest := matchTable ts cs
    let atEnd := rest.getLast?.getD false
    (Text.eitherTable rest (Text.afterTable (· == '/') cs rest)).map (· || atEnd)

/-- Whether a pattern matches a whole text. -/
def accepts (g : Glob) (text : String) : Bool :=
  Text.atStart (matchTable g.tokens text.toList)

theorem matchTable_eq (ts : List GlobToken) (cs : List Char) :
    matchTable ts cs = Text.table (matchTokens ts) cs := by
  induction ts with
  | nil => exact Text.emptyTable_eq cs
  | cons t ts ih =>
    cases t with
    | literal a => rw [matchTable, ih, Text.nextTable_table]; rfl
    | anyChar => rw [matchTable, ih, Text.nextTable_table]; rfl
    | oneOf ranges => rw [matchTable, ih, Text.nextTable_table]; rfl
    | noneOf ranges => rw [matchTable, ih, Text.nextTable_table]; rfl
    | anySequence => rw [matchTable, ih, Text.pastTable_table]; rfl
    | anyFolders =>
      rw [matchTable, ih, Text.afterTable_table, Text.eitherTable_table, Text.getLast_table,
        Text.map_table]
      simp only [Bool.or_assoc]
      rfl

/-- A pattern accepts what its elements match. -/
theorem accepts_eq (g : Glob) (text : String) :
    g.accepts text = matchTokens g.tokens text.toList := by
  rw [accepts, matchTable_eq, Text.atStart_table]

end Glob

end ModulePurity
