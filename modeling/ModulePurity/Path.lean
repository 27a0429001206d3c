import ModulePurity.Text.Cut

/-!
# File paths

A path keeps the text that it was written with; what it denotes is its list of components. Repeated
slashes, trailing slashes and inner `.` segments make no component, while a leading `.` does.
Comparing, stripping and taking parents work on components, and a stripped path is the remaining
text as it was written.
-/

namespace ModulePurity

/-- A path as it was written. -/
structure Path where
  text : String
deriving DecidableEq, Repr

/-- One step of a path. -/
inductive Component where
  | root
  | current
  | parent
  | name (text : String)
deriving DecidableEq, Repr

namespace Component

/-- The root comes first, then `.`, then `..`, then names. -/
def rank : Component → Nat
  | root => 0
  | current => 1
  | parent => 2
  | name _ => 3

/-- The order of components; names are ordered by their characters. -/
def compare : Component → Component → Ordering
  | name a, name b => if a < b then .lt else if a = b then .eq else .gt
  | a, b => Ord.compare a.rank b.rank

end Component

namespace Path

/-! ## Segments and components -/

/-- A segment that makes no component. -/
def isVoid (segment : List Char) : Bool :=
  segment.isEmpty || segment == ['.']

/-- The component that a segment in the body of a path stands for. -/
def segmentComponent? (segment : List Char) : Option Component :=
  if isVoid segment then none
  else if segment == ['.', '.'] then some .parent
  else some (.name (String.ofList segment))

/-- A path read as its leading component, if it is the root or `.`, and the segments that follow. -/
structure Parts where
  head : Option Component
  body : List (List Char)

/-- Reads the characters of a path. -/
def Parts.ofChars (cs : List Char) : Parts :=
  match cs with
  | '/' :: rest => ⟨some .root, Text.fields '/' rest⟩
  | ['.'] => ⟨some .current, [[]]⟩
  | '.' :: '/' :: rest => ⟨some .current, [] :: Text.fields '/' rest⟩
  | cs => ⟨none, Text.fields '/' cs⟩

/-- The parts of a path. -/
def parts (p : Path) : Parts :=
  Parts.ofChars p.text.toList

/-- The characters that a leading component is written with. -/
def headChars : Option Component → List Char
  | some .root => ['/']
  | some .current => ['.']
  | _ => []

/-- The path written with the given parts. -/
def ofParts (p : Parts) : Path :=
  ⟨String.ofList (headChars p.head ++ Text.joinFields '/' p.body)⟩

/-- The components of a path in order. -/
def components (p : Path) : List Component :=
  p.parts.head.toList ++ p.parts.body.filterMap segmentComponent?

/-! ## Comparing -/

/-- Lexicographic order of component lists. -/
def compareComponents : List Component → List Component → Ordering
  | [], [] => .eq
  | [], _ :: _ => .lt
  | _ :: _, [] => .gt
  | a :: as, b :: bs => (a.compare b).then (compareComponents as bs)

/-- The order of paths. -/
def compare (p q : Path) : Ordering :=
  compareComponents p.components q.components

/-- Whether two paths have the same components. -/
def sameAs (p q : Path) : Bool :=
  p.components == q.components

/-- Whether the path starts at the root. -/
def isAbsolute (p : Path) : Bool :=
  p.text.toList.head? == some '/'

/-! ## Joining and taking apart -/

/-- Without the void segments at the end. -/
def dropVoidRight (segments : List (List Char)) : List (List Char) :=
  (segments.reverse.dropWhile isVoid).reverse

/-- The path `q` seen from `p`: an absolute `q` stands for itself. -/
def join (p q : Path) : Path :=
  if q.isAbsolute then q
  else
    let base := p.text.toList
    if base.isEmpty || base.getLast? == some '/' then ⟨p.text ++ q.text⟩
    else ⟨p.text ++ "/" ++ q.text⟩

/-- Takes the components off the front of the segments and gives the segments that are left. -/
def dropComponents? : List Component → List (List Char) → Option (List (List Char))
  | [], segments => some (dropVoidRight (segments.dropWhile isVoid))
  | c :: cs, segments =>
    match segments.dropWhile isVoid with
    | [] => none
    | s :: rest => if segmentComponent? s = some c then dropComponents? cs rest else none

/-- The rest of `p` below `base`, if the components of `base` are the first ones of `p`. -/
def strip? (p base : Path) : Option Path :=
  match base.components, p.parts.head with
  | [], _ => some (ofParts { p.parts with body := dropVoidRight p.parts.body })
  | c :: cs, some h =>
    if c = h then (dropComponents? cs p.parts.body).map fun body => ofParts ⟨none, body⟩ else none
  | cs, none => (dropComponents? cs p.parts.body).map fun body => ofParts ⟨none, body⟩

/-- The rest of `p` below `base`, or `p` itself if it does not lie below it. -/
def relativeTo (p base : Path) : Path :=
  (p.strip? base).getD p

/-- The path without its last component. -/
def parent? (p : Path) : Option Path :=
  match (dropVoidRight p.parts.body).reverse, p.parts.head with
  | _ :: rest, head => some (ofParts ⟨head, dropVoidRight rest.reverse⟩)
  | [], some .current => some ⟨""⟩
  | [], _ => none

/-- The last component, if it is a name. -/
def fileName? (p : Path) : Option (List Char) :=
  match (dropVoidRight p.parts.body).getLast? with
  | none => none
  | some segment => if segment == ['.', '.'] then none else some segment

/-- What follows the last dot of the file name; a dot at the very beginning does not count. -/
def extension? (p : Path) : Option (List Char) :=
  p.fileName?.bind fun name =>
    match Text.cutAt? '.' name.reverse with
    | none => none
    | some (after, before) => if before.isEmpty then none else some after.reverse

end Path

end ModulePurity
