import ModulePurity.Text.Bytes
import ModulePurity.Text.Cut
import ModulePurity.Tree.Node

/-!
# Call paths

A call path is a dotted pattern for the target of a call, such as `Object.freeze`, `x.*` or
`import.meta.pure`. Each segment is `*` or a word over letters, digits, `$` and `_`. A target is
matched from its outermost property inwards; a leading `*` accepts any innermost expression, any
other `*` any property name. A computed access never matches, and parentheses do not matter. Behind
a leading `import.` stands the keyword of a meta-property.
-/

namespace ModulePurity.Purity

/-- One segment of a call path. -/
inductive Segment where
  | any
  | word (text : List Char)
deriving DecidableEq, Repr

namespace Segment

/-- A character of a word. -/
def isWordChar (c : Char) : Bool :=
  c == '$' || c == '_' || c.isAlphanum

/-- Reads a segment. -/
def parse? (cs : List Char) : Option Segment :=
  if cs == ['*'] then some any
  else if cs.isEmpty then none
  else if cs.all isWordChar then some (word cs)
  else none

/-- Whether the segment accepts a property name. -/
def accepts : Segment → List Char → Bool
  | any, name => !name.isEmpty
  | word w, name => w == name

/-- The characters that a segment is written with. -/
def chars : Segment → List Char
  | any => ['*']
  | word w => w

end Segment

/-- A well-formed call path. -/
structure CallPath where
  /-- The leftmost segment. -/
  anchor : Segment
  /-- The other segments from left to right. -/
  properties : List Segment
deriving DecidableEq, Repr

/-! ## Reading a call path -/

/-- Reads all segments, or none if one of them is malformed. -/
def parseSegments? : List (List Char) → Option (List Segment)
  | [] => some []
  | f :: fs => (Segment.parse? f).bind fun s => (parseSegments? fs).map (s :: ·)

/-- Reads a call path. -/
def CallPath.parse? (raw : String) : Option CallPath :=
  match parseSegments? (Text.fields '.' raw.toList) with
  | some (anchor :: properties) => some ⟨anchor, properties⟩
  | _ => none

/-- Whether a text is a well-formed call path. -/
def CallPath.isValid (raw : String) : Bool := (CallPath.parse? raw).isSome

/-- Whether the first property is the keyword of a meta-property. -/
def CallPath.throughMeta (p : CallPath) : Bool :=
  p.anchor == .word "import".toList && !p.properties.isEmpty

/-! ## Looking at a call target -/

mutual

/-- The expression inside any number of parentheses. -/
def unwrapParens : Node → Node
  | .mk label children =>
    if label.kind == "parenthesized_expression" then unwrapFirst (.mk label children) children
    else .mk label children

/-- The unwrapped first named child that is no comment, or `outer` if there is none. -/
def unwrapFirst (outer : Node) : List Node → Node
  | [] => outer
  | c :: cs =>
    if c.label.named && c.kind != "comment" then unwrapParens c else unwrapFirst outer cs

end

/-- The characters that a node covers. -/
def nodeChars? (source : List Char) (n : Node) : Option (List Char) :=
  Text.slice? source n.start n.stop

/-- The name of an identifier or keyword; a private name goes without its hash signs. -/
def nameOf? (source : List Char) (n : Node) : Option (List Char) :=
  match n.kind with
  | "identifier" | "property_identifier" => nodeChars? source n
  | "private_property_identifier" => (nodeChars? source n).map (List.dropWhile (· == '#'))
  | "import" => some "import".toList
  | "new" => some "new".toList
  | _ => none

/-- The name of the property that a member access or a meta-property ends in. -/
def propertyName? (source : List Char) (n : Node) : Option (List Char) :=
  match n.kind with
  | "member_expression" => (n.child? .property).bind (nameOf? source)
  | "meta_property" =>
    n.children.getLast?.bind fun last =>
      match last.kind with
      | "meta" => some "meta".toList
      | "target" => some "target".toList
      | _ => none
  | _ => none

/-- What a member access takes its property from. -/
def objectOf? (n : Node) : Option Node :=
  if n.kind == "member_expression" then n.child? .object else none

/-- The keyword that a meta-property starts with. -/
def metaOf? (n : Node) : Option Node :=
  if n.kind == "meta_property" then n.children.head? else none

/-! ## Matching -/

/-- Whether the innermost expression of a target is acceptable. -/
def anchorMatches (anchor : Segment) (source : List Char) (n : Node) : Bool :=
  match anchor with
  | .any => true
  | .word w => nameOf? source n == some w

/-- Goes one property inwards if the segment accepts the outermost property of an unwrapped node. -/
def enter? (source : List Char) (segment : Segment) (inner : Node → Option Node) (n : Node) :
    Option Node :=
  (propertyName? source n).bind fun name =>
    if segment.accepts name then (inner n).map unwrapParens else none

/-- Matches the properties, given from the outermost one inwards, and then the anchor. -/
def matchInwards (throughMeta : Bool) (anchor : Segment) (source : List Char) :
    List Segment → Node → Bool
  | [], n => anchorMatches anchor source n
  | [s], n =>
    match enter? source s (if throughMeta then metaOf? else objectOf?) n with
    | none => false
    | some inner => anchorMatches anchor source inner
  | s :: t :: rest, n =>
    match enter? source s objectOf? n with
    | none => false
    | some inner => matchInwards throughMeta anchor source (t :: rest) inner

/-- Whether a call target matches a well-formed call path. -/
def CallPath.matches (p : CallPath) (source : List Char) (target : Node) : Bool :=
  matchInwards p.throughMeta p.anchor source p.properties.reverse (unwrapParens target)

/-- Whether a call target matches a text read as a call path. A malformed text matches nothing. -/
def rawMatches (raw : String) (source : List Char) (target : Node) : Bool :=
  match CallPath.parse? raw with
  | none => false
  | some p => p.matches source target

end ModulePurity.Purity
