import ModulePurity.Finding.Basic
import ModulePurity.Text.Bytes

/-!
# Applying edits

Edits are applied to a text in the order of their offsets. An edit that reaches beyond the text or
cuts a character is skipped, an edit given twice in a row is applied once, and of two edits that
overlap the one that comes first in the order wins.

Offsets have 64 bits. Before anything is skipped, the end of every given edit is computed from its
offset and its length, and the program stops if one of these sums overflows, although such an edit
reaches beyond every text. It would also stop if a stretch were asked for that the text does not
have. Both stand here as a missing result: `none` is a program that stops, and never a text.
-/

namespace ModulePurity

namespace Edit

/-- The number of offsets that 64 bits can tell apart. -/
def offsetLimit : Nat := Nat.pow 2 64

/-- Whether the end of an edit can be computed: the sum of its offset and its length has to fit into
an offset. With a length of zero there is nothing to add. -/
def fits (e : Edit) : Bool := e.location.length == 0 || e.stop < offsetLimit

/-- Edits are taken by offset, and shorter ones first. -/
def comesBefore (a b : Edit) : Bool :=
  a.start < b.start || (a.start == b.start && a.location.length ≤ b.location.length)

/-- Of neighbours that agree, only the first. -/
def dropRepeats : List Edit → List Edit
  | [] => []
  | e :: es =>
    match dropRepeats es with
    | [] => [e]
    | f :: fs => if e.sameAs f then e :: fs else e :: f :: fs

/-- The edits within a text of the given length in the order in which they are tried. -/
def schedule (length : Nat) (edits : List Edit) : List Edit :=
  dropRepeats ((edits.filter fun e => e.stop ≤ length).mergeSort comesBefore)

/-- Applies scheduled edits to a text from byte offset `cursor` on. An edit that starts before the
cursor or cuts a character is skipped. There is no result if a stretch is asked for that the text does
not have. -/
def applyFrom? (cs : List Char) (cursor : Nat) : List Edit → Option (List Char)
  | [] => Text.slice? cs cursor (Text.byteLength cs)
  | e :: es =>
    if e.start < cursor || !Text.isBoundary cs e.start || !Text.isBoundary cs e.stop then
      applyFrom? cs cursor es
    else
      (Text.slice? cs cursor e.start).bind fun kept =>
        (applyFrom? cs e.stop es).map fun rest => kept ++ (e.newText.toList ++ rest)

/-- The text after the edits, unless the program stops. -/
def applyAll? (source : String) (edits : List Edit) : Option String :=
  if edits.all fits then
    (applyFrom? source.toList 0 (schedule (Text.byteLength source.toList) edits)).map String.ofList
  else none

end Edit

/-- The text after the edits that resolve the findings, unless the program stops. -/
def Finding.applyRemedies? (source : String) (findings : List Finding) : Option String :=
  Edit.applyAll? source (findings.filterMap Finding.edit?)

end ModulePurity
