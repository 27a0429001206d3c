import ModulePurity.Data.Value
import ModulePurity.Tree.Language
import ModulePurity.Tree.Module

/-!
# Listings of trees

Syntax trees come from a parser outside this library, as data: every node in pre-order as a sequence
of its kind, its flags, its first offset, the offset after it, the field that it fills or nothing,
and the number of its children. A collection of such listings serves as a grammar.
-/

namespace ModulePurity

/-- Reads one node of a listing: its label and the number of its children. The flags add up one for
named, two for missing, four for faulty and eight for a fault in the subtree. -/
def Label.ofValue? : Value → Option (Label × Nat)
  | .sequence [kind, flags, start, stop, field, count] => do
    let kind ← kind.toText?
    let flags ← flags.toNat?
    let start ← start.toNat?
    let stop ← stop.toNat?
    let field ← field.toText?
    let count ← count.toNat?
    return (⟨kind, flags.testBit 0, flags.testBit 1, flags.testBit 2, flags.testBit 3, start, stop,
      Field.ofText? field⟩, count)
  | _ => none

/-- Reads the listing of a tree. -/
def Node.ofValue? (v : Value) : Option Node :=
  (v.toList? Label.ofValue?).bind Node.ofPreorder?

/-- A text with its tree. -/
structure ParsedText where
  language : Language
  source : String
  tree : Node

/-- Reads a parsed text: its language, the text, and the listing of its tree. -/
def ParsedText.ofValue? : Value → Option ParsedText
  | .sequence [language, source, nodes] => do
    let language ← language.toText?.bind Language.ofName?
    let source ← source.toText?
    let tree ← Node.ofValue? nodes
    return ⟨language, source, tree⟩
  | _ => none

/-- The tree of a text that was never parsed: a fault at its beginning. -/
def Node.unparsed : Node := .mk ⟨"ERROR", true, false, true, true, 0, 0, none⟩ []

/-- The grammar that knows exactly the given texts. -/
def Grammar.ofTexts (texts : List ParsedText) : Grammar := fun language source =>
  match texts.find? fun t => t.language == language && t.source == source with
  | some t => t.tree
  | none => Node.unparsed

end ModulePurity
