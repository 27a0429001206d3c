import ModulePurity.Tree.Comment

/-!
# Waivers

A waiver is a comment that allows rules to be broken on a line:
`// pure-lint: allow(rule, rule) reason="..."`, or the same between block delimiters. It covers the
line that it starts on, and, if nothing but blanks stands before it there, also the line right after
its last one, so that it can stand above the code.
-/

namespace ModulePurity

/-- A parsed waiver. -/
structure Waiver where
  /-- The names of the waived rules; `all` waives every rule. -/
  rules : List String
  reason : Option String
deriving DecidableEq, Repr

namespace Waiver

/-- Whether the waiver names a rule. -/
def allows (w : Waiver) (rule : String) : Bool :=
  w.rules.contains rule || w.rules.contains "all"

/-! ## Reading a waiver -/

/-- The text of a comment inside its delimiters. The closing delimiter may be missing. -/
def inside? (comment : List Char) : Option (List Char) :=
  match Text.dropWord? "//".toList comment with
  | some line => some line
  | none =>
    (Text.dropWord? "/*".toList comment).map fun block =>
      (Text.dropLastWord? "*/".toList block).getD block

/-- The items of a comma-separated list that are not blank, trimmed. -/
def items (list : List Char) : List String :=
  (((Text.fields ',' list).map Text.trim).filter fun item => !item.isEmpty).map String.ofList

/-- The reason given in the text after the list of rules. -/
def reason? (tail : List Char) : Option String :=
  (Text.dropWord? "reason=".toList (Text.trim tail)).bind fun value =>
    (Text.dropWord? "\"".toList (Text.trim value)).bind fun quoted =>
      (Text.cutAt? '"' quoted).map fun (reason, _) => String.ofList reason

/-- The list of rules and what follows it, from the text of a comment inside its delimiters. -/
def listAndTail? (inside : List Char) : Option (List Char × List Char) :=
  (Text.dropWord? "pure-lint:".toList (Text.trim inside)).bind fun directive =>
    (Text.dropWord? "allow(".toList (Text.trim directive)).bind fun list =>
      Text.cutAt? ')' (Text.trim list)

/-- The waiver that the whole text of a comment spells. A waiver names at least one rule. -/
def parse? (comment : List Char) : Option Waiver :=
  (inside? comment).bind fun inside =>
    (listAndTail? inside).bind fun (list, tail) =>
      if (items list).isEmpty then none else some ⟨items list, reason? tail⟩

end Waiver

/-- Whether a rule may be broken on a line. -/
inductive Allowance where
  | denied
  | allowed (reason : Option String)
deriving DecidableEq, Repr

/-- Whether the rule may be broken. -/
def Allowance.isAllowed : Allowance → Bool
  | denied => false
  | allowed _ => true

/-- The reason why the rule may be broken. -/
def Allowance.reason? : Allowance → Option String
  | denied => none
  | allowed reason => reason

/-- The waivers of a module, each under the lines that it covers, in document order. -/
structure WaiverIndex where
  entries : List (Nat × Waiver)
deriving Repr

namespace WaiverIndex

/-- The lines that a comment covers if it is a waiver. -/
def coveredLines (c : Comment) : List Nat :=
  if c.ownLine then [c.endLine + 1, c.line] else [c.line]

/-- The entries of one comment. -/
def entriesOf (c : Comment) : List (Nat × Waiver) :=
  match Waiver.parse? c.text.toList with
  | none => []
  | some w => (coveredLines c).map fun line => (line, w)

/-- The waivers among some comments. -/
def ofComments (comments : List Comment) : WaiverIndex :=
  ⟨comments.flatMap entriesOf⟩

/-- Whether a rule may be broken on a line: the first waiver that covers the line and names the rule
decides. -/
def check (index : WaiverIndex) (line : Nat) (rule : String) : Allowance :=
  match index.entries.find? fun entry => entry.1 == line && entry.2.allows rule with
  | none => .denied
  | some entry => .allowed entry.2.reason

/-- The number of entries; a waiver on a line of its own has two. -/
def size (index : WaiverIndex) : Nat := index.entries.length

/-- Whether there is no waiver. -/
def isEmpty (index : WaiverIndex) : Bool := index.entries.isEmpty

end WaiverIndex

end ModulePurity
