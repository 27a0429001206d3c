import ModulePurity.Data.Value

/-!
# Options of the purity rule

Which kinds of effects are accepted at the top level of a module, and which functions are known to
be pure. As data, the options are a table that overlays the defaults: each option goes by a name with
underscores or by one in camel case, not by both at once, and other keys do not matter.
-/

namespace ModulePurity.Purity

/-- The options of the purity rule. -/
structure Options where
  /-- Call paths of functions known to be pure, such as `Object.freeze` or `*.create`. -/
  pureFunctions : List String := []
  allowCall : Bool := false
  /-- Unset, it follows `allowCall`. -/
  allowTaggedTemplate : Option Bool := none
  allowNew : Bool := true
  /-- Covers assignments, increments and decrements. -/
  allowAssign : Bool := false
  allowDelete : Bool := false
  allowThrow : Bool := false
  allowAwait : Bool := false
  /-- Code in a static block of a class does not count as top level. -/
  allowInStaticBlock : Bool := true
deriving DecidableEq, Repr

namespace Options

/-- Whether tagged templates are accepted. -/
def taggedTemplateAllowed (o : Options) : Bool :=
  o.allowTaggedTemplate.getD o.allowCall

/-! ## Options as data -/

/-- The names of the options with underscores, in order. -/
def keys : List String :=
  ["pure_functions", "allow_call", "allow_tagged_template", "allow_new", "allow_assign",
    "allow_delete", "allow_throw", "allow_await", "allow_in_static_block"]

/-- The options as a table. -/
def toEntries (o : Options) : List (String × Value) :=
  [("pure_functions", .sequence (o.pureFunctions.map .text)),
    ("allow_call", .boolean o.allowCall),
    ("allow_tagged_template",
      match o.allowTaggedTemplate with
      | none => .null
      | some b => .boolean b),
    ("allow_new", .boolean o.allowNew),
    ("allow_assign", .boolean o.allowAssign),
    ("allow_delete", .boolean o.allowDelete),
    ("allow_throw", .boolean o.allowThrow),
    ("allow_await", .boolean o.allowAwait),
    ("allow_in_static_block", .boolean o.allowInStaticBlock)]

/-- Reads one option under either of its names; absent, it has its default. -/
def read? {α : Type} (entries : List (String × Value)) (snake camel : String)
    (read : Value → Option α) (default : α) : Option α :=
  match entries.filter fun entry => entry.1 == snake || entry.1 == camel with
  | [] => some default
  | [entry] => read entry.2
  | _ => none

/-- Overlays the defaults with a table of options. -/
def ofEntries? (entries : List (String × Value)) : Option Options := do
  let pureFunctions ←
    read? entries "pure_functions" "pureFunctions" (Value.toList? Value.toWriting?) []
  let allowCall ← read? entries "allow_call" "allowCall" Value.toBool? false
  let allowTaggedTemplate ←
    read? entries "allow_tagged_template" "allowTaggedTemplate" (Value.toOption? Value.toBool?) none
  let allowNew ← read? entries "allow_new" "allowNew" Value.toBool? true
  let allowAssign ← read? entries "allow_assign" "allowAssign" Value.toBool? false
  let allowDelete ← read? entries "allow_delete" "allowDelete" Value.toBool? false
  let allowThrow ← read? entries "allow_throw" "allowThrow" Value.toBool? false
  let allowAwait ← read? entries "allow_await" "allowAwait" Value.toBool? false
  let allowInStaticBlock ←
    read? entries "allow_in_static_block" "allowInStaticBlock" Value.toBool? true
  return { pureFunctions, allowCall, allowTaggedTemplate, allowNew, allowAssign, allowDelete,
           allowThrow, allowAwait, allowInStaticBlock }

/-- Reads options from a table, or from a sequence that gives the first of them in order. -/
def ofValue? : Value → Option Options
  | .table entries => ofEntries? entries
  | .sequence items =>
    if items.length ≤ keys.length then ofEntries? (keys.zip items) else none
  | _ => none

end Options

end ModulePurity.Purity
