/-!
# Severities

Three levels, from a note that never fails a run to an error. Two readers exist: a lenient one for
values typed by people, and the exact spelling of settings files and reports.
-/

namespace ModulePurity

/-- How serious a finding is. -/
inductive Severity where
  | info
  | warning
  | error
deriving DecidableEq, Repr

namespace Severity

/-- The height of a level. -/
def rank : Severity → Nat
  | info => 0
  | warning => 1
  | error => 2

instance : LE Severity := ⟨fun a b => a.rank ≤ b.rank⟩

instance (a b : Severity) : Decidable (a ≤ b) :=
  inferInstanceAs (Decidable (a.rank ≤ b.rank))

/-- The name of a level. -/
def name : Severity → String
  | info => "info"
  | warning => "warning"
  | error => "error"

/-- The level with exactly this name. -/
def ofName? : String → Option Severity
  | "info" => some info
  | "warning" => some warning
  | "error" => some error
  | _ => none

@[simp] theorem ofName?_name (s : Severity) : ofName? s.name = some s := by
  cases s <;> rfl

/-- A text that names no severity, in lower case. -/
structure Unknown where
  text : String
deriving DecidableEq, Repr

/-- The wording for a text that names no severity. -/
def Unknown.message (e : Unknown) : String :=
  "unknown severity '" ++ e.text ++ "'"

/-- Reads a level in any mixture of ASCII cases; `warn` is short for `warning`. -/
def parse (text : String) : Except Unknown Severity :=
  let lower := String.ofList (text.toList.map Char.toLower)
  match lower with
  | "info" => .ok info
  | "warning" | "warn" => .ok warning
  | "error" => .ok error
  | other => .error ⟨other⟩

end Severity

end ModulePurity
