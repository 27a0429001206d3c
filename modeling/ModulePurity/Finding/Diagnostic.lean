import ModulePurity.Finding.Basic

/-!
# Diagnostics

A finding as it is shown beside its source text: a headline, a label on a stretch of bytes, and
advice.
-/

namespace ModulePurity

/-- A finding prepared to be shown with its source text. -/
structure Diagnostic where
  message : String
  /-- The name under which the source text is shown. -/
  sourceName : String
  /-- The text of the label. -/
  label : String
  offset : Nat
  length : Nat
  help : Option String
deriving DecidableEq, Repr

/-- The diagnostic of a finding. -/
def Finding.diagnostic (f : Finding) : Diagnostic where
  message := "[" ++ f.code ++ "] " ++ f.message
  sourceName := f.location.file.text
  label := f.rule
  offset := f.location.offset
  length := f.location.length
  help := f.remedy.map Remedy.message

end ModulePurity
