import ModulePurity.Finding.Basic

/-!
# Reports

The findings of a run with the number of files that were read, how they are counted and the order in
which they are shown.
-/

namespace ModulePurity

/-- The outcome of linting some files. -/
structure Report where
  findings : List Finding
  filesChecked : Nat
deriving DecidableEq, Repr

namespace Report

/-- A report on no file. -/
def empty : Report := ⟨[], 0⟩

/-- The order of findings: by file, then line, then column. -/
def order (a b : Finding) : Ordering :=
  (a.location.file.compare b.location.file).then
    ((compare a.location.line b.location.line).then (compare a.location.column b.location.column))

/-- The report with its findings in order; findings at one place keep theirs. -/
def sort (r : Report) : Report :=
  { r with findings := r.findings.mergeSort fun a b => (order a b).isLE }

/-- The number of findings with a severity. -/
def count (r : Report) (s : Severity) : Nat :=
  r.findings.countP fun f => f.severity = s

/-- Whether some finding is an error. -/
def hasErrors (r : Report) : Bool :=
  r.findings.any fun f => f.severity = .error

/-- Whether some finding reaches a severity. -/
def reaches (r : Report) (threshold : Severity) : Bool :=
  r.findings.any fun f => threshold ≤ f.severity

end Report

end ModulePurity
