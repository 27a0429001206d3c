import ModulePurity.Data.Value
import ModulePurity.Finding.Report

/-!
# Reports as data

A report is written as a table whose keys are the names of its fields; what is absent is written as
null. Reading takes the keys in any order and ignores unknown ones, but refuses a field that is given
twice. A missing remedy or edit is read as absent, while every other field is required.
-/

namespace ModulePurity

/-- Reads a required field. -/
def Value.field? {α : Type} (entries : List (String × Value)) (key : String)
    (read : Value → Option α) : Option α :=
  match Value.member? key entries with
  | some (some v) => read v
  | _ => none

/-- Reads a field that may be missing or null. -/
def Value.optionalField? {α : Type} (entries : List (String × Value)) (key : String)
    (read : Value → Option α) : Option (Option α) :=
  match Value.member? key entries with
  | some none => some none
  | some (some v) => v.toOption? read
  | none => none

/-- A natural number as data. -/
def Value.ofNat (n : Nat) : Value := .integer (.ofNat n)

/-- What may be absent as data. -/
def Value.ofOption {α : Type} (write : α → Value) : Option α → Value
  | none => .null
  | some a => write a

namespace Severity

/-- A severity as data. -/
def toValue (s : Severity) : Value := .text s.name

/-- Reads a severity by its exact name, which may also stand as the only key of a table. What the
key holds has to be `hollow`. -/
def read? (hollow : Value → Bool) : Value → Option Severity
  | .text s => ofName? s
  | .table [(key, payload)] => if hollow payload then ofName? key else none
  | _ => none

/-- Reads a severity of a report. -/
def ofValue? : Value → Option Severity := read? Value.isNull

/-- Reads a severity of a settings file. -/
def ofSetting? : Value → Option Severity := read? Value.isEmpty

end Severity

namespace Location

/-- A location as data. -/
def toValue (l : Location) : Value :=
  .table [("file", .text l.file.text), ("line", .ofNat l.line), ("column", .ofNat l.column),
    ("offset", .ofNat l.offset), ("length", .ofNat l.length)]

/-- Reads a location. -/
def ofValue? (v : Value) : Option Location := do
  let entries ← v.toRecord? ["file", "line", "column", "offset", "length"]
  let file ← Value.field? entries "file" Value.toText?
  let line ← Value.field? entries "line" Value.toNat?
  let column ← Value.field? entries "column" Value.toNat?
  let offset ← Value.field? entries "offset" Value.toNat?
  let length ← Value.field? entries "length" Value.toNat?
  return ⟨⟨file⟩, line, column, offset, length⟩

end Location

namespace Edit

/-- An edit as data. -/
def toValue (e : Edit) : Value :=
  .table [("location", e.location.toValue), ("new_text", .text e.newText)]

/-- Reads an edit. -/
def ofValue? (v : Value) : Option Edit := do
  let entries ← v.toRecord? ["location", "new_text"]
  let location ← Value.field? entries "location" Location.ofValue?
  let newText ← Value.field? entries "new_text" Value.toText?
  return ⟨location, newText⟩

end Edit

namespace Remedy

/-- A remedy as data. -/
def toValue (r : Remedy) : Value :=
  .table [("message", .text r.message), ("replacement", Value.ofOption Edit.toValue r.edit)]

/-- Reads a remedy. -/
def ofValue? (v : Value) : Option Remedy := do
  let entries ← v.toRecord? ["message", "replacement"]
  let message ← Value.field? entries "message" Value.toText?
  let edit ← Value.optionalField? entries "replacement" Edit.ofValue?
  return ⟨message, edit⟩

end Remedy

namespace Finding

/-- A finding as data. -/
def toValue (f : Finding) : Value :=
  .table [("code", .text f.code), ("rule", .text f.rule), ("severity", f.severity.toValue),
    ("location", f.location.toValue), ("message", .text f.message),
    ("suggestion", Value.ofOption Remedy.toValue f.remedy)]

/-- Reads a finding. -/
def ofValue? (v : Value) : Option Finding := do
  let entries ← v.toRecord? ["code", "rule", "severity", "location", "message", "suggestion"]
  let code ← Value.field? entries "code" Value.toText?
  let rule ← Value.field? entries "rule" Value.toText?
  let severity ← Value.field? entries "severity" Severity.ofValue?
  let location ← Value.field? entries "location" Location.ofValue?
  let message ← Value.field? entries "message" Value.toText?
  let remedy ← Value.optionalField? entries "suggestion" Remedy.ofValue?
  return ⟨code, rule, severity, location, message, remedy⟩

end Finding

namespace Report

/-- A report as data. -/
def toValue (r : Report) : Value :=
  .table [("violations", .sequence (r.findings.map Finding.toValue)),
    ("files_checked", .ofNat r.filesChecked)]

/-- Reads a report. -/
def ofValue? (v : Value) : Option Report := do
  let entries ← v.toRecord? ["violations", "files_checked"]
  let findings ← Value.field? entries "violations" (Value.toList? Finding.ofValue?)
  let filesChecked ← Value.field? entries "files_checked" Value.toNat?
  return ⟨findings, filesChecked⟩

end Report

end ModulePurity
