import ModulePurity.Finding.Edits
import ModulePurity.Output.Format
import ModulePurity.Proofs.JsonText

/-!
# Reports that are read back

A report in JSON goes to other tools, which show its findings and apply its edits. Nothing of it is
lost on the way: as long as its numbers fit into 64 bits, the data of a report is read as the report
(`Report.ofValue?_toValue`), and so is the JSON text that is printed. The edits of the report that
was read then do the same to every text: `Report.ofValue?_read?_write`.
-/

namespace ModulePurity

/-! ## Numbers that fit -/

/-- The numbers of a location have at most 64 bits. -/
structure Location.Fits (l : Location) : Prop where
  line : l.line < Edit.offsetLimit
  column : l.column < Edit.offsetLimit
  offset : l.offset < Edit.offsetLimit
  length : l.length < Edit.offsetLimit

/-- The numbers of a finding, also those of its edit, have at most 64 bits. -/
structure Finding.Fits (f : Finding) : Prop where
  location : f.location.Fits
  edit : ∀ e, f.edit? = some e → e.location.Fits

/-- The numbers of a report have at most 64 bits. -/
structure Report.Fits (r : Report) : Prop where
  filesChecked : r.filesChecked < Edit.offsetLimit
  findings : ∀ f ∈ r.findings, f.Fits

/-! ## Reading data -/

namespace Value

/-- A number that fits is read back. -/
theorem toNat?_ofNat {n : Nat} (h : n < Edit.offsetLimit) : (Value.ofNat n).toNat? = some n :=
  if_pos h

theorem readAll?_map {α : Type} {read : Value → Option α} {write : α → Value} {as : List α}
    (h : ∀ a ∈ as, read (write a) = some a) : readAll? read (as.map write) = some as := by
  induction as with
  | nil => rfl
  | cons a as ih =>
    rw [List.forall_mem_cons] at h
    rw [List.map_cons, readAll?, h.1, Option.bind_some, ih h.2, Option.map_some]

/-- What may be absent is read back, as long as nothing is written like an absence. -/
theorem toOption?_ofOption {α : Type} {read : Value → Option α} {write : α → Value}
    {a? : Option α} (hread : ∀ a, a? = some a → read (write a) = some a)
    (hnull : ∀ a, write a ≠ .null) : (Value.ofOption write a?).toOption? read = some a? := by
  cases a? with
  | none => rfl
  | some a =>
    have hvalue : (write a).toOption? read = (read (write a)).map some := by
      rw [toOption?]
      exact hnull a
    show (write a).toOption? read = _
    rw [hvalue, hread a rfl, Option.map_some]

end Value

/-- A severity is read back from its name. -/
theorem Severity.ofValue?_toValue (s : Severity) : Severity.ofValue? s.toValue = some s :=
  ofName?_name s

/-- A location is read back if its numbers fit. -/
theorem Location.ofValue?_toValue {l : Location} (h : l.Fits) :
    Location.ofValue? l.toValue = some l := by
  simp [Location.ofValue?, Location.toValue, Value.toRecord?, Value.field?, Value.member?,
    Value.toText?, Value.toNat?_ofNat h.line, Value.toNat?_ofNat h.column,
    Value.toNat?_ofNat h.offset, Value.toNat?_ofNat h.length]

theorem Edit.ofValue?_toValue {e : Edit} (h : e.location.Fits) :
    Edit.ofValue? e.toValue = some e := by
  simp [Edit.ofValue?, Edit.toValue, Value.toRecord?, Value.field?, Value.member?, Value.toText?,
    Location.ofValue?_toValue h]

/-- A remedy is read back, with its edit if it has one. -/
theorem Remedy.ofValue?_toValue {r : Remedy} (h : ∀ e, r.edit = some e → e.location.Fits) :
    Remedy.ofValue? r.toValue = some r := by
  have hedit : (Value.ofOption Edit.toValue r.edit).toOption? Edit.ofValue? = some r.edit := by
    apply Value.toOption?_ofOption
    · intro e he
      exact Edit.ofValue?_toValue (h e he)
    · intro e
      exact Value.noConfusion
  simp [Remedy.ofValue?, Remedy.toValue, Value.toRecord?, Value.field?, Value.optionalField?,
    Value.member?, Value.toText?, hedit]

/-- A finding is read back with all that it says. -/
theorem Finding.ofValue?_toValue {f : Finding} (h : f.Fits) :
    Finding.ofValue? f.toValue = some f := by
  have hremedy :
      (Value.ofOption Remedy.toValue f.remedy).toOption? Remedy.ofValue? = some f.remedy := by
    apply Value.toOption?_ofOption
    · intro r hr
      apply Remedy.ofValue?_toValue
      intro e he
      apply h.edit
      rw [edit?, hr, Option.bind_some, he]
    · intro r
      exact Value.noConfusion
  simp [Finding.ofValue?, Finding.toValue, Value.toRecord?, Value.field?, Value.optionalField?,
    Value.member?, Value.toText?, Severity.ofValue?_toValue, Location.ofValue?_toValue h.location,
    hremedy]

/-- The data of a report is read as the report. -/
theorem Report.ofValue?_toValue {r : Report} (h : r.Fits) : Report.ofValue? r.toValue = some r := by
  have hfindings : Value.readAll? Finding.ofValue? (r.findings.map Finding.toValue) =
      some r.findings := by
    apply Value.readAll?_map
    intro f hf
    exact Finding.ofValue?_toValue (h.findings f hf)
  simp [Report.ofValue?, Report.toValue, Value.toRecord?, Value.field?, Value.member?,
    Value.toList?, hfindings, Value.toNat?_ofNat h.filesChecked]

/-! ## Reading text -/

open Json (Plain)

theorem plain_ofNat (n : Nat) : Plain (.ofNat n) := .integer _

/-- What may be absent can be written as JSON text if it can be where it is present. -/
theorem plain_ofOption {α : Type} {write : α → Value} (h : ∀ a, Plain (write a)) (a? : Option α) :
    Plain (.ofOption write a?) := by
  cases a? with
  | none => exact .null
  | some a => exact h a

theorem Location.plain_toValue (l : Location) : Plain l.toValue := by
  apply Plain.table
  simp only [List.forall_mem_cons]
  exact ⟨.text _, plain_ofNat _, plain_ofNat _, plain_ofNat _, plain_ofNat _, by simp⟩

theorem Edit.plain_toValue (e : Edit) : Plain e.toValue := by
  apply Plain.table
  simp only [List.forall_mem_cons]
  exact ⟨e.location.plain_toValue, .text _, by simp⟩

theorem Remedy.plain_toValue (r : Remedy) : Plain r.toValue := by
  apply Plain.table
  simp only [List.forall_mem_cons]
  exact ⟨.text _, plain_ofOption Edit.plain_toValue _, by simp⟩

theorem Finding.plain_toValue (f : Finding) : Plain f.toValue := by
  apply Plain.table
  simp only [List.forall_mem_cons]
  exact ⟨.text _, .text _, .text _, f.location.plain_toValue, .text _,
    plain_ofOption Remedy.plain_toValue _, by simp⟩

/-- The data of a report can be written as JSON text. -/
theorem Report.plain_toValue (r : Report) : Plain r.toValue := by
  have hfindings : Plain (.sequence (r.findings.map Finding.toValue)) := by
    apply Plain.sequence
    intro v hv
    obtain ⟨f, -, rfl⟩ := List.mem_map.1 hv
    exact f.plain_toValue
  apply Plain.table
  simp only [List.forall_mem_cons]
  exact ⟨hfindings, plain_ofNat _, by simp⟩

/-- The JSON text of a report is read as the report, and so is its data. The edits of the report
that was read do to any text what the edits of the report do. -/
theorem Report.ofValue?_read?_write (r : Report) (h : r.Fits) (source : Path → String) :
    let decoded := (Json.read? (r.write source .json)).bind Report.ofValue?
    decoded = some r ∧ Report.ofValue? r.toValue = some r ∧
      ∀ r', decoded = some r' → ∀ text,
        Finding.applyRemedies? text r'.findings = Finding.applyRemedies? text r.findings := by
  intro decoded
  have hdata : Report.ofValue? r.toValue = some r := ofValue?_toValue h
  have htext : Json.read? (r.write source .json) = some r.toValue := r.plain_toValue.read?_pretty
  have hdecoded : decoded = some r := by
    show (Json.read? (r.write source .json)).bind Report.ofValue? = some r
    rw [htext, Option.bind_some, hdata]
  refine ⟨hdecoded, hdata, ?_⟩
  intro r' hr' text
  have hsame : r = r' := Option.some.inj (hdecoded.symm.trans hr')
  rw [hsame]

/-- A report on a file with a quote in its name: an error with an edit, a warning with mere advice
over two lines, and a note without any. -/
def mixedReport : Report where
  findings :=
    [⟨"PM001", "pure-module", .error, ⟨⟨"src/a\"b.js"⟩, 1, 1, 0, 3⟩, "Toplevel side effect.",
      some ⟨"Insert __PURE__ comment", some ⟨⟨⟨"src/a\"b.js"⟩, 1, 1, 0, 0⟩, "/* #__PURE__ */ "⟩⟩⟩,
      ⟨"PM001", "pure-module", .warning, ⟨⟨"src/a\"b.js"⟩, 2, 1, 5, 3⟩, "A\ttab and\x01 more \\",
        some ⟨"One line\nand another", none⟩⟩,
      ⟨"T1", "é", .info, ⟨⟨""⟩, 0, 0, 18446744073709551615, 0⟩, "", none⟩]
  filesChecked := 1

/-- The mixed report comes back from its JSON text, and its only edit marks the call. -/
theorem ofValue?_read?_write_mixedReport :
    mixedReport.Fits ∧
      (Json.read? (mixedReport.write (fun _ => "") .json)).bind Report.ofValue? =
        some mixedReport ∧
      Finding.applyRemedies? "f();\ng();" mixedReport.findings =
        some "/* #__PURE__ */ f();\ng();" := by
  have hfits : mixedReport.Fits := by
    refine ⟨by decide, ?_⟩
    intro f hf
    simp only [mixedReport, List.mem_cons, List.not_mem_nil, or_false] at hf
    rcases hf with rfl | rfl | rfl
    · refine ⟨⟨by decide, by decide, by decide, by decide⟩, ?_⟩
      rintro e ⟨⟩
      exact ⟨by decide, by decide, by decide, by decide⟩
    · exact ⟨⟨by decide, by decide, by decide, by decide⟩, fun e he => by cases he⟩
    · exact ⟨⟨by decide, by decide, by decide, by decide⟩, fun e he => by cases he⟩
  exact ⟨hfits, (Report.ofValue?_read?_write mixedReport hfits fun _ => "").1, by decide +kernel⟩

end ModulePurity
