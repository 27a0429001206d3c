import ModulePurity.Waiver

/-!
# Which waiver decides

The waiver index lists every waiver under each line that it covers. Asking it is the same as going
through the comments in document order and stopping at the first one that is a waiver, covers the line
and names the rule (`check_ofComments`). What such a comment looks like is said once more without any
function of the index (`Waives`), and `check_iff_first` gives both answers of the index in its words.
-/

namespace ModulePurity.WaiverIndex

/-- A comment covers the line that it starts on and, if it stands on a line of its own, the line right
after its last one. -/
def covers (c : Comment) (line : Nat) : Bool :=
  c.line == line || (c.ownLine && c.endLine + 1 == line)

/-- The first waiver among some comments that covers a line and names a rule. -/
def firstWaiver? (comments : List Comment) (line : Nat) (rule : String) : Option Waiver :=
  comments.findSome? fun c =>
    (Waiver.parse? c.text.toList).filter fun w => covers c line && w.allows rule

/-- What the deciding waiver allows; without one the rule stands. -/
def decision : Option Waiver → Allowance
  | none => .denied
  | some w => .allowed w.reason

/-- The lines under which a waiver is stored are those that its comment covers. -/
theorem any_coveredLines (c : Comment) (line : Nat) :
    (coveredLines c).any (· == line) = covers c line := by
  rw [coveredLines, covers]
  cases c.ownLine <;> simp [Bool.or_comm]

/-- Among lines that all carry the same waiver, any entry will do. -/
theorem find?_entries (lines : List Nat) (w : Waiver) (line : Nat) (rule : String) :
    (lines.map fun l => (l, w)).find? (fun entry => entry.1 == line && entry.2.allows rule) =
      if lines.any (· == line) && w.allows rule then some (line, w) else none := by
  induction lines with
  | nil => simp
  | cons l ls ih =>
    rw [List.map_cons, List.find?_cons, ih, List.any_cons]
    by_cases hl : l = line
    · cases w.allows rule <;> simp [hl]
    · have hl' : (l == line) = false := by simpa using hl
      rw [hl', Bool.false_and, Bool.false_or]

/-- Among the entries of one comment, the search finds its waiver or nothing. -/
theorem find?_entriesOf (c : Comment) (line : Nat) (rule : String) :
    (entriesOf c).find? (fun entry => entry.1 == line && entry.2.allows rule) =
      ((Waiver.parse? c.text.toList).filter fun w => covers c line && w.allows rule).map
        fun w => (line, w) := by
  rw [entriesOf]
  cases Waiver.parse? c.text.toList with
  | none => rfl
  | some w =>
    rw [find?_entries, any_coveredLines]
    cases hw : covers c line && w.allows rule <;> simp [Option.filter, hw]

/-- The index answers with the first waiver that covers the line and names the rule. -/
theorem check_ofComments (comments : List Comment) (line : Nat) (rule : String) :
    (ofComments comments).check line rule = decision (firstWaiver? comments line rule) := by
  have hfind : (ofComments comments).entries.find?
      (fun entry => entry.1 == line && entry.2.allows rule) =
        (firstWaiver? comments line rule).map fun w => (line, w) := by
    rw [ofComments, List.find?_flatMap, firstWaiver?]
    simp only [find?_entriesOf]
    rw [List.map_findSome?]
    rfl
  rw [check, hfind]
  cases firstWaiver? comments line rule with
  | none => rfl
  | some w => rfl

/-! ## The deciding comment -/

/-- A comment spells a waiver that names a rule, or all rules, and covers a line: it starts there, or
it stands on a line of its own and ends on the line before. -/
structure Waives (c : Comment) (w : Waiver) (line : Nat) (rule : String) : Prop where
  spelled : Waiver.parse? c.text.toList = some w
  names : rule ∈ w.rules ∨ "all" ∈ w.rules
  covers : c.line = line ∨ (c.ownLine = true ∧ c.endLine + 1 = line)

variable {c : Comment} {w : Waiver} {line : Nat} {rule : String} {comments : List Comment}

theorem covers_iff : covers c line = true ↔
    c.line = line ∨ (c.ownLine = true ∧ c.endLine + 1 = line) := by
  simp [covers]

theorem allows_iff : w.allows rule = true ↔ rule ∈ w.rules ∨ "all" ∈ w.rules := by
  simp [Waiver.allows]

theorem filter_parse?_eq_some_iff :
    ((Waiver.parse? c.text.toList).filter fun w => covers c line && w.allows rule) = some w ↔
      Waives c w line rule := by
  rw [Option.filter_eq_some_iff, Bool.and_eq_true, covers_iff, allows_iff]
  constructor
  · rintro ⟨hspelled, hcovers, hnames⟩
    exact ⟨hspelled, hnames, hcovers⟩
  · intro h
    exact ⟨h.spelled, h.covers, h.names⟩

theorem filter_parse?_eq_none_iff :
    ((Waiver.parse? c.text.toList).filter fun w => covers c line && w.allows rule) = none ↔
      ∀ w, ¬ Waives c w line rule := by
  rw [Option.eq_none_iff_forall_ne_some]
  exact forall_congr' fun w => not_congr filter_parse?_eq_some_iff

/-- The first waiver is the one with no waiving comment before it. -/
theorem firstWaiver?_eq_some_iff :
    firstWaiver? comments line rule = some w ↔
      ∃ before c after, comments = before ++ c :: after ∧ Waives c w line rule ∧
        ∀ d ∈ before, ∀ v, ¬ Waives d v line rule := by
  rw [firstWaiver?, List.findSome?_eq_some_iff]
  simp only [filter_parse?_eq_some_iff, filter_parse?_eq_none_iff]

theorem firstWaiver?_eq_none_iff :
    firstWaiver? comments line rule = none ↔ ∀ c ∈ comments, ∀ w, ¬ Waives c w line rule := by
  rw [firstWaiver?, List.findSome?_eq_none_iff]
  simp only [filter_parse?_eq_none_iff]

theorem decision_eq_allowed_iff {found : Option Waiver} {reason : Option String} :
    decision found = .allowed reason ↔ ∃ w, found = some w ∧ w.reason = reason := by
  cases found with
  | none => simp [decision]
  | some w => simp [decision]

theorem decision_eq_denied_iff {found : Option Waiver} :
    decision found = .denied ↔ found = none := by
  cases found with
  | none => simp [decision]
  | some w => simp [decision]

/-- A rule stands on a line if no comment waives it there. -/
theorem check_eq_denied_iff :
    (ofComments comments).check line rule = .denied ↔
      ∀ c ∈ comments, ∀ w, ¬ Waives c w line rule := by
  rw [check_ofComments, decision_eq_denied_iff, firstWaiver?_eq_none_iff]

/-- The index allows a rule on a line with the reason of the first comment that waives it there, and
denies it exactly if there is none. -/
theorem check_iff_first (comments : List Comment) (line : Nat) (rule : String) :
    (∀ reason, (ofComments comments).check line rule = .allowed reason ↔
      ∃ before c after w, comments = before ++ c :: after ∧ Waives c w line rule ∧
        w.reason = reason ∧ ∀ d ∈ before, ∀ v, ¬ Waives d v line rule) ∧
    ((ofComments comments).check line rule = .denied ↔
      ∀ c ∈ comments, ∀ w, ¬ Waives c w line rule) := by
  refine ⟨?_, check_eq_denied_iff⟩
  intro reason
  rw [check_ofComments, decision_eq_allowed_iff]
  constructor
  · rintro ⟨w, hfirst, hreason⟩
    obtain ⟨before, c, after, hsplit, hwaives, hnone⟩ := firstWaiver?_eq_some_iff.1 hfirst
    exact ⟨before, c, after, w, hsplit, hwaives, hreason, hnone⟩
  · rintro ⟨before, c, after, w, hsplit, hwaives, hreason, hnone⟩
    exact ⟨w, firstWaiver?_eq_some_iff.2 ⟨before, c, after, hsplit, hwaives, hnone⟩, hreason⟩

end ModulePurity.WaiverIndex
