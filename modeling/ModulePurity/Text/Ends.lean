/-!
# Ends of a text

Patterns are matched by asking whether what follows a match passes a predicate. The predicates of this
module ask this of one end of a text or of several. A table holds the answers of a predicate for all
ends of a text, longest first. Each predicate that asks another one has a function that makes its
table out of the other's table in one pass, so that a pattern takes one pass for each of its elements.
-/

namespace ModulePurity.Text

variable {α : Type}

/-! ## Asking about ends -/

/-- Whether the next item passes a test and the rest a predicate. -/
def next (test : α → Bool) (p : List α → Bool) : List α → Bool
  | [] => false
  | a :: as => test a && p as

/-- Whether the next items are the given ones and the rest passes a predicate. -/
def nextAre [BEq α] (word : List α) (p : List α → Bool) : List α → Bool :=
  word.foldr (fun w q => next (w == ·) q) p

/-- Whether a predicate holds of some end such that all items before it pass a test. -/
def someEndPast (test : α → Bool) (p : List α → Bool) : List α → Bool
  | [] => p []
  | a :: as => p (a :: as) || (test a && someEndPast test p as)

/-- Whether a predicate holds of some end. -/
def someEnd (p : List α → Bool) : List α → Bool := someEndPast (fun _ => true) p

/-- Whether a predicate holds of what follows some item that passes a test. -/
def someEndAfter (test : α → Bool) (p : List α → Bool) : List α → Bool
  | [] => false
  | a :: as => (test a && p as) || someEndAfter test p as

/-! ## Tables -/

/-- The table of a predicate. -/
def table (p : List α → Bool) : List α → List Bool
  | [] => [p []]
  | a :: as => p (a :: as) :: table p as

/-- The answer for the whole text. -/
def atStart (t : List Bool) : Bool := t.headD false

/-- The table for the end of the text alone. -/
def emptyTable : List α → List Bool
  | [] => [true]
  | _ :: as => false :: emptyTable as

/-- The table of `next`. -/
def nextTable (test : α → Bool) : List α → List Bool → List Bool
  | [], _ => [false]
  | a :: as, t => (test a && atStart t.tail) :: nextTable test as t.tail

/-- The table of `nextAre`. -/
def nextAreTable [BEq α] (word as : List α) (t : List Bool) : List Bool :=
  word.foldr (fun w t => nextTable (w == ·) as t) t

/-- The table of `someEndPast`. -/
def pastTable (test : α → Bool) : List α → List Bool → List Bool
  | [], t => [atStart t]
  | a :: as, t =>
    let rest := pastTable test as t.tail
    (atStart t || (test a && atStart rest)) :: rest

/-- The table of `someEndAfter`. -/
def afterTable (test : α → Bool) : List α → List Bool → List Bool
  | [], _ => [false]
  | a :: as, t =>
    let rest := afterTable test as t.tail
    ((test a && atStart t.tail) || atStart rest) :: rest

/-- The table of either of two predicates. -/
def eitherTable (t u : List Bool) : List Bool := List.zipWith (· || ·) t u

/-! ## What tables say -/

@[simp] theorem atStart_cons (b : Bool) (t : List Bool) : atStart (b :: t) = b := rfl

@[simp] theorem atStart_table (p : List α → Bool) (as : List α) : atStart (table p as) = p as := by
  cases as <;> rfl

theorem getLast_table (p : List α → Bool) (as : List α) :
    (table p as).getLast?.getD false = p [] := by
  induction as with
  | nil => rfl
  | cons a as ih =>
    cases as with
    | nil => rfl
    | cons b as => simpa [table] using ih

/-- Mapping a table answers the mapped question. -/
theorem map_table (f : Bool → Bool) (p : List α → Bool) (as : List α) :
    (table p as).map f = table (fun as => f (p as)) as := by
  induction as with
  | nil => rfl
  | cons a as ih => simp [table, ih]

theorem emptyTable_eq (as : List α) : emptyTable as = table List.isEmpty as := by
  induction as with
  | nil => rfl
  | cons a as ih => simp [emptyTable, table, ih]

theorem nextTable_table (test : α → Bool) (p : List α → Bool) (as : List α) :
    nextTable test as (table p as) = table (next test p) as := by
  induction as with
  | nil => rfl
  | cons a as ih => simp [nextTable, table, next, ih]

theorem nextAreTable_table [BEq α] (word : List α) (p : List α → Bool) (as : List α) :
    nextAreTable word as (table p as) = table (nextAre word p) as := by
  induction word with
  | nil => rfl
  | cons w word ih =>
    show nextTable (w == ·) as (nextAreTable word as (table p as)) = _
    rw [ih, nextTable_table]
    rfl

theorem pastTable_table (test : α → Bool) (p : List α → Bool) (as : List α) :
    pastTable test as (table p as) = table (someEndPast test p) as := by
  induction as with
  | nil => rfl
  | cons a as ih => simp [pastTable, table, someEndPast, ih]

theorem afterTable_table (test : α → Bool) (p : List α → Bool) (as : List α) :
    afterTable test as (table p as) = table (someEndAfter test p) as := by
  induction as with
  | nil => rfl
  | cons a as ih => simp [afterTable, table, someEndAfter, ih]

theorem eitherTable_table (p q : List α → Bool) (as : List α) :
    eitherTable (table p as) (table q as) = table (fun as => p as || q as) as := by
  induction as with
  | nil => rfl
  | cons a as ih => simpa [eitherTable, table] using ih

end ModulePurity.Text
