import Mathlib.Order.Compare
import ModulePurity.Path

/-!
# The order of paths

Paths are ordered by their components, and components by rank and name. Both orders are total and
transitive, and only equal components compare as equal, so that in a sorted list of paths those with
the same components are neighbours.
-/

namespace ModulePurity

namespace Component

/-- The text of a component that is a name. -/
def nameText : Component → String
  | name s => s
  | _ => ""

/-- Components are ordered by their kind and then by their name. -/
theorem compare_eq_compareLex :
    Component.compare = compareLex (compareOn rank) (compareOn nameText) := by
  funext a b
  cases a <;> cases b <;> rfl

instance : Std.TransCmp Component.compare := by
  rw [compare_eq_compareLex]
  infer_instance

instance : Std.LawfulEqCmp Component.compare where
  eq_of_compare {a b} h := by
    rw [compare_eq_compareLex, compareLex_eq_eq] at h
    obtain ⟨hrank, hname⟩ := h
    have hname : a.nameText = b.nameText := Std.LawfulEqOrd.eq_of_compare hname
    cases a <;> cases b <;> simp_all [compareOn, rank, nameText]

end Component

namespace Path

/-- Lists of components are ordered lexicographically. -/
theorem compareComponents_eq_compareLex :
    compareComponents = List.compareLex Component.compare := by
  funext as bs
  induction as generalizing bs with
  | nil => cases bs <;> rfl
  | cons a as ih =>
    cases bs with
    | nil => rfl
    | cons b bs => rw [compareComponents, List.compareLex_cons_cons, ih]

theorem sameAs_iff {p q : Path} : p.sameAs q = true ↔ p.components = q.components := by
  rw [sameAs, beq_iff_eq]

theorem compare_eq_iff {p q : Path} : p.compare q = .eq ↔ p.sameAs q = true := by
  rw [compare, compareComponents_eq_compareLex, sameAs_iff]
  exact Std.LawfulEqCmp.compare_eq_iff_eq

theorem compare_self (p : Path) : p.compare p = .eq :=
  compare_eq_iff.2 (sameAs_iff.2 rfl)

theorem isLE_compare_trans (p q r : Path) (hpq : (p.compare q).isLE = true)
    (hqr : (q.compare r).isLE = true) : (p.compare r).isLE = true := by
  rw [compare, compareComponents_eq_compareLex] at hpq hqr ⊢
  exact Std.TransCmp.isLE_trans hpq hqr

theorem compare_eq_swap (p q : Path) : p.compare q = (q.compare p).swap := by
  rw [compare, compare, compareComponents_eq_compareLex]
  exact Std.OrientedCmp.eq_swap

theorem isLE_compare_total (p q : Path) :
    ((p.compare q).isLE || (q.compare p).isLE) = true := by
  rw [compare_eq_swap q p]
  cases p.compare q <;> rfl

/-- The order does not tell apart two spellings of one path. -/
theorem compare_congr_left {p q r : Path} (h : p.sameAs q = true) : p.compare r = q.compare r := by
  rw [compare, compare, sameAs_iff.1 h]

theorem compare_lt_of_isLE {p q : Path} (hle : (p.compare q).isLE = true)
    (hdiffer : p.sameAs q = false) : p.compare q = .lt := by
  cases hcompare : p.compare q with
  | lt => rfl
  | eq =>
    rw [compare_eq_iff.1 hcompare] at hdiffer
    cases hdiffer
  | gt =>
    rw [hcompare] at hle
    cases hle

theorem compare_lt_trans {p q r : Path} (hpq : p.compare q = .lt) (hqr : q.compare r = .lt) :
    p.compare r = .lt := by
  rw [compare, compareComponents_eq_compareLex] at hpq hqr ⊢
  exact Std.TransCmp.lt_trans hpq hqr

/-- A common beginning does not matter. -/
theorem compareComponents_append_left (cs as bs : List Component) :
    compareComponents (cs ++ as) (cs ++ bs) = compareComponents as bs := by
  induction cs with
  | nil => rfl
  | cons c cs ih =>
    have hself : c.compare c = .eq := Std.ReflCmp.compare_self
    rw [List.cons_append, List.cons_append, compareComponents, hself, Ordering.eq_then, ih]

/-- Sorting puts paths in order. -/
theorem sorted_mergeSort_compare (paths : List Path) :
    (paths.mergeSort fun a b => (a.compare b).isLE).Pairwise fun a b =>
      (a.compare b).isLE = true :=
  List.pairwise_mergeSort isLE_compare_trans isLE_compare_total paths

end Path

end ModulePurity
