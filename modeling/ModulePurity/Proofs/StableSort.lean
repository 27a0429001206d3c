import Mathlib.Data.List.Basic

/-!
# Sorting keeps apart what belongs apart

Facts about a stable sort by a total and transitive order. An item goes in front of the first one
that it may stand before, so that sorting splits the sorted rest in two (`mergeSort_cons`). From
this it follows that leaving items out commutes with sorting (`filter_mergeSort`), and that blocks
in order are sorted one by one (`mergeSort_flatMap`).
-/

namespace ModulePurity.StableSort

variable {α β : Type} {le : α → α → Bool}

/-- Sorting asks only how the items of the list compare. -/
theorem mergeSort_congr {le' : α → α → Bool} {l : List α}
    (h : ∀ a ∈ l, ∀ b ∈ l, le a b = le' a b) : l.mergeSort le = l.mergeSort le' := by
  simpa using List.map_mergeSort (f := id) h

section

variable (htrans : ∀ a b c, le a b = true → le b c = true → le a c = true)

include htrans

/-- In a sorted list the items that may not follow `a` come first. -/
theorem filter_append_filter (a : α) {s : List α} (h : s.Pairwise fun b c => le b c = true) :
    (s.filter fun b => !le a b) ++ s.filter (le a) = s := by
  induction s with
  | nil => rfl
  | cons b s ih =>
    obtain ⟨hfirst, hrest⟩ := List.pairwise_cons.1 h
    cases hab : le a b with
    | false => simp [hab, ih hrest]
    | true =>
      -- From here on everything may follow.
      have hall : ∀ c ∈ s, le a c = true := fun c hc => htrans a b c hab (hfirst c hc)
      have hnone : (s.filter fun c => !le a c) = [] := by
        refine List.filter_eq_nil_iff.2 fun c hc => ?_
        simp [hall c hc]
      simp [hab, hnone, List.filter_eq_self.2 hall]

variable (htotal : ∀ a b, (le a b || le b a) = true)

include htotal

/-- An item goes right in front of those of the sorted rest that may follow it. -/
theorem mergeSort_cons (a : α) (l : List α) :
    (a :: l).mergeSort le =
      ((l.mergeSort le).filter fun b => !le a b) ++ a :: (l.mergeSort le).filter (le a) := by
  obtain ⟨front, back, hsorted, hrest, hfront⟩ := List.mergeSort_cons htrans htotal a l
  have hback : ∀ b ∈ back, le a b = true := by
    have hpairwise := List.pairwise_mergeSort htrans htotal (a :: l)
    rw [hsorted, List.pairwise_append] at hpairwise
    exact (List.pairwise_cons.1 hpairwise.2.1).1
  have hnone : (back.filter fun b => !le a b) = [] := by
    refine List.filter_eq_nil_iff.2 fun b hb => ?_
    simp [hback b hb]
  have hnone' : front.filter (le a) = [] := by
    refine List.filter_eq_nil_iff.2 fun b hb => ?_
    simpa using hfront b hb
  rw [hsorted, hrest, List.filter_append, List.filter_append, hnone, hnone',
    List.filter_eq_self.2 hfront, List.filter_eq_self.2 hback, List.append_nil, List.nil_append]

/-- Items that are left out do not change the order of the others. -/
theorem filter_mergeSort (p : α → Bool) (l : List α) :
    (l.mergeSort le).filter p = (l.filter p).mergeSort le := by
  induction l with
  | nil => simp
  | cons a l ih =>
    rw [mergeSort_cons htrans htotal a l, List.filter_append, List.filter_comm]
    cases hp : p a with
    | true =>
      rw [List.filter_cons_of_pos hp, List.filter_cons_of_pos hp, List.filter_comm p (le a), ih,
        mergeSort_cons htrans htotal]
    | false =>
      have hnot : ¬ p a = true := by simp [hp]
      have hsorted : ((l.filter p).mergeSort le).Pairwise fun b c => le b c = true :=
        List.pairwise_mergeSort htrans htotal _
      rw [List.filter_cons_of_neg hnot, List.filter_cons_of_neg hnot, List.filter_comm p (le a), ih,
        filter_append_filter htrans a hsorted]

/-- If every item of a list may stand before every item of another, they are sorted one by one. -/
theorem mergeSort_append {l₁ l₂ : List α} (h : ∀ a ∈ l₁, ∀ b ∈ l₂, le a b = true) :
    (l₁ ++ l₂).mergeSort le = l₁.mergeSort le ++ l₂.mergeSort le := by
  induction l₁ with
  | nil => simp
  | cons a l₁ ih =>
    have hafter : ∀ b ∈ l₂.mergeSort le, le a b = true :=
      fun b hb => h a List.mem_cons_self b (List.mem_mergeSort.1 hb)
    have hnone : ((l₂.mergeSort le).filter fun b => !le a b) = [] := by
      refine List.filter_eq_nil_iff.2 fun b hb => ?_
      simp [hafter b hb]
    rw [List.cons_append, mergeSort_cons htrans htotal, mergeSort_cons htrans htotal,
      ih fun b hb => h b (List.mem_cons_of_mem a hb), List.filter_append, List.filter_append, hnone,
      List.filter_eq_self.2 hafter, List.append_nil, List.append_assoc, List.cons_append]

/-- Blocks in order are sorted one by one. -/
theorem mergeSort_flatMap (f : β → List α) {blocks : List β}
    (h : blocks.Pairwise fun a b => ∀ x ∈ f a, ∀ y ∈ f b, le x y = true) :
    (blocks.flatMap f).mergeSort le = blocks.flatMap fun b => (f b).mergeSort le := by
  induction blocks with
  | nil => simp
  | cons b blocks ih =>
    obtain ⟨hfirst, hrest⟩ := List.pairwise_cons.1 h
    have hafter : ∀ x ∈ f b, ∀ y ∈ blocks.flatMap f, le x y = true := by
      intro x hx y hy
      obtain ⟨c, hc, hy⟩ := List.mem_flatMap.1 hy
      exact hfirst c hc x hx y hy
    rw [List.flatMap_cons, List.flatMap_cons, mergeSort_append htrans htotal hafter, ih hrest]

end

end ModulePurity.StableSort
