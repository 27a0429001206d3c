import Mathlib.Data.List.Forall2
import Mathlib.Data.List.Sort
import ModulePurity.Proofs.Insertions

/-!
# The order in which edits are given

Edits are tried by rank: by offset, and by length where offsets are equal. Sorting puts any list of
edits into an order that depends on the list only where ranks are equal. If edits of equal rank
agree, then two lists with the same edits in a different order are sorted into lists that agree edit
by edit (`forall₂_mergeSort`), the same repeats are dropped (`forall₂_dropRepeats`), and the same
text comes out, or none does (`applyAll?_perm`).
-/

namespace ModulePurity.Edit

/-! ## Ranks -/

theorem rank_eq_iff {a b : Edit} :
    a.rank = b.rank ↔ a.start = b.start ∧ a.location.length = b.location.length := by
  simp [rank]

theorem rank_eq_of_sameAs {a b : Edit} (h : a.sameAs b = true) : a.rank = b.rank := by
  obtain ⟨-, -, -, hoffset, hlength, -⟩ := sameAs_iff.1 h
  exact rank_eq_iff.2 ⟨hoffset, hlength⟩

theorem stop_eq_of_rank_eq {a b : Edit} (h : a.rank = b.rank) : a.stop = b.stop := by
  obtain ⟨hstart, hlength⟩ := rank_eq_iff.1 h
  have hoffset : a.location.offset = b.location.offset := hstart
  rw [stop, stop, hoffset, hlength]

/-! ## Lists that agree edit by edit -/

theorem sameAs_symm {a b : Edit} (h : a.sameAs b = true) : b.sameAs a = true := by
  rw [sameAs_iff] at *
  obtain ⟨hfile, hline, hcolumn, hoffset, hlength, htext⟩ := h
  exact ⟨hfile.symm, hline.symm, hcolumn.symm, hoffset.symm, hlength.symm, htext.symm⟩

theorem sameAs_congr {a a' b b' : Edit} (ha : a.sameAs a' = true) (hb : b.sameAs b' = true) :
    a.sameAs b = a'.sameAs b' := by
  rw [Bool.eq_iff_iff]
  constructor
  · intro h
    exact sameAs_trans (sameAs_symm ha) (sameAs_trans h hb)
  · intro h
    exact sameAs_trans ha (sameAs_trans h (sameAs_symm hb))

/-- The ranks of a sorted list do not depend on the order in which its edits were given. -/
theorem map_rank_mergeSort {es es' : List Edit} (h : es.Perm es') :
    (es.mergeSort comesBefore).map rank = (es'.mergeSort comesBefore).map rank := by
  have hperm : (es.mergeSort comesBefore).Perm (es'.mergeSort comesBefore) :=
    (List.mergeSort_perm es comesBefore).trans (h.trans (List.mergeSort_perm es' comesBefore).symm)
  apply List.Perm.eq_of_sortedLE _ _ (hperm.map rank)
  · exact (List.pairwise_map.2 (sorted_mergeSort_rank es)).sortedLE
  · exact (List.pairwise_map.2 (sorted_mergeSort_rank es')).sortedLE

/-- If edits of equal rank agree, sorting gives lists that agree edit by edit. -/
theorem forall₂_mergeSort {es es' : List Edit} (h : es.Perm es')
    (hagree : ∀ a ∈ es, ∀ b ∈ es, a.rank = b.rank → a.sameAs b = true) :
    List.Forall₂ (fun a b => a.sameAs b = true) (es.mergeSort comesBefore)
      (es'.mergeSort comesBefore) := by
  have hranks : List.Forall₂ (fun a b => a.rank = b.rank) (es.mergeSort comesBefore)
      (es'.mergeSort comesBefore) := by
    rw [← List.forall₂_map_right_iff (f := rank), ← List.forall₂_map_left_iff (f := rank),
      List.forall₂_eq_eq_eq]
    exact map_rank_mergeSort h
  rw [List.forall₂_iff_zip] at *
  refine ⟨hranks.1, fun {a b} hab => ?_⟩
  obtain ⟨ha, hb⟩ := List.of_mem_zip hab
  apply hagree a (List.mem_mergeSort.1 ha) b _ (hranks.2 hab)
  exact h.mem_iff.2 (List.mem_mergeSort.1 hb)

/-- Dropping repeats goes the same way on lists of pairwise same edits. -/
theorem forall₂_dropRepeats {es es' : List Edit}
    (h : List.Forall₂ (fun a b => a.sameAs b = true) es es') :
    List.Forall₂ (fun a b => a.sameAs b = true) (dropRepeats es) (dropRepeats es') := by
  induction h with
  | nil => exact List.Forall₂.nil
  | @cons a b es es' hab _ ih =>
    rw [dropRepeats, dropRepeats]
    revert ih
    generalize dropRepeats es = fs, dropRepeats es' = fs'
    intro ih
    cases ih with
    | nil => exact List.Forall₂.cons hab List.Forall₂.nil
    | @cons f f' fs fs' hf hfs =>
      show List.Forall₂ _ (if a.sameAs f then a :: fs else a :: f :: fs)
        (if b.sameAs f' then b :: fs' else b :: f' :: fs')
      rw [sameAs_congr hab hf]
      split
      · exact List.Forall₂.cons hab hfs
      · exact List.Forall₂.cons hab (List.Forall₂.cons hf hfs)

/-- Applying edits asks no more of them than `sameAs` does. -/
theorem applyFrom?_congr {es es' : List Edit}
    (h : List.Forall₂ (fun a b => a.sameAs b = true) es es') (cs : List Char) (cursor : Nat) :
    applyFrom? cs cursor es = applyFrom? cs cursor es' := by
  induction h generalizing cursor with
  | nil => rfl
  | @cons a b es es' hab _ ih =>
    have hstart : a.start = b.start := start_eq_of_sameAs hab
    have hstop : a.stop = b.stop := stop_eq_of_rank_eq (rank_eq_of_sameAs hab)
    have htext : a.newText = b.newText := (sameAs_iff.1 hab).2.2.2.2.2
    rw [applyFrom?, applyFrom?, hstart, hstop, htext, ih, ih]

/-! ## The order does not matter -/

/-- Two lists of the same edits, in which edits with equal offset and length agree, give the same
text, or both stop the program. -/
theorem applyAll?_perm (source : String) {edits edits' : List Edit} (hperm : edits.Perm edits')
    (hagree : ∀ a ∈ edits, ∀ b ∈ edits, a.start = b.start →
      a.location.length = b.location.length → a.sameAs b = true) :
    applyAll? source edits = applyAll? source edits' := by
  have hkept : ∀ a ∈ edits.filter fun e => e.stop ≤ Text.byteLength source.toList,
      ∀ b ∈ edits.filter fun e => e.stop ≤ Text.byteLength source.toList,
        a.rank = b.rank → a.sameAs b = true := by
    intro a ha b hb hrank
    obtain ⟨hstart, hlength⟩ := rank_eq_iff.1 hrank
    exact hagree a (List.mem_filter.1 ha).1 b (List.mem_filter.1 hb).1 hstart hlength
  have hscheduled := forall₂_dropRepeats (forall₂_mergeSort (hperm.filter _) hkept)
  rw [applyAll?, applyAll?, hperm.all_eq, schedule, schedule, applyFrom?_congr hscheduled]

/-- Edits of the text `abcdef` in the order of their offsets: one that overlaps the first, and an
insertion that is told twice, with two spellings of the file. -/
def orderedEdits : List Edit :=
  let edit (file : String) (offset length : Nat) (text : String) : Edit :=
    ⟨⟨⟨file⟩, 1, offset + 1, offset, length⟩, text⟩
  [edit "a.js" 0 4 "X", edit "a.js" 2 2 "Y", edit "a.js" 4 0 "+", edit "a.js/." 4 0 "+"]

theorem applyAll?_perm_orderedEdits :
    (∀ a ∈ orderedEdits, ∀ b ∈ orderedEdits, a.start = b.start →
      a.location.length = b.location.length → a.sameAs b = true) ∧
      applyAll? "abcdef" orderedEdits = some "X+ef" ∧
      applyAll? "abcdef" orderedEdits.reverse = some "X+ef" := by
  have hagree : ∀ a ∈ orderedEdits, ∀ b ∈ orderedEdits, a.start = b.start →
      a.location.length = b.location.length → a.sameAs b = true := by decide +kernel
  have hordered : applyAll? "abcdef" orderedEdits = some "X+ef" := by
    rw [applyAll?_of_fits "abcdef" (by decide), schedule,
      List.mergeSort_of_pairwise (by decide +kernel)]
    decide +kernel
  refine ⟨hagree, hordered, ?_⟩
  rw [← applyAll?_perm "abcdef" orderedEdits.reverse_perm.symm hagree]
  exact hordered

end ModulePurity.Edit
