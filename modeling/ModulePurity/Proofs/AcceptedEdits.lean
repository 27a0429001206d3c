import ModulePurity.Proofs.Insertions

/-!
# The edits that are accepted

Edits come from anywhere: they may reach beyond the text, cut characters, overlap, repeat each other
and stand in any order. `Applied` is what applying them should come to: some of them are accepted,
the text has exactly their stretches replaced, and an edit that could have been applied is left out
only if it agrees with an accepted one or starts inside the stretch of one.

This holds of every text that comes out, and one comes out whenever the end of every edit fits into an
offset: no stretch is ever asked for that the text does not have. It is the only condition
(`applyAll?_applied`). An end that overflows stops the program, where an edit that reaches so far
would have to be left out: `Applied` has the unchanged text for it (`overflowingEdit_stops`).
-/

namespace ModulePurity.Edit

open Text (byteLength IsBoundary)

/-- A text with edits becomes another one, in which exactly the accepted edits are applied. -/
structure Applied (source : String) (edits accepted : List Edit) (output : String) : Prop where
  /-- None is accepted more often than it is given. -/
  taken : accepted.Subperm edits
  /-- They stand in the order of their offsets and do not overlap. -/
  apart : accepted.Pairwise fun a b => a.start ≤ b.start ∧ a.stop ≤ b.start
  within : ∀ a ∈ accepted, a.stop ≤ byteLength source.toList ∧
    IsBoundary source.toList a.start ∧ IsBoundary source.toList a.stop
  spliced : Spliced 0 accepted source.toList output.toList
  /-- Of edits that overlap, one with a lower or equal offset wins. -/
  others : ∀ e ∈ edits, e.stop ≤ byteLength source.toList → IsBoundary source.toList e.start →
    IsBoundary source.toList e.stop →
      (∃ a ∈ accepted, a.sameAs e = true) ∨ ∃ a ∈ accepted, a.start ≤ e.start ∧ e.start < a.stop

/-! ## Scheduling -/

theorem schedule_subperm (length : Nat) (edits : List Edit) :
    (schedule length edits).Subperm edits := by
  have hsorted := List.mergeSort_perm (edits.filter fun e => e.stop ≤ length) comesBefore
  exact (dropRepeats_sublist _).subperm.trans
    (hsorted.subperm.trans List.filter_sublist.subperm)

theorem sorted_schedule (length : Nat) (edits : List Edit) :
    (schedule length edits).Pairwise fun a b => a.start ≤ b.start :=
  (sorted_mergeSort_comesBefore _).sublist (dropRepeats_sublist _)

/-- An edit within the text is tried, or one that agrees with it is. -/
theorem exists_sameAs_schedule {length : Nat} {edits : List Edit} {e : Edit} (he : e ∈ edits)
    (hlength : e.stop ≤ length) : ∃ d ∈ schedule length edits, d.sameAs e = true := by
  have hkept : e ∈ edits.filter fun e => e.stop ≤ length :=
    List.mem_filter.2 ⟨he, decide_eq_true hlength⟩
  exact exists_sameAs_dropRepeats (List.mem_mergeSort.2 hkept)

/-! ## Applying -/

/-- If all ends fit, a text comes out, with some of the edits applied. -/
theorem exists_applied (source : String) {edits : List Edit} (hfits : ∀ e ∈ edits, e.fits = true) :
    ∃ output accepted, applyAll? source edits = some output ∧
      Applied source edits accepted output := by
  have hsub := schedule_subperm (byteLength source.toList) edits
  obtain ⟨accepted, new, haccepted, happly, hspliced, hothers⟩ :=
    exists_spliced [] source.toList _ (sorted_schedule (byteLength source.toList) edits)
  have happly : applyFrom? source.toList 0 (schedule (byteLength source.toList) edits) =
      some new := happly
  refine ⟨String.ofList new, accepted, ?_, haccepted.subperm.trans hsub, ?_, fun a ha => ?_, ?_, ?_⟩
  · rw [applyAll?_of_fits source hfits, happly, Option.map_some]
  · refine hspliced.apart.imp fun {a b} hab => ?_
    exact ⟨Nat.le_trans a.start_le_stop hab, hab⟩
  · obtain ⟨hstart, hstop⟩ := hspliced.boundary a ha
    exact ⟨hstop.le, hstart, hstop⟩
  · rw [String.toList_ofList]
    exact hspliced
  · intro e he hlength hstart hstop
    -- What is tried in the place of the edit has the same stretch.
    obtain ⟨d, hd, hsame⟩ := exists_sameAs_schedule he hlength
    obtain ⟨-, -, -, hoffset, hlen, -⟩ := sameAs_iff.1 hsame
    have hdstart : d.start = e.start := hoffset
    have hdstop : d.stop = e.stop := by rw [stop, stop, hoffset, hlen]
    rcases hothers d hd (hdstart ▸ hstart) (hdstop ▸ hstop) with hmem | hbefore | ⟨a, ha, hinside⟩
    · exact Or.inl ⟨d, hmem, hsame⟩
    · exact absurd hbefore (Nat.not_lt_zero _)
    · exact Or.inr ⟨a, ha, hdstart ▸ hinside⟩

/-- A text comes out exactly if the end of every edit fits into an offset. Some of the edits are
accepted, the output is the text with exactly these applied, and each of the others is out of range,
cuts a character, agrees with an accepted one, or starts inside one. -/
theorem applyAll?_applied (source : String) (edits : List Edit) :
    ((∃ output, applyAll? source edits = some output) ↔ ∀ e ∈ edits, e.fits = true) ∧
      ∀ output, applyAll? source edits = some output →
        ∃ accepted, Applied source edits accepted output := by
  have hfits : ∀ output, applyAll? source edits = some output → ∀ e ∈ edits, e.fits = true := by
    intro output houtput
    by_contra hoverflow
    rw [applyAll?_eq_none_iff.2 hoverflow] at houtput
    cases houtput
  refine ⟨⟨fun ⟨output, houtput⟩ => hfits output houtput, fun h => ?_⟩, fun output houtput => ?_⟩
  · obtain ⟨output, -, houtput, -⟩ := exists_applied source h
    exact ⟨output, houtput⟩
  · obtain ⟨output', accepted, houtput', happlied⟩ := exists_applied source (hfits output houtput)
    obtain rfl : output' = output := Option.some.inj (houtput'.symm.trans houtput)
    exact ⟨accepted, happlied⟩

/-- Edits of the text `héllo`: two that overlap, one of them given twice, one that cuts the second
letter, one that reaches beyond the end, and an insertion right behind a replaced stretch. -/
def mixedEdits : List Edit :=
  let edit (offset length : Nat) (text : String) : Edit := ⟨⟨⟨"a.js"⟩, 1, 1, offset, length⟩, text⟩
  [edit 1 3 "E", edit 1 3 "E", edit 2 0 "?", edit 3 2 "!", edit 4 0 "+", edit 5 9 "?"]

theorem applyAll?_applied_mixedEdits :
    applyAll? "héllo" mixedEdits = some "hE+lo" ∧
      ∃ accepted, Applied "héllo" mixedEdits accepted "hE+lo" := by
  have houtput : applyAll? "héllo" mixedEdits = some "hE+lo" := by
    rw [applyAll?_of_fits "héllo" (by decide), schedule,
      List.mergeSort_of_pairwise (by decide +kernel)]
    decide +kernel
  exact ⟨houtput, (applyAll?_applied "héllo" mixedEdits).2 _ houtput⟩

/-! ## Ends that overflow -/

/-- An edit of the text `abcdef` that starts at its last letter and reaches beyond all offsets. -/
def overflowingEdit : Edit := ⟨⟨⟨"a.js"⟩, 1, 6, 5, offsetLimit - 3⟩, "X"⟩

/-- An edit that reaches far beyond the text leaves nothing to apply, but the program stops. -/
theorem overflowingEdit_stops :
    byteLength "abcdef".toList < overflowingEdit.stop ∧
      (∀ output, (∃ accepted, Applied "abcdef" [overflowingEdit] accepted output) ↔
        output = "abcdef") ∧
      applyAll? "abcdef" [overflowingEdit] = none := by
  have hbeyond : byteLength "abcdef".toList < overflowingEdit.stop := by decide +kernel
  refine ⟨hbeyond, fun output => ⟨?_, ?_⟩,
    applyAll?_eq_none_iff.2 (by decide +kernel)⟩
  · rintro ⟨accepted, h⟩
    have hnone : accepted = [] := by
      refine List.eq_nil_iff_forall_not_mem.2 fun a ha => ?_
      have hle := (h.within a ha).1
      rw [List.mem_singleton.1 (h.taken.subset ha)] at hle
      omega
    -- Without an accepted edit the text has to stay as it is.
    have hspliced := h.spliced
    rw [hnone] at hspliced
    generalize htext : output.toList = text at hspliced
    cases hspliced
    exact String.toList_inj.1 htext
  · rintro rfl
    refine ⟨[], List.nil_subperm, List.Pairwise.nil, by simp, .nil _ _, fun e he hlength => ?_⟩
    rw [List.mem_singleton.1 he] at hlength
    omega

end ModulePurity.Edit
