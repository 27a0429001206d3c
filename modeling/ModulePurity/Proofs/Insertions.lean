import Mathlib.Data.List.Perm.Subperm
import Mathlib.Data.Prod.Lex
import ModulePurity.Proofs.Splices

/-!
# Edits that only insert

Scheduling sorts edits by their place and drops repeated neighbours. For edits that insert one and
the same text, and that agree as soon as they start at the same offset, this leaves one edit for
each offset in increasing order (`dropRepeats_strict`). None of them is skipped when they are
applied, since nothing starts inside an empty stretch (`InsertOnly.spliced`): the result is the text
with the insertion woven in at all of the offsets (`applyAll?_eq_marked`). Their ends are their
starts, so that nothing can overflow.
-/

namespace ModulePurity

namespace Edit

/-! ## Scheduling -/

theorem sameAs_iff {a b : Edit} :
    a.sameAs b = true ↔
      a.location.file.components = b.location.file.components ∧
        a.location.line = b.location.line ∧ a.location.column = b.location.column ∧
        a.location.offset = b.location.offset ∧ a.location.length = b.location.length ∧
        a.newText = b.newText := by
  simp only [sameAs, Location.sameAs, Path.sameAs, Bool.and_eq_true, beq_iff_eq, and_assoc]

theorem sameAs_self (e : Edit) : e.sameAs e = true :=
  sameAs_iff.2 ⟨rfl, rfl, rfl, rfl, rfl, rfl⟩

theorem sameAs_trans {a b c : Edit} (hab : a.sameAs b = true) (hbc : b.sameAs c = true) :
    a.sameAs c = true := by
  rw [sameAs_iff] at hab hbc ⊢
  obtain ⟨hfile, hline, hcolumn, hoffset, hlength, htext⟩ := hab
  rw [hfile, hline, hcolumn, hoffset, hlength, htext]
  exact hbc

theorem start_eq_of_sameAs {a b : Edit} (h : a.sameAs b = true) : a.start = b.start :=
  (sameAs_iff.1 h).2.2.2.1

/-- The rank of an edit in the order in which edits are tried. -/
def rank (e : Edit) : ℕ ×ₗ ℕ := toLex (e.start, e.location.length)

theorem comesBefore_iff {a b : Edit} : comesBefore a b = true ↔ a.rank ≤ b.rank := by
  simp [comesBefore, rank, Prod.Lex.toLex_le_toLex]

theorem comesBefore_trans (a b c : Edit) (hab : comesBefore a b = true)
    (hbc : comesBefore b c = true) : comesBefore a c = true := by
  rw [comesBefore_iff] at *
  exact hab.trans hbc

theorem comesBefore_total (a b : Edit) : (comesBefore a b || comesBefore b a) = true := by
  rw [Bool.or_eq_true, comesBefore_iff, comesBefore_iff]
  exact le_total a.rank b.rank

theorem sorted_mergeSort_rank (es : List Edit) :
    (es.mergeSort comesBefore).Pairwise fun a b => a.rank ≤ b.rank :=
  (List.pairwise_mergeSort comesBefore_trans comesBefore_total es).imp comesBefore_iff.1

/-- Dropping repeats keeps the order of what remains. -/
theorem dropRepeats_sublist (es : List Edit) : (dropRepeats es).Sublist es := by
  induction es with
  | nil => exact List.Sublist.refl _
  | cons a es ih =>
    rw [dropRepeats]
    split
    · exact (List.nil_sublist es).cons_cons a
    · next f fs hdrop =>
      rw [hdrop] at ih
      split
      · exact ((List.sublist_cons_self f fs).trans ih).cons_cons a
      · exact ih.cons_cons a

theorem dropRepeats_subset {e : Edit} {es : List Edit} (h : e ∈ dropRepeats es) : e ∈ es :=
  (dropRepeats_sublist es).subset h

/-- Dropping repeats keeps every edit, or one that agrees with it. -/
theorem exists_sameAs_dropRepeats {e : Edit} {es : List Edit} (h : e ∈ es) :
    ∃ d ∈ dropRepeats es, d.sameAs e = true := by
  induction es with
  | nil => cases h
  | cons a es ih =>
    rw [dropRepeats]
    split
    · next hdrop =>
      rcases List.mem_cons.1 h with rfl | h
      · exact ⟨e, List.mem_cons_self, sameAs_self e⟩
      · obtain ⟨d, hd, -⟩ := ih h
        rw [hdrop] at hd
        cases hd
    · next f fs hdrop =>
      rw [hdrop] at ih
      split
      · next hsame =>
        rcases List.mem_cons.1 h with rfl | h
        · exact ⟨e, List.mem_cons_self, sameAs_self e⟩
        · obtain ⟨d, hd, hagree⟩ := ih h
          rcases List.mem_cons.1 hd with rfl | hd
          · exact ⟨a, List.mem_cons_self, sameAs_trans hsame hagree⟩
          · exact ⟨d, List.mem_cons_of_mem a hd, hagree⟩
      · rcases List.mem_cons.1 h with rfl | h
        · exact ⟨e, List.mem_cons_self, sameAs_self e⟩
        · obtain ⟨d, hd, hagree⟩ := ih h
          exact ⟨d, List.mem_cons_of_mem a hd, hagree⟩

/-- In a sorted list whose edits agree at equal places, dropping repeats leaves one edit a place. -/
theorem dropRepeats_strict {es : List Edit} (hsorted : es.Pairwise fun a b => a.start ≤ b.start)
    (hagree : ∀ a ∈ es, ∀ b ∈ es, a.start = b.start → a = b) :
    (dropRepeats es).Pairwise fun a b => a.start < b.start := by
  induction es with
  | nil => exact List.Pairwise.nil
  | cons a es ih =>
    obtain ⟨hfirst, hsorted⟩ := List.pairwise_cons.1 hsorted
    have htail := ih hsorted fun x hx y hy =>
      hagree x (List.mem_cons_of_mem a hx) y (List.mem_cons_of_mem a hy)
    rw [dropRepeats]
    split
    · exact List.pairwise_singleton _ _
    · next f fs hdrop =>
      rw [hdrop] at htail
      have hf : f ∈ es := dropRepeats_subset (hdrop ▸ List.mem_cons_self)
      obtain ⟨hlater, hfs⟩ := List.pairwise_cons.1 htail
      split
      · next hsame =>
        refine List.pairwise_cons.2 ⟨fun b hb => ?_, hfs⟩
        rw [start_eq_of_sameAs hsame]
        exact hlater b hb
      · next hdiffer =>
        -- Neighbours that differ cannot start at the same offset, since edits agree there.
        have hlt : a.start < f.start := by
          rcases Nat.lt_or_eq_of_le (hfirst f hf) with h | h
          · exact h
          · have heq := hagree a List.mem_cons_self f (List.mem_cons_of_mem a hf) h
            exact absurd (heq ▸ sameAs_self a) hdiffer
        refine List.pairwise_cons.2 ⟨fun b hb => ?_, htail⟩
        rcases List.mem_cons.1 hb with rfl | hb
        · exact hlt
        · exact Nat.lt_trans hlt (hlater b hb)

/-! ## Insertions of one text -/

/-- Edits that all insert `mark` between two characters of a text, and that agree at equal places.
-/
structure InsertOnly (mark cs : List Char) (edits : List Edit) : Prop where
  empty : ∀ e ∈ edits, e.location.length = 0
  text : ∀ e ∈ edits, e.newText.toList = mark
  boundary : ∀ e ∈ edits, Text.IsBoundary cs e.start
  agree : ∀ a ∈ edits, ∀ b ∈ edits, a.start = b.start → a = b

variable {mark cs : List Char} {edits : List Edit}

theorem stop_of_empty {e : Edit} (h : e.location.length = 0) : e.stop = e.start := by
  rw [stop, h, Nat.add_zero, start]

/-- An insertion adds no length to its offset. -/
theorem fits_of_empty {e : Edit} (h : e.location.length = 0) : e.fits = true := by
  simp [fits, h]

/-- Insertions at boundaries are within the text. -/
theorem InsertOnly.filter_eq (h : InsertOnly mark cs edits) :
    edits.filter (fun e => e.stop ≤ Text.byteLength cs) = edits := by
  refine List.filter_eq_self.2 fun e he => ?_
  rw [stop_of_empty (h.empty e he)]
  exact decide_eq_true (h.boundary e he).le

theorem sorted_mergeSort_comesBefore (es : List Edit) :
    (es.mergeSort comesBefore).Pairwise fun a b => a.start ≤ b.start := by
  refine (sorted_mergeSort_rank es).imp fun {a b} hab => ?_
  rw [rank, rank, Prod.Lex.toLex_le_toLex] at hab
  omega

/-- Only edits from the list are scheduled. -/
theorem InsertOnly.schedule_subset (h : InsertOnly mark cs edits) {e : Edit}
    (he : e ∈ schedule (Text.byteLength cs) edits) : e ∈ edits := by
  rw [schedule, h.filter_eq] at he
  exact List.mem_mergeSort.1 (dropRepeats_subset he)

/-- Insertions of one text are scheduled once for each offset. -/
theorem InsertOnly.schedule_strict (h : InsertOnly mark cs edits) :
    (schedule (Text.byteLength cs) edits).Pairwise fun a b => a.start < b.start := by
  rw [schedule, h.filter_eq]
  refine dropRepeats_strict (sorted_mergeSort_comesBefore edits) fun a ha b hb => ?_
  exact h.agree a (List.mem_mergeSort.1 ha) b (List.mem_mergeSort.1 hb)

/-- The scheduled edits start where the given ones do. -/
theorem InsertOnly.mem_starts_schedule (h : InsertOnly mark cs edits) (o : Nat) :
    o ∈ (schedule (Text.byteLength cs) edits).map start ↔ o ∈ edits.map start := by
  constructor
  · intro ho
    obtain ⟨e, he, rfl⟩ := List.mem_map.1 ho
    exact List.mem_map_of_mem (h.schedule_subset he)
  · intro ho
    obtain ⟨e, he, rfl⟩ := List.mem_map.1 ho
    rw [schedule, h.filter_eq]
    obtain ⟨d, hd, hsame⟩ := exists_sameAs_dropRepeats
      (List.mem_mergeSort.2 he : e ∈ edits.mergeSort comesBefore)
    exact List.mem_map.2 ⟨d, hd, start_eq_of_sameAs hsame⟩

/-- Increasing insertions that are spliced into a text are woven into it. -/
theorem Spliced.eq_weave {pos : Nat} {es : List Edit} {old new : List Char}
    (h : Spliced pos es old new) (hempty : ∀ e ∈ es, e.location.length = 0)
    (htext : ∀ e ∈ es, e.newText.toList = mark) (hstrict : es.Pairwise fun a b => a.start < b.start) :
    new =
      Text.weave mark (es.map start) pos old ++
        Text.markAt mark (es.map start) (pos + Text.byteLength old) := by
  induction h with
  | nil pos cs =>
    rw [List.map_nil, Text.weave_of_no_offset pos cs (by simp), Text.markAt_of_not_mem (by simp),
      List.append_nil]
  | @cons pos e es kept gone rest new hstart hstop _ ih =>
    obtain ⟨hlater, hstrict⟩ := List.pairwise_cons.1 hstrict
    have hat : e.stop = e.start := stop_of_empty (hempty e List.mem_cons_self)
    have hgone : gone = [] := by
      rcases gone with _ | ⟨c, cs⟩
      · rfl
      · have := Text.byteLength_pos (List.cons_ne_nil c cs)
        omega
    have htail := ih (fun d hd => hempty d (List.mem_cons_of_mem e hd))
      (fun d hd => htext d (List.mem_cons_of_mem e hd)) hstrict
    have hahead : Text.weave mark (e.start :: es.map start) pos kept = kept := by
      refine Text.weave_of_no_offset pos kept fun q hq => Or.inr ?_
      rcases List.mem_cons.1 hq with rfl | hq
      · omega
      · obtain ⟨d, hd, rfl⟩ := List.mem_map.1 hq
        have := hlater d hd
        omega
    have hfirst : e.start ∉ es.map start := by
      intro hmem
      obtain ⟨d, hd, heq⟩ := List.mem_map.1 hmem
      have := hlater d hd
      omega
    rw [htail, hat, hgone, List.nil_append, htext e List.mem_cons_self, List.map_cons,
      Text.weave_append, hahead, Text.byteLength_append, hstart, ← Nat.add_assoc, hstart,
      List.append_assoc, Text.weave_first hfirst]

/-- The text after the insertions is there, and all that are scheduled are spliced into it: none of
them starts inside another. -/
theorem InsertOnly.spliced {source : String} (h : InsertOnly mark source.toList edits) :
    ∃ text, applyAll? source edits = some text ∧
      Spliced 0 (schedule (Text.byteLength source.toList) edits) source.toList text.toList := by
  have hstop : ∀ e ∈ schedule (Text.byteLength source.toList) edits, e.stop = e.start :=
    fun e he => stop_of_empty (h.empty e (h.schedule_subset he))
  obtain ⟨accepted, new, hsub, happly, hspliced, hothers⟩ := exists_spliced [] source.toList _
    (h.schedule_strict.imp Nat.le_of_lt)
  -- Every scheduled edit is among the accepted ones, so that these are all.
  have hall : schedule (Text.byteLength source.toList) edits ⊆ accepted := by
    intro e he
    have hboundary := h.boundary e (h.schedule_subset he)
    rcases hothers e he hboundary (hstop e he ▸ hboundary) with hmem | hbefore | ⟨a, ha, hle, hlt⟩
    · exact hmem
    · exact absurd hbefore (Nat.not_lt_zero _)
    · have := hstop a (hsub.subset ha)
      omega
  have hnodup : (schedule (Text.byteLength source.toList) edits).Nodup :=
    h.schedule_strict.imp fun {a b} hlt heq => by
      rw [heq] at hlt
      exact Nat.lt_irrefl _ hlt
  have heq : accepted = schedule (Text.byteLength source.toList) edits :=
    hsub.eq_of_length_le (List.subperm_of_subset hnodup hall).length_le
  have happly : applyFrom? source.toList 0 (schedule (Text.byteLength source.toList) edits) =
      some new := happly
  refine ⟨String.ofList new, ?_, ?_⟩
  · rw [applyAll?_of_fits source fun e he => fits_of_empty (h.empty e he), happly, Option.map_some]
  · rw [String.toList_ofList, ← heq]
    exact hspliced

/-- Insertions of one text are all applied, each offset once. -/
theorem applyAll?_eq_marked {source : String} (h : InsertOnly mark source.toList edits) :
    applyAll? source edits =
      some (String.ofList (Text.marked mark (edits.map start) source.toList)) := by
  obtain ⟨text, htext, hspliced⟩ := h.spliced
  have hweave := hspliced.eq_weave (fun e he => h.empty e (h.schedule_subset he))
    (fun e he => h.text e (h.schedule_subset he)) h.schedule_strict
  rw [Nat.zero_add] at hweave
  rw [htext, ← Text.marked_congr source.toList h.mem_starts_schedule, Text.marked, ← hweave,
    String.ofList_toList]

end Edit

end ModulePurity
