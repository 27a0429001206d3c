import ModulePurity.Finding.Edits
import ModulePurity.Proofs.Weave

/-!
# Texts in which stretches are replaced

`Spliced` says what a text with some edits applied is, without a cursor: cut the text around the
stretch of every edit and put the new texts in the place of these stretches. The loop that applies
edits does this for those that it does not skip:

* it never asks for a stretch that the text does not have, whatever the edits are
  (`isSome_applyFrom?`);
* edits in order are spliced into the text, and one is only skipped if it cuts a character or starts
  inside a stretch that was replaced (`exists_spliced`).

The loop is reached if the end of every edit fits into an offset (`applyAll?_of_fits`); if not, the
program stops, and only then (`applyAll?_eq_none_iff`).
-/

namespace ModulePurity

namespace Text

/-! ## Stretches between boundaries -/

/-- The slice between the lengths of two fronts is what lies between them. -/
theorem slice?_middle (a b c : List Char) :
    slice? (a ++ (b ++ c)) (byteLength a) (byteLength a + byteLength b) = some b := by
  rw [slice?, if_pos (by omega), splitAt?_append, Option.bind_some, Nat.add_sub_cancel_left]
  show (splitAt? (b ++ c) (byteLength b)).map Prod.fst = some b
  rw [splitAt?_append]
  rfl

/-- What lies between two boundaries in order, and what comes before and after it. -/
theorem IsBoundary.exists_middle {cs : List Char} {m n : Nat} (hm : IsBoundary cs m)
    (hn : IsBoundary cs n) (h : m ≤ n) :
    ∃ a b c, cs = a ++ (b ++ c) ∧ byteLength a = m ∧ m + byteLength b = n := by
  obtain ⟨a, rest, rfl, rfl⟩ := hm
  obtain ⟨b, c, rfl, hb⟩ := hn.of_append h
  exact ⟨a, b, c, rfl, rfl, by omega⟩

/-- The same in a text whose first part ends before both. -/
theorem IsBoundary.exists_middle_of_append {front rest : List Char} {m n : Nat}
    (hm : IsBoundary (front ++ rest) m) (hn : IsBoundary (front ++ rest) n)
    (hfront : byteLength front ≤ m) (h : m ≤ n) :
    ∃ a b c, rest = a ++ (b ++ c) ∧ byteLength front + byteLength a = m ∧
      m + byteLength b = n := by
  obtain ⟨a, b, c, hrest, ha, hb⟩ :=
    (hm.of_append hfront).exists_middle (hn.of_append (Nat.le_trans hfront h)) (by omega)
  exact ⟨a, b, c, hrest, by omega, by omega⟩

theorem IsBoundary.append_left {cs : List Char} {n : Nat} (h : IsBoundary cs n) (a : List Char) :
    IsBoundary (a ++ cs) (byteLength a + n) := by
  obtain ⟨b, c, rfl, rfl⟩ := h
  exact ⟨a ++ b, c, (List.append_assoc a b c).symm, byteLength_append a b⟩

theorem isBoundary_zero (cs : List Char) : IsBoundary cs 0 :=
  ⟨[], cs, rfl, rfl⟩

theorem isBoundary_byteLength (cs : List Char) : IsBoundary cs (byteLength cs) :=
  ⟨cs, [], (List.append_nil cs).symm, rfl⟩

end Text

namespace Edit

open Text (byteLength IsBoundary)

/-! ## What it means to apply edits -/

/-- A text that starts at byte offset `pos` becomes another one when the stretch of each edit is
replaced by its new text. The edits come in order and apart from each other, and all that is outside
of their stretches is kept. -/
inductive Spliced : (pos : Nat) → List Edit → (old new : List Char) → Prop
  | nil (pos : Nat) (cs : List Char) : Spliced pos [] cs cs
  | cons {pos : Nat} {e : Edit} {es : List Edit} {kept gone rest new : List Char}
      (start : pos + byteLength kept = e.start) (stop : e.start + byteLength gone = e.stop)
      (spliced : Spliced e.stop es rest new) :
      Spliced pos (e :: es) (kept ++ (gone ++ rest)) (kept ++ (e.newText.toList ++ new))

theorem start_le_stop (e : Edit) : e.start ≤ e.stop :=
  Nat.le_add_right _ _

/-- No edit starts before the offset from which the text is spliced. -/
theorem Spliced.le_start {pos : Nat} {es : List Edit} {old new : List Char}
    (h : Spliced pos es old new) : ∀ e ∈ es, pos ≤ e.start := by
  induction h with
  | nil => simp
  | cons hstart hstop _ ih =>
    intro d hd
    rcases List.mem_cons.1 hd with rfl | hd
    · omega
    · have := ih d hd
      omega

/-- The edits stand in the order of their stretches, which do not overlap. -/
theorem Spliced.apart {pos : Nat} {es : List Edit} {old new : List Char}
    (h : Spliced pos es old new) : es.Pairwise fun a b => a.stop ≤ b.start := by
  induction h with
  | nil => exact List.Pairwise.nil
  | cons _ _ hrest ih => exact List.pairwise_cons.2 ⟨hrest.le_start, ih⟩

/-- The stretch of each edit lies within the text and cuts no character. -/
theorem Spliced.boundary {pos : Nat} {es : List Edit} {old new : List Char}
    (h : Spliced pos es old new) :
    ∀ e ∈ es, IsBoundary old (e.start - pos) ∧ IsBoundary old (e.stop - pos) := by
  induction h with
  | nil => simp
  | @cons pos e es kept gone rest new hstart hstop hrest ih =>
    have hkept : e.start - pos = byteLength kept := by omega
    have hgone : e.stop - pos = byteLength (kept ++ gone) := by
      rw [Text.byteLength_append]
      omega
    intro d hd
    rcases List.mem_cons.1 hd with rfl | hd
    · exact ⟨⟨kept, gone ++ rest, rfl, hkept.symm⟩,
        ⟨kept ++ gone, rest, (List.append_assoc _ _ _).symm, hgone.symm⟩⟩
    · -- What is a boundary of the rest is one of the whole text.
      have hle := hrest.le_start d hd
      have hle' := d.start_le_stop
      have hstop' := e.start_le_stop
      obtain ⟨hfirst, hlast⟩ := ih d hd
      rw [← List.append_assoc]
      constructor
      · have hoffset : d.start - pos = byteLength (kept ++ gone) + (d.start - e.stop) := by omega
        rw [hoffset]
        exact hfirst.append_left (kept ++ gone)
      · have hoffset : d.stop - pos = byteLength (kept ++ gone) + (d.stop - e.stop) := by omega
        rw [hoffset]
        exact hlast.append_left (kept ++ gone)

/-! ## The loop -/

/-- The loop skips an edit, or takes it at boundaries that are still ahead. -/
theorem applyFrom?_cons (cs : List Char) (cursor : Nat) (e : Edit) (es : List Edit) :
    (applyFrom? cs cursor (e :: es) = applyFrom? cs cursor es ∧
      (e.start < cursor ∨ ¬ IsBoundary cs e.start ∨ ¬ IsBoundary cs e.stop)) ∨
    (applyFrom? cs cursor (e :: es) =
        ((Text.slice? cs cursor e.start).bind fun kept =>
          (applyFrom? cs e.stop es).map fun rest => kept ++ (e.newText.toList ++ rest)) ∧
      cursor ≤ e.start ∧ IsBoundary cs e.start ∧ IsBoundary cs e.stop) := by
  rw [applyFrom?, Text.isBoundary_iff, Text.isBoundary_iff]
  split
  · next hskip =>
    refine Or.inl ⟨rfl, ?_⟩
    simpa [or_assoc] using hskip
  · next htake =>
    refine Or.inr ⟨rfl, ?_⟩
    simpa [and_assoc] using htake

/-- Without edits the rest of the text is kept. -/
theorem applyFrom?_nil (front rest : List Char) :
    applyFrom? (front ++ rest) (byteLength front) [] = some rest := by
  rw [applyFrom?, Text.byteLength_append]
  simpa using Text.slice?_middle front rest []

/-- If the end of every edit fits, the loop runs over the schedule. -/
theorem applyAll?_of_fits (source : String) {edits : List Edit} (h : ∀ e ∈ edits, e.fits = true) :
    applyAll? source edits =
      (applyFrom? source.toList 0 (schedule (byteLength source.toList) edits)).map String.ofList :=
  if_pos (List.all_eq_true.2 h)

theorem applyAll?_nil (source : String) : applyAll? source [] = some source := by
  have hkept : applyFrom? source.toList 0 [] = some source.toList := applyFrom?_nil [] source.toList
  rw [applyAll?_of_fits source (by simp), schedule, List.filter_nil, List.mergeSort_nil, dropRepeats,
    hkept, Option.map_some, String.ofList_toList]

/-- Every stretch that the loop asks for is there, whatever the edits are. -/
theorem isSome_applyFrom? {cs : List Char} {cursor : Nat} (hcursor : IsBoundary cs cursor)
    (es : List Edit) : (applyFrom? cs cursor es).isSome = true := by
  have hslice : ∀ m n, IsBoundary cs m → IsBoundary cs n → m ≤ n →
      ∃ b, Text.slice? cs m n = some b := by
    intro m n hm hn hmn
    obtain ⟨a, b, c, rfl, rfl, rfl⟩ := hm.exists_middle hn hmn
    exact ⟨b, Text.slice?_middle a b c⟩
  induction es generalizing cursor with
  | nil =>
    obtain ⟨b, hb⟩ := hslice _ _ hcursor (Text.isBoundary_byteLength cs) hcursor.le
    rw [applyFrom?, hb]
    rfl
  | cons e es ih =>
    rcases applyFrom?_cons cs cursor e es with ⟨hskip, -⟩ | ⟨htake, hle, hstart, hstop⟩
    · rw [hskip]
      exact ih hcursor
    · -- The cursor goes on at a boundary.
      obtain ⟨kept, hkept⟩ := hslice _ _ hcursor hstart hle
      obtain ⟨rest, hrest⟩ := Option.isSome_iff_exists.1 (ih hstop)
      rw [htake, hkept, hrest]
      rfl

/-- If the end of every edit fits, a text comes out. -/
theorem exists_applyAll? (source : String) {edits : List Edit} (h : ∀ e ∈ edits, e.fits = true) :
    ∃ text, applyAll? source edits = some text := by
  obtain ⟨cs, hcs⟩ := Option.isSome_iff_exists.1
    (isSome_applyFrom? (Text.isBoundary_zero source.toList)
      (schedule (byteLength source.toList) edits))
  exact ⟨String.ofList cs, by rw [applyAll?_of_fits source h, hcs, Option.map_some]⟩

/-- The program stops exactly if the end of some edit overflows. -/
theorem applyAll?_eq_none_iff {source : String} {edits : List Edit} :
    applyAll? source edits = none ↔ ¬ ∀ e ∈ edits, e.fits = true := by
  constructor
  · intro hnone hfits
    obtain ⟨text, htext⟩ := exists_applyAll? source hfits
    rw [hnone] at htext
    cases htext
  · intro hoverflow
    exact if_neg fun hall => hoverflow (List.all_eq_true.1 hall)

/-- Of edits in order, the loop splices some into the rest of a text. The others cut a character, or
start before the rest or inside a stretch that is replaced. -/
theorem exists_spliced (front rest : List Char) (es : List Edit)
    (hsorted : es.Pairwise fun a b => a.start ≤ b.start) :
    ∃ accepted new, accepted.Sublist es ∧
      applyFrom? (front ++ rest) (byteLength front) es = some new ∧
      Spliced (byteLength front) accepted rest new ∧
      ∀ e ∈ es, IsBoundary (front ++ rest) e.start → IsBoundary (front ++ rest) e.stop →
        e ∈ accepted ∨ e.start < byteLength front ∨
          ∃ a ∈ accepted, a.start ≤ e.start ∧ e.start < a.stop := by
  induction es generalizing front rest with
  | nil =>
    exact ⟨[], rest, List.Sublist.refl _, applyFrom?_nil front rest, .nil _ _, by simp⟩
  | cons e es ih =>
    obtain ⟨hlater, hsorted⟩ := List.pairwise_cons.1 hsorted
    rcases applyFrom?_cons (front ++ rest) (byteLength front) e es with
      ⟨hskip, hwhy⟩ | ⟨htake, hle, hstart, hstop⟩
    · obtain ⟨accepted, new, hsub, happly, hspliced, hothers⟩ := ih front rest hsorted
      refine ⟨accepted, new, hsub.cons e, hskip.trans happly, hspliced, fun d hd hs ht => ?_⟩
      rcases List.mem_cons.1 hd with rfl | hd
      · rcases hwhy with hbefore | hcut | hcut
        · exact Or.inr (Or.inl hbefore)
        · exact absurd hs hcut
        · exact absurd ht hcut
      · exact hothers d hd hs ht
    · -- The edit cuts the rest into what is kept, what goes, and what is left for later edits.
      obtain ⟨kept, gone, after, rfl, hstartEq, hstopEq⟩ :=
        hstart.exists_middle_of_append hstop hle e.start_le_stop
      have hcs : front ++ (kept ++ (gone ++ after)) = (front ++ kept ++ gone) ++ after := by simp
      have hfront : byteLength (front ++ kept ++ gone) = e.stop := by
        rw [Text.byteLength_append, Text.byteLength_append, hstartEq, hstopEq]
      obtain ⟨accepted, new, hsub, happly, hspliced, hothers⟩ :=
        ih (front ++ kept ++ gone) after hsorted
      rw [hfront, ← hcs] at happly hothers
      rw [hfront] at hspliced
      refine ⟨e :: accepted, kept ++ (e.newText.toList ++ new), hsub.cons_cons e, ?_,
        .cons hstartEq hstopEq hspliced, fun d hd hs ht => ?_⟩
      · have hslice : Text.slice? (front ++ (kept ++ (gone ++ after))) (byteLength front) e.start =
            some kept := hstartEq ▸ Text.slice?_middle front kept (gone ++ after)
        rw [htake, hslice, Option.bind_some, happly]
        rfl
      · rcases List.mem_cons.1 hd with rfl | hd
        · exact Or.inl List.mem_cons_self
        · rcases hothers d hd hs ht with hmem | hbefore | ⟨a, ha, hinside⟩
          · exact Or.inl (List.mem_cons_of_mem e hmem)
          · -- It starts before the new cursor, but not before this edit.
            exact Or.inr (Or.inr ⟨e, List.mem_cons_self, hlater d hd, hbefore⟩)
          · exact Or.inr (Or.inr ⟨a, List.mem_cons_of_mem e ha, hinside⟩)

end Edit

end ModulePurity
