import Mathlib.Data.List.TakeWhile
import ModulePurity.Proofs.PathJoin
import ModulePurity.Text.Blank
import ModulePurity.Text.Cut

/-!
# Reading between blanks

A reader that trims a text before every step accepts blanks between the pieces that it looks for. This
file says so for each kind of step, with the text written out as blanks and pieces:

* removing a word from the beginning of a trimmed text (`dropWord?_trim`);
* cutting a trimmed text at a mark (`cutAt?_trim`);
* the fields of a text (`mem_fields_iff`), which do not change under trimming as long as the fields
  are trimmed themselves (`map_trim_fields_trimLeft`).
-/

namespace ModulePurity.Text

/-- A text of blanks. -/
def Blank (cs : List Char) : Prop :=
  ∀ c ∈ cs, isBlank c = true

theorem blank_nil : Blank [] :=
  List.forall_mem_nil _

theorem blank_space : Blank [' '] :=
  List.forall_mem_singleton.2 rfl

variable {cs l r w : List Char} {c mark : Char}

/-! ## Trimming -/

/-- Blanks at the beginning are cut off, however many there are. -/
theorem trimLeft_append (h : Blank l) (cs : List Char) : trimLeft (l ++ cs) = trimLeft cs :=
  List.dropWhile_append_of_pos h

/-- Blanks at the end are cut off, however many there are. -/
theorem trimRight_append (h : Blank r) (cs : List Char) : trimRight (cs ++ r) = trimRight cs := by
  have hr : ∀ c ∈ r.reverse, isBlank c = true := by
    intro c hc
    exact h c (List.mem_reverse.1 hc)
  rw [trimRight, List.reverse_append, List.dropWhile_append_of_pos hr, trimRight]

theorem trimLeft_cons (hc : isBlank c = false) (cs : List Char) : trimLeft (c :: cs) = c :: cs := by
  simp [trimLeft, hc]

/-- Only blanks are trimmed on the left. -/
theorem exists_trimLeft (cs : List Char) : ∃ l, Blank l ∧ cs = l ++ trimLeft cs := by
  refine ⟨cs.takeWhile isBlank, ?_, List.takeWhile_append_dropWhile.symm⟩
  intro c hc
  exact List.mem_takeWhile_imp hc

/-- Only blanks are trimmed on the right. -/
theorem exists_trimRight (cs : List Char) : ∃ r, Blank r ∧ cs = trimRight cs ++ r := by
  refine ⟨(cs.reverse.takeWhile isBlank).reverse, ?_, ?_⟩
  · intro c hc
    exact List.mem_takeWhile_imp (List.mem_reverse.1 hc)
  · rw [trimRight, ← List.reverse_append, List.takeWhile_append_dropWhile, List.reverse_reverse]

theorem trimRight_trimRight (cs : List Char) : trimRight (trimRight cs) = trimRight cs := by
  obtain ⟨r, hr, hcs⟩ := exists_trimRight cs
  rw [← trimRight_append hr (trimRight cs), ← hcs]

/-- What is left after trimming begins with no blank. -/
theorem isBlank_of_trimLeft {rest : List Char} (h : trimLeft cs = c :: rest) :
    isBlank c = false := by
  have hhead := List.head?_dropWhile_not isBlank cs
  rw [trimLeft] at h
  rw [h] at hhead
  simpa using hhead

/-- Trimming on the left stops at a character that is no blank. -/
theorem trimLeft_append_cons (hc : isBlank c = false) (a b : List Char) :
    trimLeft (a ++ c :: b) = trimLeft a ++ c :: b := by
  obtain ⟨l, hl, ha⟩ := exists_trimLeft a
  have hkeep : trimLeft (trimLeft a ++ c :: b) = trimLeft a ++ c :: b := by
    cases h : trimLeft a with
    | nil => exact trimLeft_cons hc b
    | cons d t => exact trimLeft_cons (isBlank_of_trimLeft h) (t ++ c :: b)
  calc trimLeft (a ++ c :: b) = trimLeft (l ++ (trimLeft a ++ c :: b)) := by
        rw [← List.append_assoc, ← ha]
    _ = trimLeft a ++ c :: b := by rw [trimLeft_append hl, hkeep]

/-- Cutting off at the end is cutting off at the beginning of the reversed text. -/
theorem trimRight_eq (cs : List Char) : trimRight cs = (trimLeft cs.reverse).reverse := rfl

/-- Trimming on the right stops at a character that is no blank. -/
theorem trimRight_append_cons (hc : isBlank c = false) (a b : List Char) :
    trimRight (a ++ c :: b) = a ++ c :: trimRight b := by
  have hreverse : (a ++ c :: b).reverse = b.reverse ++ c :: a.reverse := by simp
  rw [trimRight_eq, hreverse, trimLeft_append_cons hc, trimRight_eq]
  simp

/-- A character that is no blank keeps the two ends of a text apart. -/
theorem trim_append_cons (hc : isBlank c = false) (a b : List Char) :
    trim (a ++ c :: b) = trimLeft a ++ c :: trimRight b := by
  rw [trim, trimLeft_append_cons hc, trimRight_append_cons hc]

theorem mem_of_mem_trim (h : c ∈ trim cs) : c ∈ cs := by
  have hleft : c ∈ trimLeft cs := by
    obtain ⟨r, -, hr⟩ := exists_trimRight (trimLeft cs)
    rw [hr]
    exact List.mem_append_left r h
  exact (List.dropWhile_suffix isBlank).subset hleft

/-- Trimming on the right first makes no difference. -/
theorem trim_trimRight (cs : List Char) : trim (trimRight cs) = trim cs := by
  obtain ⟨l, hl, hcs⟩ := exists_trimLeft cs
  cases h : trimLeft cs with
  | nil =>
    -- All is blank, and nothing is left either way.
    rw [h, List.append_nil] at hcs
    have hnil : trimRight cs = [] := by
      have hright := trimRight_append hl []
      rwa [List.nil_append, ← hcs] at hright
    rw [trim, trim, h, hnil]
    rfl
  | cons c rest =>
    have hc := isBlank_of_trimLeft h
    rw [h] at hcs
    rw [hcs, trimRight_append_cons hc, trim_append_cons hc, trim_append_cons hc, trimRight_trimRight]

/-! ## Words -/

/-- A word can be dropped from exactly the texts that begin with it. -/
theorem dropWord?_eq_some_iff {rest : List Char} : dropWord? w cs = some rest ↔ cs = w ++ rest := by
  induction w generalizing cs with
  | nil => simp [dropWord?]
  | cons d w ih =>
    cases cs with
    | nil => simp [dropWord?]
    | cons c cs =>
      rw [dropWord?, List.cons_append, List.cons_eq_cons]
      split
      · next hd => rw [ih, and_iff_right hd.symm]
      · next hd => simp [Ne.symm hd]

/-- A word can be dropped from the end of exactly the texts that end in it. -/
theorem dropLastWord?_eq_some_iff {rest : List Char} :
    dropLastWord? w cs = some rest ↔ cs = rest ++ w := by
  rw [dropLastWord?, Option.map_eq_some_iff]
  constructor
  · rintro ⟨reversed, hdrop, rfl⟩
    have hcs := dropWord?_eq_some_iff.1 hdrop
    rw [← List.reverse_reverse cs, hcs, List.reverse_append, List.reverse_reverse]
  · rintro rfl
    exact ⟨rest.reverse, dropWord?_eq_some_iff.2 (by simp), by simp⟩

/-- A word that begins and ends with something other than a blank. -/
def Solid (w : List Char) : Prop :=
  (w.head?.any fun c => !isBlank c) = true ∧ (w.getLast?.any fun c => !isBlank c) = true

instance (w : List Char) : Decidable (Solid w) :=
  inferInstanceAs (Decidable (_ ∧ _))

/-- Trimming on the left keeps what a solid word begins. -/
theorem Solid.trimLeft_append (h : Solid w) (cs : List Char) : trimLeft (w ++ cs) = w ++ cs := by
  obtain ⟨c, hhead, hc⟩ := (Option.any_eq_true _ _).1 h.1
  obtain ⟨rest, rfl⟩ := List.head?_eq_some_iff.1 hhead
  exact trimLeft_cons (by simpa using hc) (rest ++ cs)

/-- Trimming on the right stops at a solid word. -/
theorem Solid.trimRight_append (h : Solid w) (cs : List Char) :
    trimRight (w ++ cs) = w ++ trimRight cs := by
  obtain ⟨c, hlast, hc⟩ := (Option.any_eq_true _ _).1 h.2
  obtain ⟨rest, rfl⟩ := List.getLast?_eq_some_iff.1 hlast
  rw [List.append_assoc, List.append_assoc]
  exact trimRight_append_cons (by simpa using hc) rest cs

/-- A word at the beginning of a trimmed text stands behind blanks in the text. -/
theorem dropWord?_trim {rest : List Char} (hw : Solid w) :
    dropWord? w (trim cs) = some rest ↔
      ∃ l tail, Blank l ∧ cs = l ++ (w ++ tail) ∧ rest = trimRight tail := by
  rw [dropWord?_eq_some_iff]
  constructor
  · intro h
    obtain ⟨l, hl, hleft⟩ := exists_trimLeft cs
    obtain ⟨r, hr, hright⟩ := exists_trimRight (trimLeft cs)
    have hinner : trimLeft cs = w ++ (rest ++ r) := by
      rw [hright, ← List.append_assoc]
      exact congrArg (· ++ r) h
    refine ⟨l, rest ++ r, hl, ?_, ?_⟩
    · rw [← hinner]
      exact hleft
    · -- The rest is trimmed already, so trimming cuts off exactly the blanks behind it.
      have htwice : trimRight (w ++ rest) = w ++ rest := by
        rw [← h, trim, trimRight_trimRight]
      rw [hw.trimRight_append] at htwice
      rw [trimRight_append hr]
      exact (List.append_cancel_left htwice).symm
  · rintro ⟨l, tail, hl, rfl, rfl⟩
    rw [trim, trimLeft_append hl, hw.trimLeft_append, hw.trimRight_append]

/-! ## Marks -/

/-- A text is cut at the first mark. -/
theorem cutAt?_append {before : List Char} (h : mark ∉ before) (after : List Char) :
    cutAt? mark (before ++ mark :: after) = some (before, after) := by
  induction before with
  | nil => simp [cutAt?]
  | cons c before ih =>
    rw [List.mem_cons, not_or] at h
    rw [List.cons_append, cutAt?, if_neg (Ne.symm h.1), ih h.2]
    rfl

/-- Cutting splits a text at a mark with no mark before it. -/
theorem cutAt?_eq_some_iff {before after : List Char} :
    cutAt? mark cs = some (before, after) ↔ cs = before ++ mark :: after ∧ mark ∉ before := by
  constructor
  · intro h
    induction cs generalizing before with
    | nil => cases h
    | cons c cs ih =>
      rw [cutAt?] at h
      split at h
      · next hc =>
        cases h
        simp [hc]
      · next hc =>
        obtain ⟨⟨front, rest⟩, hcut, heq⟩ := Option.map_eq_some_iff.1 h
        cases heq
        obtain ⟨hcs, hnot⟩ := ih hcut
        rw [hcs, List.mem_cons, not_or]
        exact ⟨rfl, Ne.symm hc, hnot⟩
  · rintro ⟨rfl, hnot⟩
    exact cutAt?_append hnot after

/-- The first mark of a trimmed text is the first mark of the text. -/
theorem cutAt?_trim {before after : List Char} (hmark : isBlank mark = false) :
    cutAt? mark (trim cs) = some (before, after) ↔
      ∃ x y, cs = x ++ mark :: y ∧ mark ∉ x ∧ before = trimLeft x ∧ after = trimRight y := by
  have hcut : ∀ x y, mark ∉ x →
      cutAt? mark (trim (x ++ mark :: y)) = some (trimLeft x, trimRight y) := by
    intro x y hx
    rw [trim_append_cons hmark]
    apply cutAt?_append
    intro hmem
    exact hx ((List.dropWhile_suffix isBlank).subset hmem)
  constructor
  · -- Trimming drops no mark, so the text has a first one, and it is cut there.
    intro h
    have hmem : mark ∈ trim cs := by
      rw [(cutAt?_eq_some_iff.1 h).1]
      simp
    obtain ⟨x, y, rfl, hx⟩ := List.eq_append_cons_of_mem (mem_of_mem_trim hmem)
    rw [hcut x y hx] at h
    cases h
    exact ⟨x, y, rfl, hx, rfl, rfl⟩
  · rintro ⟨x, y, rfl, hx, rfl, rfl⟩
    exact hcut x y hx

/-- Blanks at the end stay out of the second part and change nothing in the first. -/
theorem cutAt?_trimRight {before after : List Char} (hmark : isBlank mark = false) :
    cutAt? mark (trimRight cs) = some (before, after) ↔
      ∃ y, cs = before ++ mark :: y ∧ mark ∉ before ∧ after = trimRight y := by
  rw [cutAt?_eq_some_iff]
  constructor
  · rintro ⟨h, hnot⟩
    obtain ⟨r, hr, hcs⟩ := exists_trimRight cs
    refine ⟨after ++ r, ?_, hnot, ?_⟩
    · rw [hcs, h]
      simp
    · have htwice := trimRight_trimRight cs
      rw [h, trimRight_append_cons hmark] at htwice
      rw [trimRight_append hr]
      exact (List.cons.inj (List.append_cancel_left htwice)).2.symm
  · rintro ⟨y, rfl, hnot, rfl⟩
    exact ⟨trimRight_append_cons hmark before y, hnot⟩

/-! ## Fields -/

/-- A stretch of a text between two marks, or between a mark and an end. -/
structure IsField (mark : Char) (cs f : List Char) : Prop where
  plain : mark ∉ f
  between : ∃ before after, cs = before ++ (f ++ after) ∧
    (before = [] ∨ ∃ b, before = b ++ [mark]) ∧ (after = [] ∨ ∃ a, after = mark :: a)

/-- A field stands between marks in the joined text. -/
theorem isField_joinFields {fs gs : List (List Char)} {f : List Char} (hf : mark ∉ f) :
    IsField mark (joinFields mark (fs ++ f :: gs)) f := by
  refine ⟨hf, ?_⟩
  induction fs with
  | nil =>
    cases gs with
    | nil => exact ⟨[], [], by simp [joinFields], Or.inl rfl, Or.inl rfl⟩
    | cons g gs =>
      exact ⟨[], mark :: joinFields mark (g :: gs), rfl, Or.inl rfl, Or.inr ⟨_, rfl⟩⟩
  | cons x xs ih =>
    obtain ⟨before, after, hjoin, hbefore, hafter⟩ := ih
    have hcons : joinFields mark (x :: xs ++ f :: gs) =
        x ++ mark :: joinFields mark (xs ++ f :: gs) := by
      cases xs with
      | nil => rfl
      | cons y ys => rfl
    refine ⟨x ++ mark :: before, after, ?_, Or.inr ?_, hafter⟩
    · rw [hcons, hjoin]
      simp
    · rcases hbefore with rfl | ⟨b, rfl⟩
      · exact ⟨x, rfl⟩
      · exact ⟨x ++ mark :: b, by simp⟩

/-- The fields of a text are exactly its stretches between marks. -/
theorem mem_fields_iff {f : List Char} : f ∈ fields mark cs ↔ IsField mark cs f := by
  constructor
  · intro h
    obtain ⟨fs, gs, hsplit⟩ := List.append_of_mem h
    have hjoin := joinFields_fields mark cs
    rw [hsplit] at hjoin
    rw [← hjoin]
    exact isField_joinFields (not_mem_of_mem_fields h)
  · rintro ⟨hplain, before, after, rfl, hbefore, hafter⟩
    have hf : f ∈ fields mark (f ++ after) := by
      rcases hafter with rfl | ⟨a, rfl⟩
      · simp [fields_of_not_mem hplain]
      · simp [fields_append, fields_of_not_mem hplain]
    rcases hbefore with rfl | ⟨b, rfl⟩
    · exact hf
    · rw [List.append_assoc]
      show f ∈ fields mark (b ++ mark :: (f ++ after))
      rw [fields_append]
      exact List.mem_append_right _ hf

/-- Blanks in front of a text belong to its first field, where they are trimmed. -/
theorem map_trim_fields_append (hmark : isBlank mark = false) (hl : Blank l) (cs : List Char) :
    (fields mark (l ++ cs)).map trim = (fields mark cs).map trim := by
  induction l with
  | nil => rfl
  | cons c l ih =>
    have hc : isBlank c = true := hl c List.mem_cons_self
    have hne : c ≠ mark := by
      rintro rfl
      rw [hc] at hmark
      cases hmark
    obtain ⟨f, fs, hf⟩ := List.exists_cons_of_ne_nil (fields_ne_nil mark (l ++ cs))
    have hrest := ih fun d hd => hl d (List.mem_cons_of_mem c hd)
    have htrim : trim (c :: f) = trim f := by
      simp [trim, trimLeft, hc]
    rw [hf, List.map_cons] at hrest
    rw [List.cons_append, fields, if_neg hne, hf]
    show trim (c :: f) :: fs.map trim = _
    rw [htrim, hrest]

/-- Blanks at the beginning of a text do not change its trimmed fields. -/
theorem map_trim_fields_trimLeft (hmark : isBlank mark = false) (cs : List Char) :
    (fields mark (trimLeft cs)).map trim = (fields mark cs).map trim := by
  obtain ⟨l, hl, hcs⟩ := exists_trimLeft cs
  rw [← map_trim_fields_append hmark hl (trimLeft cs), ← hcs]

end ModulePurity.Text
