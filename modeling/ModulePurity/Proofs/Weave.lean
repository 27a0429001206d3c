import ModulePurity.Text.Bytes

/-!
# Marks put into a text

A text with the same mark put in at some byte offsets, described in two ways:

* `weave`, character by character: a character at one of the offsets gets the mark in front of it;
* pieces: the text is cut at the offsets and joined again with the mark between the pieces.

The first form is the one to calculate with, the second says at a glance that nothing is lost, and
`exists_pieces` leads from one to the other.
-/

namespace ModulePurity.Text

/-! ## Lengths and boundaries -/

@[simp] theorem byteLength_append (a b : List Char) :
    byteLength (a ++ b) = byteLength a + byteLength b := by
  induction a with
  | nil => simp [byteLength]
  | cons c a ih =>
    simp only [List.cons_append, byteLength, ih]
    omega

theorem byteLength_pos {a : List Char} (h : a ≠ []) : 0 < byteLength a := by
  obtain ⟨c, cs, rfl⟩ := List.exists_cons_of_ne_nil h
  have := c.utf8Size_pos
  simp only [byteLength]
  omega

/-- A text can be cut where its first part ends. -/
theorem splitAt?_append (a b : List Char) : splitAt? (a ++ b) (byteLength a) = some (a, b) := by
  induction a with
  | nil => simp [byteLength]
  | cons c a ih =>
    have hpos := c.utf8Size_pos
    rw [List.cons_append, splitAt?, byteLength, if_neg (by omega), if_pos (by omega),
      Nat.add_sub_cancel_left, ih]
    rfl

/-- Byte offset `n` falls between two characters of a text or at one of its ends. -/
def IsBoundary (cs : List Char) (n : Nat) : Prop :=
  ∃ a b, cs = a ++ b ∧ byteLength a = n

theorem isBoundary_iff {cs : List Char} {n : Nat} :
    IsBoundary cs n ↔ isBoundary cs n = true := by
  constructor
  · rintro ⟨a, b, rfl, rfl⟩
    rw [isBoundary, splitAt?_append]
    rfl
  · intro h
    obtain ⟨⟨a, b⟩, hab⟩ := Option.isSome_iff_exists.1 h
    exact ⟨a, b, (append_of_splitAt? hab).symm, byteLength_of_splitAt? hab⟩

instance (cs : List Char) (n : Nat) : Decidable (IsBoundary cs n) :=
  decidable_of_iff _ isBoundary_iff.symm

theorem IsBoundary.le {cs : List Char} {n : Nat} (h : IsBoundary cs n) : n ≤ byteLength cs := by
  obtain ⟨a, b, rfl, rfl⟩ := h
  rw [byteLength_append]
  omega

/-- Beyond a boundary, boundaries of the text are boundaries of what is left. -/
theorem IsBoundary.of_append {a b : List Char} {n : Nat} (h : IsBoundary (a ++ b) n)
    (hn : byteLength a ≤ n) : IsBoundary b (n - byteLength a) := by
  obtain ⟨x, y, hxy, rfl⟩ := h
  rcases List.append_eq_append_iff.1 hxy with ⟨z, rfl, rfl⟩ | ⟨z, rfl, rfl⟩
  · exact ⟨z, y, rfl, by simp⟩
  · rw [byteLength_append] at hn ⊢
    refine ⟨[], b, rfl, ?_⟩
    simp only [byteLength]
    omega

/-! ## Weaving marks into a text -/

/-- The mark, if it is due at `pos`. -/
def markAt (mark : List Char) (offsets : List Nat) (pos : Nat) : List Char :=
  if pos ∈ offsets then mark else []

/-- A text that starts at `pos`, with the mark in front of every character where it is due. -/
def weave (mark : List Char) (offsets : List Nat) (pos : Nat) : List Char → List Char
  | [] => []
  | c :: cs => markAt mark offsets pos ++ c :: weave mark offsets (pos + c.utf8Size) cs

/-- A whole text with the mark at each of the given offsets, its end included. -/
def marked (mark : List Char) (offsets : List Nat) (cs : List Char) : List Char :=
  weave mark offsets 0 cs ++ markAt mark offsets (byteLength cs)

variable {mark : List Char} {offsets : List Nat}

theorem markAt_of_mem {pos : Nat} (h : pos ∈ offsets) : markAt mark offsets pos = mark :=
  if_pos h

theorem markAt_of_not_mem {pos : Nat} (h : pos ∉ offsets) : markAt mark offsets pos = [] :=
  if_neg h

/-- Weaving marks into two texts in a row goes on where the first one ends. -/
theorem weave_append (pos : Nat) (a b : List Char) :
    weave mark offsets pos (a ++ b) =
      weave mark offsets pos a ++ weave mark offsets (pos + byteLength a) b := by
  induction a generalizing pos with
  | nil => simp [weave, byteLength]
  | cons c a ih =>
    rw [List.cons_append, weave, weave, ih, byteLength, Nat.add_assoc, List.append_assoc,
      List.cons_append]

/-- Where no mark is due, the text stays as it is. -/
theorem weave_of_no_offset (pos : Nat) (cs : List Char)
    (h : ∀ o ∈ offsets, o < pos ∨ pos + byteLength cs ≤ o) : weave mark offsets pos cs = cs := by
  induction cs generalizing pos with
  | nil => rfl
  | cons c cs ih =>
    have hpos := c.utf8Size_pos
    have hnot : pos ∉ offsets := by
      intro ho
      have := h pos ho
      simp only [byteLength] at this
      omega
    rw [weave, markAt_of_not_mem hnot, List.nil_append, ih]
    intro o ho
    have := h o ho
    simp only [byteLength] at this
    omega

/-- Only the offsets from `pos` on matter for a text that starts at `pos`. -/
theorem weave_congr {offsets' : List Nat} (pos : Nat) (cs : List Char)
    (h : ∀ o, pos ≤ o → (o ∈ offsets ↔ o ∈ offsets')) :
    weave mark offsets pos cs = weave mark offsets' pos cs := by
  induction cs generalizing pos with
  | nil => rfl
  | cons c cs ih =>
    rw [weave, weave, ih]
    · simp only [markAt, h pos (Nat.le_refl pos)]
    · intro o ho
      exact h o (by omega)

/-- It depends on the set of offsets alone where marks are put. -/
theorem marked_congr {offsets' : List Nat} (cs : List Char)
    (h : ∀ o, o ∈ offsets ↔ o ∈ offsets') : marked mark offsets cs = marked mark offsets' cs := by
  rw [marked, marked, weave_congr 0 cs fun o _ => h o]
  simp only [markAt, h]

/-- A mark that is due at the very beginning comes first. -/
theorem weave_first {o : Nat} {os : List Nat} (ho : o ∉ os) (cs : List Char) :
    weave mark (o :: os) o cs ++ markAt mark (o :: os) (o + byteLength cs) =
      mark ++ (weave mark os o cs ++ markAt mark os (o + byteLength cs)) := by
  cases cs with
  | nil => simp [weave, byteLength, markAt, ho]
  | cons c cs =>
    have hc := c.utf8Size_pos
    -- Past the first character the offset `o` is never met again.
    have htail : weave mark (o :: os) (o + c.utf8Size) cs = weave mark os (o + c.utf8Size) cs := by
      refine weave_congr _ cs fun q hq => ?_
      have hqo : q ≠ o := by omega
      simp [hqo]
    have hend : markAt mark (o :: os) (o + byteLength (c :: cs)) =
        markAt mark os (o + byteLength (c :: cs)) := by
      have hne : o + byteLength (c :: cs) ≠ o := by
        simp only [byteLength]
        omega
      simp only [markAt, List.mem_cons, hne, false_or]
    rw [weave, weave, markAt_of_mem List.mem_cons_self, markAt_of_not_mem ho, htail, hend]
    simp

/-! ## Cutting and joining -/

/-- The offsets at which the second and later pieces of a text begin, if the first begins at `pos`. -/
def cuts (pos : Nat) : List (List Char) → List Nat
  | [] => []
  | [_] => []
  | p :: q :: rest => (pos + byteLength p) :: cuts (pos + byteLength p) (q :: rest)

/-- Weaving the mark in at increasing boundaries cuts the text there and joins it with the mark. -/
theorem exists_pieces (mark : List Char) (offsets : List Nat) (pos : Nat) (cs : List Char)
    (hsorted : offsets.Pairwise (· < ·))
    (hbound : ∀ o ∈ offsets, pos ≤ o ∧ IsBoundary cs (o - pos)) :
    ∃ pieces, pieces ≠ [] ∧ pieces.flatten = cs ∧ cuts pos pieces = offsets ∧
      mark.intercalate pieces =
        weave mark offsets pos cs ++ markAt mark offsets (pos + byteLength cs) := by
  induction offsets generalizing pos cs with
  | nil =>
    refine ⟨[cs], by simp, by simp, rfl, ?_⟩
    rw [weave_of_no_offset pos cs (by simp), markAt_of_not_mem (by simp)]
    simp
  | cons o os ih =>
    obtain ⟨hlater, hsorted⟩ := List.pairwise_cons.1 hsorted
    obtain ⟨hpos, a, b, rfl, ha⟩ := hbound o List.mem_cons_self
    -- The rest of the text begins at `o`; the marks that are left are due strictly later.
    have hrest : ∀ q ∈ os, o ≤ q ∧ IsBoundary b (q - o) := by
      intro q hq
      have hoq := hlater q hq
      obtain ⟨hposq, hboundary⟩ := hbound q (List.mem_cons_of_mem o hq)
      refine ⟨by omega, ?_⟩
      have hsub : q - pos - byteLength a = q - o := by omega
      exact hsub ▸ hboundary.of_append (by omega)
    obtain ⟨pieces, hne, rfl, hcuts, hjoin⟩ := ih o b hsorted hrest
    have hoa : pos + byteLength a = o := by omega
    refine ⟨a :: pieces, by simp, by simp, ?_, ?_⟩
    · obtain ⟨p, ps, rfl⟩ := List.exists_cons_of_ne_nil hne
      rw [cuts, hoa, hcuts]
    · have hahead : weave mark (o :: os) pos a = a := by
        refine weave_of_no_offset pos a fun q hq => Or.inr ?_
        rcases List.mem_cons.1 hq with rfl | hq
        · omega
        · have := hlater q hq
          omega
      have hfirst : o ∉ os := fun h => Nat.lt_irrefl o (hlater o h)
      rw [List.intercalate_cons_of_ne_nil hne, hjoin, weave_append, hahead, byteLength_append,
        hoa, ← Nat.add_assoc, hoa, List.append_assoc, List.append_assoc,
        weave_first hfirst]

end ModulePurity.Text
