import Mathlib.Data.List.Induction
import ModulePurity.Proofs.Weave
import ModulePurity.Text.Blank

/-!
# Reading a text with marks

Where the parts of a text are found again after marks were put in, and what is read there:

* `inserted` counts the bytes put in before an offset, `startIn` and `stopIn` are the new places of a
  start, which moves behind a mark put in there, and of a stop, which stays in front of it;
* a stretch without a mark inside reads the same (`slice?_marked`) and ends on the same line
  (`line_marked`);
* whether only blanks stand before a place on its line does not change, as long as no mark was put in
  front of a blank (`lead_marked`).
-/

namespace ModulePurity.Text

variable {mark : List Char} {offsets : List Nat} {cs : List Char}

/-! ## Parts of a text -/

/-- The part of a text up to an offset behind its first piece holds that piece. -/
theorem upTo_append (a b : List Char) (k : Nat) :
    upTo (a ++ b) (byteLength a + k) = a ++ upTo b k := by
  induction a with
  | nil => simp [byteLength]
  | cons c a ih =>
    have hsub : c.utf8Size + byteLength a + k - c.utf8Size = byteLength a + k := by omega
    rw [List.cons_append, upTo, byteLength, if_pos (by omega), hsub, ih, List.cons_append]

@[simp] theorem upTo_zero (cs : List Char) : upTo cs 0 = [] := by
  cases cs with
  | nil => rfl
  | cons c cs =>
    have := c.utf8Size_pos
    rw [upTo, if_neg (by omega)]

/-- A text can be cut at an offset if whole characters reach up to it. -/
theorem map_fst_splitAt? (cs : List Char) (n : Nat) :
    (splitAt? cs n).map Prod.fst =
      if byteLength (upTo cs n) = n then some (upTo cs n) else none := by
  induction cs generalizing n with
  | nil => by_cases hn : n = 0 <;> simp [splitAt?, upTo, byteLength, hn, eq_comm]
  | cons c cs ih =>
    have hpos := c.utf8Size_pos
    by_cases hn : n = 0
    · simp [hn, byteLength]
    · by_cases hc : c.utf8Size ≤ n
      · have hiff : byteLength (upTo cs (n - c.utf8Size)) = n - c.utf8Size ↔
            c.utf8Size + byteLength (upTo cs (n - c.utf8Size)) = n := by omega
        have hmap : (splitAt? (c :: cs) n).map Prod.fst =
            ((splitAt? cs (n - c.utf8Size)).map Prod.fst).map (c :: ·) := by
          rw [splitAt?, if_neg hn, if_pos hc, Option.map_map, Option.map_map]
          rfl
        rw [hmap, ih, upTo, if_pos hc, byteLength]
        simp only [hiff]
        split <;> rfl
      · simp [splitAt?, upTo, hn, hc, byteLength, eq_comm]

/-- A stretch behind the first piece of a text is one of the rest, if it ends between characters. -/
theorem slice?_append (a b : List Char) (k : Nat) :
    slice? (a ++ b) (byteLength a) (byteLength a + k) =
      if byteLength (upTo b k) = k then some (upTo b k) else none := by
  rw [slice?, if_pos (by omega), splitAt?_append, Option.bind_some, Nat.add_sub_cancel_left]
  exact map_fst_splitAt? b k

/-- The character that starts at an offset. -/
def charAt? (cs : List Char) (n : Nat) : Option Char :=
  (splitAt? cs n).bind fun (_, after) => after.head?

theorem charAt?_append (a : List Char) (c : Char) (b : List Char) :
    charAt? (a ++ c :: b) (byteLength a) = some c := by
  rw [charAt?, splitAt?_append]
  rfl

/-- The character that stops at an offset. -/
def charBefore? (cs : List Char) (n : Nat) : Option Char :=
  (splitAt? cs n).bind fun (before, _) => before.getLast?

theorem charBefore?_append (a b : List Char) :
    charBefore? (a ++ b) (byteLength a) = a.getLast? := by
  rw [charBefore?, splitAt?_append]
  rfl

/-- The line grows by one with each newline before the offset. -/
theorem line_positionFrom (p : Position) (cs : List Char) (n : Nat) :
    (positionFrom p cs n).line = p.line + (upTo cs n).count '\n' := by
  induction cs generalizing p n with
  | nil => simp [positionFrom, upTo]
  | cons c cs ih =>
    by_cases hn : n < c.utf8Size
    · rw [positionFrom, if_pos hn, upTo, if_neg (by omega)]
      simp
    · rw [positionFrom, if_neg hn, upTo, if_pos (by omega), ih, Position.advance]
      by_cases hc : c = '\n'
      · simp [hc]
        omega
      · simp [hc]

/-- The line of an offset is the number of line ends before it, from one. -/
theorem line_position (cs : List Char) (n : Nat) :
    (position cs n).line = 1 + (upTo cs n).count '\n' :=
  line_positionFrom Position.first cs n

/-! ## Boundaries inside a part -/

theorem IsBoundary.of_append_left {a b : List Char} {n : Nat} (h : IsBoundary (a ++ b) n)
    (hn : n ≤ byteLength a) : IsBoundary a n := by
  obtain ⟨x, y, hxy, rfl⟩ := h
  rcases List.append_eq_append_iff.1 hxy with ⟨z, rfl, rfl⟩ | ⟨z, rfl, rfl⟩
  · have hz : z = [] := by
      rw [byteLength_append] at hn
      by_cases hz : z = []
      · exact hz
      · have := byteLength_pos hz
        omega
    exact ⟨a, [], by simp, by simp [hz]⟩
  · exact ⟨x, z, rfl, rfl⟩

/-- No boundary lies inside the first character. -/
theorem IsBoundary.eq_zero_or_le {c : Char} {cs : List Char} {n : Nat}
    (h : IsBoundary (c :: cs) n) : n = 0 ∨ c.utf8Size ≤ n := by
  obtain ⟨x, y, hxy, rfl⟩ := h
  cases x with
  | nil => exact Or.inl rfl
  | cons d x =>
    obtain ⟨rfl, -⟩ := List.cons.inj hxy
    exact Or.inr (by simp only [byteLength]; omega)

/-! ## Counting what was put in -/

/-- The number of bytes of the marks put in before offset `n`. -/
def inserted (mark : List Char) (offsets : List Nat) : Nat → Nat
  | 0 => 0
  | n + 1 => inserted mark offsets n + byteLength (markAt mark offsets n)

/-- Where a stretch that starts at `n` starts in the text with marks: behind a mark at `n`. -/
def startIn (mark : List Char) (offsets : List Nat) (n : Nat) : Nat :=
  n + inserted mark offsets (n + 1)

/-- Where a stretch that stops at `n` stops in the text with marks: in front of a mark at `n`. -/
def stopIn (mark : List Char) (offsets : List Nat) (n : Nat) : Nat :=
  n + inserted mark offsets n

theorem inserted_mono {a b : Nat} (h : a ≤ b) :
    inserted mark offsets a ≤ inserted mark offsets b := by
  induction h with
  | refl => exact Nat.le_refl _
  | step _ ih =>
    rw [inserted]
    omega

/-- Nothing is put in where no offset lies. -/
theorem inserted_eq {a b : Nat} (hab : a ≤ b) (h : ∀ o ∈ offsets, o < a ∨ b ≤ o) :
    inserted mark offsets b = inserted mark offsets a := by
  induction hab with
  | refl => rfl
  | @step n hn ih =>
    have hnot : n ∉ offsets := by
      intro ho
      have := h n ho
      have : a ≤ n := hn
      omega
    rw [inserted, markAt_of_not_mem hnot, ih]
    · rfl
    · intro o ho
      have := h o ho
      omega

theorem startIn_lt {a b : Nat} (h : a < b) : startIn mark offsets a < startIn mark offsets b := by
  have : inserted mark offsets (a + 1) ≤ inserted mark offsets (b + 1) :=
    inserted_mono (by omega)
  rw [startIn, startIn]
  omega

/-- Different offsets start at different offsets in the text with marks. -/
theorem startIn_inj {a b : Nat} : startIn mark offsets a = startIn mark offsets b ↔ a = b := by
  constructor
  · intro h
    rcases Nat.lt_trichotomy a b with hab | hab | hab
    · exact absurd h (Nat.ne_of_lt (startIn_lt hab))
    · exact hab
    · exact absurd h.symm (Nat.ne_of_lt (startIn_lt hab))
  · rintro rfl
    rfl

/-- A stretch that is not empty is not empty in the text with marks either. -/
theorem startIn_lt_stopIn {a b : Nat} (h : a < b) :
    startIn mark offsets a < stopIn mark offsets b := by
  have : inserted mark offsets (a + 1) ≤ inserted mark offsets b := inserted_mono h
  rw [startIn, stopIn]
  omega

/-- A stretch without a mark inside keeps its length. -/
theorem stopIn_eq {a b : Nat} (hab : a < b) (h : ∀ o ∈ offsets, o ≤ a ∨ b ≤ o) :
    stopIn mark offsets b = startIn mark offsets a + (b - a) := by
  have : inserted mark offsets b = inserted mark offsets (a + 1) := by
    refine inserted_eq hab fun o ho => ?_
    have := h o ho
    omega
  rw [stopIn, startIn, this]
  omega

/-- A woven text is longer by what was put in, if the offsets fall between its characters. -/
theorem byteLength_weave (pos : Nat) (a : List Char)
    (h : ∀ o ∈ offsets, pos ≤ o → o ≤ pos + byteLength a → IsBoundary a (o - pos)) :
    byteLength (weave mark offsets pos a) + inserted mark offsets pos =
      byteLength a + inserted mark offsets (pos + byteLength a) := by
  induction a generalizing pos with
  | nil => simp [weave, byteLength]
  | cons c a ih =>
    have hc := c.utf8Size_pos
    -- No offset lies inside the character, so only the mark in front of it counts.
    have hinside : inserted mark offsets (pos + c.utf8Size) =
        inserted mark offsets pos + byteLength (markAt mark offsets pos) := by
      refine inserted_eq (a := pos + 1) (by omega) fun o ho => ?_
      by_cases hrange : pos ≤ o ∧ o ≤ pos + byteLength (c :: a)
      · have := (h o ho hrange.1 hrange.2).eq_zero_or_le
        omega
      · simp only [byteLength] at hrange
        omega
    have hrest : ∀ o ∈ offsets, pos + c.utf8Size ≤ o → o ≤ pos + c.utf8Size + byteLength a →
        IsBoundary a (o - (pos + c.utf8Size)) := by
      intro o ho hlow hhigh
      have hb : IsBoundary ([c] ++ a) (o - pos) := by
        refine h o ho (by omega) ?_
        simp only [byteLength]
        omega
      have hone : byteLength [c] = c.utf8Size := by simp [byteLength]
      have := hb.of_append (by omega)
      rwa [hone, Nat.sub_sub] at this
    have htail := ih (pos + c.utf8Size) hrest
    rw [weave, byteLength_append]
    simp only [byteLength, ← Nat.add_assoc]
    omega

/-! ## Cutting a text with marks -/

/-- What follows offset `pos` in a text with marks, a mark at `pos` left out. -/
def behind (mark : List Char) (offsets : List Nat) (pos : Nat) (b : List Char) : List Char :=
  weave mark (offsets.filter (pos < ·)) pos b ++
    markAt mark (offsets.filter (pos < ·)) (pos + byteLength b)

/-- A mark that is due at the beginning comes first, whatever is left of the text. -/
theorem weave_eq_markAt_append (pos : Nat) (b : List Char) :
    weave mark offsets pos b ++ markAt mark offsets (pos + byteLength b) =
      markAt mark offsets pos ++ behind mark offsets pos b := by
  have hfirst : markAt mark (offsets.filter (pos < ·)) pos = [] :=
    markAt_of_not_mem (by simp)
  cases b with
  | nil => simp [weave, behind, byteLength, hfirst]
  | cons c b =>
    have hc := c.utf8Size_pos
    have htail : weave mark (offsets.filter (pos < ·)) (pos + c.utf8Size) b =
        weave mark offsets (pos + c.utf8Size) b := by
      refine weave_congr _ b fun o ho => ?_
      have : pos < o := by omega
      simp [this]
    have hend : markAt mark (offsets.filter (pos < ·)) (pos + byteLength (c :: b)) =
        markAt mark offsets (pos + byteLength (c :: b)) := by
      have : pos < pos + byteLength (c :: b) := by
        simp only [byteLength]
        omega
      simp [markAt, this]
    rw [behind, weave, weave, htail, hend, hfirst, List.nil_append, List.append_assoc]

/-- A text with marks can be cut where the unmarked one can, with the mark that is due there in
between. -/
theorem marked_append (a b : List Char) :
    marked mark offsets (a ++ b) =
      weave mark offsets 0 a ++ markAt mark offsets (byteLength a) ++
        behind mark offsets (byteLength a) b := by
  rw [marked, weave_append, byteLength_append, Nat.zero_add, List.append_assoc,
    weave_eq_markAt_append, List.append_assoc]

/-- Marks from `pos + k` on do not change the first `k` bytes after `pos`. -/
theorem upTo_weave (pos k : Nat) (b : List Char) (h : ∀ o ∈ offsets, pos + k ≤ o) :
    upTo (weave mark offsets pos b ++ markAt mark offsets (pos + byteLength b)) k = upTo b k := by
  induction b generalizing pos k with
  | nil =>
    by_cases hk : k = 0
    · simp [hk]
    · have hnot : pos ∉ offsets := by
        intro ho
        have := h pos ho
        omega
      simp [weave, byteLength, markAt_of_not_mem hnot]
  | cons c b ih =>
    by_cases hk : k = 0
    · simp [hk]
    · have hnot : pos ∉ offsets := by
        intro ho
        have := h pos ho
        omega
      -- Both texts go on with the same character, whole or cut off.
      rw [weave, markAt_of_not_mem hnot, List.nil_append, List.cons_append, upTo, upTo, byteLength,
        ← Nat.add_assoc]
      split
      · next hc =>
        rw [ih]
        intro o ho
        have := h o ho
        omega
      · rfl

/-- A stretch that no mark falls into reads the same behind a mark. -/
theorem upTo_behind (pos k : Nat) (b : List Char) (h : ∀ o ∈ offsets, o ≤ pos ∨ pos + k ≤ o) :
    upTo (behind mark offsets pos b) k = upTo b k := by
  refine upTo_weave pos k b fun o ho => ?_
  obtain ⟨ho, hpos⟩ := List.mem_filter.1 ho
  have := h o ho
  simp only [decide_eq_true_eq] at hpos
  omega

section

variable {a b : List Char}

/-- The marks before a place and the text in between reach up to its new place. -/
theorem byteLength_weave_of_append (hb : ∀ o ∈ offsets, IsBoundary (a ++ b) o) :
    byteLength (weave mark offsets 0 a) = stopIn mark offsets (byteLength a) := by
  have hinside : ∀ o ∈ offsets, 0 ≤ o → o ≤ 0 + byteLength a → IsBoundary a (o - 0) :=
    fun o ho _ hle => (hb o ho).of_append_left (by omega)
  have hlen : byteLength (weave mark offsets 0 a) + inserted mark offsets 0 = _ :=
    byteLength_weave 0 a hinside
  rw [Nat.zero_add] at hlen
  exact hlen

/-- What comes before a stretch in the text with marks is as long as the offset at which the stretch
starts there. -/
theorem byteLength_weave_markAt (hb : ∀ o ∈ offsets, IsBoundary (a ++ b) o) :
    byteLength (weave mark offsets 0 a ++ markAt mark offsets (byteLength a)) =
      startIn mark offsets (byteLength a) := by
  rw [byteLength_append, byteLength_weave_of_append hb, stopIn, startIn, inserted, Nat.add_assoc]

end

/-! ## What is read in a text with marks -/

/-- What a text with marks holds before a place that comes after a stretch without marks. -/
theorem upTo_marked {a b : List Char} (k : Nat) (hb : ∀ o ∈ offsets, IsBoundary (a ++ b) o)
    (hk : ∀ o ∈ offsets, o ≤ byteLength a ∨ byteLength a + k ≤ o) :
    upTo (marked mark offsets (a ++ b)) (startIn mark offsets (byteLength a) + k) =
      weave mark offsets 0 a ++ markAt mark offsets (byteLength a) ++ upTo b k := by
  rw [marked_append, ← byteLength_weave_markAt hb, upTo_append, upTo_behind _ _ _ hk]

/-- A stretch without a mark inside reads the same. -/
theorem slice?_marked {n : Nat} (k : Nat) (hb : ∀ o ∈ offsets, IsBoundary cs o)
    (hn : IsBoundary cs n) (hk : ∀ o ∈ offsets, o ≤ n ∨ n + k ≤ o) :
    slice? (marked mark offsets cs) (startIn mark offsets n) (startIn mark offsets n + k) =
      slice? cs n (n + k) := by
  obtain ⟨a, b, rfl, rfl⟩ := hn
  rw [marked_append, ← byteLength_weave_markAt hb, slice?_append, slice?_append,
    upTo_behind _ _ _ hk]

/-- A mark reads as itself, cut at any of its characters. -/
theorem slice?_mark {n : Nat} {x y : List Char} (hb : ∀ o ∈ offsets, IsBoundary cs o)
    (hn : n ∈ offsets) (hmark : mark = x ++ y) :
    slice? (marked mark offsets cs) (stopIn mark offsets n)
      (stopIn mark offsets n + byteLength x) = some x := by
  obtain ⟨a, b, rfl, rfl⟩ := hb n hn
  have hx : upTo (x ++ (y ++ behind mark offsets (byteLength a) b)) (byteLength x) = x := by
    have := upTo_append x (y ++ behind mark offsets (byteLength a) b) 0
    simpa using this
  have hcut : mark ++ behind mark offsets (byteLength a) b =
      x ++ (y ++ behind mark offsets (byteLength a) b) := by
    rw [← List.append_assoc, ← hmark]
  rw [marked_append, ← byteLength_weave_of_append hb, markAt_of_mem hn, List.append_assoc,
    slice?_append, hcut, hx, if_pos rfl]

/-- Marks go before characters, so a woven text ends as the text did. -/
theorem getLast?_weave (a : List Char) : (weave mark offsets 0 a).getLast? = a.getLast? := by
  induction a using List.reverseRecOn with
  | nil => rfl
  | append_singleton a c _ =>
    rw [weave_append, weave, weave, ← List.append_assoc, List.getLast?_concat, List.getLast?_concat]

/-- In front of a mark stands what stood there before it was put in. -/
theorem exists_before_mark {n : Nat} (hb : ∀ o ∈ offsets, IsBoundary cs o) (hn : n ∈ offsets) :
    ∃ before after, marked mark offsets cs = before ++ mark ++ after ∧
      byteLength before = stopIn mark offsets n ∧ before.getLast? = charBefore? cs n := by
  obtain ⟨a, b, rfl, rfl⟩ := hb n hn
  refine ⟨weave mark offsets 0 a, behind mark offsets (byteLength a) b, ?_,
    byteLength_weave_of_append hb, ?_⟩
  · rw [marked_append, markAt_of_mem hn]
  · rw [getLast?_weave, charBefore?_append]

/-- A mark without a line end adds no line. -/
theorem count_weave {c : Char} (hmark : c ∉ mark) (pos : Nat) (a : List Char) :
    (weave mark offsets pos a).count c = a.count c := by
  induction a generalizing pos with
  | nil => rfl
  | cons d a ih =>
    have hzero : (markAt mark offsets pos).count c = 0 := by
      rw [List.count_eq_zero, markAt]
      split
      · exact hmark
      · simp
    rw [weave, List.count_append, hzero, Nat.zero_add, List.count_cons, List.count_cons, ih]

/-- A place after a stretch without marks stays on its line. -/
theorem line_marked {n : Nat} (k : Nat) (hmark : '\n' ∉ mark)
    (hb : ∀ o ∈ offsets, IsBoundary cs o) (hn : IsBoundary cs n)
    (hk : ∀ o ∈ offsets, o ≤ n ∨ n + k ≤ o) :
    (position (marked mark offsets cs) (startIn mark offsets n + k)).line =
      (position cs (n + k)).line := by
  obtain ⟨a, b, rfl, rfl⟩ := hn
  have hzero : (markAt mark offsets (byteLength a)).count '\n' = 0 := by
    rw [List.count_eq_zero, markAt]
    split
    · exact hmark
    · simp
  rw [line_position, line_position, upTo_marked k hb hk, upTo_append, List.count_append,
    List.count_append, List.count_append, count_weave hmark, hzero, Nat.add_zero]

/-- Whether only blanks stand at the end of a text, on its last line. -/
def endsInBlanks (cs : List Char) : Bool :=
  (cs.reverse.takeWhile (· != '\n')).all isAsciiBlank

/-- Whether a text ends in blanks on its last line is decided by its last character and by what
comes before. -/
theorem endsInBlanks_concat (cs : List Char) (c : Char) :
    endsInBlanks (cs ++ [c]) = (c == '\n' || (isAsciiBlank c && endsInBlanks cs)) := by
  by_cases hc : c = '\n'
  · simp [endsInBlanks, hc]
  · have hne : (c != '\n') = true := by simpa using hc
    simp [endsInBlanks, hne, hc]

/-- Marks in front of characters that are no blanks do not change what ends in blanks: after such a
character nothing does. -/
theorem endsInBlanks_weave (a : List Char)
    (hchar : ∀ o ∈ offsets, ∀ x c y, a = x ++ c :: y → byteLength x = o → isAsciiBlank c = false) :
    endsInBlanks (weave mark offsets 0 a) = endsInBlanks a := by
  induction a using List.reverseRecOn with
  | nil => rfl
  | append_singleton a c ih =>
    have hinner : endsInBlanks (weave mark offsets 0 a) = endsInBlanks a := by
      refine ih fun o ho x d y hxy hx => hchar o ho x d (y ++ [c]) ?_ hx
      rw [hxy]
      simp
    have hlast : weave mark offsets 0 (a ++ [c]) =
        weave mark offsets 0 a ++ markAt mark offsets (byteLength a) ++ [c] := by
      rw [weave_append, Nat.zero_add, weave, weave, List.append_assoc]
    rw [hlast, endsInBlanks_concat, endsInBlanks_concat]
    -- A mark is followed by a character that is no blank, and then neither text ends in blanks.
    by_cases hc : byteLength a ∈ offsets
    · have hblank := hchar _ hc a c [] rfl rfl
      simp [hblank]
    · rw [markAt_of_not_mem hc, List.append_nil, hinner]

/-- Whether only blanks stand before a place on its line stays the same. -/
theorem lead_marked {n : Nat} (hb : ∀ o ∈ offsets, IsBoundary cs o) (hn : IsBoundary cs n)
    (hnot : n ∉ offsets)
    (hchar : ∀ o ∈ offsets, ∀ x c y, cs = x ++ c :: y → byteLength x = o →
      isAsciiBlank c = false) :
    (lineLead (marked mark offsets cs) (startIn mark offsets n)).all isAsciiBlank =
      (lineLead cs n).all isAsciiBlank := by
  obtain ⟨a, b, rfl, rfl⟩ := hn
  have hmarked : upTo (marked mark offsets (a ++ b)) (startIn mark offsets (byteLength a)) =
      weave mark offsets 0 a := by
    have hzero : upTo (marked mark offsets (a ++ b)) (startIn mark offsets (byteLength a) + 0) = _ :=
      upTo_marked 0 hb fun o _ => by omega
    simpa [markAt_of_not_mem hnot] using hzero
  have hplain : upTo (a ++ b) (byteLength a) = a := by
    simpa using upTo_append a b 0
  rw [lineLead, lineLead, hmarked, hplain]
  refine endsInBlanks_weave a fun o ho x c y hxy hx => hchar o ho x c (y ++ b) ?_ hx
  rw [hxy]
  simp

end ModulePurity.Text
