import ModulePurity.Proofs.AcceptedEdits
import ModulePurity.Proofs.EditOrder
import ModulePurity.Proofs.StableSort

/-!
# Edits that are given more than once

A repeated edit is meant to be applied once, but repeats are only dropped where they have become
neighbours after sorting. Another edit of the same rank may stand between two copies. This file says
for which lists that matters.

* The loop is a sequence of pieces: each edit adds one to the text and moves the cursor
  (`textFrom_cons`). Within one rank only the first edit moves it (`advance_advance`), so that
  leaving out a later copy leaves out its piece and changes nothing else (`textFrom_filter`).
* The piece of a later copy is empty, unless the edit `Doubles`: it inserts some text and replaces
  none, so that the cursor does not get past its start.
* So a list whose ends all fit gives the same text as its first occurrences on every source exactly
  if no doubling edit has copies with a different edit of its rank between them
  (`applyAll?_eraseDups_iff`). If an end overflows, the program stops with both lists.
-/

namespace ModulePurity.Edit

open Text (byteLength IsBoundary)

/-! ## Definitions -/

/-- Applied again behind itself, the edit brings its text again: it does not get past its start, and
there is text that it inserts. -/
structure Doubles (e : Edit) : Prop where
  empty : e.location.length = 0
  brings : e.newText ≠ ""

/-- Two copies of a doubling edit, and an edit with the same offset and length that is not another
copy. -/
structure Interrupts (first other second : Edit) : Prop where
  doubles : first.Doubles
  copies : first.sameAs second = true
  differs : first.sameAs other = false
  start : first.start = other.start
  length : first.location.length = other.location.length

/-- Somewhere a different edit of the same rank stands between two copies of a doubling edit. -/
def Interrupted (edits : List Edit) : Prop :=
  ∃ first other second, Interrupts first other second ∧ [first, other, second].Sublist edits

theorem Interrupts.rank_other {first other second : Edit} (h : Interrupts first other second) :
    first.rank = other.rank :=
  rank_eq_iff.2 ⟨h.start, h.length⟩

theorem Interrupts.rank_second {first other second : Edit} (h : Interrupts first other second) :
    first.rank = second.rank :=
  rank_eq_of_sameAs h.copies

/-! ## First occurrences -/

/-- The first occurrences among the edits that satisfy a condition on which copies agree. -/
theorem eraseDupsBy_filter {p : Edit → Bool} (hp : ∀ a b, a.sameAs b = true → p a = p b) :
    ∀ es : List Edit, (es.filter p).eraseDupsBy sameAs = (es.eraseDupsBy sameAs).filter p
  | [] => rfl
  | a :: es => by
    have ih := eraseDupsBy_filter hp (es.filter fun b => decide (b.sameAs a = false))
    rw [List.eraseDupsBy_cons]
    cases ha : p a with
    | true =>
      rw [List.filter_cons_of_pos ha, List.filter_cons_of_pos ha, List.eraseDupsBy_cons, ← ih,
        List.filter_comm]
    | false =>
      -- Copies of an edit that is left out are left out as well.
      have hcopies : (es.filter fun b => decide (b.sameAs a = false)).filter p = es.filter p := by
        rw [List.filter_filter]
        apply List.filter_congr
        intro b _
        cases hb : p b with
        | false => rfl
        | true =>
          have hdiffers : b.sameAs a = false := by
            by_contra hsame
            have := hp b a (by simpa using hsame)
            simp [ha, hb] at this
          simp [hdiffers]
      have hnot : ¬ p a = true := by simp [ha]
      rw [List.filter_cons_of_neg hnot, List.filter_cons_of_neg hnot, ← ih, hcopies]
termination_by es => es.length
decreasing_by
  have := List.length_filter_le (fun b : Edit => decide (b.sameAs a = false)) es
  simp only [List.length_cons]
  omega

theorem sameAs_comm (a b : Edit) : a.sameAs b = b.sameAs a := by
  rw [Bool.eq_iff_iff]
  exact ⟨sameAs_symm, sameAs_symm⟩

/-- Edits that agree cannot be told apart by comparing them with others. -/
theorem sameAs_eq_of_sameAs {a b : Edit} (h : a.sameAs b = true) : a.sameAs = b.sameAs := by
  funext c
  exact sameAs_congr h (sameAs_self c)

theorem firsts_cons (a : Edit) (es : List Edit) :
    (a :: es).eraseDupsBy sameAs = a :: (es.eraseDupsBy sameAs).filter fun b => !a.sameAs b := by
  have hcondition : (fun b : Edit => decide (b.sameAs a = false)) = fun b => !a.sameAs b := by
    funext b
    rw [sameAs_comm b a]
    cases a.sameAs b <;> rfl
  rw [List.eraseDupsBy_cons, hcondition, eraseDupsBy_filter]
  intro b c hbc
  rw [sameAs_congr (sameAs_self a) hbc]

theorem firsts_sublist (es : List Edit) : (es.eraseDupsBy sameAs).Sublist es := by
  induction es with
  | nil => exact List.Sublist.refl _
  | cons a es ih =>
    rw [firsts_cons]
    exact (List.filter_sublist.trans ih).cons_cons a

/-- Every edit has a copy among the first occurrences. -/
theorem exists_first {e : Edit} {es : List Edit} (h : e ∈ es) :
    ∃ d ∈ es.eraseDupsBy sameAs, d.sameAs e = true := by
  induction es with
  | nil => cases h
  | cons a es ih =>
    rw [firsts_cons]
    by_cases hae : a.sameAs e = true
    · exact ⟨a, List.mem_cons_self, hae⟩
    · have hmem : e ∈ es := by
        rcases List.mem_cons.1 h with rfl | hmem
        · exact absurd (sameAs_self e) hae
        · exact hmem
      obtain ⟨d, hd, hde⟩ := ih hmem
      have hdiffers : ¬ a.sameAs d = true := fun had => hae (sameAs_trans had hde)
      exact ⟨d, List.mem_cons_of_mem a (List.mem_filter.2 ⟨hd, by simpa using hdiffers⟩), hde⟩

/-- If no edit of the first part agrees with one of the second, each part has its own first
occurrences. -/
theorem firsts_append {es fs : List Edit} (h : ∀ a ∈ es, ∀ b ∈ fs, a.sameAs b = false) :
    (es ++ fs).eraseDupsBy sameAs = es.eraseDupsBy sameAs ++ fs.eraseDupsBy sameAs := by
  induction es with
  | nil => rfl
  | cons a es ih =>
    have hall : (fs.eraseDupsBy sameAs).filter (fun b => !a.sameAs b) = fs.eraseDupsBy sameAs := by
      apply List.filter_eq_self.2
      intro b hb
      simp [h a List.mem_cons_self b ((firsts_sublist fs).subset hb)]
    rw [List.cons_append, firsts_cons, ih fun b hb => h b (List.mem_cons_of_mem a hb),
      List.filter_append, hall, firsts_cons, List.cons_append]

/-- Copies have equal rank, so that sorting leaves the first occurrence first. -/
theorem firsts_mergeSort (es : List Edit) :
    (es.mergeSort comesBefore).eraseDupsBy sameAs =
      (es.eraseDupsBy sameAs).mergeSort comesBefore := by
  have hbefore : ∀ a b : Edit, a.sameAs b = true → comesBefore a b = true := by
    intro a b hab
    rw [comesBefore_iff, rank_eq_of_sameAs hab]
  have hrespects : ∀ a b c : Edit, b.sameAs c = true → comesBefore a b = comesBefore a c := by
    intro a b c hbc
    rw [Bool.eq_iff_iff, comesBefore_iff, comesBefore_iff, rank_eq_of_sameAs hbc]
  induction es with
  | nil => simp
  | cons a es ih =>
    have hapart : ∀ b ∈ (es.mergeSort comesBefore).filter (fun b => !comesBefore a b),
        ∀ c ∈ a :: (es.mergeSort comesBefore).filter (comesBefore a), b.sameAs c = false := by
      intro b hb c hc
      have hnot : comesBefore a b = false := by simpa using (List.mem_filter.1 hb).2
      have hac : comesBefore a c = true := by
        rcases List.mem_cons.1 hc with rfl | hc
        · exact hbefore c c (sameAs_self c)
        · exact (List.mem_filter.1 hc).2
      by_contra hsame
      rw [hrespects a b c (by simpa using hsame), hac] at hnot
      cases hnot
    have hfront : ∀ fs : List Edit, (fs.filter fun b => !comesBefore a b) =
        (fs.filter fun b => !a.sameAs b).filter fun b => !comesBefore a b := by
      intro fs
      rw [List.filter_filter]
      apply List.filter_congr
      intro b _
      cases hab : a.sameAs b with
      | false => simp
      | true => simp [hbefore a b hab]
    have hrest : ((es.eraseDupsBy sameAs).filter fun b => !a.sameAs b).mergeSort comesBefore =
        ((es.mergeSort comesBefore).eraseDupsBy sameAs).filter fun b => !a.sameAs b := by
      rw [← StableSort.filter_mergeSort comesBefore_trans comesBefore_total, ih]
    rw [firsts_cons a es, StableSort.mergeSort_cons comesBefore_trans comesBefore_total,
      StableSort.mergeSort_cons comesBefore_trans comesBefore_total, firsts_append hapart,
      firsts_cons, eraseDupsBy_filter (hrespects a),
      eraseDupsBy_filter fun b c hbc => congrArg not (hrespects a b c hbc), hrest, ← hfront,
      List.filter_comm (fun b => !a.sameAs b)]

/-! ## Neighbours -/

/-- An edit stays and takes the copies right behind it away, and those only. -/
theorem dropRepeats_cons (a : Edit) (es : List Edit) :
    dropRepeats (a :: es) = a :: dropRepeats (es.dropWhile a.sameAs) := by
  induction es generalizing a with
  | nil => rfl
  | cons b es ih =>
    rw [dropRepeats, ih b]
    show (if a.sameAs b = true then _ else _) = _
    split
    · next hsame => rw [List.dropWhile_cons_of_pos hsame, sameAs_eq_of_sameAs hsame]
    · next hdiffer => rw [List.dropWhile_cons_of_neg hdiffer, ih b]

/-- Induction along the edits that are left when the copies right behind an edit are dropped. -/
@[elab_as_elim]
theorem dropCopies_induct {P : List Edit → Prop} (nil : P [])
    (cons : ∀ a es, P (es.dropWhile a.sameAs) → P (a :: es)) : ∀ es, P es
  | [] => nil
  | a :: es => cons a es (dropCopies_induct nil cons (es.dropWhile a.sameAs))
termination_by es => es.length
decreasing_by
  have := (List.dropWhile_sublist a.sameAs (l := es)).length_le
  simp only [List.length_cons]
  omega

theorem dropRepeats_of_differ {es : List Edit}
    (h : es.Pairwise fun a b => a.sameAs b = false) : dropRepeats es = es := by
  induction es with
  | nil => rfl
  | cons a es ih =>
    obtain ⟨hdiffer, h⟩ := List.pairwise_cons.1 h
    have hnone : es.dropWhile a.sameAs = es := by
      cases es with
      | nil => rfl
      | cons b es => exact List.dropWhile_cons_of_neg (by simp [hdiffer b List.mem_cons_self])
    rw [dropRepeats_cons, hnone, ih h]

/-- First occurrences have no repeats left. -/
theorem dropRepeats_firsts (es : List Edit) :
    dropRepeats (es.eraseDupsBy sameAs) = es.eraseDupsBy sameAs := by
  apply dropRepeats_of_differ
  induction es with
  | nil => exact List.Pairwise.nil
  | cons a es ih =>
    rw [firsts_cons]
    refine List.pairwise_cons.2 ⟨fun b hb => ?_, ih.filter _⟩
    simpa using (List.mem_filter.1 hb).2

/-- The copies right behind an edit are no first occurrences. -/
theorem firsts_dropCopies (a : Edit) (es : List Edit) :
    (a :: es).eraseDupsBy sameAs =
      a :: ((es.dropWhile a.sameAs).eraseDupsBy sameAs).filter fun b => !a.sameAs b := by
  have hrest : ∀ es : List Edit,
      ((es.dropWhile a.sameAs).filter fun b => !a.sameAs b) = es.filter fun b => !a.sameAs b := by
    intro es
    induction es with
    | nil => rfl
    | cons b es ih =>
      cases hab : a.sameAs b with
      | true => simp [hab, ih]
      | false => simp [hab]
  have hrespects : ∀ b c : Edit, b.sameAs c = true → (!a.sameAs b) = !a.sameAs c := by
    intro b c hbc
    rw [sameAs_congr (sameAs_self a) hbc]
  rw [firsts_cons, ← eraseDupsBy_filter hrespects, ← eraseDupsBy_filter hrespects, hrest]

/-! ## The loop as a sequence of pieces -/

/-- Whether the loop takes an edit at a cursor. -/
def takes (cs : List Char) (cursor : Nat) (e : Edit) : Bool :=
  cursor ≤ e.start && Text.isBoundary cs e.start && Text.isBoundary cs e.stop

/-- The cursor after an edit was tried. -/
def advance (cs : List Char) (cursor : Nat) (e : Edit) : Nat :=
  if takes cs cursor e then e.stop else cursor

/-- What trying an edit adds to the text. -/
def piece (cs : List Char) (cursor : Nat) (e : Edit) : List Char :=
  if takes cs cursor e then (Text.slice? cs cursor e.start).getD [] ++ e.newText.toList else []

/-- The text that the loop gives from a cursor on. -/
def textFrom (cs : List Char) (cursor : Nat) (es : List Edit) : List Char :=
  (applyFrom? cs cursor es).getD []

variable {cs : List Char} {cursor : Nat} {a b : Edit} {es : List Edit}

/-- An edit is taken if it is still ahead and cuts no character. -/
theorem takes_iff : takes cs cursor a = true ↔
    cursor ≤ a.start ∧ IsBoundary cs a.start ∧ IsBoundary cs a.stop := by
  simp [takes, ← Text.isBoundary_iff, and_assoc]

/-- Whether an edit is taken depends on its stretch, and not on the text that it brings. -/
theorem takes_congr (h : a.rank = b.rank) : takes cs cursor a = takes cs cursor b := by
  rw [takes, takes, (rank_eq_iff.1 h).1, stop_eq_of_rank_eq h]

theorem advance_congr (h : a.rank = b.rank) : advance cs cursor a = advance cs cursor b := by
  rw [advance, advance, takes_congr h, stop_eq_of_rank_eq h]

/-- Copies add the same piece at the same cursor. -/
theorem piece_congr (h : a.sameAs b = true) : piece cs cursor a = piece cs cursor b := by
  have hrank := rank_eq_of_sameAs h
  have htext : a.newText = b.newText := (sameAs_iff.1 h).2.2.2.2.2
  rw [piece, piece, takes_congr hrank, (rank_eq_iff.1 hrank).1, htext]

/-- The cursor never stops inside a character. -/
theorem isBoundary_advance (h : IsBoundary cs cursor) (e : Edit) :
    IsBoundary cs (advance cs cursor e) := by
  unfold advance
  split
  · next htakes => exact (takes_iff.1 htakes).2.2
  · exact h

/-- The loop adds the piece of an edit and goes on at the next cursor. -/
theorem textFrom_cons (h : IsBoundary cs cursor) (e : Edit) (es : List Edit) :
    textFrom cs cursor (e :: es) =
      piece cs cursor e ++ textFrom cs (advance cs cursor e) es := by
  rcases applyFrom?_cons cs cursor e es with ⟨hskip, hwhy⟩ | ⟨htake, hle, hstart, hstop⟩
  · have hnot : ¬ takes cs cursor e = true := by
      rw [takes_iff]
      rintro ⟨hle, hstart, hstop⟩
      rcases hwhy with hbefore | hcut | hcut
      · omega
      · exact hcut hstart
      · exact hcut hstop
    rw [textFrom, hskip, piece, if_neg hnot, advance, if_neg hnot, List.nil_append, textFrom]
  · have htakes : takes cs cursor e = true := takes_iff.2 ⟨hle, hstart, hstop⟩
    obtain ⟨kept, hkept⟩ : ∃ kept, Text.slice? cs cursor e.start = some kept := by
      obtain ⟨front, kept, back, rfl, rfl, hlength⟩ := h.exists_middle hstart hle
      exact ⟨kept, hlength ▸ Text.slice?_middle front kept back⟩
    obtain ⟨rest, hrest⟩ := Option.isSome_iff_exists.1 (isSome_applyFrom? hstop es)
    rw [textFrom, htake, piece, if_pos htakes, advance, if_pos htakes, textFrom, hkept, hrest]
    simp

/-- Of edits of one rank only the first moves the cursor. -/
theorem advance_advance (h : a.rank = b.rank) (cursor : Nat) :
    advance cs (advance cs cursor a) b = advance cs cursor a := by
  by_cases htakes : takes cs cursor a = true
  · have hafter : advance cs cursor a = b.stop := by
      rw [advance, if_pos htakes, stop_eq_of_rank_eq h]
    rw [hafter, advance, ite_self]
  · have hafter : advance cs cursor a = cursor := by
      rw [advance, if_neg htakes]
    rw [hafter, ← advance_congr h, hafter]

/-- An edit of a rank that has been tried brings text again only if it doubles. -/
theorem piece_advance_of_not_doubles (h : a.rank = b.rank) (hb : ¬ b.Doubles) (cursor : Nat) :
    piece cs (advance cs cursor a) b = [] := by
  by_cases hagain : takes cs (advance cs cursor a) b = true
  · -- Both are taken, so that the cursor is where the text goes on after them.
    have hafter : advance cs cursor a = b.stop := by
      rw [← advance_advance h, advance, if_pos hagain]
    rw [hafter] at hagain
    obtain ⟨hle, -, hboundary⟩ := takes_iff.1 hagain
    have hempty : b.location.length = 0 := by
      unfold stop start at hle
      omega
    have htext : b.newText = "" := by
      by_contra hbrings
      exact hb ⟨hempty, hbrings⟩
    obtain ⟨front, back, rfl, hfront⟩ := hboundary
    have hslice : Text.slice? (front ++ back) b.stop b.start = some [] := by
      rw [← stop_of_empty hempty, ← hfront]
      exact Text.slice?_middle front [] back
    rw [piece, hafter, if_pos hagain, hslice, htext]
    rfl
  · rw [piece, if_neg hagain]

/-- A doubling edit that is taken brings text again. -/
theorem piece_advance_of_doubles (ha : a.Doubles) (htakes : takes cs cursor a = true) :
    piece cs (advance cs cursor a) a ≠ [] := by
  obtain ⟨-, hstart, hstop⟩ := takes_iff.1 htakes
  have hagain : takes cs a.stop a = true :=
    takes_iff.2 ⟨(stop_of_empty ha.empty).le, hstart, hstop⟩
  rw [advance, if_pos htakes, piece, if_pos hagain]
  intro hnone
  obtain ⟨-, htext⟩ := List.append_eq_nil_iff.1 hnone
  exact ha.brings (String.toList_eq_nil_iff.1 htext)

/-- Once the rank of an edit has been tried, leaving out its copies leaves out their pieces. -/
theorem textFrom_filter (hcursor : IsBoundary cs cursor) (htried : advance cs cursor a = cursor)
    (hsorted : es.Pairwise fun b c => b.rank ≤ c.rank) (hlater : ∀ b ∈ es, a.rank ≤ b.rank) :
    (textFrom cs cursor (es.filter fun b => !a.sameAs b)).Sublist (textFrom cs cursor es) ∧
      (textFrom cs cursor es).length =
        (textFrom cs cursor (es.filter fun b => !a.sameAs b)).length +
          es.countP a.sameAs * (piece cs cursor a).length := by
  induction es with
  | nil => exact ⟨List.Sublist.refl _, by simp⟩
  | cons b es ih =>
    obtain ⟨hfirst, hsorted⟩ := List.pairwise_cons.1 hsorted
    obtain ⟨hsub, hlength⟩ := ih hsorted fun c hc => hlater c (List.mem_cons_of_mem b hc)
    by_cases hrank : a.rank = b.rank
    · have hstays : advance cs cursor b = cursor := by
        rw [← advance_congr hrank, htried]
      cases hab : a.sameAs b with
      | true =>
        rw [List.filter_cons_of_neg (by simp [hab]), textFrom_cons hcursor, hstays,
          ← piece_congr hab, List.countP_cons_of_pos hab, List.length_append, hlength, Nat.add_mul]
        refine ⟨hsub.trans (List.sublist_append_right _ _), ?_⟩
        omega
      | false =>
        rw [List.filter_cons_of_pos (by simp [hab]), textFrom_cons hcursor, textFrom_cons hcursor,
          hstays, List.countP_cons_of_neg (by simp [hab]), List.length_append, List.length_append,
          hlength]
        refine ⟨hsub.append_left _, ?_⟩
        omega
    · -- From here on ranks are higher, and there are no copies.
      have hnone : ∀ c ∈ b :: es, a.sameAs c = false := by
        intro c hc
        by_contra hsame
        have hac : a.rank = c.rank := rank_eq_of_sameAs (by simpa using hsame)
        rcases List.mem_cons.1 hc with rfl | hc
        · exact hrank hac
        · exact hrank (le_antisymm (hlater b List.mem_cons_self) (hac ▸ hfirst c hc))
      have hall : ((b :: es).filter fun c => !a.sameAs c) = b :: es := by
        apply List.filter_eq_self.2
        intro c hc
        simp [hnone c hc]
      have hcount : (b :: es).countP a.sameAs = 0 := by
        apply List.countP_eq_zero.2
        intro c hc
        simp [hnone c hc]
      rw [hall, hcount]
      exact ⟨List.Sublist.refl _, by simp⟩

/-! ## A list and its first occurrences -/

/-- What `textFrom_filter` says of the first occurrences behind an edit that has been tried. -/
theorem textFrom_filter_firsts (hcursor : IsBoundary cs cursor)
    (hsorted : (a :: es).Pairwise fun b c => b.rank ≤ c.rank) :
    let later := (es.dropWhile a.sameAs).eraseDupsBy sameAs
    let next := advance cs cursor a
    (textFrom cs next (later.filter fun b => !a.sameAs b)).Sublist (textFrom cs next later) ∧
      (textFrom cs next later).length =
        (textFrom cs next (later.filter fun b => !a.sameAs b)).length +
          later.countP a.sameAs * (piece cs next a).length := by
  intro later next
  obtain ⟨hlater, hsorted⟩ := List.pairwise_cons.1 hsorted
  have hsub : later.Sublist es := (firsts_sublist _).trans (List.dropWhile_sublist a.sameAs)
  apply textFrom_filter (isBoundary_advance hcursor a) (advance_advance rfl cursor)
  · exact hsorted.sublist hsub
  · intro b hb
    exact hlater b (hsub.subset hb)

theorem sorted_dropCopies (hsorted : (a :: es).Pairwise fun b c => b.rank ≤ c.rank) :
    (es.dropWhile a.sameAs).Pairwise fun b c => b.rank ≤ c.rank :=
  (List.pairwise_cons.1 hsorted).2.sublist (List.dropWhile_sublist a.sameAs)

/-- First occurrences never give a longer text. -/
theorem length_textFrom_firsts_le (hcursor : IsBoundary cs cursor)
    (hsorted : es.Pairwise fun b c => b.rank ≤ c.rank) :
    (textFrom cs cursor (es.eraseDupsBy sameAs)).length ≤
      (textFrom cs cursor (dropRepeats es)).length := by
  induction es using dropCopies_induct generalizing cursor with
  | nil => exact Nat.le_refl _
  | cons a es ih =>
    have hle := ih (isBoundary_advance hcursor a) (sorted_dropCopies hsorted)
    have hleft := (textFrom_filter_firsts hcursor hsorted).1.length_le
    rw [firsts_dropCopies, dropRepeats_cons, textFrom_cons hcursor, textFrom_cons hcursor,
      List.length_append, List.length_append]
    omega

/-- A copy that is not right behind the first edit has an edit of the same rank before it. -/
theorem exists_between (hsorted : (a :: es).Pairwise fun b c => b.rank ≤ c.rank) {e : Edit}
    (he : e ∈ es.dropWhile a.sameAs) (hcopy : a.sameAs e = true) :
    ∃ other, a.sameAs other = false ∧ a.rank = other.rank ∧
      [a, other, e].Sublist (a :: es) := by
  obtain ⟨hlater, hrest⟩ := List.pairwise_cons.1 hsorted
  have hsub := List.dropWhile_sublist a.sameAs (l := es)
  cases hdrop : es.dropWhile a.sameAs with
  | nil =>
    rw [hdrop] at he
    cases he
  | cons other fs =>
    have hdiffers : a.sameAs other = false := by
      have hhead := List.head_dropWhile_not a.sameAs (l := es) (by simp [hdrop])
      simpa [hdrop] using hhead
    rw [hdrop] at he hsub
    have hmem : e ∈ fs := by
      rcases List.mem_cons.1 he with rfl | hmem
      · rw [hcopy] at hdiffers
        cases hdiffers
      · exact hmem
    refine ⟨other, hdiffers, ?_, ((List.singleton_sublist.2 hmem).cons_cons other).trans hsub
      |>.cons_cons a⟩
    -- It stands between two edits of equal rank in a sorted list.
    apply le_antisymm (hlater other (hsub.subset List.mem_cons_self))
    rw [rank_eq_of_sameAs hcopy]
    exact (List.pairwise_cons.1 (hrest.sublist hsub)).1 e hmem

/-- Where no doubling edit is interrupted, first occurrences give the same text. -/
theorem textFrom_firsts (hcursor : IsBoundary cs cursor)
    (hsorted : es.Pairwise fun b c => b.rank ≤ c.rank) (h : ¬ Interrupted es) :
    textFrom cs cursor (es.eraseDupsBy sameAs) = textFrom cs cursor (dropRepeats es) := by
  induction es using dropCopies_induct generalizing cursor with
  | nil => rfl
  | cons a es ih =>
    have hrest : ¬ Interrupted (es.dropWhile a.sameAs) := by
      rintro ⟨first, other, second, hinterrupts, hsub⟩
      exact h ⟨first, other, second, hinterrupts,
        (hsub.trans (List.dropWhile_sublist a.sameAs)).cons a⟩
    obtain ⟨hsub, hlength⟩ := textFrom_filter_firsts hcursor hsorted
    -- Later copies of the first edit are not there, or their pieces are empty.
    have hnothing : ((es.dropWhile a.sameAs).eraseDupsBy sameAs).countP a.sameAs *
        (piece cs (advance cs cursor a) a).length = 0 := by
      by_cases hdoubles : a.Doubles
      · refine Nat.mul_eq_zero.2 (Or.inl (List.countP_eq_zero.2 fun e he hcopy => ?_))
        obtain ⟨other, hdiffers, hrank, hbetween⟩ :=
          exists_between hsorted ((firsts_sublist _).subset he) hcopy
        obtain ⟨hstart, hlength⟩ := rank_eq_iff.1 hrank
        exact h ⟨a, other, e, ⟨hdoubles, hcopy, hdiffers, hstart, hlength⟩, hbetween⟩
      · rw [piece_advance_of_not_doubles rfl hdoubles, List.length_nil, Nat.mul_zero]
    rw [firsts_dropCopies, dropRepeats_cons, textFrom_cons hcursor, textFrom_cons hcursor,
      ← ih (isBoundary_advance hcursor a) (sorted_dropCopies hsorted) hrest]
    congr 1
    apply hsub.eq_of_length
    omega

/-- What comes behind an edit that is not dropped is not dropped either. -/
theorem sublist_dropWhile {p : Edit → Bool} (ha : p a = false) {fs : List Edit}
    (h : (a :: fs).Sublist es) : (a :: fs).Sublist (es.dropWhile p) := by
  induction es with
  | nil => cases h
  | cons b es ih =>
    cases hb : p b with
    | false =>
      rw [List.dropWhile_cons_of_neg (by simp [hb])]
      exact h
    | true =>
      rw [List.dropWhile_cons_of_pos hb]
      cases h with
      | cons _ h => exact ih h
      | cons_cons _ h => simp [ha] at hb

/-- On a text that ends where an interrupted edit starts, first occurrences give a shorter text. -/
theorem length_textFrom_firsts_lt {first other second : Edit}
    (hinterrupts : Interrupts first other second) (hend : byteLength cs = first.start)
    (hcursor : IsBoundary cs cursor)
    (hsorted : es.Pairwise fun b c => b.rank ≤ c.rank)
    (hsub : [first, other, second].Sublist es) :
    (textFrom cs cursor (es.eraseDupsBy sameAs)).length <
      (textFrom cs cursor (dropRepeats es)).length := by
  induction es using dropCopies_induct generalizing cursor with
  | nil => cases hsub
  | cons a es ih =>
    have hnext := isBoundary_advance hcursor a
    have hle := length_textFrom_firsts_le hnext (sorted_dropCopies hsorted)
    obtain ⟨hleft, hlength⟩ := textFrom_filter_firsts hcursor hsorted
    have hleft := hleft.length_le
    rw [firsts_dropCopies, dropRepeats_cons, textFrom_cons hcursor, textFrom_cons hcursor,
      List.length_append, List.length_append]
    cases hsame : a.sameAs first with
    | false =>
      -- All three edits come later.
      have hsub : [first, other, second].Sublist es := by
        cases hsub with
        | cons _ hsub => exact hsub
        | cons_cons _ hsub => simp [sameAs_self] at hsame
      have hlt := ih hnext (sorted_dropCopies hsorted) (sublist_dropWhile hsame hsub)
      omega
    | true =>
      -- The second copy is left out on one side, where its piece is not empty.
      have hrank : a.rank = first.rank := rank_eq_of_sameAs hsame
      have hsub : [other, second].Sublist es := by
        cases hsub with
        | cons _ hsub => exact (List.sublist_cons_self _ _).trans hsub
        | cons_cons _ hsub => exact hsub
      have hdiffers : a.sameAs other = false := by
        rw [sameAs_congr hsame (sameAs_self other)]
        exact hinterrupts.differs
      have hmem : second ∈ es.dropWhile a.sameAs :=
        (sublist_dropWhile hdiffers hsub).subset (by simp)
      obtain ⟨d, hd, hcopy⟩ := exists_first hmem
      have hcount : 0 < ((es.dropWhile a.sameAs).eraseDupsBy sameAs).countP a.sameAs := by
        apply List.countP_pos_iff.2
        exact ⟨d, hd, sameAs_trans hsame (sameAs_trans hinterrupts.copies (sameAs_symm hcopy))⟩
      have hpiece : 0 < (piece cs (advance cs cursor a) a).length := by
        have htakes : takes cs cursor first = true := by
          rw [takes_iff, stop_of_empty hinterrupts.doubles.empty, ← hend]
          exact ⟨hcursor.le, Text.isBoundary_byteLength cs, Text.isBoundary_byteLength cs⟩
        rw [piece_congr hsame, advance_congr hrank]
        exact List.length_pos_iff.2 (piece_advance_of_doubles hinterrupts.doubles htakes)
      have hmore := Nat.mul_pos hcount hpiece
      omega

/-! ## Lists as they are given -/

/-- The edits that are tried on a text of the given length, repeats included. -/
def sortedWithin (length : Nat) (edits : List Edit) : List Edit :=
  (edits.filter fun e => e.stop ≤ length).mergeSort comesBefore

theorem sorted_sortedWithin (length : Nat) (edits : List Edit) :
    (sortedWithin length edits).Pairwise fun a b => a.rank ≤ b.rank :=
  sorted_mergeSort_rank _

/-- Taking first occurrences before scheduling or after sorting is the same. -/
theorem schedule_firsts (length : Nat) (edits : List Edit) :
    schedule length (edits.eraseDupsBy sameAs) =
      (sortedWithin length edits).eraseDupsBy sameAs := by
  have hrespects : ∀ a b : Edit, a.sameAs b = true →
      decide (a.stop ≤ length) = decide (b.stop ≤ length) := by
    intro a b hab
    rw [stop_eq_of_rank_eq (rank_eq_of_sameAs hab)]
  rw [schedule, ← eraseDupsBy_filter hrespects, ← firsts_mergeSort, dropRepeats_firsts,
    sortedWithin]

/-- Whether the end of an edit overflows depends on its stretch only. -/
theorem fits_eq_of_rank_eq (h : a.rank = b.rank) : a.fits = b.fits := by
  rw [fits, fits, (rank_eq_iff.1 h).2, stop_eq_of_rank_eq h]

/-- The ends of the first occurrences are the ends of all edits. -/
theorem fits_firsts {edits : List Edit} :
    (∀ e ∈ edits.eraseDupsBy sameAs, e.fits = true) ↔ ∀ e ∈ edits, e.fits = true := by
  constructor
  · intro h e he
    obtain ⟨d, hd, hsame⟩ := exists_first he
    rw [← fits_eq_of_rank_eq (rank_eq_of_sameAs hsame)]
    exact h d hd
  · intro h e he
    exact h e ((firsts_sublist edits).subset he)

/-- If the end of every edit fits, the text is the one that the loop gives. -/
theorem applyAll?_eq_textFrom (source : String) {edits : List Edit}
    (h : ∀ e ∈ edits, e.fits = true) :
    applyAll? source edits = some (String.ofList
      (textFrom source.toList 0 (schedule (byteLength source.toList) edits))) := by
  obtain ⟨text, htext⟩ := Option.isSome_iff_exists.1
    (isSome_applyFrom? (Text.isBoundary_zero source.toList)
      (schedule (byteLength source.toList) edits))
  rw [applyAll?_of_fits source h, textFrom, htext, Option.map_some, Option.getD_some]

/-- Sorting keeps edits of one rank in the order in which they are given. -/
theorem sublist_of_sortedWithin {length : Nat} {edits fs : List Edit} {r : ℕ ×ₗ ℕ}
    (hrank : ∀ e ∈ fs, e.rank = r) (h : fs.Sublist (sortedWithin length edits)) :
    fs.Sublist edits := by
  have hall : fs.filter (fun e => e.rank = r) = fs :=
    List.filter_eq_self.2 fun e he => decide_eq_true (hrank e he)
  have hsub := h.filter fun e => e.rank = r
  rw [hall, sortedWithin, StableSort.filter_mergeSort comesBefore_trans comesBefore_total,
    List.mergeSort_of_pairwise] at hsub
  · exact hsub.trans (List.filter_sublist.trans List.filter_sublist)
  · refine List.pairwise_of_forall_mem_list fun a ha b hb => ?_
    rw [comesBefore_iff, of_decide_eq_true (List.mem_filter.1 ha).2,
      of_decide_eq_true (List.mem_filter.1 hb).2]

/-- Sorting interrupts no copies that were not interrupted before. -/
theorem Interrupted.of_sortedWithin {length : Nat} {edits : List Edit}
    (h : Interrupted (sortedWithin length edits)) : Interrupted edits := by
  obtain ⟨first, other, second, hinterrupts, hsub⟩ := h
  refine ⟨first, other, second, hinterrupts, ?_⟩
  apply sublist_of_sortedWithin (r := first.rank) _ hsub
  simp [← hinterrupts.rank_other, ← hinterrupts.rank_second]

/-- On a text that ends where the edits start, all three of them are tried, in the order given. -/
theorem Interrupts.sublist_sortedWithin {first other second : Edit}
    (h : Interrupts first other second) {edits : List Edit}
    (hsub : [first, other, second].Sublist edits) :
    [first, other, second].Sublist (sortedWithin first.start edits) := by
  have hother := stop_eq_of_rank_eq h.rank_other
  have hsecond := stop_eq_of_rank_eq h.rank_second
  have hfirst : first.stop = first.start := stop_of_empty h.doubles.empty
  apply List.sublist_mergeSort comesBefore_trans comesBefore_total
  · simp [comesBefore_iff, ← h.rank_other, ← h.rank_second]
  · have hkept := hsub.filter fun e => e.stop ≤ first.start
    simpa [← hother, ← hsecond, hfirst] using hkept

/-- There are texts of every length. -/
theorem exists_text (n : Nat) : ∃ source : String, byteLength source.toList = n := by
  have hlength : ∀ k, byteLength (List.replicate k 'a') = k := by
    intro k
    induction k with
    | zero => rfl
    | succ k ih =>
      rw [List.replicate_succ, byteLength, ih]
      show 1 + k = k + 1
      omega
  refine ⟨String.ofList (List.replicate n 'a'), ?_⟩
  rw [String.toList_ofList, hlength]

/-- Repeated edits are applied once on every text if and only if the program stops with them anyway, or
no copies of a doubling edit are interrupted by a different edit of the same rank. -/
theorem applyAll?_eraseDups_iff (edits : List Edit) :
    (∀ source, applyAll? source edits = applyAll? source (edits.eraseDupsBy sameAs)) ↔
      ((∀ e ∈ edits, e.fits = true) → ¬ Interrupted edits) := by
  constructor
  · rintro hall hfits ⟨first, other, second, hinterrupts, hsub⟩
    obtain ⟨source, hend⟩ := exists_text first.start
    have hlt := length_textFrom_firsts_lt hinterrupts hend (Text.isBoundary_zero source.toList)
      (sorted_sortedWithin first.start edits) (hinterrupts.sublist_sortedWithin hsub)
    have hsame := hall source
    rw [applyAll?_eq_textFrom source hfits, applyAll?_eq_textFrom source (fits_firsts.2 hfits),
      schedule_firsts, hend, Option.some.injEq, String.ofList_inj] at hsame
    rw [← hsame] at hlt
    exact Nat.lt_irrefl _ hlt
  · intro h source
    by_cases hfits : ∀ e ∈ edits, e.fits = true
    · rw [applyAll?_eq_textFrom source hfits, applyAll?_eq_textFrom source (fits_firsts.2 hfits),
        schedule_firsts]
      congr 2
      symm
      apply textFrom_firsts (Text.isBoundary_zero _) (sorted_sortedWithin _ edits)
      intro hinterrupted
      exact h hfits hinterrupted.of_sortedWithin
    · -- Some end overflows, with both lists.
      rw [applyAll?_eq_none_iff.2 hfits, applyAll?_eq_none_iff.2 (fits_firsts.not.2 hfits)]

/-- An insertion at the beginning of a file. -/
def topInsertion (text : String) : Edit := ⟨⟨⟨"a.js"⟩, 1, 1, 0, 0⟩, text⟩

/-- Two copies of an insertion with a different one between them. -/
def interruptedInsertions : List Edit :=
  [topInsertion "/* a */ ", topInsertion "/* b */ ", topInsertion "/* a */ "]

/-- The same insertion comes twice. -/
theorem interruptedInsertions_doubled :
    (∀ e ∈ interruptedInsertions, e.fits = true) ∧ Interrupted interruptedInsertions ∧
      applyAll? "f();" interruptedInsertions = some "/* a */ /* b */ /* a */ f();" ∧
      applyAll? "f();" (interruptedInsertions.eraseDupsBy sameAs) =
        some "/* a */ /* b */ f();" := by
  have hfits : ∀ e ∈ interruptedInsertions, e.fits = true := by decide
  have hinterrupts : Interrupts (topInsertion "/* a */ ") (topInsertion "/* b */ ")
      (topInsertion "/* a */ ") :=
    ⟨⟨rfl, by decide⟩, sameAs_self _, by decide +kernel, rfl, rfl⟩
  refine ⟨hfits, ⟨_, _, _, hinterrupts, List.Sublist.refl _⟩, ?_, ?_⟩
  · rw [applyAll?_of_fits "f();" hfits, schedule, List.mergeSort_of_pairwise (by decide +kernel)]
    decide +kernel
  · rw [applyAll?_of_fits "f();" (fits_firsts.2 hfits), schedule,
      List.mergeSort_of_pairwise (by decide +kernel)]
    decide +kernel

end ModulePurity.Edit
