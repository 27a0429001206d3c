import ModulePurity.Proofs.MarkedComments
import ModulePurity.Proofs.PureMarks
import ModulePurity.Proofs.WaiverLookup
import ModulePurity.Tree.Module

/-!
# Waivers for the line below

A waiver above a line is meant to stand on a line of its own. The index looks to the left of it only:
blanks in front of it on its first line are enough. So no token shows in front of a waiver that allows
a rule on the line below (`ClearAhead`), but tokens may follow it on its last line, and then it allows
the rule on two lines of code. The law that it stands alone holds where the rest of its last line is
blank (`clear_of_allowed_below`) and fails where a statement follows (`sharedLine_allowed_below`).
-/

namespace ModulePurity

namespace Text

/-! ## The two sides of a place on its line -/

/-- The characters from byte offset `n` to the end of its line. -/
def lineTail (cs : List Char) (n : Nat) : List Char :=
  (cs.drop (upTo cs n).length).takeWhile (· != '\n')

theorem upTo_byteLength (a b : List Char) : upTo (a ++ b) (byteLength a) = a := by
  have h := upTo_append a b 0
  rwa [Nat.add_zero, upTo_zero, List.append_nil] at h

theorem lineLead_append (a b : List Char) :
    lineLead (a ++ b) (byteLength a) = a.reverse.takeWhile (· != '\n') := by
  rw [lineLead, upTo_byteLength]

theorem lineTail_append (a b : List Char) :
    lineTail (a ++ b) (byteLength a) = b.takeWhile (· != '\n') := by
  rw [lineTail, upTo_byteLength, List.drop_left]

theorem line_append (a b : List Char) :
    (position (a ++ b) (byteLength a)).line = 1 + a.count '\n' := by
  rw [line_position, upTo_byteLength]

/-- A text can be cut in front of the character at an offset. -/
theorem exists_of_charAt? {cs : List Char} {n : Nat} {c : Char} (h : charAt? cs n = some c) :
    ∃ x y, cs = x ++ c :: y ∧ byteLength x = n := by
  obtain ⟨⟨x, rest⟩, hsplit, hhead⟩ := Option.bind_eq_some_iff.1 h
  obtain ⟨y, hy⟩ := List.head?_eq_some_iff.1 hhead
  refine ⟨x, y, ?_, byteLength_of_splitAt? hsplit⟩
  rw [← append_of_splitAt? hsplit, hy]

/-- A slice is a stretch of the text between two characters. -/
theorem exists_of_slice? {cs b : List Char} {m n : Nat} (h : slice? cs m n = some b) :
    ∃ a c, cs = a ++ (b ++ c) ∧ byteLength a = m ∧ byteLength (a ++ b) = n := by
  rw [slice?] at h
  split at h
  · next hle =>
    obtain ⟨⟨a, rest⟩, hstart, hstop⟩ := Option.bind_eq_some_iff.1 h
    obtain ⟨⟨b', c⟩, hcut, rfl⟩ := Option.map_eq_some_iff.1 hstop
    have ha := byteLength_of_splitAt? hstart
    have hb : byteLength b' = n - m := byteLength_of_splitAt? hcut
    refine ⟨a, c, ?_, ha, ?_⟩
    · rw [append_of_splitAt? hcut, append_of_splitAt? hstart]
    · show byteLength (a ++ b') = n
      rw [byteLength_append]
      omega
  · cases h

/-- A character behind a stretch without line ends is reached before the line ends. -/
theorem mem_takeWhile_append {z y : List Char} {c : Char} (hz : '\n' ∉ z) (hc : c ≠ '\n') :
    c ∈ (z ++ c :: y).takeWhile (· != '\n') := by
  have hall : ∀ d ∈ z, (d != '\n') = true := by
    intro d hd
    apply bne_iff_ne.2
    rintro rfl
    exact hz hd
  rw [List.takeWhile_append_of_pos hall, List.takeWhile_cons_of_pos (by simpa using hc)]
  simp

/-- A character to the left on the same line stands in the lead. -/
theorem mem_lineLead {a b : List Char} {n : Nat} {c : Char} (hn : n < byteLength a)
    (hc : charAt? (a ++ b) n = some c)
    (hline : (position (a ++ b) n).line = (position (a ++ b) (byteLength a)).line) :
    c ∈ lineLead (a ++ b) (byteLength a) := by
  obtain ⟨x, y, hxy, rfl⟩ := exists_of_charAt? hc
  obtain ⟨z, rfl⟩ : ∃ z, a = x ++ c :: z := by
    rcases List.append_eq_append_iff.1 hxy with ⟨z, rfl, -⟩ | ⟨z, rfl, hz⟩
    · rw [byteLength_append] at hn
      omega
    · cases z with
      | nil => simp at hn
      | cons d z =>
        obtain ⟨rfl, -⟩ := List.cons.inj hz
        exact ⟨z, rfl⟩
  -- The line number has not changed from the character on, so no line ends there.
  rw [line_append, hxy, line_append, List.count_append] at hline
  have hnone : (c :: z).count '\n' = 0 := by omega
  have hnot : '\n' ∉ c :: z := List.count_eq_zero.1 hnone
  rw [lineLead_append, List.reverse_append, List.reverse_cons, List.append_assoc]
  apply mem_takeWhile_append
  · intro hz
    exact hnot (List.mem_cons_of_mem c (List.mem_reverse.1 hz))
  · rintro rfl
    exact hnot List.mem_cons_self

/-- A character to the right on the same line stands in the tail, unless it ends the line. -/
theorem mem_lineTail {a b : List Char} {n : Nat} {c : Char} (hn : byteLength a ≤ n)
    (hc : charAt? (a ++ b) n = some c) (hend : c ≠ '\n')
    (hline : (position (a ++ b) n).line = (position (a ++ b) (byteLength a)).line) :
    c ∈ lineTail (a ++ b) (byteLength a) := by
  obtain ⟨x, y, hxy, rfl⟩ := exists_of_charAt? hc
  obtain ⟨z, rfl, rfl⟩ : ∃ z, x = a ++ z ∧ b = z ++ c :: y := by
    rcases List.append_eq_append_iff.1 hxy with ⟨z, hx, hb⟩ | ⟨z, rfl, hz⟩
    · exact ⟨z, hx, hb⟩
    · cases z with
      | nil => exact ⟨[], by simp, by simpa using hz.symm⟩
      | cons d z =>
        rw [byteLength_append] at hn
        have := byteLength_pos (List.cons_ne_nil d z)
        omega
  rw [line_append, hxy, line_append, List.count_append] at hline
  have hnot : '\n' ∉ z := List.count_eq_zero.1 (by omega)
  rw [lineTail_append]
  exact mem_takeWhile_append hnot hend

end Text

open CommentIndex (isToken)

/-! ## Tokens beside a comment -/

/-- A leaf shows at an offset: it covers the offset, and the character there is no blank. -/
def Node.ShowsAt (source : List Char) (t : Node) (offset : Nat) : Prop :=
  t.start ≤ offset ∧ offset < t.stop ∧
    ∃ c, Text.charAt? source offset = some c ∧ Text.isAsciiBlank c = false

/-- No token shows in front of a comment on its first line. -/
def ClearAhead (source : List Char) (root : Node) (c : Comment) : Prop :=
  ∀ t ∈ root.leaves, isToken t = true → ∀ offset < c.start, t.ShowsAt source offset →
    (Text.position source offset).line ≠ c.line

/-- No token shows behind a comment on its last line. -/
def ClearBehind (source : List Char) (root : Node) (c : Comment) : Prop :=
  ∀ t ∈ root.leaves, isToken t = true → ∀ offset ≥ c.stop, t.ShowsAt source offset →
    (Text.position source offset).line ≠ c.endLine

variable {source : List Char} {root leaf : Node}

/-- A comment with some text is a stretch of the source between two characters. -/
theorem Comment.exists_middle (h : (Comment.ofNode source leaf).text ≠ "") :
    ∃ a b c, source = a ++ (b ++ c) ∧ Text.byteLength a = leaf.start ∧
      Text.byteLength (a ++ b) = leaf.stop := by
  cases hslice : Text.slice? source leaf.start leaf.stop with
  | none =>
    rw [Comment.ofNode, hslice] at h
    exact absurd rfl h
  | some b =>
    obtain ⟨a, c, hsource, hstart, hstop⟩ := Text.exists_of_slice? hslice
    exact ⟨a, b, c, hsource, hstart, hstop⟩

/-- A waiver has some text. -/
theorem text_ne_of_parse? {c : Comment} {w : Waiver}
    (h : Waiver.parse? c.text.toList = some w) : c.text ≠ "" := by
  intro hempty
  rw [hempty] at h
  cases h

/-- A comment with some text does not end before it starts. -/
theorem Comment.line_le_endLine (h : (Comment.ofNode source leaf).text ≠ "") :
    (Comment.ofNode source leaf).line ≤ (Comment.ofNode source leaf).endLine := by
  obtain ⟨a, b, c, rfl, hstart, hstop⟩ := Comment.exists_middle h
  show (Text.position _ leaf.start).line ≤ (Text.position _ leaf.stop).line
  rw [← hstop, ← hstart, Text.line_append, ← List.append_assoc, Text.line_append,
    List.count_append]
  omega

/-- Blanks in front of a comment on its line leave no room for a token. -/
theorem clearAhead_of_ownLine (h : (Comment.ofNode source leaf).text ≠ "")
    (hown : (Comment.ofNode source leaf).ownLine = true) :
    ClearAhead source root (Comment.ofNode source leaf) := by
  obtain ⟨a, b, c, rfl, hstart, -⟩ := Comment.exists_middle h
  rintro t - - offset hoffset ⟨-, -, char, hchar, hblank⟩ hline
  have hlead : (Text.lineLead (a ++ (b ++ c)) leaf.start).all Text.isAsciiBlank = true := hown
  have hoffset : offset < leaf.start := hoffset
  have hline : (Text.position (a ++ (b ++ c)) offset).line =
    (Text.position (a ++ (b ++ c)) leaf.start).line := hline
  rw [← hstart] at hlead hoffset hline
  have := List.all_eq_true.1 hlead char (Text.mem_lineLead hoffset hchar hline)
  rw [hblank] at this
  cases this

/-- Blanks behind a comment on its last line leave no room for a token. -/
theorem clearBehind_of_blank (h : (Comment.ofNode source leaf).text ≠ "")
    (htail : (Text.lineTail source leaf.stop).all Text.isAsciiBlank = true) :
    ClearBehind source root (Comment.ofNode source leaf) := by
  obtain ⟨a, b, c, rfl, -, hstop⟩ := Comment.exists_middle h
  rintro t - - offset hoffset ⟨-, -, char, hchar, hblank⟩ hline
  have hoffset : leaf.stop ≤ offset := hoffset
  have hline : (Text.position (a ++ (b ++ c)) offset).line =
    (Text.position (a ++ (b ++ c)) leaf.stop).line := hline
  rw [← hstop] at hoffset hline htail
  rw [← List.append_assoc] at hline hchar htail
  have hend : char ≠ '\n' := by
    rintro rfl
    cases hblank
  have := List.all_eq_true.1 htail char (Text.mem_lineTail hoffset hchar hend hline)
  rw [hblank] at this
  cases this

/-! ## The waiver above a line -/

/-- If the comments allow a rule on a line, and all but one of them deny it, that one waives it. -/
theorem WaiverIndex.exists_waives_of_only {before after : List Comment} {c : Comment} {line : Nat}
    {rule : String}
    (hallowed : (WaiverIndex.ofComments (before ++ c :: after)).check line rule ≠ .denied)
    (honly : (WaiverIndex.ofComments (before ++ after)).check line rule = .denied) :
    ∃ w, WaiverIndex.Waives c w line rule := by
  have hnone := WaiverIndex.check_eq_denied_iff.1 honly
  by_contra hno
  apply hallowed
  apply WaiverIndex.check_eq_denied_iff.2
  intro d hd w hwaives
  rcases List.mem_append.1 hd with hd | hd
  · exact hnone d (List.mem_append_left _ hd) w hwaives
  · rcases List.mem_cons.1 hd with rfl | hd
    · exact hno ⟨w, hwaives⟩
    · exact hnone d (List.mem_append_right _ hd) w hwaives

/-- The waivers of a module are those among its comments. -/
theorem waivers_of_comments {source : String} {language : Language} {comments : List Comment}
    (h : (SourceModule.ofTree source language root).comments.comments = comments) :
    (SourceModule.ofTree source language root).waivers = WaiverIndex.ofComments comments := by
  rw [← h]
  rfl

/-- If a rule is allowed on a line only because of a comment that ends on the line before, no token
shows in front of the comment on its first line, and none behind it on its last line if the rest of
that line is blank. -/
theorem clear_of_allowed_below (source : String) (language : Language) (root : Node)
    (before after : List Comment) (c : Comment) (line : Nat) (rule : String)
    (hcomments : (SourceModule.ofTree source language root).comments.comments = before ++ c :: after)
    (hallowed : (SourceModule.ofTree source language root).waivers.check line rule ≠ .denied)
    (honly : (WaiverIndex.ofComments (before ++ after)).check line rule = .denied)
    (hend : c.endLine + 1 = line) :
    ClearAhead source.toList root c ∧
      ((Text.lineTail source.toList c.stop).all Text.isAsciiBlank = true →
        ClearBehind source.toList root c) := by
  rw [waivers_of_comments hcomments] at hallowed
  obtain ⟨w, hwaives⟩ := WaiverIndex.exists_waives_of_only hallowed honly
  have hmem : c ∈ (CommentIndex.ofTree source.toList root).comments := by
    have hc : c ∈ before ++ c :: after := by simp
    rwa [← hcomments] at hc
  rw [CommentIndex.comments_ofTree] at hmem
  obtain ⟨leaf, -, rfl⟩ := List.mem_map.1 hmem
  have htext := text_ne_of_parse? hwaives.spelled
  have hown : (Comment.ofNode source.toList leaf).ownLine = true := by
    -- It ends above the line, so it cannot start there.
    have hle := Comment.line_le_endLine htext
    rcases hwaives.covers with hstart | ⟨hown, -⟩
    · omega
    · exact hown
  exact ⟨clearAhead_of_ownLine htext hown, clearBehind_of_blank htext⟩

open Purity (sampleNode sampleToken)

/-- A statement of four bytes that calls a function with a name of one letter. -/
def sampleCall (start : Nat) : Node :=
  sampleNode "expression_statement" start (start + 4) none
    [sampleNode "call_expression" start (start + 3) none
      [sampleNode "identifier" start (start + 1) (some .function) [],
        sampleNode "arguments" (start + 1) (start + 3) (some .arguments)
          [sampleToken "(" (start + 1), sampleToken ")" (start + 2)]],
      sampleToken ";" (start + 3)]

/-- Two calls with a comment behind the first and a waiver of two lines above the second. -/
def waiverAboveText : String :=
  "a(); // n\n /*pure-lint:allow(all)\n*/\nb();"

/-- Its tree. -/
def waiverAbove : Node :=
  sampleNode "program" 0 41 none
    [sampleCall 0, sampleNode "comment" 5 9 none [], sampleNode "comment" 11 36 none [],
      sampleCall 37]

/-- The comment behind the first call. -/
def noteBehind : Comment := ⟨"// n", 5, 9, 1, 1, false⟩

/-- The waiver above the second call. -/
def setupWaiver : Comment := ⟨"/*pure-lint:allow(all)\n*/", 11, 36, 2, 3, true⟩

/-- The waiver ends on the third line and allows every rule on the fourth; nothing stands beside it. -/
theorem clear_of_allowed_below_waiverAbove :
    (SourceModule.ofTree waiverAboveText .javascript waiverAbove).comments.comments =
        [noteBehind] ++ setupWaiver :: [] ∧
      (SourceModule.ofTree waiverAboveText .javascript waiverAbove).waivers.check 4 "pure-module" =
        .allowed none ∧
      (WaiverIndex.ofComments ([noteBehind] ++ [])).check 4 "pure-module" = .denied ∧
      ClearAhead waiverAboveText.toList waiverAbove setupWaiver ∧
      ClearBehind waiverAboveText.toList waiverAbove setupWaiver := by
  have hcomments : (SourceModule.ofTree waiverAboveText .javascript waiverAbove).comments.comments =
      [noteBehind] ++ setupWaiver :: [] := by decide +kernel
  have hallowed : (SourceModule.ofTree waiverAboveText .javascript waiverAbove).waivers.check 4
      "pure-module" = .allowed none := by
    rw [waivers_of_comments hcomments]
    decide +kernel
  have honly : (WaiverIndex.ofComments ([noteBehind] ++ [])).check 4 "pure-module" = .denied := by
    decide +kernel
  have hclear := clear_of_allowed_below waiverAboveText .javascript waiverAbove [noteBehind] []
    setupWaiver 4 "pure-module" hcomments (by rw [hallowed]; simp) honly rfl
  exact ⟨hcomments, hallowed, honly, hclear.1, hclear.2 (by decide +kernel)⟩

/-- A waiver in front of a call, and another call on the line below. -/
def sharedLineText : String :=
  "/* pure-lint: allow(pure-module) reason=\"ok\" */ a();\nb();"

/-- Its tree. -/
def sharedLine : Node :=
  sampleNode "program" 0 57 none [sampleNode "comment" 0 47 none [], sampleCall 48, sampleCall 53]

/-- The waiver in front of the first call. -/
def leadingWaiver : Comment :=
  ⟨"/* pure-lint: allow(pure-module) reason=\"ok\" */", 0, 47, 1, 1, true⟩

/-- The waiver shares its line with the first call and still is the only reason why the second one is
allowed, so that neither is reported. -/
theorem sharedLine_allowed_below :
    SourceModule.parse (fun _ _ => sharedLine) .javascript sharedLineText =
        .ok (.ofTree sharedLineText .javascript sharedLine) ∧
      (SourceModule.ofTree sharedLineText .javascript sharedLine).comments.comments =
        [] ++ leadingWaiver :: [] ∧
      (SourceModule.ofTree sharedLineText .javascript sharedLine).waivers.check 2 "pure-module" =
        .allowed (some "ok") ∧
      (WaiverIndex.ofComments ([] ++ [])).check 2 "pure-module" = .denied ∧
      leadingWaiver.endLine + 1 = 2 ∧
      ¬ ClearBehind sharedLineText.toList sharedLine leadingWaiver ∧
      Purity.check {} .error ⟨⟨"test.js"⟩⟩ (.ofTree sharedLineText .javascript sharedLine) = [] := by
  have hcomments : (SourceModule.ofTree sharedLineText .javascript sharedLine).comments.comments =
      [] ++ leadingWaiver :: [] := by decide +kernel
  refine ⟨rfl, hcomments, ?_, rfl, rfl, ?_, ?_⟩
  · rw [waivers_of_comments hcomments]
    decide +kernel
  · intro hclear
    -- The name of the first call, one blank behind the waiver.
    have hmem : sampleNode "identifier" 48 49 (some .function) [] ∈ sharedLine.leaves := by
      simp [sharedLine, sampleCall, sampleNode, sampleToken, Node.leaves, Node.forestLeaves]
    exact hclear _ hmem (by decide) 48 (by decide)
      ⟨by decide, by decide, 'a', by decide +kernel, by decide⟩ (by decide +kernel)
  · rw [Purity.check_eq_sweep]
    decide +kernel

end ModulePurity
