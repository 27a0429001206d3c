import Mathlib.Computability.RegularExpressions
import ModulePurity.Proofs.PathJoin
import ModulePurity.Proofs.Permissiveness

/-!
# The language of call paths

A call path is written as segments with dots between them, and a segment is a star or a word. This
file says so by a regular expression (`CallPath.expression`) and shows that reading a call path by
its fields accepts exactly the texts that the expression matches. The segments of a call path are
then the pieces of its text between the dots. A text outside the language accepts no target, so that
putting such texts anywhere among the known pure functions leaves the findings of every module as
they are: `isValid_iff_matches`.
-/

namespace ModulePurity.Purity

open RegularExpression (char)

/-! ## Regular expressions -/

/-- Any one character from `first` to `last`. -/
def charRange (first last : Char) : RegularExpression Char :=
  ((List.range (last.toNat + 1 - first.toNat)).map fun i => char (Char.ofNat (first.toNat + i))).sum

/-- A character of a word: `[A-Za-z0-9$_]`. -/
def wordCharExpression : RegularExpression Char :=
  charRange 'A' 'Z' + charRange 'a' 'z' + charRange '0' '9' + char '$' + char '_'

/-- A segment: a star, or one or more characters of a word. -/
def Segment.expression : RegularExpression Char :=
  char '*' + wordCharExpression * wordCharExpression.star

/-- A call path: segments with dots between them, at least one. -/
def CallPath.expression : RegularExpression Char :=
  Segment.expression * (char '.' * Segment.expression).star

/-- A sum of expressions matches what one of them matches. -/
theorem mem_matches_sum {es : List (RegularExpression Char)} {cs : List Char} :
    cs ∈ es.sum.matches' ↔ ∃ e ∈ es, cs ∈ e.matches' := by
  induction es with
  | nil =>
    rw [List.sum_nil, RegularExpression.matches'_zero]
    simp [Language.notMem_zero]
  | cons e es ih =>
    rw [List.sum_cons, RegularExpression.matches'_add, Language.mem_add, ih]
    simp

theorem mem_matches_char {c : Char} {cs : List Char} : cs ∈ (char c).matches' ↔ cs = [c] := by
  rw [RegularExpression.matches'_char]
  exact Iff.rfl

/-- Below the surrogates every number is the number of a character, so that a range has no gaps. -/
theorem mem_charRange {first last : Char} (hlast : last.toNat < 0xd800) {cs : List Char} :
    cs ∈ (charRange first last).matches' ↔ ∃ c, cs = [c] ∧ first ≤ c ∧ c ≤ last := by
  rw [charRange, mem_matches_sum]
  constructor
  · rintro ⟨e, he, hcs⟩
    obtain ⟨i, hi, rfl⟩ := List.mem_map.1 he
    rw [List.mem_range] at hi
    have hnumber : (Char.ofNat (first.toNat + i)).toNat = first.toNat + i := by
      rw [Char.ofNat, dif_pos (Or.inl (by omega))]
      rfl
    refine ⟨_, mem_matches_char.1 hcs, ?_, ?_⟩
    · show first.toNat ≤ (Char.ofNat (first.toNat + i)).toNat
      omega
    · show (Char.ofNat (first.toNat + i)).toNat ≤ last.toNat
      omega
  · rintro ⟨c, rfl, hfirst, hlast'⟩
    have hfirst : first.toNat ≤ c.toNat := hfirst
    have hlast' : c.toNat ≤ last.toNat := hlast'
    have hnumber : first.toNat + (c.toNat - first.toNat) = c.toNat := by omega
    refine ⟨char c, List.mem_map.2 ⟨c.toNat - first.toNat, ?_, ?_⟩, mem_matches_char.2 rfl⟩
    · rw [List.mem_range]
      omega
    · rw [hnumber, Char.ofNat_toNat]

/-! ## Segments -/

theorem Segment.isWordChar_iff {c : Char} :
    isWordChar c = true ↔
      ((('A' ≤ c ∧ c ≤ 'Z' ∨ 'a' ≤ c ∧ c ≤ 'z') ∨ '0' ≤ c ∧ c ≤ '9') ∨ c = '$') ∨ c = '_' := by
  have hupper : c.isUpper = decide ('A' ≤ c ∧ c ≤ 'Z') := rfl
  have hlower : c.isLower = (decide ('a' ≤ c) && decide (c ≤ 'z')) := rfl
  have hdigit : c.isDigit = (decide ('0' ≤ c) && decide (c ≤ '9')) := rfl
  have halpha : c.isAlphanum = (c.isUpper || c.isLower || c.isDigit) := rfl
  rw [isWordChar, halpha, hupper, hlower, hdigit]
  simp only [Bool.or_eq_true, Bool.and_eq_true, beq_iff_eq, decide_eq_true_eq]
  tauto

theorem mem_wordCharExpression {cs : List Char} :
    cs ∈ wordCharExpression.matches' ↔ ∃ c, cs = [c] ∧ Segment.isWordChar c = true := by
  simp only [wordCharExpression, RegularExpression.matches'_add, Language.mem_add,
    mem_charRange (show 'Z'.toNat < 0xd800 by decide),
    mem_charRange (show 'z'.toNat < 0xd800 by decide),
    mem_charRange (show '9'.toNat < 0xd800 by decide), mem_matches_char, Segment.isWordChar_iff]
  constructor
  · rintro ((((⟨c, rfl, hc⟩ | ⟨c, rfl, hc⟩) | ⟨c, rfl, hc⟩) | rfl) | rfl)
    · exact ⟨c, rfl, .inl (.inl (.inl (.inl hc)))⟩
    · exact ⟨c, rfl, .inl (.inl (.inl (.inr hc)))⟩
    · exact ⟨c, rfl, .inl (.inl (.inr hc))⟩
    · exact ⟨'$', rfl, .inl (.inr rfl)⟩
    · exact ⟨'_', rfl, .inr rfl⟩
  · rintro ⟨c, rfl, (((hc | hc) | hc) | rfl) | rfl⟩
    · exact .inl (.inl (.inl (.inl ⟨c, rfl, hc⟩)))
    · exact .inl (.inl (.inl (.inr ⟨c, rfl, hc⟩)))
    · exact .inl (.inl (.inr ⟨c, rfl, hc⟩))
    · exact .inl (.inr rfl)
    · exact .inr rfl

/-- Its star matches the texts made of such characters. -/
theorem mem_wordCharExpression_star {cs : List Char} :
    cs ∈ wordCharExpression.star.matches' ↔ ∀ c ∈ cs, Segment.isWordChar c = true := by
  rw [RegularExpression.matches'_star, Language.mem_kstar]
  constructor
  · rintro ⟨pieces, rfl, hpieces⟩ c hc
    obtain ⟨piece, hpiece, hc⟩ := List.mem_flatten.1 hc
    obtain ⟨d, rfl, hd⟩ := mem_wordCharExpression.1 (hpieces piece hpiece)
    rwa [List.mem_singleton.1 hc]
  · intro h
    refine ⟨cs.map fun c => [c], (List.flatMap_singleton' cs).symm, ?_⟩
    intro piece hpiece
    obtain ⟨c, hc, rfl⟩ := List.mem_map.1 hpiece
    exact mem_wordCharExpression.2 ⟨c, rfl, h c hc⟩

/-- A segment is an asterisk or a non-empty word. -/
theorem Segment.isSome_parse?_iff {cs : List Char} :
    (parse? cs).isSome = true ↔
      cs = ['*'] ∨ (cs ≠ [] ∧ ∀ c ∈ cs, isWordChar c = true) := by
  rw [parse?]
  by_cases hstar : cs = ['*']
  · rw [if_pos (beq_iff_eq.2 hstar)]
    simp [hstar]
  · rw [if_neg (by simpa using hstar)]
    by_cases hempty : cs = []
    · simp [hempty]
    · rw [if_neg (by simpa using hempty)]
      simp [hstar, hempty]

/-- A segment is well-formed exactly if its expression matches. -/
theorem Segment.mem_expression {cs : List Char} :
    cs ∈ Segment.expression.matches' ↔ (parse? cs).isSome = true := by
  rw [expression, RegularExpression.matches'_add, Language.mem_add, mem_matches_char,
    RegularExpression.matches'_mul, Language.mem_mul, isSome_parse?_iff]
  refine or_congr_right ⟨?_, ?_⟩
  · rintro ⟨first, hfirst, rest, hrest, rfl⟩
    obtain ⟨c, rfl, hc⟩ := mem_wordCharExpression.1 hfirst
    refine ⟨by simp, ?_⟩
    intro d hd
    rcases List.mem_cons.1 hd with rfl | hd
    · exact hc
    · exact mem_wordCharExpression_star.1 hrest d hd
  · rintro ⟨hne, hall⟩
    obtain ⟨c, rest, rfl⟩ := List.exists_cons_of_ne_nil hne
    refine ⟨[c], mem_wordCharExpression.2 ⟨c, rfl, hall c List.mem_cons_self⟩, rest, ?_, rfl⟩
    exact mem_wordCharExpression_star.2 fun d hd => hall d (List.mem_cons_of_mem c hd)

/-- No segment contains a dot, so that a path can be cut at its dots. -/
theorem Segment.not_mem_of_parse? {cs : List Char} (h : (parse? cs).isSome = true) : '.' ∉ cs := by
  rcases isSome_parse?_iff.1 h with rfl | ⟨-, hall⟩
  · decide
  · intro hdot
    exact absurd (hall '.' hdot) (by decide)

/-! ## Call paths -/

/-- A list of fields is read as segments if each of its fields is. -/
theorem isSome_parseSegments?_iff {fs : List (List Char)} :
    (parseSegments? fs).isSome = true ↔ ∀ f ∈ fs, (Segment.parse? f).isSome = true := by
  induction fs with
  | nil => simp [parseSegments?]
  | cons f fs ih =>
    rw [parseSegments?, List.forall_mem_cons, ← ih]
    cases Segment.parse? f <;> simp

/-- A text is a call path exactly if all its fields are segments. -/
theorem CallPath.isValid_iff_fields {raw : String} :
    isValid raw = true ↔ ∀ f ∈ Text.fields '.' raw.toList, (Segment.parse? f).isSome = true := by
  rw [← isSome_parseSegments?_iff, isValid, parse?]
  obtain ⟨first, rest, hfields⟩ := List.exists_cons_of_ne_nil (Text.fields_ne_nil '.' raw.toList)
  rw [hfields, parseSegments?]
  cases Segment.parse? first with
  | none => rfl
  | some anchor => cases parseSegments? rest <;> rfl

/-- Joined fields are the first one and, for each further one, a dot and the field. -/
theorem joinFields_eq_flatten (f : List Char) (fs : List (List Char)) :
    Text.joinFields '.' (f :: fs) = f ++ (fs.map ('.' :: ·)).flatten := by
  induction fs generalizing f with
  | nil => simp [Text.joinFields]
  | cons g gs ih => simp [Text.joinFields, ih]

/-- The expression matches segments that are joined by dots, one or more. -/
theorem CallPath.mem_expression {cs : List Char} :
    cs ∈ CallPath.expression.matches' ↔
      ∃ fs, fs ≠ [] ∧ cs = Text.joinFields '.' fs ∧ ∀ f ∈ fs, (Segment.parse? f).isSome = true := by
  rw [expression, RegularExpression.matches'_mul, Language.mem_mul]
  constructor
  · rintro ⟨first, hfirst, rest, hrest, rfl⟩
    rw [RegularExpression.matches'_star, Language.mem_kstar] at hrest
    obtain ⟨pieces, rfl, hpieces⟩ := hrest
    -- Each piece is a dot with a segment behind it.
    have hpiece : ∀ piece ∈ pieces,
        '.' :: piece.tail = piece ∧ (Segment.parse? piece.tail).isSome = true := by
      intro piece hpiece
      have hdotted := hpieces piece hpiece
      rw [RegularExpression.matches'_mul, Language.mem_mul] at hdotted
      obtain ⟨dot, hdot, f, hf, rfl⟩ := hdotted
      rw [mem_matches_char.1 hdot]
      exact ⟨rfl, Segment.mem_expression.1 hf⟩
    have hpieces : (pieces.map List.tail).map ('.' :: ·) = pieces := by
      rw [List.map_map]
      have hsame := List.map_congr_left (g := id) fun piece hmem => (hpiece piece hmem).1
      rwa [List.map_id] at hsame
    refine ⟨first :: pieces.map List.tail, by simp, ?_, ?_⟩
    · rw [joinFields_eq_flatten, hpieces]
    · intro f hf
      rcases List.mem_cons.1 hf with rfl | hf
      · exact Segment.mem_expression.1 hfirst
      · obtain ⟨piece, hmem, rfl⟩ := List.mem_map.1 hf
        exact (hpiece piece hmem).2
  · rintro ⟨fs, hne, rfl, hfs⟩
    obtain ⟨f, fs, rfl⟩ := List.exists_cons_of_ne_nil hne
    rw [List.forall_mem_cons] at hfs
    refine ⟨f, Segment.mem_expression.2 hfs.1, (fs.map ('.' :: ·)).flatten, ?_,
      (joinFields_eq_flatten f fs).symm⟩
    rw [RegularExpression.matches'_star, Language.mem_kstar]
    refine ⟨fs.map ('.' :: ·), rfl, ?_⟩
    intro piece hpiece
    obtain ⟨g, hg, rfl⟩ := List.mem_map.1 hpiece
    rw [RegularExpression.matches'_mul, Language.mem_mul]
    exact ⟨['.'], mem_matches_char.2 rfl, g, Segment.mem_expression.2 (hfs.2 g hg), rfl⟩

/-- Reading by fields accepts exactly what the expression matches. -/
theorem CallPath.isValid_iff_mem {raw : String} :
    isValid raw = true ↔ raw.toList ∈ CallPath.expression.matches' := by
  rw [isValid_iff_fields, mem_expression]
  constructor
  · intro h
    exact ⟨_, Text.fields_ne_nil '.' raw.toList, (Text.joinFields_fields '.' raw.toList).symm, h⟩
  · rintro ⟨fs, hne, hraw, hfs⟩
    rw [hraw, Text.fields_joinFields hne fun f hf => Segment.not_mem_of_parse? (hfs f hf)]
    exact hfs

/-- The segments of a call path from left to right. -/
def CallPath.segments (p : CallPath) : List Segment := p.anchor :: p.properties

/-- Segments that were read spell out the fields they were read from. -/
theorem map_chars_of_parseSegments? {fs : List (List Char)} {segments : List Segment}
    (h : parseSegments? fs = some segments) : segments.map Segment.chars = fs := by
  induction fs generalizing segments with
  | nil =>
    cases h
    rfl
  | cons f fs ih =>
    rw [parseSegments?] at h
    obtain ⟨s, hs, h⟩ := Option.bind_eq_some_iff.1 h
    obtain ⟨rest, hrest, rfl⟩ := Option.map_eq_some_iff.1 h
    rw [List.map_cons, Segment.chars_of_parse? hs, ih hrest]

/-- The segments of a call path are the pieces of its text between the dots. -/
theorem CallPath.map_chars_segments {raw : String} {p : CallPath} (h : parse? raw = some p) :
    p.segments.map Segment.chars = Text.fields '.' raw.toList :=
  map_chars_of_parseSegments? (exists_fields h)

theorem intercalate_eq_joinFields (mark : Char) (fs : List (List Char)) :
    [mark].intercalate fs = Text.joinFields mark fs := by
  induction fs with
  | nil => rfl
  | cons f fs ih =>
    cases fs with
    | nil => simp [Text.joinFields]
    | cons g gs =>
      rw [List.intercalate_cons_cons, ih, Text.joinFields, List.append_assoc]
      rfl

/-! ## Malformed texts among the known pure functions -/

/-- A list of texts with malformed ones put in at any places. -/
inductive Padded : (raws padded : List String) → Prop where
  | nil : Padded [] []
  | keep (raw : String) {raws padded : List String} :
    Padded raws padded → Padded (raw :: raws) (raw :: padded)
  | insert (raw : String) {raws padded : List String} (malformed : CallPath.isValid raw = false) :
    Padded raws padded → Padded raws (raw :: padded)

/-- Padding with malformed entries neither brings in nor removes a valid one. -/
theorem Padded.mem_iff {raws padded : List String} (h : Padded raws padded) {raw : String}
    (hvalid : CallPath.isValid raw = true) : raw ∈ padded ↔ raw ∈ raws := by
  induction h with
  | nil => rfl
  | keep other _ ih => rw [List.mem_cons, List.mem_cons, ih]
  | insert other hbad _ ih =>
    have hne : raw ≠ other := by
      rintro rfl
      rw [hvalid] at hbad
      cases hbad
    rw [List.mem_cons, ih, or_iff_right hne]

/-- Options that keep every valid entry permit at least as much. -/
theorem permits_of_mem (o : Options) (names : List String)
    (h : ∀ raw ∈ o.pureFunctions, CallPath.isValid raw = true → raw ∈ names) :
    Options.Permits { o with pureFunctions := names } o :=
  ⟨id, id, id, id, id, id, id, id, fun raw hraw hvalid => ⟨raw, h raw hraw hvalid, Widens.refl raw⟩⟩

/-- Options that permit each other report the same findings. -/
theorem check_of_permits {o o' : Options} (h : Options.Permits o' o) (h' : Options.Permits o o')
    (severity : Severity) (ctx : FileContext) (m : SourceModule) :
    check o' severity ctx m = check o severity ctx m := by
  refine List.filterMap_congr fun v _ => ?_
  rcases findingAt?_of_permits h severity ctx m v with hnone | hsame
  · rcases findingAt?_of_permits h' severity ctx m v with hnone' | hsame'
    · rw [hnone, hnone']
    · exact hsame'.symm
  · exact hsame

/-- Malformed entries change no finding. -/
theorem check_of_padded {o : Options} {names : List String} (h : Padded o.pureFunctions names)
    (severity : Severity) (ctx : FileContext) (m : SourceModule) :
    check { o with pureFunctions := names } severity ctx m = check o severity ctx m := by
  apply check_of_permits
  · apply permits_of_mem o names
    intro raw hraw hvalid
    exact (h.mem_iff hvalid).2 hraw
  · apply permits_of_mem { o with pureFunctions := names } o.pureFunctions
    intro raw hraw hvalid
    exact (h.mem_iff hvalid).1 hraw

/-- A text is a call path exactly if it belongs to the language of segments with dots between them.
Its segments are then the pieces between the dots, in order, and joined by dots they give the text
back. Malformed texts among the known pure functions have no effect on any module. -/
theorem isValid_iff_matches (raw : String) :
    (CallPath.isValid raw = true ↔ raw.toList ∈ CallPath.expression.matches') ∧
      (∀ p, CallPath.parse? raw = some p →
        ['.'].intercalate (p.segments.map Segment.chars) = raw.toList ∧
          (∀ s ∈ p.segments, s.chars ∈ Segment.expression.matches' ∧ '.' ∉ s.chars)) ∧
      ∀ (o : Options) (names : List String), Padded o.pureFunctions names →
        ∀ (severity : Severity) (ctx : FileContext) (m : SourceModule),
          check { o with pureFunctions := names } severity ctx m = check o severity ctx m := by
  refine ⟨CallPath.isValid_iff_mem, ?_, ?_⟩
  · intro p hp
    have hchars := CallPath.map_chars_segments hp
    have hvalid : CallPath.isValid raw = true := by rw [CallPath.isValid, hp, Option.isSome_some]
    refine ⟨?_, ?_⟩
    · rw [intercalate_eq_joinFields, hchars, Text.joinFields_fields]
    · intro s hs
      have hsegment : (Segment.parse? s.chars).isSome = true := by
        apply CallPath.isValid_iff_fields.1 hvalid
        rw [← hchars]
        exact List.mem_map_of_mem hs
      exact ⟨Segment.mem_expression.2 hsegment, Segment.not_mem_of_parse? hsegment⟩
  · intro o names hnames
    exact check_of_padded hnames

/-- The call path `$.*.fn_1`. -/
def starredPath : CallPath := ⟨.word ['$'], [.any, .word "fn_1".toList]⟩

/-- `$.*.fn_1` is a call path with three segments, and `a.g` among malformed texts still exempts the
inner call of `x = f(a.g());`. -/
theorem isValid_iff_matches_starredPath :
    CallPath.parse? "$.*.fn_1" = some starredPath ∧
      "$.*.fn_1".toList ∈ CallPath.expression.matches' ∧
      ['.'].intercalate (starredPath.segments.map Segment.chars) = "$.*.fn_1".toList ∧
      Padded ["a.g"] ["", "a..g", "a.g", "a.**"] ∧
      (check { pureFunctions := ["", "a..g", "a.g", "a.**"] } .error ⟨⟨"test.js"⟩⟩
        assignedMemberCall).map (fun f => f.location.offset) = [0, 4] := by
  have hlanguage := isValid_iff_matches "$.*.fn_1"
  have hparse : CallPath.parse? "$.*.fn_1" = some starredPath := by decide +kernel
  have hpadded : Padded ["a.g"] ["", "a..g", "a.g", "a.**"] :=
    .insert _ (by decide +kernel) (.insert _ (by decide +kernel)
      (.keep _ (.insert _ (by decide +kernel) .nil)))
  refine ⟨hparse, hlanguage.1.1 (by decide +kernel), (hlanguage.2.1 starredPath hparse).1, hpadded,
    ?_⟩
  have hsame := hlanguage.2.2 { pureFunctions := ["a.g"] } _ hpadded .error ⟨⟨"test.js"⟩⟩
    assignedMemberCall
  rw [hsame, check_eq_sweep]
  decide +kernel

end ModulePurity.Purity
