import ModulePurity.Proofs.TrimmedText
import ModulePurity.Waiver

/-!
# The language of waivers

What the text of a comment must be to spell a waiver, given as a grammar over the text (`Spells`,
`Names`, `GivesReason`) instead of the chain of trims and cuts that reads it:

* a text that follows the grammar is read as the grammar says, however it is divided into the parts of
  the grammar (`parse?_of_spells`), and every waiver that is read follows it (`exists_spells`);
* so the reader accepts exactly the grammar, and gives back every waiver that is written in the line
  form or in the block form (`parse?_language`).
-/

namespace ModulePurity.Waiver

open Text (Blank)

/-! ## The grammar -/

/-- The whole text of a comment and what stands inside its delimiters. A block may lack its end. -/
def Delimited (comment inside : List Char) : Prop :=
  comment = "//".toList ++ inside ∨ comment = "/*".toList ++ inside ∨
    comment = "/*".toList ++ (inside ++ "*/".toList)

/-- A directive with a list in parentheses and any rest, behind blanks. -/
def Directs (inside list rest : List Char) : Prop :=
  ')' ∉ list ∧ ∃ lead gap, Blank lead ∧ Blank gap ∧
    inside = lead ++ ("pure-lint:".toList ++ (gap ++ ("allow(".toList ++ (list ++ ')' :: rest))))

/-- A comment spells a directive with a list and a rest. -/
def Spells (comment list rest : List Char) : Prop :=
  ∃ inside, Delimited comment inside ∧ Directs inside list rest

/-- A name is one of the items between commas in a list, without the blanks around it. -/
def Names (list : List Char) (name : String) : Prop :=
  name ≠ "" ∧ ∃ item, Text.IsField ',' list item ∧ name.toList = Text.trim item

/-- A reason in double quotes at the beginning of the rest, behind blanks. -/
def GivesReason (rest : List Char) (reason : String) : Prop :=
  '"' ∉ reason.toList ∧ ∃ lead gap tail, Blank lead ∧ Blank gap ∧
    rest = lead ++ ("reason=".toList ++ (gap ++ ('"' :: (reason.toList ++ '"' :: tail))))

/-! ## Lists and reasons -/

/-- The names that are read from a list are those it names. -/
theorem mem_items_iff {list : List Char} {name : String} : name ∈ items list ↔ Names list name := by
  rw [items, List.mem_map]
  constructor
  · rintro ⟨core, hcore, rfl⟩
    obtain ⟨hmem, hne⟩ := List.mem_filter.1 hcore
    obtain ⟨item, hitem, rfl⟩ := List.mem_map.1 hmem
    refine ⟨?_, item, Text.mem_fields_iff.1 hitem, by simp⟩
    intro hempty
    simp [String.ofList_eq_empty_iff.1 hempty] at hne
  · rintro ⟨hne, item, hitem, htrim⟩
    refine ⟨Text.trim item, List.mem_filter.2 ⟨?_, ?_⟩, ?_⟩
    · exact List.mem_map_of_mem (Text.mem_fields_iff.2 hitem)
    · rw [← htrim]
      simpa using hne
    · rw [← htrim, String.ofList_toList]

theorem items_trimLeft (list : List Char) : items (Text.trimLeft list) = items list := by
  rw [items, Text.map_trim_fields_trimLeft (by decide), items]

/-- A reason is read exactly where the grammar has one. -/
theorem reason?_eq_some_iff {rest : List Char} {reason : String} :
    reason? rest = some reason ↔ GivesReason rest reason := by
  rw [reason?, Option.bind_eq_some_iff]
  constructor
  · rintro ⟨value, hvalue, h⟩
    obtain ⟨quoted, hquoted, h⟩ := Option.bind_eq_some_iff.1 h
    obtain ⟨⟨text, after⟩, hcut, rfl⟩ := Option.map_eq_some_iff.1 h
    obtain ⟨lead, v, hlead, rfl, rfl⟩ := (Text.dropWord?_trim (by decide)).1 hvalue
    rw [Text.trim_trimRight] at hquoted
    obtain ⟨gap, q, hgap, rfl, rfl⟩ := (Text.dropWord?_trim (by decide)).1 hquoted
    obtain ⟨tail, rfl, hnot, -⟩ := (Text.cutAt?_trimRight (by decide)).1 hcut
    exact ⟨by simpa using hnot, lead, gap, tail, hlead, hgap, by simp⟩
  · rintro ⟨hnot, lead, gap, tail, hlead, hgap, rfl⟩
    refine ⟨_, (Text.dropWord?_trim (by decide)).2 ⟨lead, _, hlead, rfl, rfl⟩, ?_⟩
    rw [Text.trim_trimRight, Option.bind_eq_some_iff]
    refine ⟨_, (Text.dropWord?_trim (by decide)).2
      ⟨gap, reason.toList ++ '"' :: tail, hgap, rfl, rfl⟩, ?_⟩
    rw [(Text.cutAt?_trimRight (by decide)).2 ⟨tail, rfl, hnot, rfl⟩]
    simp

/-- The reason is the same with the blanks behind the rest trimmed. -/
theorem reason?_trimRight (rest : List Char) : reason? (Text.trimRight rest) = reason? rest := by
  rw [reason?, Text.trim_trimRight, reason?]

/-! ## Directives -/

theorem listAndTail?_eq_some_iff {inside list' tail' : List Char} :
    listAndTail? inside = some (list', tail') ↔
      ∃ list rest, Directs inside list rest ∧ list' = Text.trimLeft list ∧
        tail' = Text.trimRight rest := by
  rw [listAndTail?, Option.bind_eq_some_iff]
  constructor
  · rintro ⟨directive, hdirective, h⟩
    obtain ⟨body, hbody, hcut⟩ := Option.bind_eq_some_iff.1 h
    obtain ⟨lead, d, hlead, rfl, rfl⟩ := (Text.dropWord?_trim (by decide)).1 hdirective
    rw [Text.trim_trimRight] at hbody
    obtain ⟨gap, b, hgap, rfl, rfl⟩ := (Text.dropWord?_trim (by decide)).1 hbody
    rw [Text.trim_trimRight] at hcut
    obtain ⟨list, rest, rfl, hnot, rfl, rfl⟩ := (Text.cutAt?_trim (by decide)).1 hcut
    exact ⟨list, rest, ⟨hnot, lead, gap, hlead, hgap, rfl⟩, rfl, rfl⟩
  · rintro ⟨list, rest, ⟨hnot, lead, gap, hlead, hgap, rfl⟩, rfl, rfl⟩
    refine ⟨_, (Text.dropWord?_trim (by decide)).2 ⟨lead, _, hlead, rfl, rfl⟩, ?_⟩
    rw [Text.trim_trimRight, Option.bind_eq_some_iff]
    refine ⟨_, (Text.dropWord?_trim (by decide)).2 ⟨gap, _, hgap, rfl, rfl⟩, ?_⟩
    rw [Text.trim_trimRight]
    exact (Text.cutAt?_trim (by decide)).2 ⟨list, rest, rfl, hnot, rfl, rfl⟩

/-! ## Delimiters -/

theorem inside?_line (inside : List Char) : inside? ("//".toList ++ inside) = some inside := by
  rw [inside?, Text.dropWord?_eq_some_iff.2 rfl]

theorem inside?_block (block : List Char) :
    inside? ("/*".toList ++ block) = some ((Text.dropLastWord? "*/".toList block).getD block) := by
  have hline : Text.dropWord? "//".toList ("/*".toList ++ block) = none := rfl
  rw [inside?, hline, Text.dropWord?_eq_some_iff.2 rfl]
  rfl

/-- The inside of a comment stands between its delimiters. -/
theorem delimited_of_inside? {comment inside : List Char} (h : inside? comment = some inside) :
    Delimited comment inside := by
  rw [inside?] at h
  split at h
  · next line hline =>
    cases h
    exact Or.inl (Text.dropWord?_eq_some_iff.1 hline)
  · obtain ⟨block, hblock, hinside⟩ := Option.map_eq_some_iff.1 h
    right
    rw [Text.dropWord?_eq_some_iff.1 hblock]
    cases hend : Text.dropLastWord? "*/".toList block with
    | none =>
      rw [hend, Option.getD_none] at hinside
      exact Or.inl (by rw [hinside])
    | some front =>
      rw [hend, Option.getD_some] at hinside
      exact Or.inr (by rw [Text.dropLastWord?_eq_some_iff.1 hend, hinside])

/-- The end of a block that follows a mark stands behind the mark. -/
theorem exists_of_append_close {mark : Char} {front rest block : List Char}
    (hmark : mark ∉ "*/".toList) (h : front ++ mark :: rest = block ++ "*/".toList) :
    ∃ tail, rest = tail ++ "*/".toList ∧ block = front ++ mark :: tail := by
  rcases List.append_eq_append_iff.1 h with ⟨z, rfl, hz⟩ | ⟨z, rfl, hz⟩
  · cases z with
    | nil =>
      have : mark ∈ "*/".toList := by
        rw [← List.nil_append "*/".toList, ← hz]
        exact List.mem_cons_self
      exact absurd this hmark
    | cons c tail =>
      obtain ⟨rfl, rfl⟩ := List.cons.inj hz
      exact ⟨tail, rfl, rfl⟩
  · have : mark ∈ "*/".toList := by
      rw [hz]
      simp
    exact absurd this hmark

/-- The end of a block behind the rest is no part of a reason. -/
theorem reason?_append_close (rest : List Char) :
    reason? (rest ++ "*/".toList) = reason? rest := by
  apply Option.ext
  intro reason
  rw [reason?_eq_some_iff, reason?_eq_some_iff]
  constructor
  · rintro ⟨hnot, lead, gap, tail, hlead, hgap, h⟩
    have hsplit : (lead ++ ("reason=".toList ++ (gap ++ ('"' :: reason.toList)))) ++ '"' :: tail =
        rest ++ "*/".toList := by
      rw [h]
      simp
    obtain ⟨tail', -, hrest⟩ := exists_of_append_close (by decide) hsplit
    exact ⟨hnot, lead, gap, tail', hlead, hgap, by rw [hrest]; simp⟩
  · rintro ⟨hnot, lead, gap, tail, hlead, hgap, rfl⟩
    exact ⟨hnot, lead, gap, tail ++ "*/".toList, hlead, hgap, by simp⟩

/-- What is inside the delimiters directs as the grammar says, even if the end of a block was counted
among the rest. -/
theorem exists_inside? {comment list rest : List Char} (h : Spells comment list rest) :
    ∃ inside rest', inside? comment = some inside ∧ Directs inside list rest' ∧
      reason? rest' = reason? rest := by
  obtain ⟨inside, hdelimited, hdirects⟩ := h
  rcases hdelimited with rfl | rfl | rfl
  · exact ⟨inside, rest, inside?_line inside, hdirects, rfl⟩
  · rw [inside?_block]
    cases hend : Text.dropLastWord? "*/".toList inside with
    | none => exact ⟨inside, rest, rfl, hdirects, rfl⟩
    | some front =>
      -- The text ends a block, and the end cannot reach back over the closing parenthesis.
      obtain ⟨hnot, lead, gap, hlead, hgap, rfl⟩ := hdirects
      have hclose := Text.dropLastWord?_eq_some_iff.1 hend
      have hsplit : (lead ++ ("pure-lint:".toList ++ (gap ++ ("allow(".toList ++ list)))) ++
          ')' :: rest = front ++ "*/".toList := by
        rw [← hclose]
        simp
      obtain ⟨rest', rfl, rfl⟩ := exists_of_append_close (by decide) hsplit
      refine ⟨_, rest', rfl, ⟨hnot, lead, gap, hlead, hgap, by simp⟩, ?_⟩
      exact (reason?_append_close rest').symm
  · rw [inside?_block, Text.dropLastWord?_eq_some_iff.2 rfl]
    exact ⟨inside, rest, rfl, hdirects, rfl⟩

/-! ## The reader -/

/-- A comment that spells a directive is read as such, if its list has an item. -/
theorem parse?_of_spells {comment list rest : List Char} (h : Spells comment list rest) :
    parse? comment = if (items list).isEmpty then none else some ⟨items list, reason? rest⟩ := by
  obtain ⟨inside, rest', hinside, hdirects, hreason⟩ := exists_inside? h
  have hlist : listAndTail? inside = some (Text.trimLeft list, Text.trimRight rest') :=
    listAndTail?_eq_some_iff.2 ⟨list, rest', hdirects, rfl, rfl⟩
  rw [parse?, hinside, Option.bind_some, hlist, Option.bind_some]
  simp only [items_trimLeft, reason?_trimRight, hreason]

/-- What is read as a waiver spells a directive. -/
theorem exists_spells {comment : List Char} {w : Waiver} (h : parse? comment = some w) :
    ∃ list rest, Spells comment list rest := by
  obtain ⟨inside, hinside, h⟩ := Option.bind_eq_some_iff.1 h
  obtain ⟨⟨list', tail'⟩, hlist, -⟩ := Option.bind_eq_some_iff.1 h
  obtain ⟨list, rest, hdirects, -, -⟩ := listAndTail?_eq_some_iff.1 hlist
  exact ⟨list, rest, inside, delimited_of_inside? hinside, hdirects⟩

/-! ## Writing a waiver -/

/-- The reason as it is written behind the list. -/
def reasonText : Option String → List Char
  | none => []
  | some reason => ' ' :: ("reason=".toList ++ ('"' :: (reason.toList ++ ['"'])))

/-- The directive of a waiver, its rules with a comma and a blank between them. -/
def directiveText (w : Waiver) : List Char :=
  "pure-lint:".toList ++ (' ' :: ("allow(".toList ++
    (List.intercalate ", ".toList (w.rules.map String.toList) ++ ')' :: reasonText w.reason)))

/-- A waiver as a comment up to the end of the line. -/
def lineText (w : Waiver) : List Char :=
  "//".toList ++ (' ' :: directiveText w)

/-- A waiver as a block comment. -/
def blockText (w : Waiver) : List Char :=
  "/*".toList ++ (' ' :: (directiveText w ++ (' ' :: "*/".toList)))

/-- A waiver that can be written: its rules are at least one, are trimmed and not empty and hold
neither a comma nor a closing parenthesis, and its reason holds no double quote. -/
structure Writable (w : Waiver) : Prop where
  rules_ne : w.rules ≠ []
  trimmed : ∀ name ∈ w.rules, name ≠ "" ∧ Text.trim name.toList = name.toList
  plain : ∀ name ∈ w.rules, ',' ∉ name.toList ∧ ')' ∉ name.toList
  unquoted : ∀ reason ∈ w.reason, '"' ∉ reason.toList

theorem intercalate_cons_cons (n m : List Char) (names : List (List Char)) :
    List.intercalate ", ".toList (n :: m :: names) =
      n ++ ',' :: ([' '] ++ List.intercalate ", ".toList (m :: names)) := by
  simp [List.intercalate]

/-- Names with commas and blanks between them are told apart again. -/
theorem map_trim_fields_intercalate (names : List (List Char)) (hne : names ≠ [])
    (htrim : ∀ n ∈ names, Text.trim n = n) (hcomma : ∀ n ∈ names, ',' ∉ n) :
    (Text.fields ',' (List.intercalate ", ".toList names)).map Text.trim = names := by
  induction names with
  | nil => exact absurd rfl hne
  | cons n names ih =>
    have hfield : Text.fields ',' n = [n] := Text.fields_of_not_mem (hcomma n List.mem_cons_self)
    have hn : Text.trim n = n := htrim n List.mem_cons_self
    cases names with
    | nil => simp [List.intercalate, hfield, hn]
    | cons m names =>
      have hrest := ih (by simp) (fun k hk => htrim k (List.mem_cons_of_mem n hk))
        fun k hk => hcomma k (List.mem_cons_of_mem n hk)
      rw [intercalate_cons_cons, Text.fields_append, hfield, List.map_append,
        Text.map_trim_fields_append (by decide) Text.blank_space, hrest, List.map_singleton, hn]
      rfl

theorem not_mem_intercalate {names : List (List Char)} (h : ∀ n ∈ names, ')' ∉ n) :
    ')' ∉ List.intercalate ", ".toList names := by
  induction names with
  | nil => simp [List.intercalate]
  | cons n names ih =>
    have hn := h n List.mem_cons_self
    cases names with
    | nil => simpa [List.intercalate] using hn
    | cons m names =>
      have hrest := ih fun k hk => h k (List.mem_cons_of_mem n hk)
      rw [intercalate_cons_cons]
      simpa [hn] using hrest

variable {w : Waiver}

/-- The rules of a writable waiver are read back from its list. -/
theorem Writable.items_eq (h : Writable w) :
    items (List.intercalate ", ".toList (w.rules.map String.toList)) = w.rules := by
  have hfields := map_trim_fields_intercalate (w.rules.map String.toList)
    (by simpa using h.rules_ne) (by simpa using fun n hn => (h.trimmed n hn).2)
    (by simpa using fun n hn => (h.plain n hn).1)
  have hnonempty : (w.rules.map String.toList).filter (fun item => !item.isEmpty) =
      w.rules.map String.toList := by
    apply List.filter_eq_self.2
    intro item hitem
    obtain ⟨name, hname, rfl⟩ := List.mem_map.1 hitem
    simpa using (h.trimmed name hname).1
  rw [items, hfields, hnonempty, List.map_map]
  simp

/-- The reason of a writable waiver is read back from its text. -/
theorem Writable.reason?_eq (h : Writable w) : reason? (reasonText w.reason) = w.reason := by
  cases hreason : w.reason with
  | none => rfl
  | some reason =>
    apply reason?_eq_some_iff.2
    exact ⟨h.unquoted reason (by simp [hreason]), [' '], [], [], Text.blank_space, Text.blank_nil,
      rfl⟩

theorem directiveText_append (w : Waiver) (trailing : List Char) :
    directiveText w ++ trailing = "pure-lint:".toList ++ (' ' :: ("allow(".toList ++
      (List.intercalate ", ".toList (w.rules.map String.toList) ++
        ')' :: (reasonText w.reason ++ trailing)))) := by
  show "pure-lint:".toList ++ (' ' :: ("allow(".toList ++
    (List.intercalate ", ".toList (w.rules.map String.toList) ++ ')' :: reasonText w.reason))) ++
      trailing = _
  rw [List.append_assoc, List.cons_append, List.append_assoc, List.append_assoc, List.cons_append]

/-- The text of a directive, with blanks around it, directs as the waiver says. -/
theorem Writable.directs (h : Writable w) (trailing : List Char) :
    Directs (' ' :: (directiveText w ++ trailing))
      (List.intercalate ", ".toList (w.rules.map String.toList))
      (reasonText w.reason ++ trailing) := by
  have hplain : ∀ n ∈ w.rules.map String.toList, ')' ∉ n := by
    simpa using fun n hn => (h.plain n hn).2
  rw [directiveText_append]
  exact ⟨not_mem_intercalate hplain, [' '], [' '], Text.blank_space, Text.blank_space, rfl⟩

/-- A comment that spells the directive of a waiver and has nothing but blanks behind it is read as
the waiver. -/
theorem Writable.parse?_eq (h : Writable w) (comment trailing : List Char) (hblank : Blank trailing)
    (hcomment : Delimited comment (' ' :: (directiveText w ++ trailing))) :
    parse? comment = some w := by
  have hreason : reason? (reasonText w.reason ++ trailing) = w.reason := by
    rw [← reason?_trimRight, Text.trimRight_append hblank, reason?_trimRight, h.reason?_eq]
  rw [parse?_of_spells ⟨_, hcomment, h.directs trailing⟩, h.items_eq, hreason]
  simp [h.rules_ne]

/-- A comment is read as a waiver exactly if it spells a directive whose list has a name. The rules of
the waiver are then the names in the list, and its reason is the one that the rest gives, if it gives
one. A written waiver is read back in either form. -/
theorem parse?_language :
    (∀ comment, (parse? comment).isSome = true ↔
      ∃ list rest, Spells comment list rest ∧ ∃ name, Names list name) ∧
    (∀ comment w list rest, parse? comment = some w → Spells comment list rest →
      (∀ name, name ∈ w.rules ↔ Names list name) ∧
      ∀ reason, w.reason = some reason ↔ GivesReason rest reason) ∧
    ∀ w, Writable w → parse? (lineText w) = some w ∧ parse? (blockText w) = some w := by
  refine ⟨?_, ?_, ?_⟩
  · intro comment
    constructor
    · intro hsome
      obtain ⟨w, hw⟩ := Option.isSome_iff_exists.1 hsome
      obtain ⟨list, rest, hspells⟩ := exists_spells hw
      refine ⟨list, rest, hspells, ?_⟩
      rw [parse?_of_spells hspells] at hsome
      by_contra hnone
      have hnil : items list = [] := by
        apply List.eq_nil_iff_forall_not_mem.2
        intro name hname
        exact hnone ⟨name, mem_items_iff.1 hname⟩
      simp [hnil] at hsome
    · rintro ⟨list, rest, hspells, name, hname⟩
      have hne : items list ≠ [] := List.ne_nil_of_mem (mem_items_iff.2 hname)
      rw [parse?_of_spells hspells]
      simp [hne]
  · intro comment w list rest hw hspells
    rw [parse?_of_spells hspells] at hw
    split at hw
    · cases hw
    · cases hw
      exact ⟨fun name => mem_items_iff, fun reason => reason?_eq_some_iff⟩
  · intro w hw
    constructor
    · exact hw.parse?_eq _ [] Text.blank_nil (Or.inl (by simp [lineText]))
    · exact hw.parse?_eq _ [' '] Text.blank_space
        (Or.inr (Or.inr (by simp [blockText])))

/-- A waiver for two rules; its reason holds what ends a list and what ends a block. -/
def guardedWaiver : Waiver := ⟨["pure-module", "no eval"], some "see (a) */ b"⟩

theorem parse?_language_guardedWaiver :
    Writable guardedWaiver ∧
      lineText guardedWaiver =
        "// pure-lint: allow(pure-module, no eval) reason=\"see (a) */ b\"".toList ∧
      parse? (lineText guardedWaiver) = some guardedWaiver ∧
      blockText guardedWaiver =
        "/* pure-lint: allow(pure-module, no eval) reason=\"see (a) */ b\" */".toList ∧
      parse? (blockText guardedWaiver) = some guardedWaiver := by
  have hw : Writable guardedWaiver :=
    ⟨by decide, by decide +kernel, by decide +kernel, by decide +kernel⟩
  have hread := parse?_language.2.2 guardedWaiver hw
  exact ⟨hw, by decide +kernel, hread.1, by decide +kernel, hread.2⟩

end ModulePurity.Waiver
