import ModulePurity.Proofs.FixedPoint

/-!
# A mark right after a slash

A pure mark begins with a slash. Put in right after another slash it reads as the beginning of a line
comment, unless that slash is itself the end of a comment. Nothing in the rule looks to the left of a
node, so this happens: the law `SlashEndsComment` fails exactly at those effects that follow a token
ending in a slash without a blank, such as the call in `y/f()`, and there the new text holds two
slashes in a row.
-/

namespace ModulePurity.Purity

/-- A slash right before an offset is the end of a comment. -/
def SlashEndsComment (source : List Char) (root : Node) (offset : Nat) : Prop :=
  Text.charBefore? source offset = some '/' →
    ∃ leaf ∈ root.leaves, leaf.isComment = true ∧ leaf.start < offset ∧ leaf.stop = offset

/-- A slash right before an offset is the end of a token. -/
def SlashEndsToken (source : List Char) (root : Node) (offset : Nat) : Prop :=
  Text.charBefore? source offset = some '/' ∧
    ∃ leaf ∈ root.leaves, leaf.isComment = false ∧ leaf.start < offset ∧ leaf.stop = offset

/-- Every slash of the text belongs to a leaf: between the leaves there are only blanks. -/
def SlashesInLeaves (source : List Char) (root : Node) : Prop :=
  ∀ p ≤ Text.byteLength source, Text.charBefore? source p = some '/' →
    ∃ leaf ∈ root.leaves, leaf.start < p ∧ p ≤ leaf.stop

variable {source : List Char} {root : Node} {offsets : List Nat}

/-- Where a mark is put in, a slash to the left ends a comment or else a token. -/
theorem slashEndsComment_iff (h : Markable source root offsets)
    (hslashes : SlashesInLeaves source root) {p : Nat} (hp : p ∈ offsets) :
    SlashEndsComment source root p ↔ ¬ SlashEndsToken source root p := by
  constructor
  · rintro hlaw ⟨hslash, t, ht, htoken, htstart, htstop⟩
    obtain ⟨c, hc, hcomment, hcstart, hcstop⟩ := hlaw hslash
    -- Both leaves hold the slash, so they are the same one.
    rcases Node.eq_or_apart h.nested.leaves_apart ht hc with rfl | htc | hct
    · rw [hcomment] at htoken
      cases htoken
    · omega
    · omega
  · intro hno hslash
    obtain ⟨leaf, hleaf, hstart, hstop⟩ := hslashes p (h.boundary_offset p hp).le hslash
    have hend : leaf.stop = p := by
      have := h.not_inside hleaf p hp
      omega
    cases hcomment : leaf.isComment with
    | true => exact ⟨leaf, hleaf, hcomment, hstart, hend⟩
    | false => exact absurd ⟨hslash, leaf, hleaf, hcomment, hstart, hend⟩ hno

/-- At every finding with an edit, a slash to the left of the mark ends a comment exactly if it does
not end a token, and the new text has in front of the mark what the old one had there: after a token
that ends in a slash the mark makes a line comment. -/
theorem slash_before_mark (o : Options) (severity : Severity) (ctx : FileContext)
    (m : SourceModule) (hprogram : m.root.kind = "program")
    (hlaid : LaidOut m.source.toList m.root)
    (hslashes : SlashesInLeaves m.source.toList m.root) (f : Finding)
    (hf : f ∈ check o severity ctx m) (hedit : f.edit?.isSome) :
    (SlashEndsComment m.source.toList m.root f.location.offset ↔
        ¬ SlashEndsToken m.source.toList m.root f.location.offset) ∧
      ∃ before after,
        Finding.applyRemedies? m.source (check o severity ctx m) =
          some (String.ofList (before ++ "/* #__PURE__ */ ".toList ++ after)) ∧
        Text.byteLength before = Text.stopIn pureMark.toList
          (markOffsets (check o severity ctx m)) f.location.offset ∧
        before.getLast? = Text.charBefore? m.source.toList f.location.offset := by
  have hmarkable : Markable m.source.toList m.root (markOffsets (check o severity ctx m)) :=
    hlaid.markable hprogram
  have hp : f.location.offset ∈ markOffsets (check o severity ctx m) :=
    (mem_markOffsets (fun _ hf => hf) _).2 ⟨f, hf, hedit, rfl⟩
  refine ⟨slashEndsComment_iff hmarkable hslashes hp, ?_⟩
  obtain ⟨before, after, hmarked, hlength, hlast⟩ :=
    Text.exists_before_mark hmarkable.boundary_offset hp
  refine ⟨before, after, ?_, hlength, hlast⟩
  rw [applyRemedies?_eq_marked hlaid.boundary fun _ hf => hf]
  exact congrArg (fun cs => some (String.ofList cs)) hmarked

/-- The tree of `x = y/f();`. -/
def dividedCall : Node :=
  sampleNode "program" 0 10 none
    [sampleNode "expression_statement" 0 10 none
      [sampleNode "assignment_expression" 0 9 none
        [sampleNode "identifier" 0 1 none [], sampleToken "=" 2,
          sampleNode "binary_expression" 4 9 none
            [sampleNode "identifier" 4 5 none [], sampleToken "/" 5,
              sampleNode "call_expression" 6 9 none
                [sampleNode "identifier" 6 7 (some .function) [],
                  sampleNode "arguments" 7 9 (some .arguments) [sampleToken "(" 7, sampleToken ")" 8]]]],
        sampleToken ";" 9]]

theorem laidOut_dividedCall : LaidOut "x = y/f();".toList dividedCall where
  nested := ⟨by decide +kernel, by decide +kernel, by decide +kernel⟩
  flush := by decide +kernel
  boundary := by decide +kernel
  token := by decide +kernel
  name := by decide +kernel

theorem exists_edit_dividedCall :
    ∃ f ∈ check {} .error ⟨⟨"test.js"⟩⟩ (.ofTree "x = y/f();" .javascript dividedCall),
      f.edit?.isSome ∧ f.location.offset = 6 := by
  have hany : (check {} .error ⟨⟨"test.js"⟩⟩ (.ofTree "x = y/f();" .javascript dividedCall)).any
      (fun f => f.edit?.isSome && f.location.offset == 6) = true := by
    rw [check_eq_sweep]
    decide +kernel
  obtain ⟨f, hf, hfound⟩ := List.any_eq_true.1 hany
  simp only [Bool.and_eq_true, beq_iff_eq] at hfound
  exact ⟨f, hf, hfound⟩

/-- The promises about the tree hold where the law fails. -/
theorem slash_before_mark_dividedCall :
    ∃ f ∈ check {} .error ⟨⟨"test.js"⟩⟩ (.ofTree "x = y/f();" .javascript dividedCall),
      f.edit?.isSome ∧
        (SlashEndsComment "x = y/f();".toList dividedCall f.location.offset ↔
          ¬ SlashEndsToken "x = y/f();".toList dividedCall f.location.offset) := by
  obtain ⟨f, hf, hedit, -⟩ := exists_edit_dividedCall
  have hslashes : SlashesInLeaves "x = y/f();".toList dividedCall := by
    unfold SlashesInLeaves
    decide +kernel
  exact ⟨f, hf, hedit, (slash_before_mark {} .error ⟨⟨"test.js"⟩⟩
    (.ofTree "x = y/f();" .javascript dividedCall) rfl laidOut_dividedCall hslashes f hf hedit).1⟩

/-- A division by a call parses, the call gets a mark, the slash before it ends no comment, and the
mark makes a line comment that takes in the rest of the line. -/
theorem dividedCall_fuses :
    SourceModule.parse (fun _ _ => dividedCall) .javascript "x = y/f();" =
        .ok (.ofTree "x = y/f();" .javascript dividedCall) ∧
      (∃ f ∈ check {} .error ⟨⟨"test.js"⟩⟩ (.ofTree "x = y/f();" .javascript dividedCall),
        f.edit?.isSome ∧
          ¬ SlashEndsComment "x = y/f();".toList dividedCall f.location.offset) ∧
      Finding.applyRemedies? "x = y/f();"
          (check {} .error ⟨⟨"test.js"⟩⟩ (.ofTree "x = y/f();" .javascript dividedCall)) =
        some "x = y//* #__PURE__ */ f();" := by
  refine ⟨rfl, ?_, ?_⟩
  · obtain ⟨f, hf, hedit, hoffset⟩ := exists_edit_dividedCall
    refine ⟨f, hf, hedit, fun hlaw => ?_⟩
    rw [hoffset] at hlaw
    obtain ⟨leaf, hleaf, hcomment, -⟩ := hlaw (by decide +kernel)
    have hnone : ∀ l ∈ dividedCall.leaves, l.isComment = false := by decide +kernel
    rw [hnone leaf hleaf] at hcomment
    cases hcomment
  · have hoffsets : markOffsets (check {} .error ⟨⟨"test.js"⟩⟩
        (.ofTree "x = y/f();" .javascript dividedCall)) = [6] := by
      rw [check_eq_sweep]
      decide +kernel
    rw [applyRemedies?_check laidOut_dividedCall, hoffsets]
    decide +kernel

end ModulePurity.Purity
