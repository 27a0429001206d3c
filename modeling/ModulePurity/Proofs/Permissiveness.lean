import Mathlib.Data.List.Forall2
import ModulePurity.Proofs.PureMarks

/-!
# More permissive options

Options permit more than others if every kind of effect that the others accept is accepted, static
blocks shield if they did, and each well-formed call path is still listed, as it was or with stars in
the place of some segments. The rule then reports fewer findings and leaves the remaining ones as they
are (`check_sublist`). The steps are

* a call path with stars accepts every target that it accepted before (`rawMatches_of_widens`);
* an exempt effect stays exempt, a shielded node stays shielded;
* what is reported at a visit does not depend on the options otherwise (`findingAt?_of_permits`).
-/

namespace ModulePurity.Purity

/-! ## Definitions -/

/-- A text that reads like a call path with stars in the place of some segments. The `import` in front
of a call path that starts with `import.` stays. -/
structure Widens (wide raw : String) : Prop where
  segments :
    List.Forall₂ (fun field wider => wider = field ∨ wider = ['*'])
      (Text.fields '.' raw.toList) (Text.fields '.' wide.toList)
  keepsImport :
    "import.".toList <+: raw.toList →
      (Text.fields '.' wide.toList).head? = some "import".toList

/-- A call path that stays as it is counts as widened. -/
theorem Widens.refl (raw : String) : Widens raw raw := by
  refine ⟨List.forall₂_same.2 fun field _ => Or.inl rfl, ?_⟩
  rintro ⟨rest, hrest⟩
  rw [← hrest]
  simp [Text.fields]

/-- Options that accept at least what other options accept. -/
structure Options.Permits (wide o : Options) : Prop where
  call : o.allowCall = true → wide.allowCall = true
  taggedTemplate : o.taggedTemplateAllowed = true → wide.taggedTemplateAllowed = true
  construction : o.allowNew = true → wide.allowNew = true
  assign : o.allowAssign = true → wide.allowAssign = true
  delete : o.allowDelete = true → wide.allowDelete = true
  throw : o.allowThrow = true → wide.allowThrow = true
  await : o.allowAwait = true → wide.allowAwait = true
  staticBlock : o.allowInStaticBlock = true → wide.allowInStaticBlock = true
  pureFunctions :
    ∀ raw ∈ o.pureFunctions, CallPath.isValid raw = true →
      ∃ wider ∈ wide.pureFunctions, Widens wider raw

/-- A segment that is another one, or a star in the place of one that accepts no empty name. -/
def Segment.Covers (wide s : Segment) : Prop :=
  wide = s ∨ wide = .any ∧ s ≠ .word []

/-! ## Segments -/

/-- A covering segment accepts whatever name the covered one accepts. -/
theorem Segment.Covers.accepts {wide s : Segment} (h : wide.Covers s) {name : List Char}
    (hname : s.accepts name = true) : wide.accepts name = true := by
  rcases h with rfl | ⟨rfl, hs⟩
  · exact hname
  · cases s with
    | any => exact hname
    | word w =>
      -- The only name that a word accepts is the word itself, and it is not empty.
      have hw : w = name := by simpa [Segment.accepts] using hname
      subst hw
      cases w with
      | nil => exact absurd rfl hs
      | cons c cs => rfl

/-- A covering anchor matches whatever node the covered one matches. -/
theorem Segment.Covers.anchorMatches {wide s : Segment} (h : wide.Covers s) {source : List Char}
    {n : Node} (hn : anchorMatches s source n = true) : anchorMatches wide source n = true := by
  rcases h with rfl | ⟨rfl, -⟩
  · exact hn
  · rfl

/-- A widened segment is well-formed and covers the one that it was made from. -/
theorem Segment.exists_covers_of_parse? {field wider : List Char} {s : Segment}
    (hparse : Segment.parse? field = some s) (h : wider = field ∨ wider = ['*']) :
    ∃ w, Segment.parse? wider = some w ∧ w.Covers s := by
  rcases h with rfl | rfl
  · exact ⟨s, hparse, Or.inl rfl⟩
  · refine ⟨.any, rfl, Or.inr ⟨rfl, ?_⟩⟩
    rintro rfl
    unfold Segment.parse? at hparse
    split at hparse
    · cases hparse
    · split at hparse
      · cases hparse
      · next hempty =>
        split at hparse
        · cases hparse
          exact hempty rfl
        · cases hparse

/-- Fields with some asterisks put in are still read, as covering segments. -/
theorem exists_covers_of_parseSegments? {fields wider : List (List Char)}
    (h : List.Forall₂ (fun field wider => wider = field ∨ wider = ['*']) fields wider)
    {segments : List Segment} (hparse : parseSegments? fields = some segments) :
    ∃ widened, parseSegments? wider = some widened ∧
      List.Forall₂ (fun s w => w.Covers s) segments widened := by
  induction h generalizing segments with
  | nil =>
    cases hparse
    exact ⟨[], rfl, List.Forall₂.nil⟩
  | @cons field w fields wider hfirst _ ih =>
    unfold parseSegments? at hparse
    obtain ⟨s, hs, hparse⟩ := Option.bind_eq_some_iff.1 hparse
    obtain ⟨rest, hrest, rfl⟩ := Option.map_eq_some_iff.1 hparse
    obtain ⟨t, ht, hcovers⟩ := Segment.exists_covers_of_parse? hs hfirst
    obtain ⟨widened, hwidened, hall⟩ := ih hrest
    refine ⟨t :: widened, ?_, List.Forall₂.cons hcovers hall⟩
    rw [parseSegments?, ht, Option.bind_some, hwidened, Option.map_some]

/-! ## Call paths -/

/-- A covering segment goes inwards wherever the covered one does, and to the same node. -/
theorem enter?_of_covers {wide s : Segment} (h : wide.Covers s) {source : List Char}
    {inner : Node → Option Node} {n k : Node} (hk : enter? source s inner n = some k) :
    enter? source wide inner n = some k := by
  unfold enter? at hk ⊢
  obtain ⟨name, hname, hk⟩ := Option.bind_eq_some_iff.1 hk
  rw [hname, Option.bind_some]
  split at hk
  · next haccepts =>
    rw [if_pos (h.accepts haccepts)]
    exact hk
  · cases hk

/-- Covering segments match wherever the covered ones do. -/
theorem matchInwards_of_covers {throughMeta : Bool} {anchor wideAnchor : Segment}
    (hanchor : wideAnchor.Covers anchor) {source : List Char} {segments widened : List Segment}
    (h : List.Forall₂ (fun s w => w.Covers s) segments widened) {n : Node}
    (hmatch : matchInwards throughMeta anchor source segments n = true) :
    matchInwards throughMeta wideAnchor source widened n = true := by
  induction h generalizing n with
  | nil => exact hanchor.anchorMatches hmatch
  | @cons s w segments widened hfirst hrest ih =>
    -- The innermost property goes through the meta-property if the call path says so.
    cases hrest with
    | nil =>
      unfold matchInwards at hmatch ⊢
      split at hmatch
      · cases hmatch
      · next inner hinner =>
        rw [enter?_of_covers hfirst hinner]
        exact hanchor.anchorMatches hmatch
    | cons hsecond hrest =>
      unfold matchInwards at hmatch ⊢
      split at hmatch
      · cases hmatch
      · next inner hinner =>
        rw [enter?_of_covers hfirst hinner]
        exact ih hmatch

theorem Segment.chars_of_parse? {cs : List Char} {s : Segment} (h : Segment.parse? cs = some s) :
    s.chars = cs := by
  unfold Segment.parse? at h
  split at h
  · next hstar =>
    cases h
    exact (beq_iff_eq.1 hstar).symm
  · split at h
    · cases h
    · split at h
      · cases h
        rfl
      · cases h

/-- A call path may pass through a meta-property if it begins with `import` and goes on. -/
theorem CallPath.throughMeta_iff {p : CallPath} :
    p.throughMeta = true ↔ p.anchor = .word "import".toList ∧ p.properties ≠ [] := by
  simp [CallPath.throughMeta]

/-- A well-formed call path as its fields. -/
theorem CallPath.exists_fields {raw : String} {p : CallPath} (h : CallPath.parse? raw = some p) :
    parseSegments? (Text.fields '.' raw.toList) = some (p.anchor :: p.properties) := by
  unfold CallPath.parse? at h
  split at h
  · next hsegments =>
    cases h
    exact hsegments
  · cases h

/-- A call path whose first property is the keyword of a meta-property starts with `import.`. -/
theorem starts_with_import {raw : String} {p : CallPath}
    (hparse : CallPath.parse? raw = some p) (hmeta : p.throughMeta = true) :
    "import.".toList <+: raw.toList := by
  obtain ⟨hanchor, hproperties⟩ := CallPath.throughMeta_iff.1 hmeta
  have hsegments := CallPath.exists_fields hparse
  rw [← Text.joinFields_fields '.' raw.toList]
  cases hfields : Text.fields '.' raw.toList with
  | nil => exact absurd hfields (Text.fields_ne_nil _ _)
  | cons first rest =>
    rw [hfields, parseSegments?] at hsegments
    obtain ⟨s, hs, hsegments⟩ := Option.bind_eq_some_iff.1 hsegments
    obtain ⟨others, hothers, heq⟩ := Option.map_eq_some_iff.1 hsegments
    obtain ⟨rfl, rfl⟩ := List.cons.inj heq
    have hfirst : first = "import".toList := by
      rw [← Segment.chars_of_parse? hs, hanchor]
      rfl
    cases rest with
    | nil =>
      exact absurd (Option.some.inj hothers).symm hproperties
    | cons second rest =>
      subst hfirst
      exact ⟨Text.joinFields '.' (second :: rest), rfl⟩

/-- Widening neither makes nor breaks the way through a meta-property. -/
theorem throughMeta_of_widens {wide raw : String} (h : Widens wide raw) {p q : CallPath}
    (hp : CallPath.parse? raw = some p) (hq : CallPath.parse? wide = some q)
    (hanchor : q.anchor.Covers p.anchor) (hlength : p.properties.length = q.properties.length) :
    q.throughMeta = p.throughMeta := by
  have hproperties : q.properties ≠ [] ↔ p.properties ≠ [] := by
    rw [← List.length_pos_iff, ← List.length_pos_iff, hlength]
  rw [Bool.eq_iff_iff, CallPath.throughMeta_iff, CallPath.throughMeta_iff, hproperties]
  constructor
  · -- A star is not the word `import`, so the anchor is the one that was there.
    rintro ⟨himport, hne⟩
    rcases hanchor with heq | ⟨hany, -⟩
    · exact ⟨heq ▸ himport, hne⟩
    · rw [hany] at himport
      cases himport
  · rintro ⟨himport, hne⟩
    have hhead := h.keepsImport
      (starts_with_import hp (CallPath.throughMeta_iff.2 ⟨himport, hne⟩))
    have hsegments := CallPath.exists_fields hq
    obtain ⟨rest, hfields⟩ := List.head?_eq_some_iff.1 hhead
    rw [hfields, parseSegments?] at hsegments
    obtain ⟨s, hs, hsegments⟩ := Option.bind_eq_some_iff.1 hsegments
    obtain ⟨others, -, heq⟩ := Option.map_eq_some_iff.1 hsegments
    obtain ⟨rfl, -⟩ := List.cons.inj heq
    have hword : Segment.parse? "import".toList = some (.word "import".toList) := by decide
    exact ⟨Option.some.inj (hs.symm.trans hword), hne⟩

/-- What a call path accepts, it accepts with stars in the place of segments too. -/
theorem rawMatches_of_widens {wide raw : String} (h : Widens wide raw) {source : List Char}
    {target : Node} (hmatch : rawMatches raw source target = true) :
    rawMatches wide source target = true := by
  unfold rawMatches at hmatch
  split at hmatch
  · cases hmatch
  · next p hp =>
    obtain ⟨widened, hwidened, hcovers⟩ :=
      exists_covers_of_parseSegments? h.segments (CallPath.exists_fields hp)
    cases hcovers with
    | @cons _ anchor _ properties hanchor hrest =>
      have hq : CallPath.parse? wide = some ⟨anchor, properties⟩ := by
        rw [CallPath.parse?, hwidened]
      have hmeta := throughMeta_of_widens h hp hq hanchor hrest.length_eq
      rw [rawMatches, hq]
      show CallPath.matches ⟨anchor, properties⟩ source target = true
      unfold CallPath.matches at hmatch ⊢
      rw [hmeta]
      exact matchInwards_of_covers hanchor (List.rel_reverse hrest) hmatch

/-! ## Effects and shields -/

section

variable {o wide : Options} (h : Options.Permits wide o)

include h

/-- A function that is pure by some options is pure by all that permit more. -/
theorem isPureFunction_of_permits {m : SourceModule} {target : Node}
    (hpure : isPureFunction o m target = true) : isPureFunction wide m target = true := by
  obtain ⟨raw, hraw, hmatch⟩ := List.any_eq_true.1 hpure
  have hvalid : CallPath.isValid raw = true := by
    unfold rawMatches at hmatch
    split at hmatch
    · cases hmatch
    · next p hp => rw [CallPath.isValid, hp, Option.isSome_some]
  obtain ⟨wider, hwider, hwidens⟩ := h.pureFunctions raw hraw hvalid
  exact List.any_eq_true.2 ⟨wider, hwider, rawMatches_of_widens hwidens hmatch⟩

theorem isExempt_of_permits {m : SourceModule} {n : Node} {effect : Effect}
    (hexempt : isExempt o m n effect = true) : isExempt wide m n effect = true := by
  cases effect with
  | await => exact h.await hexempt
  | update => exact h.assign hexempt
  | assignment => exact h.assign hexempt
  | delete => exact h.delete hexempt
  | unary => rfl
  | throw => exact h.throw hexempt
  | construction =>
    simp only [isExempt, Bool.or_eq_true] at hexempt ⊢
    exact hexempt.imp_left h.construction
  | taggedTemplate tag =>
    simp only [isExempt, Bool.or_eq_true] at hexempt ⊢
    rcases hexempt with (htag | hmark) | hpure
    · exact Or.inl (Or.inl (h.taggedTemplate htag))
    · exact Or.inl (Or.inr hmark)
    · exact Or.inr (isPureFunction_of_permits h hpure)
  | call target =>
    simp only [isExempt, Bool.or_eq_true] at hexempt ⊢
    rcases hexempt with ((hcall | hmark) | hsuper) | hpure
    · exact Or.inl (Or.inl (Or.inl (h.call hcall)))
    · exact Or.inl (Or.inl (Or.inr hmark))
    · exact Or.inl (Or.inr hsuper)
    · exact Or.inr (isPureFunction_of_permits h hpure)

theorem shields_of_permits {parent : Option Node} {n child : Node}
    (hshields : shields o parent n child = true) : shields wide parent n child = true := by
  simp only [shields, Bool.or_eq_true, Bool.and_eq_true] at hshields ⊢
  exact hshields.imp_right fun ⟨hblock, hallowed⟩ => ⟨hblock, h.staticBlock hallowed⟩

theorem shieldedBelow_of_permits {parent : Option Node} {ancestors : List Node} {n : Node}
    (hshielded : shieldedBelow o parent ancestors n = true) :
    shieldedBelow wide parent ancestors n = true := by
  fun_induction shieldedBelow o parent ancestors n with
  | case1 => cases hshielded
  | case2 parent a n => exact shields_of_permits h hshielded
  | case3 parent a b rest n ih =>
    rw [shieldedBelow, Bool.or_eq_true]
    rw [Bool.or_eq_true] at hshielded
    exact hshielded.imp (shields_of_permits h) ih

/-- At one visit, more permissive options report nothing or what the others report. -/
theorem findingAt?_of_permits (severity : Severity) (ctx : FileContext) (m : SourceModule)
    (v : Visit) :
    findingAt? wide severity ctx m v = none ∨
      findingAt? wide severity ctx m v = findingAt? o severity ctx m v := by
  unfold findingAt?
  cases Effect.ofNode? v.node with
  | none => exact Or.inl rfl
  | some effect =>
    by_cases hstops : (isExempt o m v.node effect || isShielded o v) = true
    · have hwide : (isExempt wide m v.node effect || isShielded wide v) = true := by
        rw [Bool.or_eq_true] at hstops ⊢
        exact hstops.imp (isExempt_of_permits h) (shieldedBelow_of_permits h)
      exact Or.inl (if_pos hwide)
    · by_cases hwide : (isExempt wide m v.node effect || isShielded wide v) = true
      · exact Or.inl (if_pos hwide)
      · right
        dsimp only
        rw [if_neg hstops, if_neg hwide]

end

/-! ## Permissiveness is monotone -/

/-- More permissive options report a subsequence of the findings, each of them unchanged. -/
theorem check_sublist (o wide : Options) (h : Options.Permits wide o) (severity : Severity)
    (ctx : FileContext) (m : SourceModule) :
    (check wide severity ctx m).Sublist (check o severity ctx m) := by
  -- The visits at which the permissive options report anything, read under the other options.
  have hkept : check wide severity ctx m =
      (m.walk.filter fun v => (findingAt? wide severity ctx m v).isSome).filterMap
        (findingAt? o severity ctx m) := by
    rw [check, List.filterMap_filter]
    refine List.filterMap_congr fun v _ => ?_
    rcases findingAt?_of_permits h severity ctx m v with hnone | hsame
    · rw [hnone]
      rfl
    · rw [hsame]
      cases findingAt? o severity ctx m v <;> rfl
  rw [hkept]
  exact List.filter_sublist.filterMap _

/-- The module `x = f(a.g());`. -/
def assignedMemberCall : SourceModule :=
  SourceModule.ofTree "x = f(a.g());" .javascript <|
    sampleNode "program" 0 13 none
      [sampleNode "expression_statement" 0 13 none
        [sampleNode "assignment_expression" 0 12 none
          [sampleNode "identifier" 0 1 none [], sampleToken "=" 2,
            sampleNode "call_expression" 4 12 none
              [sampleNode "identifier" 4 5 (some .function) [],
                sampleNode "arguments" 5 12 (some .arguments)
                  [sampleToken "(" 5,
                    sampleNode "call_expression" 6 11 none
                      [sampleNode "member_expression" 6 9 (some .function)
                        [sampleNode "identifier" 6 7 (some .object) [], sampleToken "." 7,
                          sampleNode "property_identifier" 8 9 (some .property) []],
                        sampleNode "arguments" 9 11 (some .arguments)
                          [sampleToken "(" 9, sampleToken ")" 10]],
                    sampleToken ")" 11]]],
          sampleToken ";" 12]]

/-- With assignments accepted and a star for `a`, the outer call is the only finding that is left. -/
theorem check_sublist_assignedMemberCall :
    let strict := check { pureFunctions := ["a.g", "a..g", "import.meta.h"] } .error
      ⟨⟨"test.js"⟩⟩ assignedMemberCall
    let loose := check { pureFunctions := ["import.meta.h", "*.g"], allowAssign := true } .error
      ⟨⟨"test.js"⟩⟩ assignedMemberCall
    (strict.map fun f => f.location.offset) = [0, 4] ∧
      (loose.map fun f => f.location.offset) = [4] ∧ loose.Sublist strict := by
  intro strict loose
  have hpermits : Options.Permits { pureFunctions := ["import.meta.h", "*.g"], allowAssign := true }
      { pureFunctions := ["a.g", "a..g", "import.meta.h"] } := by
    refine ⟨id, id, id, fun _ => rfl, id, id, id, id, ?_⟩
    intro raw hraw hvalid
    simp only [List.mem_cons, List.not_mem_nil, or_false] at hraw
    rcases hraw with rfl | rfl | rfl
    · exact ⟨"*.g", by simp, by decide +kernel, by decide +kernel⟩
    · exact absurd hvalid (by decide +kernel)
    · exact ⟨"import.meta.h", by simp, Widens.refl _⟩
  refine ⟨?_, ?_, check_sublist _ _ hpermits .error ⟨⟨"test.js"⟩⟩ assignedMemberCall⟩
  · show (check _ _ _ _).map _ = _
    rw [check_eq_sweep]
    decide +kernel
  · show (check _ _ _ _).map _ = _
    rw [check_eq_sweep]
    decide +kernel

end ModulePurity.Purity
