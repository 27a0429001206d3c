import ModulePurity.Project
import ModulePurity.Proofs.PureMarks

/-!
# Severity by settings and severity by rule

The purity rule gets its severity in two ways. The rule itself can carry it, and then it also decides
whether a waiver has to give a reason. Or the settings impose it, and then the rule works with its own
severity, which is an error, and every finding is relabelled afterwards.

The two ways agree on every effect that no waiver covers and on every effect whose waiver gives a
reason. They never agree on an effect whose waiver gives none: relabelling keeps the finding about the
missing reason for a severity that requires no reason, and turns the warning into an error otherwise.
So the reports are the same exactly if there is no such effect (`lintSource_eq_iff`).
-/

namespace ModulePurity.Purity

/-- A visit that meets an effect which is neither exempt nor shielded, on a line whose waiver gives no
reason. -/
def lacksReason (o : Options) (m : SourceModule) (v : Visit) : Bool :=
  match Effect.ofNode? v.node with
  | none => false
  | some effect =>
    !(isExempt o m v.node effect || isShielded o v) &&
      m.waivers.check (m.position v.node).line ruleName == .allowed none

/-- A finding with another severity. -/
def relabelled (s : Severity) (f : Finding) : Finding := { f with severity := s }

/-- Two projects that give the purity rule the same options and the same severity: the settings of `p`
impose it, while the rule of `q` carries it and the settings of `q` do not interfere. -/
structure SameSeverity (p q : Project) (o : Options) (s : Severity) : Prop where
  root : q.root = p.root
  options : p.settings.purityOptions = .ok o
  configured : p.settings.allRules = .ok p.rules
  imposed : p.settings.severity? ruleName = some s
  carried : q.rules = [rule o s]
  notImposed : q.settings.severity? ruleName = none
  enabled : q.settings.isEnabled ruleName = p.settings.isEnabled ruleName

variable {o : Options} {s : Severity} {ctx : FileContext} {m : SourceModule}

/-! ## One visit -/

/-- A relabelled finding is the one that the rule itself would have made, but for a missing reason. -/
theorem imposed_findingAt? {v : Visit} (h : lacksReason o m v = false) :
    (findingAt? o .error ctx m v).map (relabelled s) = findingAt? o s ctx m v := by
  unfold lacksReason at h
  unfold findingAt?
  cases heffect : Effect.ofNode? v.node with
  | none => rfl
  | some effect =>
    rw [heffect] at h
    dsimp only at h ⊢
    cases hstops : isExempt o m v.node effect || isShielded o v with
    | true => rfl
    | false =>
      rw [hstops] at h
      have hline : (ctx.locate m v.node).line = (m.position v.node).line := rfl
      rw [if_neg Bool.false_ne_true, if_neg Bool.false_ne_true, hline]
      cases hcheck : m.waivers.check (m.position v.node).line ruleName with
      | denied => rfl
      | allowed reason =>
        cases reason with
        | some reason => rfl
        | none =>
          rw [hcheck] at h
          cases h

/-- Where a reason is missing, the rule speaks of it if it reports errors, and is silent otherwise. -/
theorem findingAt?_of_lacksReason {v : Visit} (h : lacksReason o m v = true) :
    findingAt? o s ctx m v =
      if s = .error then some (missingReasonFinding (ctx.locate m v.node)) else none := by
  unfold lacksReason at h
  unfold findingAt?
  cases heffect : Effect.ofNode? v.node with
  | none =>
    rw [heffect] at h
    cases h
  | some effect =>
    rw [heffect] at h
    simp only [Bool.and_eq_true, Bool.not_eq_true', beq_iff_eq] at h
    obtain ⟨hstops, hcheck⟩ := h
    have hline : (ctx.locate m v.node).line = (m.position v.node).line := rfl
    dsimp only
    rw [hstops, if_neg Bool.false_ne_true, hline, hcheck]
    rfl

/-- A finding about a missing reason is a warning of a rule that reports errors. -/
theorem severity_of_missingReason {v : Visit} {f : Finding} {l : Location}
    (h : findingAt? o s ctx m v = some f) (hmessage : f.message = (missingReasonFinding l).message) :
    s = .error ∧ f.severity = .warning := by
  rw [findingAt?_eq] at h
  split at h
  · cases h
  · obtain ⟨effect, -, -, ⟨-, rfl⟩ | ⟨-, hs, rfl⟩⟩ := findingHere?_cases h
    · have hdiffer : "Toplevel side effect." ≠
          "Allow directive for 'pure-module' is missing required reason" := by decide
      exact absurd hmessage hdiffer
    · exact ⟨hs, rfl⟩

/-! ## A whole module -/

/-- Relabelling the findings of the rule amounts to giving it the severity exactly if no reason is
missing. -/
theorem withSeverity_check_eq_iff :
    Project.withSeverity (some s) (check o .error ctx m) = check o s ctx m ↔
      ∀ v ∈ m.walk, lacksReason o m v = false := by
  have himposed : Project.withSeverity (some s) (check o .error ctx m) =
      m.walk.filterMap fun v => (findingAt? o .error ctx m v).map (relabelled s) := by
    show (check o .error ctx m).map (relabelled s) = _
    rw [check, List.map_filterMap]
  rw [himposed]
  constructor
  · intro heq v hv
    by_contra hlacks
    rw [Bool.not_eq_false] at hlacks
    -- The relabelled finding about this visit would have to be one of the rule itself.
    have hmem : relabelled s (missingReasonFinding (ctx.locate m v.node)) ∈ check o s ctx m := by
      rw [← heq]
      refine List.mem_filterMap.2 ⟨v, hv, ?_⟩
      rw [findingAt?_of_lacksReason hlacks, if_pos rfl, Option.map_some]
    obtain ⟨w, -, hw⟩ := List.mem_filterMap.1 hmem
    obtain ⟨herror, hwarning⟩ := severity_of_missingReason (l := ctx.locate m v.node) hw rfl
    subst herror
    cases hwarning
  · intro hnone
    exact List.filterMap_congr fun v hv => imposed_findingAt? (hnone v hv)

variable {p q : Project}

theorem findingsIn_bySettings (h : SameSeverity p q o s) (path : Path) :
    p.findingsIn path m =
      if p.settings.isEnabled ruleName then
        Project.withSeverity (some s) (check o .error (.ofPath path p.root) m)
      else [] := by
  have hrules : p.rules = [rule o .error] := by
    have hconfigured := h.configured
    rw [Settings.allRules, Settings.purityRule, h.options] at hconfigured
    exact (Except.ok.inj hconfigured).symm
  rw [Project.findingsIn, hrules, List.flatMap_singleton]
  show (if p.settings.isEnabled ruleName then
    Project.withSeverity (p.settings.severity? ruleName) _ else _) = _
  rw [h.imposed]
  rfl

theorem findingsIn_byRule (h : SameSeverity p q o s) (path : Path) :
    q.findingsIn path m =
      if p.settings.isEnabled ruleName then check o s (.ofPath path p.root) m else [] := by
  rw [Project.findingsIn, h.carried, List.flatMap_singleton]
  show (if q.settings.isEnabled ruleName then
    Project.withSeverity (q.settings.severity? ruleName) _ else _) = _
  rw [h.notImposed, h.enabled, h.root]
  rfl

/-- The two ways to set the severity lead to the same findings in a text exactly if it does not parse,
the rule is switched off, or no effect that the rule would report has a waiver without a reason. -/
theorem lintSource_eq_iff (p q : Project) (o : Options) (s : Severity) (h : SameSeverity p q o s)
    (g : Grammar) (path : Path) (source : String) :
    p.lintSource g path source = q.lintSource g path source ↔
      ∀ m, SourceModule.parse g ((Language.ofPath? path).getD .javascript) source = .ok m →
        p.settings.isEnabled ruleName = true → ∀ v ∈ m.walk, lacksReason o m v = false := by
  unfold Project.lintSource
  cases SourceModule.parse g ((Language.ofPath? path).getD .javascript) source with
  | error fault =>
    constructor
    · intro _ m hm
      cases hm
    · intro _
      rfl
  | ok m =>
    have hsame : Except.map (p.findingsIn path) (.ok m : Except SyntaxFault SourceModule) =
        Except.map (q.findingsIn path) (.ok m) ↔ p.findingsIn path m = q.findingsIn path m :=
      ⟨Except.ok.inj, congrArg Except.ok⟩
    rw [hsame, findingsIn_bySettings h, findingsIn_byRule h]
    constructor
    · intro heq k hk henabled
      cases hk
      rw [if_pos henabled, if_pos henabled] at heq
      exact withSeverity_check_eq_iff.1 heq
    · intro hnone
      split
      · next henabled => exact withSeverity_check_eq_iff.2 (hnone m rfl henabled)
      · rfl

/-! ## Where the two ways part -/

/-- A project in which settings impose a severity on the purity rule. -/
def severityBySettings (s : Severity) : Project where
  root := ⟨"/w"⟩
  rules := [rule {} .error]
  exclude := []
  globs := []
  settings := { rules := [("pure-module", { severity := some s })] }
  strict := false
  workingFolder := ⟨"/w"⟩
  home := none

/-- The same project in which the rule carries the severity. -/
def severityByRule (s : Severity) : Project :=
  { severityBySettings s with rules := [rule {} s], settings := {} }

theorem sameSeverity_sample (s : Severity) :
    SameSeverity (severityBySettings s) (severityByRule s) {} s :=
  ⟨rfl, rfl, rfl, rfl, rfl, rfl, rfl⟩

/-- Without a waiver both ways report the two calls as warnings. -/
theorem lintSource_eq_nestedCalls :
    (severityBySettings .warning).lintSource (fun _ _ => nestedCalls.root) ⟨"/w/a.js"⟩ "f()();" =
      (severityByRule .warning).lintSource (fun _ _ => nestedCalls.root) ⟨"/w/a.js"⟩ "f()();" := by
  refine (lintSource_eq_iff _ _ {} .warning (sameSeverity_sample .warning) _ _ _).2 ?_
  intro m hm _
  have hmodule : m = nestedCalls := (Except.ok.inj hm).symm
  rw [hmodule, SourceModule.walk, Node.walk_eq_visits]
  decide +kernel

/-- The tree of `f(); // pure-lint: allow(pure-module)`. -/
def waivedCall : Node :=
  sampleNode "program" 0 37 none
    [sampleNode "expression_statement" 0 4 none
      [sampleNode "call_expression" 0 3 none
        [sampleNode "identifier" 0 1 (some .function) [],
          sampleNode "arguments" 1 3 (some .arguments) [sampleToken "(" 1, sampleToken ")" 2]],
        sampleToken ";" 3],
      sampleNode "comment" 5 37 none []]

theorem check_waivedCall (s : Severity) :
    check {} s ⟨⟨"a.js"⟩⟩
        (.ofTree "f(); // pure-lint: allow(pure-module)" .javascript waivedCall) =
      if s = .error then [missingReasonFinding ⟨⟨"a.js"⟩, 1, 1, 0, 3⟩] else [] := by
  rw [check_eq_sweep]
  cases s <;> decide +kernel

theorem lintSource_waivedCall (s : Severity) :
    let source := "f(); // pure-lint: allow(pure-module)"
    let missing := missingReasonFinding ⟨⟨"a.js"⟩, 1, 1, 0, 3⟩
    (severityBySettings s).lintSource (fun _ _ => waivedCall) ⟨"/w/a.js"⟩ source =
        .ok [relabelled s missing] ∧
      (severityByRule s).lintSource (fun _ _ => waivedCall) ⟨"/w/a.js"⟩ source =
        .ok (if s = .error then [missing] else []) := by
  intro source missing
  have hparse : SourceModule.parse (fun _ _ => waivedCall)
      ((Language.ofPath? ⟨"/w/a.js"⟩).getD .javascript) source =
        .ok (.ofTree source .javascript waivedCall) := rfl
  have hcontext : FileContext.ofPath ⟨"/w/a.js"⟩ (severityBySettings s).root = ⟨⟨"a.js"⟩⟩ := by
    show FileContext.ofPath ⟨"/w/a.js"⟩ ⟨"/w"⟩ = _
    decide +kernel
  have henabled : (severityBySettings s).settings.isEnabled ruleName = true := rfl
  unfold Project.lintSource
  rw [hparse]
  constructor
  · show Except.ok (Project.findingsIn _ _ _) = _
    rw [findingsIn_bySettings (sameSeverity_sample s), if_pos henabled, hcontext, check_waivedCall]
    rfl
  · show Except.ok (Project.findingsIn _ _ _) = _
    rw [findingsIn_byRule (sameSeverity_sample s), if_pos henabled, hcontext, check_waivedCall]

/-- A waiver without a reason: imposed by settings, the severity of a warning leaves a finding that a
rule with that severity does not make, and the severity of an error raises the warning of the rule. -/
theorem waivedCall_parts :
    SameSeverity (severityBySettings .warning) (severityByRule .warning) {} .warning ∧
    (severityBySettings .warning).lintSource (fun _ _ => waivedCall) ⟨"/w/a.js"⟩
        "f(); // pure-lint: allow(pure-module)" ≠
      (severityByRule .warning).lintSource (fun _ _ => waivedCall) ⟨"/w/a.js"⟩
        "f(); // pure-lint: allow(pure-module)" ∧
    SameSeverity (severityBySettings .error) (severityByRule .error) {} .error ∧
    (severityBySettings .error).lintSource (fun _ _ => waivedCall) ⟨"/w/a.js"⟩
        "f(); // pure-lint: allow(pure-module)" ≠
      (severityByRule .error).lintSource (fun _ _ => waivedCall) ⟨"/w/a.js"⟩
        "f(); // pure-lint: allow(pure-module)" := by
  refine ⟨sameSeverity_sample .warning, ?_, sameSeverity_sample .error, ?_⟩
  · rw [(lintSource_waivedCall .warning).1, (lintSource_waivedCall .warning).2]
    decide
  · rw [(lintSource_waivedCall .error).1, (lintSource_waivedCall .error).2]
    decide

end ModulePurity.Purity
