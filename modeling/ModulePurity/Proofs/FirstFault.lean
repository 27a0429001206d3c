import ModulePurity.Proofs.WaivedLines

/-!
# The first fault of a tree

A strict reading asks the flag of the root whether there is a fault at all and then walks the whole
tree for the node to blame. The two answers agree as soon as the flag of the root is right about its
subtree (`Node.FlagsFaults`), whatever the flags below say. The reading then refuses exactly the
trees with a faulty or missing node, at the place of the one that comes first in pre-order, and
otherwise gives the module that the lenient reading gives: `SourceModule.parse_iff_faultless`.
-/

namespace ModulePurity

namespace Text

/-! ## Columns -/

/-- Behind a part of a text the place is the one that the characters of the part lead to. -/
theorem positionFrom_append (p : Position) (a b : List Char) (n : Nat) :
    positionFrom p (a ++ b) (byteLength a + n) = positionFrom (a.foldl Position.advance p) b n := by
  induction a generalizing p with
  | nil => rw [byteLength, Nat.zero_add, List.nil_append, List.foldl_nil]
  | cons c a ih =>
    have hrest : byteLength (c :: a) + n - c.utf8Size = byteLength a + n := by
      rw [byteLength]
      omega
    rw [List.cons_append, positionFrom, if_neg (by rw [byteLength]; omega), hrest, ih,
      List.foldl_cons]

theorem positionFrom_zero (p : Position) (cs : List Char) : positionFrom p cs 0 = p := by
  cases cs with
  | nil => rfl
  | cons c cs => rw [positionFrom, if_pos c.utf8Size_pos, Nat.add_zero]

theorem position_append (a b : List Char) :
    position (a ++ b) (byteLength a) = a.foldl Position.advance Position.first := by
  have h := positionFrom_append Position.first a b 0
  rwa [Nat.add_zero, positionFrom_zero] at h

/-- A column counts the bytes since the last line end, from one. -/
theorem column_append (a b : List Char) :
    (position (a ++ b) (byteLength a)).column =
      1 + byteLength (a.reverse.takeWhile (· != '\n')) := by
  rw [position_append]
  -- Only the last characters matter, so the induction takes them off the end.
  induction a using List.reverseRecOn with
  | nil => rfl
  | append_singleton a c ih =>
    rw [List.foldl_append, List.foldl_cons, List.foldl_nil, List.reverse_append,
      List.reverse_singleton, List.singleton_append, Position.advance]
    by_cases hc : c = '\n'
    · rw [if_pos hc, List.takeWhile_cons_of_neg (by simp [hc])]
      rfl
    · rw [if_neg hc, List.takeWhile_cons_of_pos (by simp [hc]), byteLength]
      show (a.foldl Position.advance Position.first).column + c.utf8Size = _
      omega

end Text

namespace Node

/-! ## Faults and the flags that announce them -/

/-- A node that error recovery made: it covers text that has no place in the grammar, or stands for
a token that is missing. -/
def IsFault (n : Node) : Prop := n.label.faulty = true ∨ n.label.missing = true

instance (n : Node) : Decidable n.IsFault := inferInstanceAs (Decidable (_ ∨ _))

/-- The flag of a node is right: it is set exactly if the subtree contains a fault. -/
def FlagsFaults (n : Node) : Prop :=
  n.label.containsFault = true ↔ ∃ k ∈ n.nodes, k.IsFault

/-- A node is the fault that comes first in pre-order. -/
def IsFirstFault (root n : Node) : Prop :=
  ∃ before after, root.nodes = before ++ n :: after ∧ n.IsFault ∧ ∀ k ∈ before, ¬ k.IsFault

/-- A search along the walk is a search among the nodes in pre-order. -/
theorem map_node_find?_walk (test : Node → Bool) (root : Node) :
    (root.walk.find? fun v => test v.node).map Visit.node = root.nodes.find? test := by
  rw [← map_node_walk, List.find?_map]
  rfl

theorem exists_isFirstFault {root : Node} (h : ∃ k ∈ root.nodes, k.IsFault) :
    ∃ n, root.IsFirstFault n := by
  obtain ⟨k, hk, hfault⟩ := h
  have hsome : (root.nodes.find? fun n => decide n.IsFault).isSome = true :=
    List.find?_isSome.2 ⟨k, hk, decide_eq_true hfault⟩
  obtain ⟨n, hn⟩ := Option.isSome_iff_exists.1 hsome
  obtain ⟨hfirst, before, after, hnodes, hbefore⟩ := List.find?_eq_some_iff_append.1 hn
  refine ⟨n, before, after, hnodes, of_decide_eq_true hfirst, ?_⟩
  intro b hb
  simpa using hbefore b hb

end Node

namespace SourceModule

/-! ## The strict reading -/

variable {m : SourceModule}

theorem firstFault?_eq_none (hflags : m.root.FlagsFaults)
    (hnone : ∀ n ∈ m.root.nodes, ¬ n.IsFault) : m.firstFault? = none := by
  have hroot : ¬ m.root.label.containsFault = true := by
    intro hset
    obtain ⟨k, hk, hfault⟩ := hflags.1 hset
    exact hnone k hk hfault
  rw [firstFault?, if_neg hroot]

/-- If there is a fault, the root announces it and the walk finds the first one. -/
theorem firstFault?_eq_some (hflags : m.root.FlagsFaults) {n : Node}
    (hfirst : m.root.IsFirstFault n) : m.firstFault? = some n := by
  obtain ⟨before, after, hnodes, hfault, hbefore⟩ := hfirst
  have hroot : m.root.label.containsFault = true :=
    hflags.2 ⟨n, hnodes ▸ List.mem_append_right before List.mem_cons_self, hfault⟩
  have hfound :
      m.root.nodes.find? (fun k => k.label.faulty || k.label.missing) = some n := by
    rw [List.find?_eq_some_iff_append]
    refine ⟨Bool.or_eq_true_iff.2 hfault, before, after, hnodes, ?_⟩
    intro k hk
    have hk : ¬ k.IsFault := hbefore k hk
    rw [Node.IsFault, ← Bool.or_eq_true_iff] at hk
    simpa using hk
  rw [← Node.map_node_find?_walk] at hfound
  obtain ⟨v, hv, hnode⟩ := Option.map_eq_some_iff.1 hfound
  rw [firstFault?, if_pos hroot, walk, hv]
  exact congrArg some hnode

section

variable {grammar : Grammar} {language : Language} {source : String}

theorem parse_of_faultless (hflags : (grammar language source).FlagsFaults)
    (hnone : ∀ n ∈ (grammar language source).nodes, ¬ n.IsFault) :
    parse grammar language source = .ok (parseLenient grammar language source) := by
  have hfault : (parseLenient grammar language source).firstFault? = none :=
    firstFault?_eq_none hflags hnone
  rw [parse, refuseFault, hfault]

theorem parse_of_isFirstFault (hflags : (grammar language source).FlagsFaults) {n : Node}
    (hfirst : (grammar language source).IsFirstFault n) :
    parse grammar language source = .error ⟨Text.position source.toList n.start⟩ := by
  have hfault : (parseLenient grammar language source).firstFault? = some n :=
    firstFault?_eq_some hflags hfirst
  rw [parse, refuseFault, hfault]
  rfl

end

/-- A strict reading succeeds exactly if the tree has no faulty and no missing node, and then it
gives the module of the lenient reading. Otherwise it tells the place of the first such node in
pre-order: the number of line ends before it and the number of bytes since the last of them, both
from one. -/
theorem parse_iff_faultless (grammar : Grammar) (language : Language) (source : String)
    (hflags : (grammar language source).FlagsFaults) :
    let root := grammar language source
    let result := parse grammar language source
    ((∃ m, result = .ok m) ↔ ∀ n ∈ root.nodes, ¬ n.IsFault) ∧
      (∀ m, result = .ok m → m = parseLenient grammar language source) ∧
      ((∀ m, result ≠ .ok m) → ∃ n, root.IsFirstFault n) ∧
      ∀ n, root.IsFirstFault n →
        result = .error ⟨Text.position source.toList n.start⟩ ∧
        ∀ front back, source.toList = front ++ back → Text.byteLength front = n.start →
          Text.position source.toList n.start =
            ⟨1 + front.count '\n', 1 + Text.byteLength (front.reverse.takeWhile (· != '\n'))⟩ := by
  intro root result
  have hsuccess : (∀ n ∈ root.nodes, ¬ n.IsFault) →
      result = .ok (parseLenient grammar language source) := parse_of_faultless hflags
  have hfailure : ∀ n, root.IsFirstFault n →
      result = .error ⟨Text.position source.toList n.start⟩ := fun _ => parse_of_isFirstFault hflags
  have hfaultless : ∀ m, result = .ok m → ∀ n ∈ root.nodes, ¬ n.IsFault := by
    intro m hm n hn hfault
    obtain ⟨first, hfirst⟩ := Node.exists_isFirstFault ⟨n, hn, hfault⟩
    rw [hfailure first hfirst] at hm
    cases hm
  refine ⟨⟨fun ⟨m, hm⟩ => hfaultless m hm, fun hnone => ⟨_, hsuccess hnone⟩⟩, ?_, ?_, ?_⟩
  · intro m hm
    rw [hsuccess (hfaultless m hm)] at hm
    exact (Except.ok.inj hm).symm
  · intro hfails
    apply Node.exists_isFirstFault
    by_contra hnone
    apply hfails _ (hsuccess _)
    intro n hn hfault
    exact hnone ⟨n, hn, hfault⟩
  · intro n hfirst
    refine ⟨hfailure n hfirst, ?_⟩
    intro front back hsource hfront
    rw [hsource, ← hfront, ← Text.line_append front back, ← Text.column_append front back]

/-- The missing token of a call that is never closed. -/
def missingClose : Node := .mk ⟨")", false, true, false, true, 6, 6, none⟩ []

/-- The tree of a call on the third line whose arguments are never closed. -/
def unclosedCall : Node :=
  .mk ⟨"program", true, false, false, true, 4, 7, none⟩
    [.mk ⟨"expression_statement", true, false, false, true, 4, 7, none⟩
      [.mk ⟨"call_expression", true, false, false, true, 4, 6, none⟩
        [.mk ⟨"identifier", true, false, false, false, 4, 5, some .function⟩ [],
          .mk ⟨"arguments", true, false, false, true, 5, 6, some .arguments⟩
            [.mk ⟨"(", false, false, false, false, 5, 6, none⟩ [], missingClose]],
        .mk ⟨";", false, false, false, false, 6, 7, none⟩ []]]

/-- The missing parenthesis of `f(;` is told at the third line and the fifth column. -/
theorem parse_unclosedCall :
    unclosedCall.FlagsFaults ∧ unclosedCall.IsFirstFault missingClose ∧
      parse (fun _ _ => unclosedCall) .javascript "\n\n\t\tf(;" = .error ⟨⟨3, 5⟩⟩ := by
  have hflags : unclosedCall.FlagsFaults := by
    rw [Node.FlagsFaults]
    decide +kernel
  have hfirst : unclosedCall.IsFirstFault missingClose :=
    ⟨unclosedCall.nodes.take 6, unclosedCall.nodes.drop 7, rfl, by decide, by decide +kernel⟩
  have hfails := ((parse_iff_faultless (fun _ _ => unclosedCall) .javascript "\n\n\t\tf(;"
    hflags).2.2.2 missingClose hfirst).1
  have hplace : Text.position "\n\n\t\tf(;".toList missingClose.start = ⟨3, 5⟩ := by decide +kernel
  rw [hplace] at hfails
  exact ⟨hflags, hfirst, hfails⟩

end SourceModule

end ModulePurity
