import ModulePurity.Proofs.JsonText
import ModulePurity.Settings

/-!
# Tables of options

What is read from a table of options, option by option. `given` collects the values that a table has
for an option under either of its names, and `ofEntries?_eq_some_iff` says how the options that are
read depend on them, for all nine at once. The rest follows:

* a table is an overlay on the defaults (`Overlays`), where moments among the pure functions count
  as their texts;
* the order of the entries, the choice of the names and unknown keys do not matter (`given` stays
  the same up to order, `ofEntries?_congr`);
* options that were written as data are read back.
-/

namespace ModulePurity

namespace Value

/-! ## Moments as texts -/

/-- The text of a moment; other values stay as they are. -/
def written : Value → Value
  | moment m => text m.text
  | v => v

/-- A sequence with texts in the place of its moments; other values stay as they are. -/
def itemsWritten : Value → Value
  | sequence items => sequence (items.map written)
  | v => v

/-- Whether a value is a sequence that holds a moment. -/
def HoldsMoment (v : Value) : Prop := ∃ items m, v = sequence items ∧ moment m ∈ items

theorem written_eq_self {v : Value} (h : ∀ m, v ≠ moment m) : v.written = v := by
  cases v with
  | moment m => exact absurd rfl (h m)
  | _ => rfl

theorem itemsWritten_eq_self {v : Value} (h : ¬ v.HoldsMoment) : v.itemsWritten = v := by
  cases v with
  | sequence items =>
    have hitems : items.map written = items.map id := by
      apply List.map_congr_left
      intro item hitem
      apply written_eq_self
      rintro m rfl
      exact h ⟨items, m, rfl, hitem⟩
    rw [itemsWritten, hitems, List.map_id]
  | _ => rfl

/-! ## What the readers of the options read -/

/-- A value counts as a text if its written form is that text. -/
theorem toWriting?_eq_some_iff {v : Value} {s : String} :
    v.toWriting? = some s ↔ v.written = text s := by
  cases v <;> simp [toWriting?, written]

/-- Items are read as names if each is written like its name. -/
theorem readAll?_toWriting?_eq_some_iff {items : List Value} {names : List String} :
    readAll? toWriting? items = some names ↔ items.map written = names.map text := by
  induction items generalizing names with
  | nil => cases names <;> simp [readAll?]
  | cons v items ih =>
    cases names with
    | nil => simp [readAll?, Option.bind_eq_some_iff]
    | cons s names => simp [readAll?, Option.bind_eq_some_iff, toWriting?_eq_some_iff, ih]

/-- A sequence is read as a list of names if its items are written like them, moments included. -/
theorem toList?_toWriting?_eq_some_iff (v : Value) (names : List String) :
    v.toList? toWriting? = some names ↔ v.itemsWritten = sequence (names.map text) := by
  cases v <;> simp [toList?, itemsWritten, readAll?_toWriting?_eq_some_iff]

theorem toBool?_eq_some_iff (v : Value) (b : Bool) :
    v.toBool? = some b ↔ v.itemsWritten = boolean b := by
  cases v <;> simp [toBool?, itemsWritten]

/-- A truth value that may be unset is read from itself and from null. -/
theorem toOption?_toBool?_eq_some_iff (v : Value) (b? : Option Bool) :
    v.toOption? toBool? = some b? ↔ v.itemsWritten = ofOption boolean b? := by
  cases v <;> cases b? <;> simp [toOption?, toBool?, itemsWritten, ofOption]

end Value

namespace Purity

/-! ## Options by name -/

/-- The options of the purity rule. -/
inductive OptionName where
  | pureFunctions
  | allowCall
  | allowTaggedTemplate
  | allowNew
  | allowAssign
  | allowDelete
  | allowThrow
  | allowAwait
  | allowInStaticBlock
deriving DecidableEq

namespace OptionName

/-- The name with underscores. -/
def snake : OptionName → String
  | pureFunctions => "pure_functions"
  | allowCall => "allow_call"
  | allowTaggedTemplate => "allow_tagged_template"
  | allowNew => "allow_new"
  | allowAssign => "allow_assign"
  | allowDelete => "allow_delete"
  | allowThrow => "allow_throw"
  | allowAwait => "allow_await"
  | allowInStaticBlock => "allow_in_static_block"

/-- The name in camel case. -/
def camel : OptionName → String
  | pureFunctions => "pureFunctions"
  | allowCall => "allowCall"
  | allowTaggedTemplate => "allowTaggedTemplate"
  | allowNew => "allowNew"
  | allowAssign => "allowAssign"
  | allowDelete => "allowDelete"
  | allowThrow => "allowThrow"
  | allowAwait => "allowAwait"
  | allowInStaticBlock => "allowInStaticBlock"

/-- The options in the order in which they are written. -/
def all : List OptionName :=
  [pureFunctions, allowCall, allowTaggedTemplate, allowNew, allowAssign, allowDelete, allowThrow,
    allowAwait, allowInStaticBlock]

/-- A key is one of the two names of an option. -/
def Spells (key : String) (name : OptionName) : Prop := key = name.snake ∨ key = name.camel

instance (key : String) (name : OptionName) : Decidable (Spells key name) :=
  inferInstanceAs (Decidable (_ ∨ _))

/-- The values of the type of an option. Only whether tagged templates are accepted can be left
open. -/
def Fits (v : Value) : OptionName → Prop
  | pureFunctions => ∃ names : List String, v = .sequence (names.map .text)
  | allowTaggedTemplate => v = .null ∨ ∃ b, v = .boolean b
  | _ => ∃ b, v = .boolean b

/-- The option that goes by a key. -/
def ofKey? (key : String) : Option OptionName := all.find? fun name => Spells key name

/-- A key spells at most one option, since no two options share a spelling. -/
theorem ofKey?_eq_some {key : String} {name : OptionName} (h : Spells key name) :
    ofKey? key = some name := by
  obtain rfl | rfl := h <;> cases name <;> decide

/-- No two options share a name. -/
theorem Spells.unique {key : String} {name name' : OptionName} (h : Spells key name)
    (h' : Spells key name') : name = name' := by
  have hsame := (ofKey?_eq_some h).symm.trans (ofKey?_eq_some h')
  exact Option.some.inj hsame

/-- What holds of every option name is shown for the nine of them one by one. -/
theorem forall_iff {p : OptionName → Prop} :
    (∀ name, p name) ↔
      p pureFunctions ∧ p allowCall ∧ p allowTaggedTemplate ∧ p allowNew ∧ p allowAssign ∧
        p allowDelete ∧ p allowThrow ∧ p allowAwait ∧ p allowInStaticBlock := by
  constructor
  · intro h
    exact ⟨h _, h _, h _, h _, h _, h _, h _, h _, h _⟩
  · rintro ⟨h₁, h₂, h₃, h₄, h₅, h₆, h₇, h₈, h₉⟩ name
    cases name <;> assumption

/-- A value that holds a moment is of no type of an option. -/
theorem Fits.not_holdsMoment {v : Value} {name : OptionName} (h : Fits v name) :
    ¬ v.HoldsMoment := by
  rintro ⟨items, m, rfl, hm⟩
  cases name with
  | pureFunctions =>
    obtain ⟨names, hnames⟩ := h
    rw [Value.sequence.inj hnames] at hm
    simp at hm
  | _ => simp [Fits] at h

end OptionName

namespace Options

open OptionName (Spells Fits)

/-- An option as data. -/
def value (o : Options) : OptionName → Value
  | .pureFunctions => .sequence (o.pureFunctions.map .text)
  | .allowCall => .boolean o.allowCall
  | .allowTaggedTemplate => .ofOption .boolean o.allowTaggedTemplate
  | .allowNew => .boolean o.allowNew
  | .allowAssign => .boolean o.allowAssign
  | .allowDelete => .boolean o.allowDelete
  | .allowThrow => .boolean o.allowThrow
  | .allowAwait => .boolean o.allowAwait
  | .allowInStaticBlock => .boolean o.allowInStaticBlock

/-- The table of options has one entry for each option name, under its spelling with underscores. -/
theorem toEntries_eq_map (o : Options) :
    o.toEntries = OptionName.all.map fun name => (name.snake, o.value name) := by
  rw [toEntries]
  cases h : o.allowTaggedTemplate <;>
    simp [OptionName.all, OptionName.snake, value, h, Value.ofOption]

/-- Every value that an option can have is of the shape that the option asks for. -/
theorem fits_value (o : Options) (name : OptionName) : Fits (o.value name) name := by
  cases name with
  | pureFunctions => exact ⟨o.pureFunctions, rfl⟩
  | allowTaggedTemplate =>
    rw [value]
    cases o.allowTaggedTemplate with
    | none => exact .inl rfl
    | some b => exact .inr ⟨b, rfl⟩
  | _ => exact ⟨_, rfl⟩

theorem ofOption_boolean_injective : Function.Injective (Value.ofOption Value.boolean) := by
  rintro (_ | b) (_ | b') h <;> simp_all [Value.ofOption]

/-- A list of names can be told from the sequence that it is written as. -/
theorem sequence_text_injective :
    Function.Injective fun names : List String => Value.sequence (names.map .text) := by
  intro names names' h
  exact (List.map_inj_right fun _ _ => Value.text.inj).mp (Value.sequence.inj h)

/-- Values of the right types are the values of options. -/
theorem exists_value_eq {f : OptionName → Value} (h : ∀ name, Fits (f name) name) :
    ∃ o : Options, ∀ name, o.value name = f name := by
  obtain ⟨⟨pureFunctions, h₁⟩, ⟨allowCall, h₂⟩, h₃, ⟨allowNew, h₄⟩, ⟨allowAssign, h₅⟩,
    ⟨allowDelete, h₆⟩, ⟨allowThrow, h₇⟩, ⟨allowAwait, h₈⟩, ⟨allowInStaticBlock, h₉⟩⟩ :=
    OptionName.forall_iff.mp h
  obtain ⟨allowTaggedTemplate, h₃⟩ :
      ∃ b?, f .allowTaggedTemplate = Value.ofOption Value.boolean b? := by
    obtain h₃ | ⟨b, h₃⟩ := h₃
    · exact ⟨none, h₃⟩
    · exact ⟨some b, h₃⟩
  refine ⟨⟨pureFunctions, allowCall, allowTaggedTemplate, allowNew, allowAssign, allowDelete,
    allowThrow, allowAwait, allowInStaticBlock⟩, ?_⟩
  rw [OptionName.forall_iff]
  exact ⟨h₁.symm, h₂.symm, h₃.symm, h₄.symm, h₅.symm, h₆.symm, h₇.symm, h₈.symm, h₉.symm⟩

/-! ## The values that a table gives -/

/-- The values that a table gives for an option, under either of its names. -/
def given (entries : List (String × Value)) (name : OptionName) : List Value :=
  (entries.filter fun entry => entry.1 == name.snake || entry.1 == name.camel).map Prod.snd

/-- Each entry is given for the option that it spells and for no other. -/
theorem given_cons (entry : String × Value) (entries : List (String × Value)) (name : OptionName) :
    given (entry :: entries) name =
      if Spells entry.1 name then entry.2 :: given entries name else given entries name := by
  have hkey : (entry.1 == name.snake || entry.1 == name.camel) = decide (Spells entry.1 name) := by
    rw [Bool.eq_iff_iff, decide_eq_true_iff]
    simp [Spells]
  by_cases h : Spells entry.1 name <;> simp [given, hkey, h]

/-- The value of an option when a table gives it these values. Two of them are too many. -/
def Taken : List Value → (default result : Value) → Prop
  | [], default, result => result = default
  | [v], _, result => v.itemsWritten = result
  | _, _, _ => False

/-- Reading one option looks at the values given for it only: none of them means the default, one is
read, and several fail. -/
theorem read?_eq_some_iff {α : Type} {read : Value → Option α} {write : α → Value}
    (hread : ∀ v a, read v = some a ↔ v.itemsWritten = write a)
    (hwrite : Function.Injective write) (entries : List (String × Value)) (name : OptionName)
    (default a : α) :
    read? entries name.snake name.camel read default = some a ↔
      Taken (given entries name) (write default) (write a) := by
  rw [read?, given]
  generalize entries.filter (fun entry => entry.1 == name.snake || entry.1 == name.camel) = found
  match found with
  | [] =>
    show some default = some a ↔ write a = write default
    rw [hwrite.eq_iff, Option.some.injEq]
    exact eq_comm
  | [entry] => exact hread entry.2 a
  | _ :: _ :: _ => exact iff_of_false nofun id

/-- The options that are read from a table, one by one. -/
theorem ofEntries?_eq_some_iff {entries : List (String × Value)} {o : Options} :
    ofEntries? entries = some o ↔
      ∀ name, Taken (given entries name) (({} : Options).value name) (o.value name) := by
  -- Options are of three types. Each reading below has the form that one of these describes.
  have hbool := read?_eq_some_iff Value.toBool?_eq_some_iff (fun _ _ => Value.boolean.inj) entries
  have hoption :=
    read?_eq_some_iff Value.toOption?_toBool?_eq_some_iff ofOption_boolean_injective entries
  have hlist :=
    read?_eq_some_iff Value.toList?_toWriting?_eq_some_iff sequence_text_injective entries
  rw [OptionName.forall_iff]
  simp only [value]
  rw [← hlist .pureFunctions [] o.pureFunctions, ← hbool .allowCall, ← hoption .allowTaggedTemplate,
    ← hbool .allowNew, ← hbool .allowAssign, ← hbool .allowDelete, ← hbool .allowThrow,
    ← hbool .allowAwait, ← hbool .allowInStaticBlock]
  constructor
  · intro h
    simp only [ofEntries?, bind, Option.bind_eq_some_iff, pure, Option.some.injEq] at h
    obtain ⟨_, h₁, _, h₂, _, h₃, _, h₄, _, h₅, _, h₆, _, h₇, _, h₈, _, h₉, rfl⟩ := h
    exact ⟨h₁, h₂, h₃, h₄, h₅, h₆, h₇, h₈, h₉⟩
  · simp only [OptionName.snake, OptionName.camel]
    rintro ⟨h₁, h₂, h₃, h₄, h₅, h₆, h₇, h₈, h₉⟩
    rw [ofEntries?, h₁, h₂, h₃, h₄, h₅, h₆, h₇, h₈, h₉]
    rfl

/-! ## Tables as overlays -/

/-- A table of options overlays the defaults, with `view` saying which value an entry stands for. -/
structure Overlays (view : Value → Value) (entries : List (String × Value)) : Prop where
  /-- Options are read exactly if each is given at most once and has a value of its type. -/
  read_iff : (∃ o, ofEntries? entries = some o) ↔
    ∀ name, (given entries name).length ≤ 1 ∧ ∀ v ∈ given entries name, Fits (view v) name
  /-- An option in the table has the value that is given there. -/
  present : ∀ o, ofEntries? entries = some o →
    ∀ name, ∀ v ∈ given entries name, o.value name = view v
  /-- An option that is not in the table has its default. -/
  absent : ∀ o, ofEntries? entries = some o →
    ∀ name, given entries name = [] → o.value name = ({} : Options).value name

/-- An option that could be read was given once at most. -/
theorem Taken.length_le_one {values : List Value} {default result : Value}
    (h : Taken values default result) : values.length ≤ 1 := by
  match values, h with
  | [], _ => exact Nat.zero_le 1
  | [_], _ => exact Nat.le_refl 1

/-- The value that is given for an option is the one that it gets. -/
theorem Taken.eq_of_mem {values : List Value} {default result v : Value}
    (h : Taken values default result) (hv : v ∈ values) : result = v.itemsWritten := by
  match values, h with
  | [_], h => rw [List.mem_singleton.mp hv, h]

/-- With values of the right type for all options, each at most once, there are options to take. -/
theorem exists_taken {entries : List (String × Value)}
    (h : ∀ name, (given entries name).length ≤ 1 ∧
      ∀ v ∈ given entries name, Fits v.itemsWritten name) :
    ∃ o : Options, ∀ name,
      Taken (given entries name) (({} : Options).value name) (o.value name) := by
  have htaken : ∀ name, ∃ result, Fits result name ∧
      Taken (given entries name) (({} : Options).value name) result := by
    intro name
    obtain ⟨hlength, hfits⟩ := h name
    match given entries name, hlength, hfits with
    | [], _, _ => exact ⟨_, fits_value {} name, rfl⟩
    | [v], _, hfits => exact ⟨_, hfits v (List.mem_singleton_self v), rfl⟩
  -- The values are found one by one; that they are the values of one record is another matter.
  choose f hf using htaken
  obtain ⟨o, ho⟩ := exists_value_eq fun name => (hf name).1
  refine ⟨o, fun name => ?_⟩
  rw [ho name]
  exact (hf name).2

/-- A table overlays the defaults, with texts for the moments in a sequence. -/
theorem overlays_itemsWritten (entries : List (String × Value)) :
    Overlays Value.itemsWritten entries where
  read_iff := by
    constructor
    · rintro ⟨o, ho⟩ name
      have htaken := ofEntries?_eq_some_iff.mp ho name
      refine ⟨htaken.length_le_one, fun v hv => ?_⟩
      rw [← htaken.eq_of_mem hv]
      exact o.fits_value name
    · intro h
      obtain ⟨o, ho⟩ := exists_taken h
      exact ⟨o, ofEntries?_eq_some_iff.mpr ho⟩
  present o ho name v hv := (ofEntries?_eq_some_iff.mp ho name).eq_of_mem hv
  absent o ho name habsent := by
    have htaken := ofEntries?_eq_some_iff.mp ho name
    rw [habsent] at htaken
    exact htaken

/-- A table overlays the defaults with its values as they stand, unless options are read from it
although a moment is among the pure functions. -/
theorem overlays_id_iff (entries : List (String × Value)) :
    Overlays id entries ↔
      ¬ ((∃ o, ofEntries? entries = some o) ∧
        ∃ v ∈ given entries .pureFunctions, v.HoldsMoment) := by
  have hwritten := overlays_itemsWritten entries
  constructor
  · rintro h ⟨hread, v, hv, hmoment⟩
    exact ((h.read_iff.mp hread .pureFunctions).2 v hv).not_holdsMoment hmoment
  · intro h
    -- Without such a moment the two views agree on all values of a table that is read.
    have hsame : (∃ o, ofEntries? entries = some o) →
        ∀ name, ∀ v ∈ given entries name, v.itemsWritten = v := by
      intro hread name v hv
      apply Value.itemsWritten_eq_self
      intro hmoment
      -- The other options have no sequences for values, so that no moment can be in one.
      have hname : name = .pureFunctions := by
        have hfits := (hwritten.read_iff.mp hread name).2 v hv
        obtain ⟨items, m, rfl, -⟩ := hmoment
        cases name <;> simp [Fits, Value.itemsWritten] at hfits ⊢
      subst hname
      exact h ⟨hread, v, hv, hmoment⟩
    refine ⟨⟨fun hread name => ?_, fun hfits => ?_⟩, fun o ho name v hv => ?_, hwritten.absent⟩
    · obtain ⟨hlength, hfits⟩ := hwritten.read_iff.mp hread name
      refine ⟨hlength, fun v hv => ?_⟩
      rw [id, ← hsame hread name v hv]
      exact hfits v hv
    · refine hwritten.read_iff.mpr fun name => ⟨(hfits name).1, fun v hv => ?_⟩
      have hv : Fits v name := (hfits name).2 v hv
      rwa [Value.itemsWritten_eq_self hv.not_holdsMoment]
    · rw [id, ← hsame ⟨o, ho⟩ name v hv]
      exact hwritten.present o ho name v hv

/-- An option is given as often as its two spellings occur among the keys. -/
theorem length_given (entries : List (String × Value)) (name : OptionName) :
    (given entries name).length =
      (entries.map Prod.fst).count name.snake + (entries.map Prod.fst).count name.camel := by
  have hnames : name.snake ≠ name.camel := by cases name <;> decide
  induction entries with
  | nil => rfl
  | cons entry entries ih =>
    rw [given_cons, List.map_cons, List.count_cons, List.count_cons]
    by_cases hsnake : entry.1 = name.snake
    · simp [Spells, hsnake, hnames, ih]
      omega
    · by_cases hcamel : entry.1 = name.camel <;> simp [Spells, hsnake, hcamel, hnames.symm, ih]
      omega

/-- In a table without repeated keys, an option is given at most once if it does not go by both of
its names. -/
theorem length_given_le_one_iff {entries : List (String × Value)}
    (hkeys : (entries.map Prod.fst).Nodup) (name : OptionName) :
    (given entries name).length ≤ 1 ↔
      ¬ (name.snake ∈ entries.map Prod.fst ∧ name.camel ∈ entries.map Prod.fst) := by
  rw [length_given, hkeys.count, hkeys.count]
  split <;> split <;> simp_all

/-! ## Tables that give the same values -/

theorem Taken.perm {values values' : List Value} (hperm : values.Perm values')
    {default result : Value} (h : Taken values default result) :
    Taken values' default result := by
  match values, h with
  | [], h =>
    rw [List.nil_perm.mp hperm]
    exact h
  | [_], h =>
    rw [← List.singleton_perm.mp hperm]
    exact h

/-- Only the values that are given for the options matter. -/
theorem ofEntries?_congr {entries entries' : List (String × Value)}
    (h : ∀ name, (given entries name).Perm (given entries' name)) :
    ofEntries? entries = ofEntries? entries' := by
  apply Option.ext
  intro o
  rw [ofEntries?_eq_some_iff, ofEntries?_eq_some_iff]
  exact ⟨fun ho name => (ho name).perm (h name), fun ho name => (ho name).perm (h name).symm⟩

/-- Entries in another order give each option the same values, possibly in another order. -/
theorem given_perm {entries entries' : List (String × Value)} (h : entries.Perm entries')
    (name : OptionName) : (given entries name).Perm (given entries' name) :=
  (h.filter _).map _

/-- The second entry is the first one, perhaps under the other name of an option. -/
def Respelled (entry entry' : String × Value) : Prop :=
  (entry.1 = entry'.1 ∨ ∃ name, Spells entry.1 name ∧ Spells entry'.1 name) ∧ entry.2 = entry'.2

/-- An entry under the other spelling is still given for the same option. -/
theorem Respelled.spells_iff {entry entry' : String × Value} (h : Respelled entry entry')
    (name : OptionName) : Spells entry.1 name ↔ Spells entry'.1 name := by
  obtain ⟨hkey | ⟨other, hfirst, hsecond⟩, -⟩ := h
  · rw [hkey]
  · constructor
    · intro hname
      rwa [hname.unique hfirst]
    · intro hname
      rwa [hname.unique hsecond]

/-- Other spellings give each option the same values in the same order. -/
theorem given_respelled {entries entries' : List (String × Value)}
    (h : List.Forall₂ Respelled entries entries') (name : OptionName) :
    given entries name = given entries' name := by
  induction h with
  | nil => rfl
  | cons hentry _ ih => simp only [given_cons, hentry.spells_iff name, hentry.2, ih]

/-- Entries with unknown keys give no values. -/
theorem given_filter {keep : String → Bool} (entries : List (String × Value)) (name : OptionName)
    (h : ∀ key, Spells key name → keep key = true) :
    given (entries.filter fun entry => keep entry.1) name = given entries name := by
  induction entries with
  | nil => rfl
  | cons entry entries ih =>
    rw [given_cons, List.filter_cons]
    by_cases hkey : Spells entry.1 name
    · rw [if_pos hkey, if_pos (h _ hkey), given_cons, if_pos hkey, ih]
    · rw [if_neg hkey]
      split
      · rw [given_cons, if_neg hkey, ih]
      · exact ih

/-- Entries with unknown keys can be left out. -/
theorem ofEntries?_filter {keep : String → Bool} (entries : List (String × Value))
    (h : ∀ name key, Spells key name → keep key = true) :
    ofEntries? (entries.filter fun entry => keep entry.1) = ofEntries? entries := by
  apply ofEntries?_congr
  intro name
  rw [given_filter entries name (h name)]

/-! ## Options as data and back -/

/-- The table of options gives each option exactly its own value. -/
theorem given_toEntries (o : Options) (name : OptionName) :
    given o.toEntries name = [o.value name] := by
  rw [toEntries_eq_map]
  cases name <;> rfl

/-- Dropping entries by their values drops the same values from what an option is given. -/
theorem given_filter_snd (entries : List (String × Value)) (keep : Value → Bool)
    (name : OptionName) :
    given (entries.filter fun entry => keep entry.2) name = (given entries name).filter keep := by
  rw [given, given, List.filter_map, List.filter_filter, List.filter_filter]
  simp only [Bool.and_comm, Function.comp_apply]

theorem itemsWritten_value (o : Options) (name : OptionName) :
    (o.value name).itemsWritten = o.value name :=
  Value.itemsWritten_eq_self (o.fits_value name).not_holdsMoment

/-- Options are read back from their table. -/
theorem ofEntries?_toEntries (o : Options) : ofEntries? o.toEntries = some o := by
  rw [ofEntries?_eq_some_iff]
  intro name
  rw [given_toEntries]
  exact o.itemsWritten_value name

/-- Only an option whose default is unset can be null, so that a null entry may be left out. -/
theorem value_of_isNull {o : Options} {name : OptionName} (h : (o.value name).isNull = true) :
    o.value name = ({} : Options).value name := by
  cases name with
  | allowTaggedTemplate =>
    cases hvalue : o.allowTaggedTemplate with
    | none => simp [value, hvalue]
    | some b => simp [value, hvalue, Value.ofOption, Value.isNull] at h
  | _ => simp [value, Value.isNull] at h

/-- Options are read back from their table as settings files have it, where nothing is null. -/
theorem ofEntries?_withoutNulls (o : Options) :
    ofEntries? (o.toEntries.filter fun entry => !entry.2.isNull) = some o := by
  rw [ofEntries?_eq_some_iff]
  intro name
  rw [given_filter_snd _ fun v => !v.isNull, given_toEntries]
  cases hnull : (o.value name).isNull with
  | true =>
    rw [List.filter_cons_of_neg (by simp [hnull])]
    exact value_of_isNull hnull
  | false =>
    rw [List.filter_cons_of_pos (by simp [hnull])]
    exact o.itemsWritten_value name

open Json (Plain)

theorem plain_value (o : Options) (name : OptionName) : Plain (o.value name) := by
  cases name with
  | pureFunctions =>
    apply Plain.sequence
    simp only [List.forall_mem_map]
    intro s _
    exact .text s
  | allowTaggedTemplate =>
    rw [value]
    cases o.allowTaggedTemplate with
    | none => exact .null
    | some b => exact .boolean b
  | _ => exact .boolean _

/-- Options are read back from the text of their table. -/
theorem ofValue?_read?_pretty (o : Options) :
    (Json.read? (Json.pretty (.table o.toEntries) ++ "\n")).bind ofValue? = some o := by
  have hplain : Plain (.table o.toEntries) := by
    apply Plain.table
    rw [toEntries_eq_map]
    simp only [List.forall_mem_map]
    intro name _
    exact o.plain_value name
  rw [hplain.read?_pretty, Option.bind_some, ofValue?, ofEntries?_toEntries]

/-! ## The section of a rule -/

/-- Recognising moments goes entry by entry. -/
theorem entriesWithMoments?_filter {source entries : List (String × Value)}
    (h : Value.entriesWithMoments? source = some entries) (keep : String → Bool) :
    Value.entriesWithMoments? (source.filter fun entry => keep entry.1) =
      some (entries.filter fun entry => keep entry.1) := by
  induction source generalizing entries with
  | nil =>
    cases h
    rfl
  | cons entry source ih =>
    obtain ⟨key, v⟩ := entry
    simp only [Value.entriesWithMoments?, Option.bind_eq_some_iff, Option.map_eq_some_iff] at h
    obtain ⟨w, hw, rest, hrest, rfl⟩ := h
    rw [List.filter_cons, List.filter_cons]
    split
    · rw [Value.entriesWithMoments?, hw, ih hrest]
      rfl
    · exact ih hrest

/-- The keys of a section that are left to the options. -/
def isOptionKey (key : String) : Bool := key != "enabled" && key != "severity"

theorem isOptionKey_of_spells (name : OptionName) (key : String) (h : Spells key name) :
    isOptionKey key = true := by
  obtain rfl | rfl := h <;> cases name <;> decide

/-- Whether a rule runs and with which severity are no options, so that the options of a section are
read from all of its entries. -/
theorem purityOptions_of_section {source entries : List (String × Value)} {part : RuleSection}
    (hpart : RuleSection.ofValue? (.table source) = some part)
    (hentries : Value.entriesWithMoments? source = some entries) (rule : String) :
    part.purityOptions rule = (ofEntries? entries).elim (.error (.badOptions rule)) .ok := by
  have hoptions : part.options = entries.filter fun entry => isOptionKey entry.1 := by
    simp only [RuleSection.ofValue?, Value.toEntries?, bind, Option.bind_eq_some_iff, pure,
      Option.some.injEq] at hpart
    obtain ⟨_, rfl, _, -, _, -, options, hread, rfl⟩ := hpart
    exact Option.some.inj (hread.symm.trans (entriesWithMoments?_filter hentries isOptionKey))
  rw [RuleSection.purityOptions, hoptions, ofEntries?_filter entries isOptionKey_of_spells]
  cases ofEntries? entries <;> rfl

/-! ## Reading tables of options -/

/-- Reading a table of options. The table overlays the defaults, and it does so with its values as
they stand unless a moment is taken for the text of a pure function. Given at most once means, in a
table without repeated keys, not under both names. Order, unknown keys and the choice of names make
no difference, also not in the section of a settings file, whose other entries are unknown keys.
Options that were written as data or as text are read back. -/
theorem ofEntries?_overlays (entries : List (String × Value)) :
    Overlays Value.itemsWritten entries ∧
      (Overlays id entries ↔
        ¬ ((∃ o, ofEntries? entries = some o) ∧
          ∃ v ∈ given entries .pureFunctions, v.HoldsMoment)) ∧
      ((entries.map Prod.fst).Nodup → ∀ name, (given entries name).length ≤ 1 ↔
        ¬ (name.snake ∈ entries.map Prod.fst ∧ name.camel ∈ entries.map Prod.fst)) ∧
      (∀ entries', entries.Perm entries' → ofEntries? entries = ofEntries? entries') ∧
      (∀ entries', List.Forall₂ Respelled entries entries' →
        ofEntries? entries = ofEntries? entries') ∧
      (∀ keep : String → Bool, (∀ name key, Spells key name → keep key = true) →
        ofEntries? (entries.filter fun entry => keep entry.1) = ofEntries? entries) ∧
      (∀ source part rule, RuleSection.ofValue? (.table source) = some part →
        Value.entriesWithMoments? source = some entries →
        part.purityOptions rule = (ofEntries? entries).elim (.error (.badOptions rule)) .ok) ∧
      ∀ o : Options, ofEntries? o.toEntries = some o ∧
        ofEntries? (o.toEntries.filter fun entry => !entry.2.isNull) = some o ∧
        (Json.read? (Json.pretty (.table o.toEntries) ++ "\n")).bind ofValue? = some o := by
  refine ⟨overlays_itemsWritten entries, overlays_id_iff entries, length_given_le_one_iff, ?_, ?_,
    fun _ => ofEntries?_filter entries, ?_, ?_⟩
  · intro entries' hperm
    exact ofEntries?_congr (given_perm hperm)
  · intro entries' hrespelled
    apply ofEntries?_congr
    intro name
    rw [given_respelled hrespelled name]
  · intro source part rule hpart hentries
    exact purityOptions_of_section hpart hentries rule
  · intro o
    exact ⟨o.ofEntries?_toEntries, o.ofEntries?_withoutNulls, o.ofValue?_read?_pretty⟩

/-- A section with a switch, an unknown key, and options under names of both kinds. -/
def mixedSection : List (String × Value) :=
  [("enabled", .boolean true), ("allowNew", .boolean false),
    ("pure_functions", .sequence [.text "x.*"]), ("extra", .null)]

/-- Its options under their other names. -/
def respelledOptions : List (String × Value) :=
  [("allow_new", .boolean false), ("pureFunctions", .sequence [.text "x.*"])]

theorem ofEntries?_overlays_mixedSection :
    (∀ name, (given mixedSection name).length ≤ 1) ∧
      Overlays id mixedSection ∧
      ofEntries? mixedSection = ofEntries? respelledOptions.reverse ∧
      (RuleSection.mk (some true) none mixedSection.tail).purityOptions "pure-module" =
        .ok { pureFunctions := ["x.*"], allowNew := false } := by
  obtain ⟨-, hid, honce, -, -, hunknown, hsection, -⟩ := ofEntries?_overlays mixedSection
  obtain ⟨-, -, -, -, hrespelled, -⟩ := ofEntries?_overlays (mixedSection.tail.take 2)
  obtain ⟨-, -, -, hperm, -⟩ := ofEntries?_overlays respelledOptions
  have hkeys := honce (by decide)
  refine ⟨fun name => (hkeys name).mpr ?_, hid.mpr ?_, ?_, ?_⟩
  · cases name <;> decide
  · rintro ⟨-, v, hv, items, m, rfl, hm⟩
    simp [given, mixedSection, OptionName.snake, OptionName.camel] at hv
    simp [hv] at hm
  · calc ofEntries? mixedSection
        = ofEntries? (mixedSection.tail.take 2) := by
          refine (hunknown (fun key => key != "enabled" && key != "extra") ?_).symm
          rintro name key (rfl | rfl) <;> cases name <;> decide
      _ = ofEntries? respelledOptions :=
          hrespelled _ (.cons ⟨.inr ⟨.allowNew, .inr rfl, .inl rfl⟩, rfl⟩
            (.cons ⟨.inr ⟨.pureFunctions, .inl rfl, .inr rfl⟩, rfl⟩ .nil))
      _ = ofEntries? respelledOptions.reverse := hperm _ (List.reverse_perm _).symm
  · exact hsection mixedSection _ "pure-module" rfl rfl

/-- A date in the place of a pure function. -/
def datedFunctions : List (String × Value) :=
  [("pure_functions", .sequence [.moment ⟨some ⟨1979, 5, 27⟩, none, none⟩])]

/-- The date is taken for a text, although it is no value of the type of the option. -/
theorem datedFunctions_read :
    RuleSection.ofValue? (.table datedFunctions) = some ⟨none, none, datedFunctions⟩ ∧
      ofEntries? datedFunctions = some { pureFunctions := ["1979-05-27"] } ∧
      (∀ v ∈ given datedFunctions .pureFunctions, ¬ Fits v .pureFunctions) ∧
      ¬ Overlays id datedFunctions := by
  have hread : ofEntries? datedFunctions = some { pureFunctions := ["1979-05-27"] } := by rfl
  have hfits : ∀ v ∈ given datedFunctions .pureFunctions, ¬ Fits v .pureFunctions := by
    intro v hv hfits
    refine hfits.not_holdsMoment ⟨_, _, List.mem_singleton.mp hv, List.mem_singleton_self _⟩
  refine ⟨rfl, hread, hfits, fun h => ?_⟩
  have hfit := (h.read_iff.mp ⟨_, hread⟩ .pureFunctions).2 _ (List.mem_singleton_self _)
  exact hfits _ (List.mem_singleton_self _) hfit

end Options
end Purity
end ModulePurity
