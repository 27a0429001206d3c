/-!
# Cutting text at known words

Removing a word from the beginning or the end of a text, cutting it at the first occurrence of a
character, splitting it into fields, and searching for a word inside it.
-/

namespace ModulePurity.Text

/-- What follows `word` at the beginning of a text. -/
def dropWord? : (word cs : List Char) → Option (List Char)
  | [], cs => some cs
  | _ :: _, [] => none
  | w :: ws, c :: cs => if w = c then dropWord? ws cs else none

/-- What comes before `word` at the end of a text. -/
def dropLastWord? (word cs : List Char) : Option (List Char) :=
  (dropWord? word.reverse cs.reverse).map List.reverse

/-- The parts before and after the first occurrence of `mark`, which belongs to neither. -/
def cutAt? (mark : Char) : List Char → Option (List Char × List Char)
  | [] => none
  | c :: cs =>
    if c = mark then some ([], cs)
    else (cutAt? mark cs).map fun (before, after) => (c :: before, after)

/-- A mark is lost in the cut. -/
theorem length_of_cutAt? {mark : Char} {cs before after : List Char}
    (h : cutAt? mark cs = some (before, after)) : before.length + after.length + 1 = cs.length := by
  induction cs generalizing before with
  | nil => cases h
  | cons c cs ih =>
    by_cases hc : c = mark
    · simp_all [cutAt?]
    · rw [cutAt?, if_neg hc] at h
      obtain ⟨⟨b, a⟩, hb, hab⟩ := Option.map_eq_some_iff.1 h
      cases hab
      have := ih hb
      simp only [List.length_cons]
      omega

/-- The fields of a text between occurrences of `mark`; there is always at least one. -/
def fields (mark : Char) : List Char → List (List Char)
  | [] => [[]]
  | c :: cs =>
    if c = mark then [] :: fields mark cs
    else
      match fields mark cs with
      | [] => [[c]]
      | f :: fs => (c :: f) :: fs

/-- Whether `word` occurs in a text. -/
def occursIn (word : List Char) : List Char → Bool
  | [] => word.isEmpty
  | c :: cs => word.isPrefixOf (c :: cs) || occursIn word cs

/-- A text without the pairs of `mark`, read from the left. -/
def erasePairs (mark : Char) : List Char → List Char
  | a :: b :: cs =>
    if a = mark ∧ b = mark then erasePairs mark cs else a :: erasePairs mark (b :: cs)
  | cs => cs

/-- The fields put together again with `mark` between them. -/
def joinFields (mark : Char) : List (List Char) → List Char
  | [] => []
  | [f] => f
  | f :: g :: fs => f ++ mark :: joinFields mark (g :: fs)

theorem fields_ne_nil (mark : Char) (cs : List Char) : fields mark cs ≠ [] := by
  cases cs with
  | nil => simp [fields]
  | cons c cs =>
    rw [fields]
    split
    · simp
    · split <;> simp

/-- Splitting loses nothing. -/
theorem joinFields_fields (mark : Char) (cs : List Char) :
    joinFields mark (fields mark cs) = cs := by
  induction cs with
  | nil => rfl
  | cons c cs ih =>
    obtain ⟨f, fs, hf⟩ := List.exists_cons_of_ne_nil (fields_ne_nil mark cs)
    rw [hf] at ih
    rw [fields, hf]
    by_cases hc : c = mark
    · simp [hc, joinFields, ih]
    · cases fs with
      | nil => simp_all [joinFields]
      | cons g gs => simp_all [joinFields]

end ModulePurity.Text
