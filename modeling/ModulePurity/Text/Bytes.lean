/-!
# Byte offsets into text

Offsets, lengths and columns count UTF-8 bytes, while the text itself is a list of characters. This
module relates the two: cutting a text at a byte offset, and the line and column of an offset. Only
a newline character ends a line.
-/

namespace ModulePurity.Text

/-! ## Cutting at a byte offset -/

/-- The number of bytes that a text takes. -/
def byteLength : List Char → Nat
  | [] => 0
  | c :: cs => c.utf8Size + byteLength cs

/-- The whole characters among the first `n` bytes of a text. -/
def upTo : List Char → Nat → List Char
  | [], _ => []
  | c :: cs, n => if c.utf8Size ≤ n then c :: upTo cs (n - c.utf8Size) else []

/-- The two parts of a text around byte offset `n`. There are none if the offset lies beyond the end
of the text or inside a character. -/
def splitAt? : List Char → Nat → Option (List Char × List Char)
  | [], n => if n = 0 then some ([], []) else none
  | c :: cs, n =>
    if n = 0 then some ([], c :: cs)
    else if c.utf8Size ≤ n then
      (splitAt? cs (n - c.utf8Size)).map fun (before, after) => (c :: before, after)
    else none

/-- Whether byte offset `n` falls between two characters of a text or at one of its ends. -/
def isBoundary (cs : List Char) (n : Nat) : Bool :=
  (splitAt? cs n).isSome

/-- The text between two byte offsets, if both fall between characters and are in order. -/
def slice? (cs : List Char) (start stop : Nat) : Option (List Char) :=
  if start ≤ stop then
    (splitAt? cs start).bind fun (_, rest) => (splitAt? rest (stop - start)).map Prod.fst
  else none

@[simp] theorem splitAt?_zero (cs : List Char) : splitAt? cs 0 = some ([], cs) := by
  cases cs <;> simp [splitAt?]

/-- The parts of a cut text make up the text. -/
theorem append_of_splitAt? {cs before after : List Char} {n : Nat}
    (h : splitAt? cs n = some (before, after)) : before ++ after = cs := by
  induction cs generalizing n before with
  | nil =>
    by_cases hn : n = 0 <;> simp_all [splitAt?]
  | cons c cs ih =>
    by_cases hn : n = 0
    · subst hn; simp_all
    · by_cases hc : c.utf8Size ≤ n
      · rw [splitAt?, if_neg hn, if_pos hc] at h
        obtain ⟨⟨b, a⟩, hb, hab⟩ := Option.map_eq_some_iff.1 h
        cases hab
        simp [ih hb]
      · simp [splitAt?, hn, hc] at h

/-- The part before the cut takes exactly as many bytes as the offset says. -/
theorem byteLength_of_splitAt? {cs before after : List Char} {n : Nat}
    (h : splitAt? cs n = some (before, after)) : byteLength before = n := by
  induction cs generalizing n before with
  | nil =>
    by_cases hn : n = 0 <;> simp_all [splitAt?, byteLength]
  | cons c cs ih =>
    by_cases hn : n = 0
    · subst hn; simp_all [byteLength]
    · by_cases hc : c.utf8Size ≤ n
      · rw [splitAt?, if_neg hn, if_pos hc] at h
        obtain ⟨⟨b, a⟩, hb, hab⟩ := Option.map_eq_some_iff.1 h
        cases hab
        have := ih hb
        simp only [byteLength]
        omega
      · simp [splitAt?, hn, hc] at h

/-! ## Lines and columns -/

/-- A place in a text; lines and columns count from one. -/
structure Position where
  line : Nat
  column : Nat
deriving DecidableEq, Repr

/-- The place of the first character. -/
def Position.first : Position := ⟨1, 1⟩

/-- The place right after a character. -/
def Position.advance (p : Position) (c : Char) : Position :=
  if c = '\n' then ⟨p.line + 1, 1⟩ else ⟨p.line, p.column + c.utf8Size⟩

/-- The place `n` bytes into a text that starts at `p`. -/
def positionFrom (p : Position) : List Char → Nat → Position
  | [], n => ⟨p.line, p.column + n⟩
  | c :: cs, n =>
    if n < c.utf8Size then ⟨p.line, p.column + n⟩
    else positionFrom (p.advance c) cs (n - c.utf8Size)

/-- The place of byte offset `n` in a text. -/
def position (cs : List Char) (n : Nat) : Position :=
  positionFrom Position.first cs n

/-- The characters between the start of a line and byte offset `n` on that line, last one first. -/
def lineLead (cs : List Char) (n : Nat) : List Char :=
  (upTo cs n).reverse.takeWhile (· != '\n')

end ModulePurity.Text
